import LayeredTree.Proofs.Disk.Making

set_option autoImplicit false

namespace LayeredTree.Disk

variable {d d' : Disk} {p q : Path} {loc dir dir' : Location} {name name' : Name} {content : Bytes}

theorem openToWrite_of_free (h : d.Reaches p loc) (isDir : d.IsDirectory loc)
    (free : d.get? (loc ++ [name]) = none) (short : Short (p.child name.bytes)) :
    openToWrite (p.child name.bytes) d =
      .ok (loc ++ [name]) (d.plant (loc ++ [name]) (.file [])) := by
  unfold openToWrite
  rw [bind_of_ok (ask_of_ok (h.resolveLast_child isDir short))]
  dsimp only
  rw [bind_of_ok (ask_of_ok (h.resolve_child_free isDir free short))]
  rfl

theorem openToWrite_of_entry {node : Node} (h : d.Reaches p loc) (isDir : d.IsDirectory loc)
    (there : d.get? (loc ++ [name]) = some node) (linkless : node.isLink = false)
    (short : Short (p.child name.bytes)) :
    (node.isFile = true ∧ openToWrite (p.child name.bytes) d =
      .ok (loc ++ [name]) (d.refill (loc ++ [name]) [])) ∨
      node.isFile = false ∧ ∃ fault, openToWrite (p.child name.bytes) d = .error fault d := by
  have found : d.resolve (p.child name.bytes) true = .ok (.entry (loc ++ [name])) :=
    resolve_eq_entry_iff.mpr ⟨h.child there linkless, short⟩
  unfold openToWrite
  rw [bind_of_ok (ask_of_ok (h.resolveLast_child isDir short))]
  dsimp only
  rw [bind_of_ok (ask_of_ok found)]
  dsimp only
  rw [bind_of_ok (get_eq d), there]
  cases node with
  | file content => exact .inl ⟨rfl, rfl⟩
  | directory | other => exact .inr ⟨rfl, _, rfl⟩
  | link target => cases linkless

/-- The second disk has one file in addition. -/
structure Filed (d : Disk) (loc : Location) (content : Bytes) (d' : Disk) : Prop where
  here : d'.here = d.here
  get? : ∀ other, d'.get? other = if other = loc then some (.file content) else d.get? other

theorem Filed.within (h : d.Filed loc content d') (free : d.get? loc = none) : d.Within d' := by
  refine ⟨h.here, fun other node hn => ?_⟩
  rw [h.get?, if_neg]
  · exact hn
  · rintro rfl
    rw [free] at hn
    cases hn

private theorem filed_refill (isDir : d.IsDirectory loc) (free : d.get? (loc ++ [name]) = none)
    (content : Bytes) :
    d.Filed (loc ++ [name]) content
      ((d.plant (loc ++ [name]) (.file [])).refill (loc ++ [name]) content) := by
  have up : d.IsDirectory (loc ++ [name]).dropLast := by
    rw [List.dropLast_concat]
    exact isDir
  refine ⟨here_plant _ _, fun other => ?_⟩
  rw [get?_refill, get?_plant (by simp) free up, get?_plant (by simp) free up, if_pos rfl]
  by_cases e : other = loc ++ [name]
  · rw [if_pos ⟨e, rfl⟩, if_pos e]
  · rw [if_neg (fun both => e both.1), if_neg e, if_neg e]

theorem writeFile_of_free (h : d.Reaches p loc) (isDir : d.IsDirectory loc)
    (free : d.get? (loc ++ [name]) = none) (short : Short (p.child name.bytes))
    (content : Bytes) : ∃ d', writeFile (p.child name.bytes) content d = .ok () d' ∧
      d.Filed (loc ++ [name]) content d' := by
  exact ⟨_, bind_of_ok (openToWrite_of_free h isDir free short), filed_refill isDir free content⟩

theorem copyFile_of_free (hs : d.contentAt? q = some content) (h : d.Reaches p loc)
    (isDir : d.IsDirectory loc) (free : d.get? (loc ++ [name]) = none)
    (short : Short (p.child name.bytes)) :
    ∃ d', copyFile q (p.child name.bytes) d = .ok () d' ∧
      d.Filed (loc ++ [name]) content d' := by
  obtain ⟨source, found⟩ := contentAt?_eq_some_iff.mp hs
  refine ⟨_, ?_, filed_refill isDir free content⟩
  unfold copyFile openToRead
  rw [bind_of_ok (ask_of_ok (openAt_file_iff.mpr found))]
  dsimp only
  rw [bind_of_ok (openToWrite_of_free h isDir free short), bind_of_ok (get_eq _),
    (within_plant _ _).2 _ _ found.2.2]
  rfl

theorem short_of_openToWrite (h : openToWrite p d = .ok loc d') : Short p := by
  unfold openToWrite at h
  obtain ⟨last, d₁, found, run⟩ := bind_eq_ok_iff.mp h
  cases last with
  | name dir name closed => exact (of_resolveLast_name (ask_eq_ok_iff.mp found).1).2.2.1
  | root => cases run
  | dot => cases run
  | dotDot => cases run

theorem short_of_writeFileAmid {others : List Location} {failure : Option (Nat × IoFault)}
    (h : writeFileAmid others failure p content d = .ok () d') : Short p := by
  obtain ⟨loc, d₁, opened, -⟩ := bind_eq_ok_iff.mp h
  exact short_of_openToWrite opened

theorem short_of_writeFile (h : writeFile p content d = .ok () d') : Short p :=
  short_of_writeFileAmid h

theorem short_of_copyFile (h : copyFile q p d = .ok () d') : Short p := by
  unfold copyFile at h
  obtain ⟨⟨loc, node⟩, d₁, -, copied⟩ := bind_eq_ok_iff.mp h
  cases node with
  | file content =>
    obtain ⟨goal, d₂, opened, -⟩ := bind_eq_ok_iff.mp copied
    exact short_of_openToWrite opened
  | directory => cases copied
  | link target => cases copied
  | other => cases copied

theorem openToWrite_of_long (d : Disk) (ne : p.text ≠ []) (long : ¬ Short p) :
    ∃ fault, openToWrite p d = .error fault d := by
  obtain ⟨fault, hl, -⟩ := d.resolveLast_of_long ne long
  exact ⟨fault, bind_of_error (ask_of_error hl)⟩

theorem writeFile_of_long (d : Disk) (content : Bytes) (ne : p.text ≠ []) (long : ¬ Short p) :
    ∃ fault, writeFile p content d = .error fault d := by
  obtain ⟨fault, refused⟩ := d.openToWrite_of_long ne long
  exact ⟨fault, bind_of_error refused⟩

theorem copyFile_of_long (d : Disk) (q : Path) (ne : p.text ≠ []) (long : ¬ Short p) :
    ∃ fault, copyFile q p d = .error fault d := by
  obtain ⟨fault, refused⟩ := d.openToWrite_of_long ne long
  unfold copyFile openToRead
  cases ho : d.openAt q with
  | error fault' => exact ⟨fault', bind_of_error (ask_of_error ho)⟩
  | ok found =>
    obtain ⟨loc, node⟩ := found
    rw [bind_of_ok (ask_of_ok ho)]
    cases node with
    | file content => exact ⟨fault, bind_of_error refused⟩
    | directory => exact ⟨_, rfl⟩
    | link target => exact ⟨_, rfl⟩
    | other => exact ⟨_, rfl⟩

theorem Filed.graft {source target : Location} (h : d.Filed source content d') (sne : source ≠ [])
    (tne : target ≠ []) (apart : ¬ source <+: target) (vacant : d.get? source = none)
    (free : d.get? target = none) (up : d.IsDirectory target.dropLast) :
    d.Filed target content (d'.graft source target) := by
  have sub := h.within vacant
  have off : target ≠ source := fun e => apart (e ▸ List.prefix_rfl)
  have free' : d'.get? target = none := by rwa [h.get?, if_neg off]
  have isFile : ¬ d'.IsDirectory source := by
    rw [IsDirectory, h.get?, if_pos rfl]
    rintro ⟨⟩
  refine ⟨(here_graft _ _).trans h.here, fun other => ?_⟩
  rw [get?_graft sne tne apart free' (sub.isDirectory up)]
  by_cases goal : target <+: other
  · obtain ⟨rest, rfl⟩ := goal
    rw [if_pos (List.prefix_append _ _), List.drop_left]
    by_cases last : rest = []
    · subst last
      rw [List.append_nil, List.append_nil, if_pos rfl, h.get?, if_pos rfl]
    · rw [get?_append_of_not_isDirectory last isFile, if_neg (by simpa using last),
        get?_append_of_none free]
  · have ne : other ≠ target := fun e => goal (e ▸ List.prefix_rfl)
    rw [if_neg goal, if_neg ne]
    by_cases gone : source <+: other
    · obtain ⟨rest, rfl⟩ := gone
      rw [if_pos (List.prefix_append _ _), get?_append_of_none vacant]
    · rw [if_neg gone, h.get?, if_neg]
      rintro rfl
      exact gone List.prefix_rfl

theorem move_of_free (hs : d.resolveLast p = .ok (.name dir name false))
    (ht : d.resolveLast q = .ok (.name dir' name' false))
    (hn : d.get? (dir ++ [name]) = some (.file content))
    (free : d.get? (dir' ++ [name']) = none) (apart : ¬ dir ++ [name] <+: dir' ++ [name']) :
    move p q d = .ok () (d.graft (dir ++ [name]) (dir' ++ [name'])) := by
  have off : (dir ++ [name]).isPrefixOf (dir' ++ [name']) = false := by
    rw [Bool.eq_false_iff, ne_eq, List.isPrefixOf_iff_prefix]
    exact apart
  have ne : dir ++ [name] ≠ dir' ++ [name'] := fun e => apart (e ▸ List.prefix_rfl)
  unfold move moveAmong
  rw [bind_of_ok (ask_of_ok hs), bind_of_ok (ask_of_ok ht)]
  dsimp only
  rw [bind_of_ok (get_eq d), hn]
  dsimp only
  rw [if_neg (by simp), if_neg (by simp [ne]), if_neg (by simp [off]), bind_of_ok (get_eq d), free]
  rfl

end LayeredTree.Disk
