import LayeredTree.Proofs.Disk.Filing

set_option autoImplicit false

namespace LayeredTree.Disk

variable {d d' d'' : Disk} {p q : Path} {loc goal place other : Location} {name name' : Name}
variable {node : Node} {content : Bytes}

/-- The second disk has all directories and links of the first. -/
def Paves (d d' : Disk) : Prop :=
  d'.here = d.here ∧ ∀ loc node, d.get? loc = some node →
    node.isDirectory = true ∨ node.isLink = true → d'.get? loc = some node

theorem Within.paves (h : d.Within d') : d.Paves d' := ⟨h.1, fun loc node hg _ => h.2 loc node hg⟩

theorem Paves.trans (h : d.Paves d') (h' : d'.Paves d'') : d.Paves d'' :=
  ⟨h'.1.trans h.1, fun loc node hg way => h'.2 loc node (h.2 loc node hg way) way⟩

theorem Paves.isDirectory (h : d.Paves d') (isDir : d.IsDirectory loc) : d'.IsDirectory loc :=
  h.2 _ _ isDir (.inl rfl)

theorem Leads.paved {segments : List Bytes} {links : Nat} (h : d.Leads loc segments links goal)
    (isDir : d.IsDirectory goal) (paves : d.Paves d') : d'.Leads loc segments links goal := by
  induction h with
  | done loc => exact .done loc
  | idle dir idle _ ih => exact .idle (paves.isDirectory dir) idle (ih isDir)
  | up dir _ ih => exact .up (paves.isDirectory dir) (ih isDir)
  | @name loc goal name node rest links hg plain more ih =>
    have here : d.IsDirectory (loc ++ [name]) := by
      cases rest with
      | nil =>
        cases more
        exact isDir
      | cons => exact more.isDirectory (List.cons_ne_nil _ _)
    exact .name (paves.isDirectory here) rfl (ih isDir)
  | link hg _ ih => exact .link (paves.2 _ _ hg (.inr rfl)) (ih isDir)

theorem Reaches.paved (h : d.Reaches p loc) (isDir : d.IsDirectory loc) (paves : d.Paves d') :
    d'.Reaches p loc := by
  obtain ⟨ne, zero, links, le, way⟩ := h
  refine ⟨ne, zero, links, le, ?_⟩
  rw [paves.1]
  exact way.paved isDir paves

/-- Where the test holds the two disks list the same, in the same order. -/
structure SameWhere (seen : Location → Bool) (d d' : Disk) : Prop where
  here : d'.here = d.here
  nodes : d'.nodes.filter (fun p => seen p.1) = d.nodes.filter fun p => seen p.1

variable {seen : Location → Bool}

theorem SameWhere.refl (seen : Location → Bool) (d : Disk) : d.SameWhere seen d := ⟨rfl, rfl⟩

theorem SameWhere.trans (h : d.SameWhere seen d') (h' : d'.SameWhere seen d'') :
    d.SameWhere seen d'' := ⟨h'.here.trans h.here, h'.nodes.trans h.nodes⟩

theorem SameWhere.get? (h : d.SameWhere seen d') (hs : seen other = true) :
    d'.get? other = d.get? other := by
  by_cases top : other = []
  · rw [top, get?_nil, get?_nil]
  have kept : ∀ node, (other, node) ∈ d'.nodes ↔ (other, node) ∈ d.nodes := by
    intro node
    have both := congrArg ((other, node) ∈ ·) h.nodes
    simpa [List.mem_filter, hs] using both
  refine Option.ext fun node => ?_
  rw [get?_eq_some_iff _ top, get?_eq_some_iff _ top, kept]

theorem sameWhere_plant (off : seen loc = false) (node : Node) :
    d.SameWhere seen (d.plant loc node) := by
  refine ⟨here_plant loc node, ?_⟩
  unfold plant
  split
  · simp [List.filter_append, off]
  · rfl

theorem sameWhere_refill (off : seen loc = false) (content : Bytes) :
    d.SameWhere seen (d.refill loc content) := by
  refine ⟨rfl, ?_⟩
  have fst : ∀ p : Location × Node, (refilled loc content p).1 = p.1 := by
    intro p
    unfold refilled
    split <;> rfl
  have kept : ∀ p ∈ d.nodes.filter fun p => seen p.1, refilled loc content p = p := by
    rintro p hp
    rw [refilled, if_neg]
    rintro ⟨rfl, -⟩
    rw [(List.mem_filter.mp hp).2] at off
    cases off
  simp only [refill, List.filter_map, Function.comp_def, fst]
  exact (List.map_congr_left kept).trans (List.map_id' _)

private theorem filter_seen (off : ∀ rest, seen (place ++ rest) = false)
    (nodes : List (Location × Node)) :
    (nodes.filter fun p => !place.isPrefixOf p.1).filter (fun p => seen p.1) =
      nodes.filter fun p => seen p.1 := by
  rw [List.filter_filter]
  refine List.filter_congr fun p _ => ?_
  by_cases below : place <+: p.1
  · obtain ⟨rest, e⟩ := below
    rw [← e, off, Bool.false_and]
  · have keep : (!place.isPrefixOf p.1) = true := by
      rwa [Bool.not_eq_true', Bool.eq_false_iff, ne_eq, List.isPrefixOf_iff_prefix]
    rw [keep, Bool.and_true]

theorem sameWhere_uproot (off : ∀ rest, seen (loc ++ rest) = false) :
    d.SameWhere seen (d.uproot loc) := ⟨rfl, filter_seen off d.nodes⟩

theorem sameWhere_graft {source target : Location} (off : ∀ rest, seen (source ++ rest) = false)
    (off' : ∀ rest, seen (target ++ rest) = false) : d.SameWhere seen (d.graft source target) := by
  refine ⟨here_graft source target, ?_⟩
  unfold graft
  split
  · have unseen : ((d.nodes.filter fun p => source.isPrefixOf p.1).map
        (carried source target)).filter (fun p => seen p.1) = [] := by
      rw [List.filter_eq_nil_iff]
      rintro _ hp
      obtain ⟨p, -, rfl⟩ := List.mem_map.mp hp
      rw [show (carried source target p).1 = target ++ p.1.drop source.length from rfl, off']
      exact Bool.false_ne_true
    rw [List.filter_append, filter_seen off, unseen, List.append_nil]
  · rfl

theorem here_refillAll (names : List Location) (content : Bytes) :
    (d.refillAll names content).here = d.here := by
  induction names generalizing d with
  | nil => rfl
  | cons first rest ih => exact ih (d := d.refill first content)

theorem get?_refillAll (names : List Location) (content : Bytes) (other : Location) :
    (d.refillAll names content).get? other =
      if other ∈ names ∧ (d.get? other).any Node.isFile then some (.file content)
      else d.get? other := by
  induction names generalizing d with
  | nil => simp [refillAll]
  | cons first rest ih =>
    rw [show d.refillAll (first :: rest) content = (d.refill first content).refillAll rest content
      from rfl, ih, get?_refill]
    by_cases e : other = first
    · subst e
      by_cases isFile : (d.get? other).any Node.isFile
      · simp [isFile, Node.isFile]
      · simp [isFile]
    · simp [e]

theorem sameWhere_refillAll {names : List Location} (off : ∀ loc ∈ names, seen loc = false)
    (content : Bytes) : d.SameWhere seen (d.refillAll names content) := by
  induction names generalizing d with
  | nil => exact .refl seen d
  | cons first rest ih =>
    exact (sameWhere_refill (off first List.mem_cons_self) content).trans
      (ih fun loc hl => off loc (List.mem_cons_of_mem _ hl))

theorem Filed.refill (h : d.Filed loc content d') (content' : Bytes) :
    d.Filed loc content' (d'.refill loc content') := by
  refine ⟨h.here, fun other => ?_⟩
  rw [get?_refill, h.get?, h.get?, if_pos rfl]
  by_cases e : other = loc
  · rw [if_pos ⟨e, rfl⟩, if_pos e]
  · rw [if_neg fun both => e both.1, if_neg e, if_neg e]

/-- A file has this content under the given names, and all else is as it was. -/
structure Rewritten (names : List Location) (content : Bytes) (d d' : Disk) : Prop where
  here : d'.here = d.here
  get? : ∀ other, d'.get? other = if other ∈ names then some (.file content) else d.get? other

theorem Rewritten.paves {names : List Location} (h : d.Rewritten names content d')
    (old : ∀ loc ∈ names, ∀ node, d.get? loc = some node → node.isFile = true) : d.Paves d' := by
  refine ⟨h.here, fun other node hg way => ?_⟩
  rw [h.get?, if_neg]
  · exact hg
  · intro named
    have isFile := old other named node hg
    cases node with
    | file => rcases way with way | way <;> cases way
    | directory | link | other => cases isFile

theorem Filed.paves (h : d.Filed loc content d')
    (old : ∀ node, d.get? loc = some node → node.isFile = true) : d.Paves d' := by
  have one : d.Rewritten [loc] content d' := ⟨h.here, by simpa using h.get?⟩
  exact one.paves (by simpa using old)

theorem filed_of_isFile (there : d.get? loc = some node) (isFile : node.isFile = true) :
    ∃ content, d.Filed loc content d := by
  cases node with
  | file content =>
    refine ⟨content, rfl, fun other => ?_⟩
    split
    · rename_i e
      rw [e, there]
    · rfl
  | directory | link | other => cases isFile

theorem Reaches.openToWrite_cases (h : d.Reaches p loc) (isDir : d.IsDirectory loc)
    (plain : ∀ text, d.get? (loc ++ [name]) ≠ some (.link text)) :
    (∃ d', openToWrite (p.child name.bytes) d = .ok (loc ++ [name]) d' ∧
      (∀ node, d.get? (loc ++ [name]) = some node → node.isFile = true) ∧
        d.Filed (loc ++ [name]) [] d' ∧
          ∀ seen : Location → Bool, seen (loc ++ [name]) = false → d.SameWhere seen d') ∨
      ∃ fault, openToWrite (p.child name.bytes) d = .error fault d := by
  by_cases short : Short (p.child name.bytes)
  swap
  · exact .inr (d.openToWrite_of_long (h.child_text name).1 short)
  cases hn : d.get? (loc ++ [name]) with
  | none =>
    have up : d.IsDirectory (loc ++ [name]).dropLast := by rwa [List.dropLast_concat]
    refine .inl ⟨_, openToWrite_of_free h isDir hn short, by rintro node ⟨⟩,
      ⟨here_plant _ _, fun other => get?_plant (by simp) hn up _ other⟩,
      fun _ off => sameWhere_plant off _⟩
  | some node =>
    have linkless : node.isLink = false := by
      cases node with
      | link text => exact absurd hn (plain text)
      | directory | file | other => rfl
    rcases openToWrite_of_entry h isDir hn linkless short with ⟨isFile, opened⟩ | ⟨-, refused⟩
    · obtain ⟨content, filed⟩ := filed_of_isFile hn isFile
      refine .inl ⟨_, opened, ?_, filed.refill [], fun _ off => sameWhere_refill off _⟩
      rintro node ⟨⟩
      exact isFile
    · exact .inr refused

/-- A file is written in place of what was there, under all its names and as far as the disk goes
on, or nothing is done. -/
theorem Reaches.writeFileAmid_cases (h : d.Reaches p loc) (isDir : d.IsDirectory loc)
    (plain : ∀ text, d.get? (loc ++ [name]) ≠ some (.link text)) {others : List Location}
    (files : ∀ other ∈ others, ∃ old, d.get? other = some (.file old))
    (failure : Option (Nat × IoFault)) (content : Bytes) :
    (∃ d' written,
      (failure = none → written = content ∧
        writeFileAmid others failure (p.child name.bytes) content d = .ok () d') ∧
      (∀ count fault, failure = some (count, fault) →
        writeFileAmid others failure (p.child name.bytes) content d = .error fault d') ∧
      (∀ node, d.get? (loc ++ [name]) = some node → node.isFile = true) ∧
      d.Rewritten ((loc ++ [name]) :: others) written d' ∧
        ∀ seen : Location → Bool, (∀ place ∈ (loc ++ [name]) :: others, seen place = false) →
          d.SameWhere seen d') ∨
      ∃ fault, writeFileAmid others failure (p.child name.bytes) content d = .error fault d := by
  rcases h.openToWrite_cases isDir plain with ⟨d₁, opened, old, filed, same⟩ | ⟨fault, refused⟩
  swap
  · exact .inr ⟨fault, bind_of_error refused⟩
  left
  have rewritten : ∀ written, d.Rewritten ((loc ++ [name]) :: others) written
      (d₁.refillAll ((loc ++ [name]) :: others) written) := by
    intro written
    refine ⟨(here_refillAll _ _).trans filed.here, fun place => ?_⟩
    rw [get?_refillAll, filed.get?]
    by_cases e : place = loc ++ [name]
    · simp [e, Node.isFile]
    by_cases named : place ∈ others
    · obtain ⟨content, held⟩ := files place named
      simp [e, named, held, Node.isFile]
    · simp [e, named]
  have unseen : ∀ written, ∀ seen : Location → Bool,
      (∀ place ∈ (loc ++ [name]) :: others, seen place = false) →
        d.SameWhere seen (d₁.refillAll ((loc ++ [name]) :: others) written) :=
    fun written seen off => (same seen (off _ List.mem_cons_self)).trans
      (sameWhere_refillAll off written)
  cases failure with
  | none =>
    refine ⟨_, content, fun _ => ⟨rfl, bind_of_ok opened⟩, ?_, old, rewritten _, unseen _⟩
    rintro count fault ⟨⟩
  | some failure =>
    refine ⟨_, content.take failure.1, ?_, ?_, old, rewritten _, unseen _⟩
    · rintro ⟨⟩
    · rintro count fault ⟨⟩
      exact bind_of_ok opened

/-- A file is copied in place of what was there, or nothing is done. The copy has the content of
the source, unless it is the source. -/
theorem Reaches.copyFile_cases (h : d.Reaches p loc) (isDir : d.IsDirectory loc)
    (plain : ∀ text, d.get? (loc ++ [name]) ≠ some (.link text)) (source : Path) :
    (∃ d' content, copyFile source (p.child name.bytes) d = .ok () d' ∧
      (∀ node, d.get? (loc ++ [name]) = some node → node.isFile = true) ∧
        d.Filed (loc ++ [name]) content d' ∧ ∀ place content', d.Reaches source place →
          place ≠ loc ++ [name] → d.get? place = some (.file content') → content = content') ∨
      ∃ fault, copyFile source (p.child name.bytes) d = .error fault d := by
  unfold copyFile openToRead
  cases opened : d.openAt source with
  | error fault => exact .inr ⟨fault, bind_of_error (ask_of_error opened)⟩
  | ok found =>
    obtain ⟨place, node⟩ := found
    rw [bind_of_ok (ask_of_ok opened)]
    cases node with
    | file content =>
      obtain ⟨reach, -, here⟩ := openAt_file_iff.mp opened
      rcases h.openToWrite_cases isDir plain with ⟨d', run, old, filed, -⟩ | ⟨fault, refused⟩
      · left
        dsimp only
        rw [bind_of_ok run, bind_of_ok (get_eq d'), filed.get?]
        by_cases same : place = loc ++ [name]
        · rw [if_pos same]
          exact ⟨_, _, rfl, old, filed.refill [], fun place' content' reach' ne => absurd
            ((reach'.unique reach).trans same) ne⟩
        · rw [if_neg same, here]
          refine ⟨_, _, rfl, old, filed.refill content, fun place' content' reach' _ held => ?_⟩
          rw [reach'.unique reach, here] at held
          cases held
          rfl
      · exact .inr ⟨fault, bind_of_error refused⟩
    | directory => exact .inr ⟨_, rfl⟩
    | link target => exact .inr ⟨_, rfl⟩
    | other => exact .inr ⟨_, rfl⟩

theorem get?_graft_file {source target : Location} (sne : source ≠ []) (tne : target ≠ [])
    (apart : ¬ source <+: target) (apart' : ¬ target <+: source)
    (here : d.get? source = some (.file content)) (free : d.get? target = none)
    (up : d.IsDirectory target.dropLast) (other : Location) :
    (d.graft source target).get? other = if other = target then some (.file content)
      else if other = source then none else d.get? other := by
  have isFile : ¬ d.IsDirectory source := by
    rw [IsDirectory, here]
    rintro ⟨⟩
  rw [get?_graft sne tne apart free up]
  by_cases goal : target <+: other
  · obtain ⟨rest, rfl⟩ := goal
    have off : target ++ rest ≠ source := fun e => apart' (e ▸ List.prefix_append _ _)
    rw [if_pos (List.prefix_append _ _), List.drop_left, if_neg off]
    by_cases last : rest = []
    · rw [last, List.append_nil, List.append_nil, if_pos rfl, here]
    · rw [get?_append_of_not_isDirectory last isFile, if_neg (by simpa using last),
        get?_append_of_none free]
  · have ne : other ≠ target := by
      rintro rfl
      exact goal List.prefix_rfl
    rw [if_neg goal, if_neg ne]
    by_cases gone : source <+: other
    · obtain ⟨rest, rfl⟩ := gone
      rw [if_pos (List.prefix_append _ _)]
      by_cases last : rest = []
      · rw [last, List.append_nil, if_pos rfl]
      · rw [if_neg (by simpa using last), get?_append_of_not_isDirectory last isFile]
    · have ne' : other ≠ source := by
        rintro rfl
        exact gone List.prefix_rfl
      rw [if_neg gone, if_neg ne']

theorem paves_of_moved {source target : Location} (same : d'.here = d.here)
    (here : d.get? source = some (.file content)) (closed : ¬ d.IsDirectory target)
    (plain : ∀ text, d.get? target ≠ some (.link text))
    (get : ∀ other, d'.get? other = if other = target then some (.file content)
      else if other = source then none else d.get? other) : d.Paves d' := by
  refine ⟨same, fun other node hg way => ?_⟩
  rw [get]
  split
  · rename_i e
    subst e
    cases node with
    | directory => exact absurd hg closed
    | link text => exact absurd hg (plain text)
    | file | other => rcases way with way | way <;> cases way
  split
  · rename_i e
    subst e
    cases here.symm.trans hg
    rcases way with way | way <;> cases way
  · exact hg

theorem Reaches.moveAmong_of_mem (h : d.Reaches p loc) (isDir : d.IsDirectory loc)
    (short : Short (p.child name.bytes)) (short' : Short (p.child name'.bytes))
    (here : d.get? (loc ++ [name]) = some (.file content)) {others : List Location}
    (one : loc ++ [name'] ∈ others) :
    moveAmong others (p.child name.bytes) (p.child name'.bytes) d = .ok () d := by
  unfold moveAmong
  rw [bind_of_ok (ask_of_ok (h.resolveLast_child isDir short)),
    bind_of_ok (ask_of_ok (h.resolveLast_child isDir short'))]
  dsimp only
  rw [bind_of_ok (get_eq d), here]
  dsimp only
  rw [if_neg (by simp), if_pos (.inr one)]
  rfl

private theorem get?_graft_over {source target : Location} (ne : source ≠ []) (ne' : target ≠ [])
    (apart : ¬ source <+: target) (apart' : ¬ target <+: source)
    (here : d.get? source = some (.file content)) (closed : ¬ d.IsDirectory target)
    (up : d.IsDirectory target.dropLast) (other : Location) :
    ((d.uproot target).graft source target).get? other =
      if other = target then some (.file content)
      else if other = source then none else d.get? other := by
  have get := d.get?_uproot_of_not_isDirectory ne' closed
  have differ : source ≠ target := fun e => apart (e ▸ List.prefix_rfl)
  have above : target.dropLast ≠ target := by
    intro e
    have shorter := congrArg List.length e
    rw [List.length_dropLast] at shorter
    exact ne' (List.length_eq_zero_iff.mp (by omega))
  rw [get?_graft_file ne ne' apart apart' (by rw [get, if_neg differ, here])
    (by rw [get, if_pos rfl]) (by rw [IsDirectory, get, if_neg above]; exact up), get]
  split
  · rfl
  · split <;> rfl

/-- A file takes the place of another file in its directory, or nothing is done because there is a
directory in that place. -/
theorem Reaches.moveAmong_cases (h : d.Reaches p loc) (isDir : d.IsDirectory loc)
    (short : Short (p.child name.bytes)) (short' : Short (p.child name'.bytes))
    (here : d.get? (loc ++ [name]) = some (.file content)) (ne : name ≠ name')
    {others : List Location} (two : loc ++ [name'] ∉ others) :
    (∃ d', moveAmong others (p.child name.bytes) (p.child name'.bytes) d = .ok () d' ∧
      ¬ d.IsDirectory (loc ++ [name']) ∧
      (∀ seen : Location → Bool, (∀ rest, seen (loc ++ [name] ++ rest) = false) →
        (∀ rest, seen (loc ++ [name'] ++ rest) = false) → d.SameWhere seen d') ∧
        ∀ other, d'.get? other = if other = loc ++ [name'] then some (.file content)
          else if other = loc ++ [name] then none else d.get? other) ∨
      d.IsDirectory (loc ++ [name']) ∧
        ∃ fault, moveAmong others (p.child name.bytes) (p.child name'.bytes) d = .error fault d := by
  have apart : ¬ loc ++ [name] <+: loc ++ [name'] :=
    fun le => ne (Location.child_prefix_child_iff.mp le)
  have apart' : ¬ loc ++ [name'] <+: loc ++ [name] :=
    fun le => ne (Location.child_prefix_child_iff.mp le).symm
  have differ : loc ++ [name] ≠ loc ++ [name'] := fun e => apart (e ▸ List.prefix_rfl)
  have up : d.IsDirectory (loc ++ [name']).dropLast := by rwa [List.dropLast_concat]
  unfold moveAmong
  rw [bind_of_ok (ask_of_ok (h.resolveLast_child isDir short)),
    bind_of_ok (ask_of_ok (h.resolveLast_child isDir short'))]
  dsimp only
  rw [bind_of_ok (get_eq d), here]
  dsimp only
  rw [if_neg (by simp), if_neg (by simp [differ, two]),
    if_neg (by rwa [List.isPrefixOf_iff_prefix]), bind_of_ok (get_eq d)]
  by_cases there : d.IsDirectory (loc ++ [name'])
  · right
    rw [show d.get? _ = _ from there]
    dsimp only
    rw [if_neg (by rwa [List.isPrefixOf_iff_prefix]), if_neg (by simp [Node.isDirectory]),
      if_pos (by simp [Node.isDirectory])]
    exact ⟨there, _, rfl⟩
  left
  cases hn : d.get? (loc ++ [name']) with
  | none =>
    refine ⟨_, rfl, there, fun _ off off' => sameWhere_graft off off', ?_⟩
    exact get?_graft_file (by simp) (by simp) apart apart' here hn up
  | some occupant =>
    have bare : ((d.below (loc ++ [name'])).isEmpty) = true :=
      below_isEmpty_iff.mpr fun names more => get?_append_of_not_isDirectory more there
    have plain : occupant.isDirectory = false := by
      cases occupant with
      | directory => exact absurd hn there
      | file | link | other => rfl
    refine ⟨(d.uproot (loc ++ [name'])).graft (loc ++ [name]) (loc ++ [name']), ?_, there,
      fun _ off off' => (sameWhere_uproot off').trans (sameWhere_graft off off'),
      get?_graft_over (by simp) (by simp) apart apart' here there up⟩
    dsimp only
    rw [if_neg (by rwa [List.isPrefixOf_iff_prefix]), if_neg (by simp [Node.isDirectory]),
      if_neg (by simp [plain]), bind_of_ok (get_eq d), if_neg (by simp [bare])]
    rfl

theorem Reaches.removeFile (h : d.Reaches p loc) (isDir : d.IsDirectory loc)
    (short : Short (p.child name.bytes)) (here : d.get? (loc ++ [name]) = some (.file content)) :
    removeFile (p.child name.bytes) d = .ok () (d.uproot (loc ++ [name])) := by
  unfold Disk.removeFile
  rw [bind_of_ok (ask_of_ok (h.resolveLast_child isDir short))]
  dsimp only
  rw [bind_of_ok (get_eq d), here]
  rfl

end LayeredTree.Disk
