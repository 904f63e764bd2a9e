import LayeredTree.Proofs.Tree.Building

set_option autoImplicit false

namespace LayeredTree

variable {d : Disk} {p base out : Path} {dir root : Location} {name : Name} {closed : Bool}
variable {start piece : Bytes} {w w' : World}

namespace World

theorem notMem_freshDigits {b : UInt8} (h : b ∉ freshAlphabet) (width n : Nat) :
    b ∉ freshDigits width n := by
  have letters : ∀ i, freshAlphabet.getD i 48 ≠ b := by
    rintro i rfl
    by_cases inside : i < freshAlphabet.length
    · rw [List.getD_eq_getElem?_getD, List.getElem?_eq_getElem inside] at h
      exact h (List.getElem_mem inside)
    · rw [List.getD_eq_getElem?_getD, List.getElem?_eq_none (Nat.not_lt.mp inside)] at h
      exact h (by decide)
  induction width generalizing n with
  | zero => simp [freshDigits]
  | succ width ih =>
    rw [freshDigits, List.mem_append, List.mem_singleton, not_or]
    exact ⟨ih _, (letters _).symm⟩

theorem length_freshDigits (width n : Nat) : (freshDigits width n).length = width := by
  induction width generalizing n with
  | zero => rfl
  | succ width ih => rw [freshDigits, List.length_append, ih, List.length_singleton]

end World

namespace Disk

theorem reaches_of_resolveLast_child (ne : p.text ≠ []) (one : slash ∉ piece) (busy : piece ≠ [])
    (h : d.resolveLast (p.child piece) = .ok (.name dir name closed)) :
    piece = name.bytes ∧ d.Reaches p dir ∧ d.IsDirectory dir ∧ Short (p.child piece) := by
  obtain ⟨-, zero, short, init, closing, segments, hc, isDir, links, le, w⟩ := of_resolveLast_name h
  have rel := Path.head?_ne_slash_of_notMem one
  obtain ⟨stem, hs, child⟩ := Path.exists_stem ne
  rw [child _ one] at segments
  have last : closing = [] := by
    rcases List.eq_nil_or_concat closing with e | ⟨front, back, e⟩
    · exact e
    · subst e
      rw [List.concat_eq_append, ← List.cons_append, ← List.append_assoc] at segments
      have e := (List.append_inj' segments rfl).2
      have none := hc back (by simp)
      rw [none] at e
      exact absurd (List.cons_eq_cons.mp e).1 busy
  subst last
  obtain ⟨rfl, e⟩ := List.append_inj' segments rfl
  refine ⟨(List.cons_eq_cons.mp e).1, ⟨ne, fun hz => zero ?_, links, le, ?_⟩, isDir, short⟩
  · obtain ⟨body, hb, text⟩ := Path.exists_body ne
    rw [text _ rel]
    rcases hb with e | e
    · rw [e] at hz
      exact List.mem_append_left _ hz
    · rw [e] at hz
      rcases List.mem_append.mp hz with hz | hz
      · exact List.mem_append_left _ hz
      · exact absurd (List.mem_singleton.mp hz) (by decide)
  · rw [startOf, Path.head?_child ne rel] at w
    rcases hs with e | e
    · rw [e]
      exact w
    · rw [e]
      exact (leads_concat_idle_iff Path.isIdle_nil).mpr ⟨w, isDir⟩

/-- The second disk has one empty directory in addition, to which the path leads by its name. -/
structure Opened (d : Disk) (out : Path) (root : Location) (d' : Disk) : Prop where
  hosts : d'.Hosts out root
  bare : d'.IsBare root
  free : d.get? root = none
  here : d'.here = d.here
  get? : ∀ other, d'.get? other = if other = root then some .directory else d.get? other

theorem Opened.newAt {d' : Disk} (h : d.Opened out root d') : d.NewAt root d' := by
  refine ⟨h.here, h.free, fun other away => ?_⟩
  rw [h.get?, if_neg]
  rintro rfl
  exact away (List.prefix_refl _)

theorem Opened.within {d' : Disk} (h : d.Opened out root d') : d.Within d' := h.newAt.within

theorem opened_of_child (ne : p.text ≠ []) (one : slash ∉ piece)
    (busy : piece ≠ []) (hl : d.resolveLast (p.child piece) = .ok (.name dir name closed))
    (free : d.get? (dir ++ [name]) = none) :
    d.Opened (p.child piece) (dir ++ [name]) (d.plant (dir ++ [name]) .directory) := by
  obtain ⟨rfl, reach, isDir, short⟩ := reaches_of_resolveLast_child ne one busy hl
  have up : d.IsDirectory (dir ++ [name]).dropLast := by
    rw [List.dropLast_concat]
    exact isDir
  have sub : d.Within (d.plant (dir ++ [name]) .directory) := within_plant _ _
  have get : ∀ other, (d.plant (dir ++ [name]) .directory).get? other =
      if other = dir ++ [name] then some .directory else d.get? other :=
    get?_plant (by simp) free up Node.directory
  have made : (d.plant (dir ++ [name]) .directory).IsDirectory (dir ++ [name]) := by
    rw [IsDirectory, get, if_pos rfl]
  refine ⟨⟨(reach.mono sub).child made rfl, made, short⟩, ?_, free, here_plant _ _, get⟩
  · intro names ne'
    rw [get, if_neg (by simpa using ne')]
    exact get?_append_of_none free

end Disk

/-- A path as it is read from the working directory. -/
def Disk.absolute (d : Disk) (p : Path) : Path :=
  if p.isAbsolute then p else (Location.path d.here).join p

theorem Disk.absolute_congr {d' : Disk} (h : d'.here = d.here) (p : Path) :
    d'.absolute p = d.absolute p := by
  rw [absolute, absolute, h]

namespace World

theorem isAbsolute_join (h : base.isAbsolute = true) (q : Path) : (base.join q).isAbsolute = true := by
  rw [Path.isAbsolute_iff] at h
  obtain ⟨rest, e⟩ := List.head?_eq_some_iff.mp h
  unfold Path.join
  split
  · rename_i absolute
    exact absolute
  · split
    · rw [Path.isAbsolute_iff, e]
      rfl
    · rw [Path.isAbsolute_iff, e]
      rfl

/-- One try: the directory is made, or the name is taken and the next one is tried, or the fault
is final. -/
theorem tryFresh_cases (base : Path) (start : Bytes) (tries : Nat) (w : World) :
    (∃ dir name closed, w.disk.resolveLast (base.child (start ++ freshDigits freshWidth w.serial)) =
        .ok (.name dir name closed) ∧ w.disk.get? (dir ++ [name]) = none ∧
      tryFresh base start (tries + 1) w =
        .ok (base.child (start ++ freshDigits freshWidth w.serial))
          { w with
            disk := w.disk.plant (dir ++ [name]) .directory
            serial := w.serial + 1 }) ∨
    (∃ fault, Disk.makeDirectory (base.child (start ++ freshDigits freshWidth w.serial)) w.disk =
        .error fault w.disk ∧
      tryFresh base start (tries + 1) w = if fault = .system .alreadyExists then
        tryFresh base start tries { w with serial := w.serial + 1 }
        else .error (.atPath fault (base.child (start ++ freshDigits freshWidth w.serial)))
          { w with serial := w.serial + 1 }) := by
  rcases Disk.makeDirectory_cases w.disk (base.child (start ++ freshDigits freshWidth w.serial)) with
    ⟨dir, name, closed, hl, free, made⟩ | ⟨fault, made⟩
  · left
    refine ⟨dir, name, closed, hl, free, ?_⟩
    have run := onDisk_of_ok (w := { w with serial := w.serial + 1 }) made
    exact bind_of_ok (outcome_of_ok run)
  · right
    refine ⟨fault, made, ?_⟩
    have run := onDisk_of_error (w := { w with serial := w.serial + 1 }) made
    refine (bind_of_ok (outcome_of_error run)).trans ?_
    dsimp only
    split
    · rfl
    · rfl

theorem of_tryFresh (ne : base.text ≠ []) (one : slash ∉ start) (tries : Nat)
    (h : tryFresh base start tries w = .ok out w') : ∃ dir n, ∃ name : Name,
      name.bytes = start ++ freshDigits freshWidth n ∧ out = base.child name.bytes ∧
        w.disk.Reaches base dir ∧ w.disk.Opened out (dir ++ [name]) w'.disk := by
  induction tries generalizing w with
  | zero => cases h
  | succ tries ih =>
    rcases tryFresh_cases base start tries w with
      ⟨dir, name, closed, hl, free, run⟩ | ⟨fault, -, run⟩
    · rw [run] at h
      cases h
      have one' : slash ∉ start ++ freshDigits freshWidth w.serial := by
        rw [List.mem_append, not_or]
        exact ⟨one, notMem_freshDigits (by decide) _ _⟩
      have busy : start ++ freshDigits freshWidth w.serial ≠ [] := by
        intro e
        have length := congrArg List.length e
        rw [List.length_append, length_freshDigits] at length
        simp [freshWidth] at length
      obtain ⟨named, reach, -⟩ := Disk.reaches_of_resolveLast_child ne one' busy hl
      exact ⟨dir, w.serial, name, named.symm, congrArg base.child named, reach,
        Disk.opened_of_child ne one' busy hl free⟩
    · rw [run] at h
      split at h
      · exact @ih { w with serial := w.serial + 1 } h
      · cases h

theorem after_tryFresh_of_error {fault : IoFault} (tries : Nat)
    (h : tryFresh base start tries w = .error fault w') : w'.disk = w.disk := by
  induction tries generalizing w with
  | zero =>
    cases h
    rfl
  | succ tries ih =>
    rcases tryFresh_cases base start tries w with ⟨_, _, _, -, -, run⟩ | ⟨final, -, run⟩
    · cases run.symm.trans h
    · rw [run] at h
      split at h
      · exact @ih { w with serial := w.serial + 1 } h
      · cases h
        rfl

theorem freshDirectory_run (base : Path) (start : Bytes) (w : World) :
    freshDirectory base start w =
      tryFresh (w.disk.absolute base) start (w.disk.nodes.length + 1) w := by
  unfold freshDirectory
  rw [bind_of_ok (show (get : Action IoFault World) w = .ok w w from rfl)]
  rfl

theorem isAbsolute_absolute (d : Disk) (p : Path) : (d.absolute p).isAbsolute = true := by
  unfold Disk.absolute
  split
  · rename_i absolute
    exact absolute
  · exact isAbsolute_join (Location.isAbsolute_path _) _

theorem of_freshDirectory_below (one : slash ∉ start)
    (h : freshDirectory base start w = .ok out w') : ∃ dir n, ∃ name : Name,
      name.bytes = start ++ freshDigits freshWidth n ∧
        out = (w.disk.absolute base).child name.bytes ∧ w.disk.Reaches (w.disk.absolute base) dir ∧
          w.disk.Opened out (dir ++ [name]) w'.disk := by
  rw [freshDirectory_run] at h
  exact of_tryFresh (Path.ne_nil_of_isAbsolute (isAbsolute_absolute _ _)) one _ h

theorem of_freshDirectory (one : slash ∉ start) (h : freshDirectory base start w = .ok out w') :
    ∃ root, out.IsTidy ∧ w.disk.Opened out root w'.disk := by
  obtain ⟨dir, -, name, -, rfl, -, opened⟩ := of_freshDirectory_below one h
  exact ⟨_, Path.isTidy_child (Path.ne_nil_of_isAbsolute (isAbsolute_absolute _ _)) name, opened⟩

theorem of_freshDirectory_path {place : Location} (one : slash ∉ start)
    (reach : w.disk.Reaches (Location.path place) dir)
    (h : freshDirectory (Location.path place) start w = .ok out w') : ∃ n, ∃ name : Name,
      name.bytes = start ++ freshDigits freshWidth n ∧ out = Location.path (place ++ [name]) ∧
        w.disk.Opened out (dir ++ [name]) w'.disk := by
  have same : w.disk.absolute (Location.path place) = Location.path place :=
    if_pos (Location.isAbsolute_path place)
  obtain ⟨dir', n, name, named, rfl, reach', opened⟩ := of_freshDirectory_below one h
  rw [same] at reach' opened ⊢
  obtain rfl := reach'.unique reach
  exact ⟨n, name, named, Location.child_path place name, opened⟩

theorem after_freshDirectory_of_error {fault : IoFault}
    (h : freshDirectory base start w = .error fault w') : w'.disk = w.disk := by
  rw [freshDirectory_run] at h
  exact after_tryFresh_of_error _ h

end World
end LayeredTree
