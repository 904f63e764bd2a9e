import LayeredTree.Proofs.Containment
import LayeredTree.Proofs.Disk.Making

set_option autoImplicit false

namespace LayeredTree

variable {d d' : Disk} {p : Path} {loc other dir : Location} {name : Name} {node : Node}
variable {area : WorkArea}

theorem Location.not_child_prefix (dir : Location) (name : Name) : ¬ dir ++ [name] <+: dir := by
  intro le
  have longer := le.length_le
  simp only [List.length_append, List.length_singleton] at longer
  omega

namespace Disk

theorem Reaches.ownEntryAt_child (h : d.Reaches p loc) (hn : d.get? (loc ++ [name]) = some node)
    (short : Short (p.child name.bytes)) :
    d.ownEntryAt (p.child name.bytes) = .ok (loc ++ [name], node) := by
  obtain ⟨stem, links, le, w, child⟩ := h.stem
  obtain ⟨ne, zero⟩ := h.child_text name
  have isDir := isDirectory_of_child hn
  refine ownEntryAt_eq_ok_iff.mpr ⟨resolve_eq_ok_iff.mpr ⟨checkText_eq_ok ne zero short, ?_⟩, hn⟩
  rw [h.startOf_child, child]
  refine walkTo_own_iff.mpr ⟨links, le, loc, w, isDir, .inr (.inr ⟨name, rfl, rfl, ?_⟩)⟩
  rw [hn]
  nofun

theorem seats_path (isDir : d.IsDirectory dir) :
    d.Seats (Location.path (dir ++ [name])) (dir ++ [name]) := by
  have way : d.Leads [] (dir.map Name.bytes) 0 ([] ++ dir) := leads_names isDir rfl
  refine ⟨dir.map Name.bytes, name, dir, by simp, isDir, ⟨0, Nat.zero_le _, ?_⟩, rfl⟩
  rw [startOf, if_pos (Location.head?_text_path _)]
  exact way

/-- A directory that is new inside another one is removed with all below it under the path of that
other, and nothing else is. -/
theorem Reaches.after_removeTree_child {old : Disk} (h : old.Reaches p dir) (sub : old.Within d)
    (new : old.get? (dir ++ [name]) = none) (isDir : d.IsDirectory (dir ++ [name]))
    (short : Short (p.child name.bytes)) :
    d.Pruned (dir ++ [name]) (after (removeTree (p.child name.bytes)) d) := by
  have own := (h.mono sub).ownEntryAt_child isDir short
  have cleared : old.Within (d.clear (dir ++ [name])) := by
    refine ⟨sub.1, fun loc node found => ?_⟩
    rw [get?_clear, if_neg]
    · exact sub.2 _ _ found
    · rintro ⟨⟨rest, rfl⟩, -⟩
      rw [get?_append_of_none new] at found
      cases found
  have up : (d.clear (dir ++ [name])).IsDirectory dir := by
    rw [IsDirectory, get?_clear, if_neg]
    · exact isDirectory_of_child isDir
    · exact fun below => Location.not_child_prefix dir name below.1
  have there : (d.clear (dir ++ [name])).IsDirectory (dir ++ [name]) := by
    rw [IsDirectory, get?_clear, if_neg (by simp)]
    exact isDir
  have last := (h.mono cleared).resolveLast_child up short
  have drops : (d.clear (dir ++ [name])).Drops (p.child name.bytes) (dir ++ [name]) :=
    ⟨⟨dir, name, false, last, rfl⟩, there, isBare_clear _⟩
  rw [after_removeTree_of_directory own, after_of_ok (removeDirectory_of_drops drops)]
  refine ⟨by simp, fun other => ?_⟩
  rw [get?_uproot (by simp), get?_clear]
  by_cases le : dir ++ [name] <+: other
  · rw [if_pos le, if_pos le]
  · rw [if_neg le, if_neg le, if_neg fun below => le below.1]

theorem after_removeTree_path (isDir : d.IsDirectory (dir ++ [name]))
    (short : Short (Location.path (dir ++ [name]))) :
    d.Pruned (dir ++ [name]) (after (removeTree (Location.path (dir ++ [name]))) d) := by
  rw [← Location.child_path] at short ⊢
  have up : (d.uproot (dir ++ [name])).IsDirectory dir := by
    rw [IsDirectory, get?_uproot (by simp), if_neg (Location.not_child_prefix dir name)]
    exact isDirectory_of_child isDir
  refine (reaches_path up rfl).after_removeTree_child (uproot_within _) ?_ isDir short
  rw [get?_uproot (by simp), if_pos (List.prefix_refl _)]

theorem get?_after_dropParent (isDir : d.IsDirectory dir) (sub : d'.Within d) (ne : other ≠ dir) :
    (after (removeDirectory (Location.path dir)) d').get? other = d'.get? other := by
  rcases List.eq_nil_or_concat dir with rfl | ⟨up, last, whole⟩
  · rcases after_removeDirectory_cases d' (Location.path []) with ⟨loc, drops, -⟩ | e
    · obtain ⟨init, name, closed, last, rfl⟩ := drops.named
      obtain ⟨init', name', -, steps, -⟩ := seats_of_resolveLast sub last
      rw [Location.steps_path] at steps
      simp at steps
    · rw [e]
  · rw [List.concat_eq_append] at whole
    subst whole
    exact get?_after_removeDirectory_of_ne sub (seats_path (isDirectory_of_child isDir)) ne

end Disk

namespace Location

/-- Neither place is in the other one. -/
def Disjoint (loc other : Location) : Prop := ¬ loc <+: other ∧ ¬ other <+: loc

theorem Disjoint.symm (h : loc.Disjoint other) : other.Disjoint loc := ⟨h.2, h.1⟩

instance : Std.Symm Disjoint := ⟨fun _ _ h => h.symm⟩

theorem Disjoint.not_prefix_append (h : loc.Disjoint other) (names : Location) :
    ¬ loc <+: other ++ names := by
  intro le
  rcases List.prefix_or_prefix_of_prefix le (List.prefix_append other names) with le | le
  · exact h.1 le
  · exact h.2 le

theorem Disjoint.append (h : loc.Disjoint other) (names : Location) :
    (loc ++ names).Disjoint other := by
  refine ⟨fun le => h.1 ((List.prefix_append loc names).trans le), ?_⟩
  exact h.symm.not_prefix_append names

theorem Disjoint.append_ne_dropLast (h : loc.Disjoint other) (names : Location) :
    other ++ names ≠ loc.dropLast := by
  intro e
  have le : other <+: loc.dropLast := ⟨names, e⟩
  exact h.2 (le.trans (List.dropLast_prefix loc))

theorem disjoint_of_free (free : d.get? (dir ++ [name]) = none) (isDir : d.IsDirectory other)
    (off : ¬ other <+: dir) : Disjoint (dir ++ [name]) other := by
  have apart : ¬ dir ++ [name] <+: other := by
    rintro ⟨rest, rfl⟩
    rw [Disk.IsDirectory, Disk.get?_append_of_none free] at isDir
    cases isDir
  refine ⟨apart, fun le => ?_⟩
  rcases List.prefix_concat_iff.mp le with rfl | le
  · exact apart (List.prefix_refl _)
  · exact off le

end Location

namespace WorkArea

/-- A directory at the location can be deleted for the area. -/
def Frees (area : WorkArea) (loc : Location) : Prop :=
  Disk.Short (Location.path loc) ∧ area.Holds loc ∧ ¬ area.Protects loc

theorem policy_path_iff (area : WorkArea) (ne : loc ≠ []) (isDir : d.IsDirectory loc) :
    area.policy d (Location.path loc) = true ↔ area.Frees loc := by
  obtain ⟨dir, name, rfl⟩ : ∃ dir name, loc = dir ++ [name] :=
    ⟨_, _, (List.dropLast_concat_getLast ne).symm⟩
  have up := Disk.isDirectory_of_child isDir
  refine Disk.contains_iff.trans ⟨?_, fun ⟨short, holds, free⟩ => ?_⟩
  · rintro ⟨place, seats, -, holds, free, own, node, found, -⟩
    cases seats.unique (Disk.seats_path up)
    have entry := (Disk.ownEntryAt_eq_ok_iff.mp found).1
    exact ⟨(Disk.of_checkText (Disk.resolve_eq_ok_iff.mp entry).1).2.2, holds, free⟩
  · have outer := Disk.short_path_of_prefix (List.prefix_append dir [name]) short
    refine ⟨_, Disk.seats_path up, Disk.resolvable_path up outer, holds, free, dir ++ [name],
      .directory, ?_, rfl⟩
    rw [← Location.child_path] at short ⊢
    exact (Disk.reaches_path up rfl).ownEntryAt_child isDir short

end WorkArea

/-- At the location, just what lies in one of the directories that the area frees is gone. -/
def Cleared (area : WorkArea) (layers : List Location) (d d' : Disk) (other : Location) : Prop :=
  ((∃ layer ∈ layers, area.Frees layer ∧ layer <+: other) → d'.get? other = none) ∧
    ((∀ layer ∈ layers, area.Frees layer → ¬ layer <+: other) → d'.get? other = d.get? other)

namespace Cleared

variable {layers layers' : List Location} {d'' : Disk}

theorem trans (h : Cleared area layers d d' other) (h' : Cleared area layers' d' d'' other) :
    Cleared area (layers ++ layers') d d'' other := by
  refine ⟨fun ⟨layer, hm, free⟩ => ?_, fun none => ?_⟩
  · rcases List.mem_append.mp hm with hm | hm
    · have gone := h.1 ⟨layer, hm, free⟩
      by_cases again : ∃ layer ∈ layers', area.Frees layer ∧ layer <+: other
      · exact h'.1 again
      · rw [h'.2 fun layer hm free below => again ⟨layer, hm, free, below⟩, gone]
    · exact h'.1 ⟨layer, hm, free⟩
  · rw [h'.2 fun layer hm => none layer (List.mem_append_right _ hm),
      h.2 fun layer hm => none layer (List.mem_append_left _ hm)]

theorem of_none (h : d.get? other = none) (h' : d'.get? other = none) :
    Cleared area layers d d' other :=
  ⟨fun _ => h', fun _ => h'.trans h.symm⟩

theorem of_eq (h : Cleared area layers d' d'' other) (same : d'.get? other = d.get? other) :
    Cleared area layers d d'' other := by
  unfold Cleared at h ⊢
  rwa [← same]

theorem congr (h : Cleared area layers d d' other)
    (same : ∀ layer, layer <+: other → (layer ∈ layers ↔ layer ∈ layers')) :
    Cleared area layers' d d' other := by
  refine ⟨fun ⟨layer, hm, free, below⟩ => ?_, fun none => h.2 fun layer hm free below => ?_⟩
  · exact h.1 ⟨layer, (same layer below).mpr hm, free, below⟩
  · exact none layer ((same layer below).mp hm) free below

end Cleared

namespace Release

variable {ε : Type} {w : World} {base : Location}

theorem release_child (area : WorkArea) (shared : area.Protects dir)
    (up : w.disk.IsDirectory dir.dropLast) (name : Name) : ∃ v,
      (release area.policy (Location.path (dir ++ [name])) : Action ε Unit) w = .ok () v ∧
        v.disk = if area.policy w.disk (Location.path (dir ++ [name])) then
          after (Disk.removeTree (Location.path (dir ++ [name]))) w.disk else w.disk := by
  obtain ⟨v, run, e⟩ := release_run (ε := ε) area.policy (Location.path (dir ++ [name])) w
  have parent : (Location.path (dir ++ [name])).parent = some (Location.path dir) := by
    rw [← Location.child_path]
    exact (Location.isTidy_path dir).parent_child name
  have kept : ¬ area.policy w.disk (Location.path dir) = true := by
    intro sanctioned
    obtain ⟨place, seats, -, -, apart, -⟩ := Disk.contains_iff.mp sanctioned
    rcases List.eq_nil_or_concat dir with rfl | ⟨above, last, whole⟩
    · obtain ⟨init, name', -, steps, -⟩ := seats
      rw [Location.steps_path] at steps
      simp at steps
    · rw [List.concat_eq_append] at whole
      subst whole
      rw [List.dropLast_concat] at up
      exact apart (seats.unique (Disk.seats_path up) ▸ shared)
  rw [parent, Option.filter_some, if_neg kept] at e
  exact ⟨v, run, e⟩

theorem release_freed (shared : area.Protects dir) (freed : area.Frees (dir ++ [name]))
    (isDir : w.disk.IsDirectory (dir ++ [name])) : ∃ v,
      (release area.policy (Location.path (dir ++ [name])) : Action ε Unit) w = .ok () v ∧
        w.disk.Pruned (dir ++ [name]) v.disk := by
  obtain ⟨v, run, e⟩ := release_child (ε := ε) area shared
    (Disk.isDirectory_dropLast_of_isDirectory (Disk.isDirectory_of_child isDir)) name
  rw [if_pos ((WorkArea.policy_path_iff area (by simp) isDir).mpr freed)] at e
  exact ⟨v, run, e ▸ Disk.after_removeTree_path isDir freed.1⟩

theorem of_release (area : WorkArea) (isDir : w.disk.IsDirectory (dir ++ [name])) :
    ∃ d : Disk, d.Within w.disk ∧ (∀ other, Cleared area [dir ++ [name]] w.disk d other) ∧
      ((after (release area.policy (Location.path (dir ++ [name])) : Action ε Unit) w).disk = d ∨
        (after (release area.policy (Location.path (dir ++ [name])) : Action ε Unit) w).disk =
          after (Disk.removeDirectory (Location.path dir)) d) := by
  obtain ⟨w', run, e⟩ := release_run (ε := ε) area.policy (Location.path (dir ++ [name])) w
  have up := Disk.isDirectory_of_child isDir
  have judged := WorkArea.policy_path_iff area (by simp) isDir
  have parent : (Location.path (dir ++ [name])).parent = some (Location.path dir) := by
    rw [← Location.child_path]
    exact (Location.isTidy_path dir).parent_child name
  have cleared : ∀ d, d = (if area.policy w.disk (Location.path (dir ++ [name])) then
      after (Disk.removeTree (Location.path (dir ++ [name]))) w.disk else w.disk) →
        d.Within w.disk ∧ ∀ other, Cleared area [dir ++ [name]] w.disk d other := by
    rintro d rfl
    simp only [Cleared, List.mem_singleton, exists_eq_left, forall_eq]
    split
    · rename_i sanctioned
      have free := judged.mp sanctioned
      have pruned := Disk.after_removeTree_path isDir free.1
      refine ⟨pruned.within, fun other => ?_⟩
      rw [pruned.get?]
      exact ⟨fun below => if_pos below.2, fun away => if_neg (away free)⟩
    · rename_i kept
      exact ⟨.refl _, fun other => ⟨fun below => absurd (judged.mpr below.1) kept, fun _ => rfl⟩⟩
  obtain ⟨sub, same⟩ := cleared _ rfl
  rw [after_of_ok run]
  rw [parent] at e
  by_cases sanctioned : area.policy w.disk (Location.path dir) = true
  · rw [Option.filter_some, if_pos sanctioned] at e
    exact ⟨_, sub, same, .inr e⟩
  · rw [Option.filter_some, if_neg sanctioned] at e
    exact ⟨_, sub, same, .inl e⟩

theorem release_clears (area : WorkArea) (ne : loc ≠ []) (isDir : w.disk.IsDirectory loc) :
    (after (release area.policy (Location.path loc) : Action ε Unit) w).disk.Within w.disk ∧
      ∀ other ≠ loc.dropLast, Cleared area [loc] w.disk
        (after (release area.policy (Location.path loc) : Action ε Unit) w).disk other := by
  obtain ⟨dir, name, rfl⟩ : ∃ dir name, loc = dir ++ [name] :=
    ⟨_, _, (List.dropLast_concat_getLast ne).symm⟩
  rw [List.dropLast_concat]
  obtain ⟨d, sub, cleared, e | e⟩ := of_release (ε := ε) area isDir
  · rw [e]
    exact ⟨sub, fun other _ => cleared other⟩
  · rw [e]
    refine ⟨(Disk.after_removeDirectory_within d _).trans sub, fun other proper => ?_⟩
    unfold Cleared
    rw [Disk.get?_after_dropParent (Disk.isDirectory_of_child isDir) sub proper]
    exact cleared other

/-- Releases of two directories apart from each other make nothing, and delete just the ones that
the area frees, but for the parents. -/
theorem releases_clear (area : WorkArea) (ne : base ≠ []) (ne' : loc ≠ [])
    (isDir : w.disk.IsDirectory base) (isDir' : w.disk.IsDirectory loc) (apart : base.Disjoint loc)
    {d : Disk} (h : d = (after (release area.policy (Location.path loc) : Action ε Unit)
      (after (release area.policy (Location.path base) : Action ε Unit) w)).disk) :
    d.Within w.disk ∧ ∀ other, other ≠ base.dropLast → other ≠ loc.dropLast →
      Cleared area [base, loc] w.disk d other := by
  subst h
  obtain ⟨sub, cleared⟩ := release_clears (ε := ε) area ne isDir
  have still : (after (release area.policy (Location.path base) : Action ε Unit)
      w).disk.IsDirectory loc := by
    have proper := apart.append_ne_dropLast []
    rw [List.append_nil] at proper
    rw [Disk.IsDirectory, (cleared loc proper).2]
    · exact isDir'
    · intro layer hm _
      rw [List.mem_singleton.mp hm]
      exact apart.1
  obtain ⟨sub', cleared'⟩ := release_clears (ε := ε) area ne' still
  exact ⟨sub'.trans sub, fun other proper proper' =>
    (cleared other proper).trans (cleared' other proper')⟩

theorem releases_keep (area : WorkArea) (ne : base ≠ []) (ne' : loc ≠ [])
    (isDir : w.disk.IsDirectory base) (isDir' : w.disk.IsDirectory loc) (apart : base.Disjoint loc)
    {d : Disk} (h : d = (after (release area.policy (Location.path loc) : Action ε Unit)
      (after (release area.policy (Location.path base) : Action ε Unit) w)).disk) :
    d.Within w.disk ∧ ∀ other, base.Disjoint other → loc.Disjoint other → ∀ names,
      d.get? (other ++ names) = w.disk.get? (other ++ names) := by
  obtain ⟨sub, cleared⟩ := releases_clear area ne ne' isDir isDir' apart h
  refine ⟨sub, fun other away away' names => ?_⟩
  refine (cleared _ (away.append_ne_dropLast names) (away'.append_ne_dropLast names)).2 ?_
  simp only [List.forall_mem_cons]
  exact ⟨fun _ => away.not_prefix_append names, fun _ => away'.not_prefix_append names, nofun⟩

end Release
end LayeredTree
