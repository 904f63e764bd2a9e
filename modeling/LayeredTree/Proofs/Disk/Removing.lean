import LayeredTree.Disk.Request
import LayeredTree.Proofs.Disk.Seats
import LayeredTree.Proofs.Runs

set_option autoImplicit false

namespace LayeredTree.Disk

variable {d : Disk} {p : Path} {loc : Location}

/-- Nothing is strictly below the location. -/
def IsBare (d : Disk) (loc : Location) : Prop := ∀ names ≠ [], d.get? (loc ++ names) = none

theorem isBare_iff : (d.below loc).isEmpty = true ↔ d.IsBare loc := below_isEmpty_iff

theorem IsBare.get?_eq_none {other : Location} (h : d.IsBare loc) (le : loc <+: other)
    (ne : other ≠ loc) : d.get? other = none := by
  obtain ⟨names, rfl⟩ := le
  exact h names (by rintro rfl; simp at ne)

theorem isBare_clear (loc : Location) : (d.clear loc).IsBare loc := by
  intro names ne
  rw [get?_clear, if_pos]
  simpa using ne

/-- The directory that a request on its own removes. -/
structure Drops (d : Disk) (p : Path) (loc : Location) : Prop where
  named : ∃ dir name closed, d.resolveLast p = .ok (.name dir name closed) ∧ loc = dir ++ [name]
  isDirectory : d.IsDirectory loc
  isBare : d.IsBare loc

theorem Drops.ne_nil (h : d.Drops p loc) : loc ≠ [] := by
  obtain ⟨dir, name, -, -, rfl⟩ := h.named
  simp

theorem removeDirectory_cases (d : Disk) (p : Path) :
    (∃ loc, d.Drops p loc ∧ removeDirectory p d = .ok () (d.uproot loc)) ∨
      ∃ fault, removeDirectory p d = .error fault d := by
  unfold removeDirectory
  cases hl : d.resolveLast p with
  | error fault =>
    right
    exact ⟨fault, bind_of_error (ask_of_error hl)⟩
  | ok step =>
    rw [bind_of_ok (ask_of_ok hl)]
    cases step with
    | root => exact .inr ⟨_, rfl⟩
    | dot => exact .inr ⟨_, rfl⟩
    | dotDot => exact .inr ⟨_, rfl⟩
    | name dir name closed =>
      dsimp only
      rw [bind_of_ok (show (get : DiskRequest Disk) d = .ok d d from rfl)]
      cases hg : d.get? (dir ++ [name]) with
      | none => exact .inr ⟨_, rfl⟩
      | some node =>
        cases node with
        | directory =>
          dsimp only
          rw [bind_of_ok (show (get : DiskRequest Disk) d = .ok d d from rfl)]
          by_cases bare : (d.below (dir ++ [name])).isEmpty = true
          · left
            rw [if_pos bare]
            exact ⟨dir ++ [name], ⟨⟨dir, name, closed, hl, rfl⟩, hg, isBare_iff.mp bare⟩, rfl⟩
          · right
            rw [if_neg bare]
            exact ⟨_, rfl⟩
        | file => exact .inr ⟨_, rfl⟩
        | link => exact .inr ⟨_, rfl⟩
        | other => exact .inr ⟨_, rfl⟩

theorem removeDirectory_of_drops (h : d.Drops p loc) :
    removeDirectory p d = .ok () (d.uproot loc) := by
  obtain ⟨⟨dir, name, closed, hl, rfl⟩, isDir, bare⟩ := h
  unfold removeDirectory
  rw [bind_of_ok (ask_of_ok hl)]
  dsimp only
  rw [bind_of_ok (show (get : DiskRequest Disk) d = .ok d d from rfl),
    show d.get? (dir ++ [name]) = _ from isDir]
  dsimp only
  rw [bind_of_ok (show (get : DiskRequest Disk) d = .ok d d from rfl),
    if_pos (isBare_iff.mpr bare)]
  rfl

theorem after_removeDirectory_cases (d : Disk) (p : Path) :
    (∃ loc, d.Drops p loc ∧ after (removeDirectory p) d = d.uproot loc) ∨
      after (removeDirectory p) d = d := by
  rcases removeDirectory_cases d p with ⟨loc, h, e⟩ | ⟨fault, e⟩
  · exact .inl ⟨loc, h, after_of_ok e⟩
  · exact .inr (after_of_error e)

theorem Drops.get?_uproot (h : d.Drops p loc) {other : Location} (ne : other ≠ loc) :
    (d.uproot loc).get? other = d.get? other := by
  rw [Disk.get?_uproot h.ne_nil]
  split
  · rename_i le
    exact (h.isBare.get?_eq_none le ne).symm
  · rfl

theorem after_removeDirectory_within (d : Disk) (p : Path) :
    (after (removeDirectory p) d).Within d := by
  rcases after_removeDirectory_cases d p with ⟨loc, -, e⟩ | e
  · rw [e]
    exact uproot_within loc
  · rw [e]
    exact Within.refl d

theorem removeTree_of_directory (h : d.ownEntryAt p = .ok (loc, .directory)) :
    removeTree p d = removeDirectory p (d.clear loc) := by
  unfold removeTree
  rw [bind_of_ok (ask_of_ok h)]
  rfl

theorem after_removeTree_of_directory (h : d.ownEntryAt p = .ok (loc, .directory)) :
    after (removeTree p) d = after (removeDirectory p) (d.clear loc) := by
  unfold after
  rw [removeTree_of_directory h]

theorem after_removeTree_of_plain {node : Node} (h : d.ownEntryAt p = .ok (loc, node))
    (plain : node.isLink = false) (dir : node ≠ .directory) : after (removeTree p) d = d := by
  unfold removeTree after
  rw [bind_of_ok (ask_of_ok h)]
  cases node with
  | link => cases plain
  | directory => exact absurd rfl dir
  | file => rfl
  | other => rfl

theorem after_removeTree_within {node : Node} (h : d.ownEntryAt p = .ok (loc, node))
    (plain : node.isLink = false) : (after (removeTree p) d).Within d := by
  by_cases dir : node = .directory
  · subst dir
    rw [after_removeTree_of_directory h]
    exact (after_removeDirectory_within _ p).trans (clear_within loc)
  · rw [after_removeTree_of_plain h plain dir]
    exact Within.refl d

end LayeredTree.Disk
