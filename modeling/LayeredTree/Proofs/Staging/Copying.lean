import LayeredTree.Command.Staging
import LayeredTree.Proofs.Disk.Pouring
import LayeredTree.Proofs.Releasing

set_option autoImplicit false

namespace LayeredTree

variable {w : World} {d : Disk} {source out : Path} {origin root : Location}
variable {entries : List TreeEntry} {files : Location → Option Bytes} {scope : WalkScope}

namespace Staging

/-- The entries lie below a place, each file under its path. -/
def LieBelow (d : Disk) (source : Path) (origin : Location) (entries : List TreeEntry) : Prop :=
  ∀ entry ∈ entries, ∃ names : Location, names ≠ [] ∧ entry.key = names.key ∧
    ∀ key path size, entry = .file key path size → path = Disk.pathBelow source names ∧
      ∃ content, d.get? (origin ++ names) = some (.file content)

theorem lieBelow_of_walked (h : d.Walked scope source origin entries) :
    LieBelow d source origin entries := by
  intro entry hm
  cases entry with
  | file key path size =>
    obtain ⟨names, content, ne, found, -, rfl, rfl, -⟩ := h.mem_file_iff.mp hm
    exact ⟨names, ne, rfl, by rintro _ _ _ ⟨⟩; exact ⟨rfl, content, found⟩⟩
  | link key path =>
    obtain ⟨names, target, ne, -, -, rfl, -⟩ := h.mem_link_iff.mp hm
    exact ⟨names, ne, rfl, by rintro _ _ _ ⟨⟩⟩

/-- Entries are copied one after the other. The disk before all of them is kept in view, as their
contents are taken from there. -/
private theorem copyEntries_from (reach : d.Reaches source origin)
    (isDir : d.IsDirectory origin) (lists : LieBelow d source origin entries) (w : World)
    (same : Disk.SameOutside root d w.disk) (paves : d.Paves w.disk)
    (target : d.Reaches out root) (there : d.IsDirectory root)
    (holdsFiles : w.disk.HoldsFiles root files) :
    ∃ files' v, Disk.SameOutside root d v.disk ∧ d.Paves v.disk ∧ v.disk.HoldsFiles root files' ∧
      ((∃ e, copyEntries source out entries w = .error e v) ∨
        copyEntries source out entries w = .ok () v ∧ (∀ key path, .link key path ∉ entries) ∧
          (origin.Disjoint root → ∀ names : Location, files' names =
            if names.key ∈ entries.map TreeEntry.key then d.fileAt (origin ++ names)
            else files names)) := by
  induction entries generalizing w files with
  | nil => exact ⟨files, w, same, paves, holdsFiles, .inr ⟨rfl, by simp, fun _ _ => rfl⟩⟩
  | cons entry rest ih =>
    obtain ⟨names, ne, named, held⟩ := lists entry List.mem_cons_self
    have lists' : LieBelow d source origin rest := fun entry hm =>
      lists entry (List.mem_cons_of_mem _ hm)
    cases entry with
    | link key path => exact ⟨files, w, same, paves, holdsFiles, .inl ⟨_, rfl⟩⟩
    | file key path size =>
      obtain ⟨rfl, content, here⟩ := held _ _ _ rfl
      obtain rfl : key = names.key := named
      obtain ⟨d', same', paves', ⟨⟨fault, failed⟩, holdsFiles'⟩ |
        ⟨content', copied, holdsFiles', taken⟩⟩ :=
        holdsFiles.copyInto (target.paved there paves) (paves.isDirectory there) ne
          (Disk.pathBelow source names)
      · exact ⟨files, { w with disk := d' }, same.trans same', paves.trans paves', holdsFiles',
          .inl ⟨_, bind_of_error (World.failingAs_of_error (World.onDisk_of_error failed))⟩⟩
      · obtain ⟨files', v, outside, paved, holdsFiles'', ends⟩ :=
          ih lists' { w with disk := d' } (same.trans same') (paves.trans paves') holdsFiles'
        have run : copyEntries source out
            (.file names.key (Disk.pathBelow source names) size :: rest) w =
              copyEntries source out rest { w with disk := d' } :=
          bind_of_ok (World.failingAs_of_ok (World.onDisk_of_ok copied))
        rw [run]
        refine ⟨files', v, outside, paved, holdsFiles'', ends.imp_right ?_⟩
        rintro ⟨run', plain, all⟩
        refine ⟨run', by simpa using plain, fun apart other => ?_⟩
        have off : origin ++ names ≠ root ++ names := fun e =>
          apart.symm.not_prefix_append names (e ▸ List.prefix_append _ _)
        have still : w.disk.get? (origin ++ names) = some (.file content) := by
          rw [same.2, here]
          exact fun on => apart.symm.not_prefix_append names on.1
        have way := (reach.paved isDir paves).below still rfl
        rw [all apart other, taken _ _ way off still, Disk.put, List.map_cons, TreeEntry.key]
        by_cases later : other.key ∈ rest.map TreeEntry.key
        · rw [if_pos later, if_pos (List.mem_cons_of_mem _ later)]
        · rw [if_neg later]
          by_cases e : other = names
          · subst e
            rw [if_pos rfl, if_pos List.mem_cons_self, Disk.fileAt_eq_some_iff.mpr here]
          · rw [if_neg e, if_neg]
            intro inside
            cases List.mem_cons.mp inside with
            | inl same => exact e (Location.key_injective same)
            | inr inside => exact later inside

/-- A copy of a tree changes nothing but what lies below its target. If it succeeds, the tree had
no links, and its files are there now under their addresses, unless the places overlap. -/
theorem copyTree_run (scope : WalkScope) (source : Path) (w : World)
    (target : w.disk.Reaches out root) (there : w.disk.IsDirectory root)
    (holdsFiles : w.disk.HoldsFiles root files) :
    ∃ files' v, Disk.SameOutside root w.disk v.disk ∧ w.disk.Paves v.disk ∧
      v.disk.HoldsFiles root files' ∧ ((∃ e, copyTree scope source out w = .error e v) ∨
        copyTree scope source out w = .ok () v ∧ ∃ entries origin,
          w.disk.walk scope source = .ok entries ∧ w.disk.Walked scope source origin entries ∧
            (∀ key path, .link key path ∉ entries) ∧
            (origin.Disjoint root → ∀ names : Location, files' names =
              ((w.disk.contentsOf entries).get? names.key).or (files names))) := by
  have start : w.disk.Paves w.disk := (Disk.Within.refl _).paves
  cases walk : w.disk.walk scope source with
  | error e =>
    exact ⟨files, w, .refl _ _, start, holdsFiles,
      .inl ⟨e, bind_of_error (World.onDiskAsk_of_error walk)⟩⟩
  | ok entries =>
    obtain ⟨origin, walked⟩ := Disk.walked_of_walk walk
    obtain ⟨files', v, same, paves, holdsFiles', ends⟩ := copyEntries_from walked.reaches
      walked.isDirectory (lieBelow_of_walked walked) w (.refl _ _) start target there holdsFiles
    have run : copyTree scope source out w = copyEntries source out entries w :=
      bind_of_ok (World.onDiskAsk_of_ok walk)
    rw [run]
    refine ⟨files', v, same, paves, holdsFiles', ends.imp_right ?_⟩
    rintro ⟨run', plain, all⟩
    refine ⟨run', entries, origin, rfl, walked, plain, fun apart names => ?_⟩
    rw [all apart names]
    split
    · rename_i listed
      obtain ⟨entry, hm, named⟩ := List.mem_map.mp listed
      cases entry with
      | link key path => exact absurd hm (plain key path)
      | file key path size =>
        obtain ⟨names', content, ne, found, covers, e, -⟩ := walked.mem_file_iff.mp hm
        obtain rfl : names' = names := Location.key_injective (e.symm.trans named)
        rw [Disk.fileAt_eq_some_iff.mpr found,
          walked.get?_contentsOf.mpr ⟨names', ne, found, covers, rfl⟩]
        rfl
    · rename_i off
      have none : (w.disk.contentsOf entries).get? names.key = none := by
        by_contra some
        obtain ⟨content, held⟩ := Option.ne_none_iff_exists'.mp some
        obtain ⟨names', ne, found, covers, e⟩ := walked.get?_contentsOf.mp held
        have hm := walked.mem_file_iff.mpr ⟨names', content, ne, found, covers, e, rfl, rfl⟩
        exact off (List.mem_map.mpr ⟨_, hm, rfl⟩)
      rw [none, Option.none_or]

end Staging
end LayeredTree
