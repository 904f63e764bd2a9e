import LayeredTree.Tree.Digest
import LayeredTree.Proofs.Tree.Walks

set_option autoImplicit false

namespace LayeredTree

variable {d : Disk} {root : Path} {loc : Location} {entries : List TreeEntry} {key : Key}
variable {content : Bytes} {m : KeyMap Bytes}

namespace Disk

def contentAt? (d : Disk) (path : Path) : Option Bytes :=
  match d.openAt path with
  | .ok (_, .file content) => some content
  | _ => none

/-- The files among the entries of a walk, with what they hold. -/
def contentsOf (d : Disk) (entries : List TreeEntry) : KeyMap Bytes :=
  entries.filterMap fun
    | .file key path _ => (d.contentAt? path).map fun content => (key, content)
    | .link .. => none

/-- The content of a tree. -/
def contents (d : Disk) (root : Path) : Except StorageError (KeyMap Bytes) :=
  (d.walk .content root).map d.contentsOf

theorem contents_eq_ok_iff : d.contents root = .ok m ↔
    ∃ entries, d.walk .content root = .ok entries ∧ m = d.contentsOf entries := by
  unfold contents
  cases d.walk .content root with
  | error e => exact ⟨nofun, fun ⟨_, h, _⟩ => nomatch h⟩
  | ok entries =>
    constructor
    · intro h
      cases h
      exact ⟨entries, rfl, rfl⟩
    · rintro ⟨_, h, rfl⟩
      cases h
      rfl

theorem contentAt?_eq_some_iff {path : Path} : d.contentAt? path = some content ↔
    ∃ loc, d.Reaches path loc ∧ Short path ∧ d.get? loc = some (.file content) := by
  unfold contentAt?
  constructor
  · intro h
    split at h
    · rename_i loc content' ho
      cases h
      exact ⟨loc, openAt_file_iff.mp ho⟩
    · cases h
  · rintro ⟨loc, h⟩
    rw [openAt_file_iff.mpr h]

theorem contentAt?_mono {d' : Disk} {path : Path} (sub : d.Within d')
    (h : d.contentAt? path = some content) : d'.contentAt? path = some content := by
  obtain ⟨loc, reaches, short, hg⟩ := contentAt?_eq_some_iff.mp h
  exact contentAt?_eq_some_iff.mpr ⟨loc, reaches.mono sub, short, sub.2 _ _ hg⟩

theorem sorted_contentsOf (h : TreeEntry.InOrder entries) : (d.contentsOf entries).Sorted := by
  have named : ∀ {entry : TreeEntry} {p : Key × Bytes}, (match entry with
      | .file key path _ => (d.contentAt? path).map fun content => (key, content)
      | .link .. => none) = some p → p.1 = entry.key := by
    intro entry p hp
    cases entry with
    | file key path size =>
      obtain ⟨content, -, rfl⟩ := Option.map_eq_some_iff.mp hp
      rfl
    | link => cases hp
  refine List.pairwise_filterMap.mpr (h.imp fun {a b} less p hp q hq => ?_)
  rw [named hp, named hq]
  exact less

theorem Walked.contentAt? {scope : WalkScope} (h : d.Walked scope root loc entries)
    {names : Location} (ne : names ≠ []) (hg : d.get? (loc ++ names) = some (.file content))
    (covers : Covers scope names (.file content)) :
    d.contentAt? (pathBelow root names) = some content :=
  contentAt?_eq_some_iff.mpr ⟨_, h.reaches.below hg rfl, (h.of_file ne hg covers).2, hg⟩

theorem Walked.get?_contentsOf {scope : WalkScope} (h : d.Walked scope root loc entries) :
    (d.contentsOf entries).get? key = some content ↔
      ∃ names : Location, names ≠ [] ∧ d.get? (loc ++ names) = some (.file content) ∧
        Covers scope names (.file content) ∧ key = names.key := by
  rw [KeyMap.get?_eq_some_iff (sorted_contentsOf h.inOrder), contentsOf, List.mem_filterMap]
  constructor
  · rintro ⟨entry, he, hp⟩
    cases entry with
    | file key path size =>
      obtain ⟨names, content', ne, hg, covers, rfl, rfl, -⟩ := h.mem_file_iff.mp he
      dsimp only at hp
      rw [h.contentAt? ne hg covers] at hp
      cases hp
      exact ⟨names, ne, hg, covers, rfl⟩
    | link => cases hp
  · rintro ⟨names, ne, hg, covers, rfl⟩
    refine ⟨_, h.mem_file_iff.mpr ⟨names, content, ne, hg, covers, rfl, rfl, rfl⟩, ?_⟩
    dsimp only
    rw [h.contentAt? ne hg covers]
    rfl

end Disk

def DigestStream.feed (s : DigestStream) (file : Key × Bytes) : DigestStream :=
  ⟨s.bytes ++ frame file.1 file.2.length ++ file.2, s.files + 1⟩

def Digest.ofContents (m : KeyMap Bytes) : Digest :=
  (m.foldl DigestStream.feed .start).finish

namespace Disk

theorem add_file {s : DigestStream} {path : Path} (h : d.contentAt? path = some content) :
    s.add d key path content.length = (.ok (), s.feed (key, content)) := by
  obtain ⟨loc, ho⟩ := contentAt?_eq_some_iff.mp h
  unfold DigestStream.add
  rw [openAt_file_iff.mpr ho]
  simp [DigestStream.feed]

private theorem streamOf_files (h : ∀ key path size, .file key path size ∈ entries →
    ∃ content, d.contentAt? path = some content ∧ size = content.length) (s : DigestStream) :
    d.streamOf s (entries.filter TreeEntry.isFile) =
      .ok ((d.contentsOf entries).foldl DigestStream.feed s) ∧
        (entries.filter TreeEntry.isFile).length = (d.contentsOf entries).length := by
  induction entries generalizing s with
  | nil => exact ⟨rfl, rfl⟩
  | cons entry rest ih =>
    have tail := ih fun key path size hm => h key path size (List.mem_cons_of_mem _ hm)
    cases entry with
    | link key path => exact tail s
    | file key path size =>
      obtain ⟨content, hc, rfl⟩ := h key path size List.mem_cons_self
      have one : d.contentsOf (.file key path content.length :: rest) =
          (key, content) :: d.contentsOf rest :=
        List.filterMap_cons_some (by dsimp only; rw [hc]; rfl)
      rw [one, List.filter_cons_of_pos rfl, streamOf, add_file hc]
      exact ⟨(tail _).1, congrArg (· + 1) (tail s).2⟩

theorem streamOf_of_contents (h : d.contents root = .ok m) : ∃ files,
    d.filesOf .content root = .ok files ∧ files.length = m.length ∧
      d.streamOf .start files = .ok (m.foldl DigestStream.feed .start) := by
  obtain ⟨entries, run, rfl⟩ := contents_eq_ok_iff.mp h
  obtain ⟨loc, walked⟩ := walked_of_walk run
  have met : ∀ key path size, .file key path size ∈ entries →
      ∃ content, d.contentAt? path = some content ∧ size = content.length := by
    intro key path size hm
    obtain ⟨names, content, ne, hg, covers, -, rfl, rfl⟩ := walked.mem_file_iff.mp hm
    exact ⟨content, walked.contentAt? ne hg covers, rfl⟩
  obtain ⟨stream, length⟩ := streamOf_files met .start
  refine ⟨entries.filter TreeEntry.isFile, ?_, length, stream⟩
  rw [filesOf, run]
  rfl

theorem digest_eq_map_contents (root : Path) : d.digest root =
    (d.contents root).map fun m => (Digest.ofContents m, m.length) := by
  cases h : d.contents root with
  | error e =>
    unfold contents at h
    unfold digest filesOf
    cases hw : d.walk .content root with
    | error e' =>
      rw [hw] at h
      cases h
      rfl
    | ok entries =>
      rw [hw] at h
      cases h
  | ok m =>
    obtain ⟨files, found, length, stream⟩ := streamOf_of_contents h
    rw [digest, found]
    change (d.streamOf .start files >>= fun stream => Except.ok (stream.finish, files.length)) = _
    rw [stream, length]
    rfl

theorem digest_of_contents (h : d.contents root = .ok m) :
    d.digest root = .ok (Digest.ofContents m, m.length) := by
  rw [digest_eq_map_contents, h]
  rfl

end Disk
end LayeredTree
