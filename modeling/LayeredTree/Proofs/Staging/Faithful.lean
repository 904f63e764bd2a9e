import LayeredTree.Proofs.Disk.Digging
import LayeredTree.Proofs.Patch.Storing
import LayeredTree.Proofs.Staging.Staged
import LayeredTree.Proofs.Tree.Showing

set_option autoImplicit false

namespace LayeredTree

variable {d d' d'' : Disk} {temp origin : Location} {source p : Path} {scope : WalkScope}
variable {name : Name} {entries : List TreeEntry} {m : KeyMap Bytes}

namespace Disk

theorem covers_everything (names : Location) (node : Node) : Covers .everything names node := by
  cases names <;> exact ⟨rfl, by simp [WalkScope.excludes, WalkScope.everything]⟩

theorem Walked.content (h : d.Walked .everything source origin entries)
    (plain : ∀ key path, .link key path ∉ entries) : ∃ entries',
      d.walk .content source = .ok entries' ∧ ∀ key path, .link key path ∉ entries' := by
  obtain ⟨entries', run⟩ : ∃ entries', d.walk .content source = .ok entries' :=
    exists_walk h.reaches h.short h.isDirectory fun names node ne found _ =>
      h.reported names node ne found (covers_everything names node)
  obtain ⟨loc, walked⟩ := walked_of_walk run
  cases walked.reaches.unique h.reaches
  refine ⟨entries', run, fun key path hm => ?_⟩
  obtain ⟨names, target, ne, found, -, facts⟩ := walked.mem_link_iff.mp hm
  exact plain key path
    (h.mem_link_iff.mpr ⟨names, target, ne, found, covers_everything names _, facts⟩)

end Disk

namespace Staging

/-- A tree does not hold the temp hierarchy. If it is missing, it is not looked for under a name
that may be drawn for a staged tree. -/
structure Outside (d : Disk) (temp : Location) (source : Path) : Prop where
  holds : ∀ loc, d.Reaches source loc → ¬ loc <+: temp
  sought : ∀ dir name rest,
    d.spotOf true source.text source.segments = .ok (.free dir name rest) →
      dir = temp → ¬ IsStagedName name

namespace Outside

theorem of_entry (spot : d.spotOf true p.text p.segments = .ok (.entry origin))
    (off : ¬ origin <+: temp) : Outside d temp p := by
  refine ⟨fun loc reach => ?_, fun dir name rest free => ?_⟩
  · cases spot.symm.trans (Disk.reaches_iff_spotOf.mp reach).2.2
    exact off
  · cases spot.symm.trans free

theorem misses (h : Outside d temp p) (drawn : IsStagedName name)
    (new : d.NewAt (temp ++ [name]) d') : d.Misses d' p := by
  intro dir next rest spot
  obtain ⟨isDir, free⟩ := Disk.free_of_spotOf spot
  rw [new.get?, free]
  intro le
  rcases List.prefix_concat_iff.mp le with e | ⟨more, rfl⟩
  · obtain ⟨rfl, last⟩ := List.append_inj' e rfl
    cases last
    exact h.sought temp name rest spot rfl drawn
  · rw [Disk.IsDirectory, Disk.get?_append_of_none new.free] at isDir
    cases isDir

theorem reaches_iff (h : Outside d temp p) (standing : d.IsDirectory d.here)
    (drawn : IsStagedName name) (new : d.NewAt (temp ++ [name]) d') {loc : Location} :
    d'.Reaches p loc ↔ d.Reaches p loc :=
  Disk.reaches_iff_of_misses new.within standing (h.misses drawn new)

theorem newAt (h : Outside d temp p) (standing : d.IsDirectory d.here)
    (drawn : IsStagedName name) (new : d.NewAt (temp ++ [name]) d') : Outside d' temp p := by
  refine ⟨fun loc reach => h.holds loc ((h.reaches_iff standing drawn new).mp reach),
    fun dir next rest spot => ?_⟩
  rw [Disk.spotOf_of_misses new.within standing (h.misses drawn new)] at spot
  exact h.sought dir next rest spot

theorem walked (h : Outside d temp p) (standing : d.IsDirectory d.here)
    (drawn : IsStagedName name) (new : d.NewAt (temp ++ [name]) d') (walk : d'.walk scope p = .ok entries)
    (w : d'.Walked scope p origin entries) : d.walk scope p = .ok entries ∧
      d.Walked scope p origin entries ∧ Location.Disjoint (temp ++ [name]) origin ∧
        ∀ names, d'.get? (origin ++ names) = d.get? (origin ++ names) := by
  have reach := (h.reaches_iff standing drawn new).mp w.reaches
  have isDir : d.IsDirectory origin := by
    obtain ⟨node, found⟩ := reach.exists
    cases (new.within.2 _ _ found).symm.trans w.isDirectory
    exact found
  have apart := Location.disjoint_of_free new.free isDir (h.holds origin reach)
  have same : ∀ names, d'.get? (origin ++ names) = d.get? (origin ++ names) := fun names =>
    new.get? _ (apart.not_prefix_append names)
  have walk' := Disk.walk_congr w.reaches reach (fun names => (same names).symm) walk
  obtain ⟨origin', w'⟩ := Disk.walked_of_walk walk'
  cases w'.reaches.unique reach
  exact ⟨walk', w', apart, same⟩

end Outside

/-- A tree can be walked and has no links, and the copy has its files as far as the scope goes. -/
structure Copies (d : Disk) (scope : WalkScope) (source : Path) (place : Location) (d' : Disk)
    (origin : Location) (entries : List TreeEntry) : Prop where
  walk : d.walk scope source = .ok entries
  walked : d.Walked scope source origin entries
  plain : ∀ key path, .link key path ∉ entries
  files : ∀ names ≠ [], ∀ content, Disk.Covers scope names (.file content) →
    (d.get? (origin ++ names) = some (.file content) ↔
      d'.get? (place ++ names) = some (.file content))

theorem Staged.copies (h : Staged d temp scope source name d') (outside : Outside d temp source)
    (standing : d.IsDirectory d.here) :
    ∃ origin entries, Copies d scope source (temp ++ [name]) d' origin entries := by
  obtain ⟨d₀, entries, origin, files, opened, walk, w, plain, holdsFiles, all⟩ := h.copied
  obtain ⟨walk', w', apart, same⟩ := outside.walked standing h.drawn opened.newAt walk w
  refine ⟨origin, entries, walk', w', plain, fun names ne content covers => ?_⟩
  have held := all apart.symm names
  rw [← same]
  constructor
  · intro found
    exact holdsFiles.held names ne content
      (held.trans (w.get?_contentsOf.mpr ⟨names, ne, found, covers, rfl⟩))
  · intro found
    rcases holdsFiles.only names ne _ found with e | ⟨content', there, e⟩
    · cases e
    · cases e
      rw [held] at there
      obtain ⟨names', -, found', -, e⟩ := w.get?_contentsOf.mp there
      cases Location.key_injective e
      exact found'

namespace Copies

variable {place : Location} {q : Path}

theorem before {d₀ : Disk} (h : Copies d scope source place d' origin entries)
    (outside : Outside d₀ temp source) (standing : d₀.IsDirectory d₀.here)
    (drawn : IsStagedName name) (new : d₀.NewAt (temp ++ [name]) d) :
    Copies d₀ scope source place d' origin entries := by
  obtain ⟨walk, w, -, same⟩ := outside.walked standing drawn new h.walk h.walked
  refine ⟨walk, w, h.plain, fun names ne content covers => ?_⟩
  rw [← same, h.files names ne content covers]

theorem later (h : Copies d scope source place d' origin entries)
    (same : ∀ names, d''.get? (place ++ names) = d'.get? (place ++ names)) :
    Copies d scope source place d'' origin entries := by
  refine ⟨h.walk, h.walked, h.plain, fun names ne content covers => ?_⟩
  rw [same, h.files names ne content covers]

theorem contents (h : Copies d scope source place d' origin entries)
    (known : scope = .content ∨ scope = .everything) (reach : d'.Reaches q place)
    (held : d'.contents q = .ok m) : ∃ entries', d.walk .content source = .ok entries' ∧
      d.contentsOf entries' = m ∧ ∀ key path, .link key path ∉ entries' := by
  obtain ⟨entries', walk', plain'⟩ : ∃ entries', d.walk .content source = .ok entries' ∧
      ∀ key path, .link key path ∉ entries' := by
    rcases known with rfl | rfl
    · exact ⟨entries, h.walk, h.plain⟩
    · exact h.walked.content h.plain
  refine ⟨entries', walk', ?_, plain'⟩
  refine Disk.contents_eq_of_files h.walked.reaches reach
    (Disk.contents_eq_ok_iff.mpr ⟨entries', walk', rfl⟩) held fun names ne content covers => ?_
  refine h.files names ne content ?_
  rcases known with rfl | rfl
  · exact covers
  · exact Disk.covers_everything names _

theorem record {record : PatchRecord} (h : Copies d .everything source place d' origin entries)
    (reach : d'.Reaches q place) (bare : d'.Linkless place) (held : d'.record q = .ok record) :
    d.record source = .ok record := by
  obtain ⟨content, there, reads, version⟩ := Disk.record_eq_ok_iff.mp held
  rw [Disk.recordPath_eq] at there
  obtain ⟨goal, reach', -, found⟩ := Disk.contentAt?_eq_some_iff.mp there
  rw [reach.eq_append_of_below bare reach'] at found
  have covers := Disk.covers_everything [sidecar, PatchRecord.file] (.file content)
  have found' := (h.files _ (by simp) content covers).mpr found
  refine Disk.record_eq_ok_iff.mpr ⟨content, ?_, reads, version⟩
  rw [Disk.recordPath_eq]
  exact h.walked.contentAt? (by simp) found' covers

end Copies
end Staging
end LayeredTree
