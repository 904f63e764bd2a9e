import LayeredTree.Proofs.Blindness
import LayeredTree.Proofs.FreshNames
import LayeredTree.Proofs.Patch.Planning

set_option autoImplicit false

namespace LayeredTree

open World

variable {w w' v : World} {d d' : Disk} {entries base patch : List TreeEntry} {root : Path}
variable {loc goal : Location} {names : Location} {scope : WalkScope} {key : Key} {out : Path}
variable {markers : List String} {content : Bytes}

namespace Disk.Walked

theorem get?_filePaths (h : d.Walked scope root loc entries) {path : Path} :
    (filePaths entries).get? key = some path ↔
      ∃ (names : Location) (content : Bytes), names ≠ [] ∧
        d.get? (loc ++ names) = some (.file content) ∧ Covers scope names (.file content) ∧
          key = names.key ∧ path = pathBelow root names := by
  rw [KeyMap.get?_eq_some_iff (sorted_filePaths h.inOrder), filePaths, List.mem_filterMap]
  constructor
  · rintro ⟨entry, he, hp⟩
    cases entry with
    | link => cases hp
    | file key path size =>
      cases hp
      obtain ⟨names, content, ne, hg, covers, rfl, rfl, -⟩ := h.mem_file_iff.mp he
      exact ⟨names, content, ne, hg, covers, rfl, rfl⟩
  · rintro ⟨names, content, ne, hg, covers, rfl, rfl⟩
    exact ⟨_, h.mem_file_iff.mpr ⟨names, content, ne, hg, covers, rfl, rfl, rfl⟩, rfl⟩

theorem bind_contentAt? (h : d.Walked scope root loc entries) (key : Key) :
    ((filePaths entries).get? key).bind d.contentAt? = (d.contentsOf entries).get? key := by
  apply Option.ext
  intro content
  rw [Option.bind_eq_some_iff, h.get?_contentsOf]
  constructor
  · rintro ⟨path, hp, hc⟩
    obtain ⟨names, content', ne, hg, covers, rfl, rfl⟩ := h.get?_filePaths.mp hp
    rw [h.contentAt? ne hg covers] at hc
    cases hc
    exact ⟨names, ne, hg, covers, rfl⟩
  · rintro ⟨names, ne, hg, covers, rfl⟩
    exact ⟨_, h.get?_filePaths.mpr ⟨names, content, ne, hg, covers, rfl, rfl⟩,
      h.contentAt? ne hg covers⟩

theorem get?_filePaths_eq_none_iff (h : d.Walked scope root loc entries) (key : Key) :
    (filePaths entries).get? key = none ↔ (d.contentsOf entries).get? key = none := by
  rw [← h.bind_contentAt?]
  cases hp : (filePaths entries).get? key with
  | none => simp
  | some path =>
    obtain ⟨names, content, ne, hg, covers, rfl, rfl⟩ := h.get?_filePaths.mp hp
    simp [h.contentAt? ne hg covers]

end Disk.Walked

namespace Patch

/-- What a merge has for an address: what the patch has, or what the base has and no marker
deletes. -/
def merged (base patch : KeyMap Bytes) (markers : List String) (key : Key) : Option Bytes :=
  (patch.get? key).or (if key ∈ markers.map Bytes.ofString then none else base.get? key)

/-- A base with this content takes the patch. -/
structure Mergeable (base patch : KeyMap Bytes) (entries : List TreeEntry)
    (markers : List String) : Prop where
  plain : ∀ key path, .link key path ∉ entries
  accepted : ∀ raw ∈ markers, ∃ key, Key.ofMarker raw = .ok key
  spared : ∀ raw ∈ markers, patch.get? (Bytes.ofString raw) = none
  found : ∀ raw ∈ markers, base.get? (Bytes.ofString raw) ≠ none
  apart : ∀ key parent, merged base patch markers key ≠ none → parent ∈ Key.ancestors key →
    merged base patch markers parent = none

variable {before after : Path} {baseLoc patchLoc : Location}

theorem bind_sourceOf (hb : d.Walked scope before baseLoc base)
    (hp : d.Walked scope after patchLoc patch) (markers : List String) (key : Key) :
    (MergePlan.sourceOf base patch markers key).bind (fun source => d.contentAt? source.path) =
      merged (d.contentsOf base) (d.contentsOf patch) markers key := by
  rw [merged, ← hb.bind_contentAt?, ← hp.bind_contentAt?, MergePlan.sourceOf]
  cases hs : (filePaths patch).get? key with
  | some path =>
    obtain ⟨names, content, ne, hg, covers, rfl, rfl⟩ := hp.get?_filePaths.mp hs
    simp [Source.path, hp.contentAt? ne hg covers]
  | none =>
    by_cases deleted : key ∈ markers.map Bytes.ofString
    · rw [if_pos deleted, if_pos deleted]
      rfl
    · rw [if_neg deleted, if_neg deleted]
      cases (filePaths base).get? key <;> rfl

theorem sourceOf_eq_none_iff (hb : d.Walked scope before baseLoc base)
    (hp : d.Walked scope after patchLoc patch) (markers : List String) (key : Key) :
    MergePlan.sourceOf base patch markers key = none ↔
      merged (d.contentsOf base) (d.contentsOf patch) markers key = none := by
  unfold MergePlan.sourceOf merged
  rw [Option.or_eq_none_iff, Option.or_eq_none_iff, Option.map_eq_none_iff,
    hp.get?_filePaths_eq_none_iff]
  split
  · simp
  · rw [Option.map_eq_none_iff, hb.get?_filePaths_eq_none_iff]

theorem isPlannable_iff_mergeable (hb : d.Walked scope before baseLoc base)
    (hp : d.Walked scope after patchLoc patch) (markers : List String) :
    MergePlan.IsPlannable base patch markers ↔
      Mergeable (d.contentsOf base) (d.contentsOf patch) patch markers := by
  constructor
  · intro h
    refine ⟨h.plain, h.readable, fun raw hr => ?_, fun raw hr => ?_, fun key parent => ?_⟩
    · exact (hp.get?_filePaths_eq_none_iff _).mp (h.spared raw hr)
    · rw [ne_eq, ← hb.get?_filePaths_eq_none_iff]
      exact h.found raw hr
    · rw [ne_eq, ← sourceOf_eq_none_iff hb hp, ← sourceOf_eq_none_iff hb hp]
      exact h.apart key parent
  · intro h
    refine ⟨h.plain, h.accepted, fun raw hr => ?_, fun raw hr => ?_, fun key parent => ?_⟩
    · exact (hp.get?_filePaths_eq_none_iff _).mpr (h.spared raw hr)
    · rw [ne_eq, hb.get?_filePaths_eq_none_iff]
      exact h.found raw hr
    · rw [ne_eq, sourceOf_eq_none_iff hb hp, sourceOf_eq_none_iff hb hp]
      exact h.apart key parent

theorem of_merged (hb : d.Walked scope before baseLoc base)
    (hp : d.Walked scope after patchLoc patch)
    (h : merged (d.contentsOf base) (d.contentsOf patch) markers key = some content) :
    ∃ names : Location, names ≠ [] ∧ key = names.key ∧ Disk.Spelled names ∧
      Disk.Covers scope names (.file content) := by
  rcases Option.or_eq_some_iff.mp h with h | ⟨-, h⟩
  · obtain ⟨names, ne, hg, covers, e⟩ := hp.get?_contentsOf.mp h
    exact ⟨names, ne, e, (hp.of_file ne hg covers).1, covers⟩
  · split at h
    · cases h
    · obtain ⟨names, ne, hg, covers, e⟩ := hb.get?_contentsOf.mp h
      exact ⟨names, ne, e, (hb.of_file ne hg covers).1, covers⟩

end Patch

namespace MergePlan

/-- Each file of the list has a place and a source that can be copied there. -/
def Writable (d : Disk) (target : Location → Option Bytes) (files : KeyMap Source) : Prop :=
  ∀ p ∈ files, ∃ (names : Location) (content : Bytes), names ≠ [] ∧ p.1 = names.key ∧
    target names = some content ∧ d.contentAt? p.2.path = some content

/-- Each file of the list has a path that is short enough. -/
def ShortTargets (out : Path) (files : KeyMap Source) : Prop :=
  ∀ p ∈ files, Disk.Short (Key.path out p.1)

/-- Files that are apart are all written, one after the other, if their paths are short enough.
Otherwise the run fails, and what it did lies below the output. -/
theorem write_from {target : Location → Option Bytes} (apart : Disk.Apart target)
    (tidy : out.IsTidy) (files : KeyMap Source) (done : List Key) (sorted : files.Sorted)
    (new : ∀ p ∈ files, p.1 ∉ done) (w : World) (host : w.disk.Hosts out goal)
    (writable : Writable w.disk target files)
    (holdsTree : w.disk.HoldsTree goal (Disk.soFar target done)) :
    ∃ d', w.disk.Within d' ∧ Disk.SameOutside goal w.disk d' ∧
      (ShortTargets out files ∧ MergePlan.write out files w = .ok () { w with disk := d' } ∧
          d'.HoldsTree goal (Disk.soFar target (files.keys ++ done)) ∨
        ¬ ShortTargets out files ∧
          ∃ e, MergePlan.write out files w = .error e { w with disk := d' }) := by
  -- The disk always carries the target at the keys in `done` and nothing else.
  induction files generalizing done w with
  | nil => exact ⟨w.disk, .refl _, .refl _ _, .inl ⟨List.forall_mem_nil _, rfl, holdsTree⟩⟩
  | cons file rest ih =>
    obtain ⟨key, source⟩ := file
    obtain ⟨least, tail⟩ := List.pairwise_cons.mp sorted
    obtain ⟨names, content, ne, rfl, value, held⟩ := writable _ List.mem_cons_self
    have fits : ShortTargets out ((Location.key names, source) :: rest) ↔
        Disk.Short (Key.path out names.key) ∧ ShortTargets out rest := List.forall_mem_cons
    rw [fits]
    by_cases short : Disk.Short (Key.path out names.key)
    · obtain ⟨parent, d₁, d₂, up, made, copied, sub, holdsTree', outside⟩ :=
        host.put apart holdsTree ne (new _ List.mem_cons_self) value short held
      have step : MergePlan.write out ((Location.key names, source) :: rest) w =
          MergePlan.write out rest { w with disk := d₂ } := by
        rw [MergePlan.write]
        dsimp only
        rw [up]
        dsimp only
        rw [bind_of_ok (failingAs_of_ok (onDisk_of_ok made)),
          bind_of_ok (failingAs_of_ok (onDisk_of_ok copied))]
      have new' := KeyMap.notMem_of_sorted sorted new
      have writable' : Writable d₂ target rest := by
        intro p hp
        obtain ⟨names', content', ne', e, value', held'⟩ :=
          writable p (List.mem_cons_of_mem _ hp)
        exact ⟨names', content', ne', e, value', Disk.contentAt?_mono sub held'⟩
      obtain ⟨d', sub', outside', ends⟩ := ih (Location.key names :: done) tail new'
        { w with disk := d₂ } (host.mono sub) writable' holdsTree'
      refine ⟨d', sub.trans sub', outside.trans outside', ?_⟩
      rw [step]
      rcases ends with ⟨fit, run, carried⟩ | ⟨long, e, run⟩
      · have order : ∀ key, key ∈ KeyMap.keys rest ++ Location.key names :: done ↔
            key ∈ KeyMap.keys ((Location.key names, source) :: rest) ++ done := by
          intro key
          simp only [KeyMap.keys, List.map_cons, List.mem_append, List.mem_cons, or_left_comm,
            or_assoc]
        rw [Disk.soFar_congr order] at carried
        exact .inl ⟨⟨short, fit⟩, run, carried⟩
      · exact .inr ⟨fun fit => long fit.2, e, run⟩
    · obtain ⟨parent, up, refused⟩ := host.put_long tidy apart holdsTree ne
        (new _ List.mem_cons_self) (by rw [value]; simp) short source.path
      rw [MergePlan.write]
      dsimp only
      rw [up]
      dsimp only
      rcases refused with ⟨fault, made⟩ | ⟨d₁, fault, made, copied, sub, outside⟩
      · exact ⟨w.disk, .refl _, .refl _ _, .inr ⟨fun fit => short fit.1, .ofIo fault,
          bind_of_error (failingAs_of_error (onDisk_of_error made))⟩⟩
      · refine ⟨d₁, sub, outside, .inr ⟨fun fit => short fit.1,
          .io (.copying source.path (Key.path out names.key) fault), ?_⟩⟩
        rw [bind_of_ok (failingAs_of_ok (onDisk_of_ok made))]
        exact bind_of_error (failingAs_of_error (onDisk_of_error copied))

/-- A new output takes all files of a plan, and holds nothing else then. It does so just if their
paths are short enough. -/
theorem write_cases {target : Location → Option Bytes} {files : KeyMap Source}
    (apart : Disk.Apart target) (tidy : out.IsTidy) (sorted : files.Sorted)
    (host : w.disk.Hosts out goal) (bare : w.disk.IsBare goal)
    (writable : Writable w.disk target files)
    (all : ∀ names, target names ≠ none → names.key ∈ files.keys) :
    ∃ d', w.disk.Within d' ∧ Disk.SameOutside goal w.disk d' ∧
      (ShortTargets out files ∧ MergePlan.write out files w = .ok () { w with disk := d' } ∧
          d'.HoldsTree goal target ∨
        ¬ ShortTargets out files ∧
          ∃ e, MergePlan.write out files w = .error e { w with disk := d' }) := by
  have start : w.disk.HoldsTree goal (Disk.soFar target []) := Disk.holdsTree_of_isBare bare
  obtain ⟨d', sub, outside, ends⟩ :=
    write_from apart tidy files [] sorted (by simp) w host writable start
  rw [Disk.soFar_of_all] at ends
  · exact ⟨d', sub, outside, ends⟩
  · intro names there
    rw [List.append_nil]
    exact all names there

end MergePlan
end LayeredTree
