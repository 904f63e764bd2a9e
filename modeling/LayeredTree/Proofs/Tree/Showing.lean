import LayeredTree.Proofs.Tree.Building
import LayeredTree.Proofs.Tree.Contents

set_option autoImplicit false

namespace LayeredTree.Disk

variable {d d' : Disk} {out root : Path} {loc goal names : Location} {key : Key} {content : Bytes}
variable {target : Location → Option Bytes} {files : Key → Option Bytes} {m : KeyMap Bytes}

theorem report_directory_of_short {scope : WalkScope} (short : Short (pathBelow root names)) :
    report scope root names .directory = .ok none := by
  unfold report
  dsimp only
  rw [if_neg]
  rintro ⟨-, long⟩
  exact Nat.not_lt.mpr short long

/-- The file has a path that can be opened, and an address if a walk comes to it. -/
structure Visible (out : Path) (names : Location) (content : Bytes) : Prop where
  short : Short (pathBelow out names)
  spelled : Covers .content names (.file content) → Spelled names

theorem walk_of_holdsTree (host : d.Hosts out goal) (h : d.HoldsTree goal target)
    (visible : ∀ names content, target names = some content → Visible out names content) :
    ∃ entries, d.Walked .content out goal entries ∧ d.walk .content out = .ok entries ∧
      (∀ key path, .link key path ∉ entries) ∧
        ∀ key content, (d.contentsOf entries).get? key = some content ↔
          ∃ names : Location, names ≠ [] ∧ key = names.key ∧ target names = some content ∧
            Covers .content names (.file content) := by
  have reported : ∀ names node, names ≠ [] → d.get? (goal ++ names) = some node →
      Covers .content names node → ∃ answer, report .content out names node = .ok answer := by
    intro names node ne hg covers
    rcases (h names ne node).mp hg with ⟨content, there, rfl⟩ | ⟨rfl, rest, -, there⟩
    · have v := visible names content there
      exact ⟨_, report_file_eq_ok_iff.mpr ⟨v.spelled covers, v.short, rfl⟩⟩
    · obtain ⟨content, there⟩ := Option.ne_none_iff_exists'.mp there
      have v := visible _ content there
      exact ⟨none, report_directory_of_short (short_of_append host.reaches.1 v.short)⟩
  obtain ⟨entries, run⟩ := exists_walk host.reaches host.short host.isDirectory reported
  obtain ⟨loc, walked⟩ := walked_of_walk run
  obtain rfl : loc = goal := walked.reaches.unique host.reaches
  have file : ∀ names ≠ [], ∀ content,
      d.get? (loc ++ names) = some (.file content) ↔ target names = some content := by
    intro names ne content
    rw [h names ne]
    simp
  refine ⟨entries, walked, run, fun key path hm => ?_, fun key content => ?_⟩
  · obtain ⟨names, text, ne, hg, -⟩ := walked.mem_link_iff.mp hm
    rcases (h names ne _).mp hg with ⟨content, -, e⟩ | ⟨e, -⟩
    · cases e
    · cases e
  · rw [walked.get?_contentsOf]
    constructor
    · rintro ⟨names, ne, hg, covers, e⟩
      exact ⟨names, ne, e, (file names ne content).mp hg, covers⟩
    · rintro ⟨names, ne, e, there, covers⟩
      exact ⟨names, ne, (file names ne content).mpr there, covers, e⟩

/-- The path leads to a directory with exactly these files, by address. A walk meets the files and
no link; each directory there is has a file below it, and none is a sidecar. -/
structure Shows (d : Disk) (out : Path) (goal : Location) (files : Key → Option Bytes) :
    Prop where
  reaches : d.Reaches out goal
  isDirectory : d.IsDirectory goal
  get?_iff : ∀ names ≠ [], ∀ node, d.get? (goal ++ names) = some node ↔
    (∃ content, files (Location.key names) = some content ∧ node = .file content) ∨
      node = .directory ∧ ∃ key, files key ≠ none ∧ Location.key names ∈ Key.ancestors key
  walked : ∃ entries, d.walk .content out = .ok entries ∧ (∀ key path, .link key path ∉ entries) ∧
    ∀ key, (d.contentsOf entries).get? key = files key
  unpatched : ∀ name : Name, name.bytes = sidecarName → ¬ d.IsDirectory (goal ++ [name])

theorem bytes_ne_sidecarName {name : Name} {rest : Location} (ne : rest ≠ [])
    (covers : Covers .content ([name] ++ rest) (.file content)) : name.bytes ≠ sidecarName := by
  intro e
  have told : WalkScope.excludes .content (name :: rest) (.file content) = false := covers.2
  have listed : WalkScope.content.excluded.contains (Text.shown sidecarName) = true := by decide
  rw [WalkScope.excludes, e, listed] at told
  simp [ne] at told

theorem walk_congr {scope : WalkScope} {entries : List TreeEntry} (reach : d.Reaches root loc)
    (reach' : d'.Reaches root loc) (same : ∀ names, d'.get? (loc ++ names) = d.get? (loc ++ names))
    (h : d.walk scope root = .ok entries) : d'.walk scope root = .ok entries := by
  obtain ⟨place, walked⟩ := walked_of_walk h
  obtain rfl : place = loc := walked.reaches.unique reach
  have isDir' : d'.IsDirectory place := by
    have top := same []
    rw [List.append_nil] at top
    exact top.trans walked.isDirectory
  have reported : ∀ names node, names ≠ [] → d'.get? (place ++ names) = some node →
      Covers scope names node → ∃ answer, report scope root names node = .ok answer := by
    intro names node ne hg covers
    rw [same] at hg
    exact walked.reported names node ne hg covers
  obtain ⟨entries', run'⟩ := exists_walk reach' walked.short isDir' reported
  obtain ⟨place', walked'⟩ := walked_of_walk run'
  obtain rfl : place' = place := walked'.reaches.unique reach'
  rw [run', Bytes.eq_of_ordered TreeEntry.key walked'.inOrder walked.inOrder fun entry => ?_]
  rw [walked.mem_iff, walked'.mem_iff]
  simp only [same]

theorem contents_eq_of_files {root' : Path} {loc' : Location} {m' : KeyMap Bytes}
    (reach : d.Reaches root loc) (reach' : d'.Reaches root' loc')
    (h : d.contents root = .ok m) (h' : d'.contents root' = .ok m')
    (same : ∀ names ≠ [], ∀ content, Covers .content names (.file content) →
      (d.get? (loc ++ names) = some (.file content) ↔
        d'.get? (loc' ++ names) = some (.file content))) : m = m' := by
  obtain ⟨entries, run, rfl⟩ := contents_eq_ok_iff.mp h
  obtain ⟨entries', run', rfl⟩ := contents_eq_ok_iff.mp h'
  obtain ⟨place, walked⟩ := walked_of_walk run
  obtain ⟨place', walked'⟩ := walked_of_walk run'
  cases walked.reaches.unique reach
  cases walked'.reaches.unique reach'
  refine KeyMap.ext_of_sorted (sorted_contentsOf walked.inOrder)
    (sorted_contentsOf walked'.inOrder) fun key => Option.ext fun content => ?_
  rw [walked.get?_contentsOf, walked'.get?_contentsOf]
  constructor
  · rintro ⟨names, ne, found, covers, e⟩
    exact ⟨names, ne, (same names ne content covers).mp found, covers, e⟩
  · rintro ⟨names, ne, found, covers, e⟩
    exact ⟨names, ne, (same names ne content covers).mpr found, covers, e⟩

theorem contents_congr (reach : d.Reaches root loc) (reach' : d'.Reaches root loc)
    (same : ∀ names, d'.get? (loc ++ names) = d.get? (loc ++ names))
    (h : d.contents root = .ok m) : d'.contents root = .ok m := by
  obtain ⟨entries, run, -⟩ := contents_eq_ok_iff.mp h
  have h' : d'.contents root = .ok (d'.contentsOf entries) :=
    contents_eq_ok_iff.mpr ⟨entries, walk_congr reach reach' same run, rfl⟩
  rw [h', contents_eq_of_files reach reach' h h' fun names _ content _ => by rw [same names]]

/-- A content that a tree can have: each address is made of names in UTF-8 and is not left out of
walks, and no file lies below another one. -/
structure IsTree (m : KeyMap Bytes) : Prop where
  sorted : m.Sorted
  named : ∀ key content, m.get? key = some content → ∃ names : Location, names ≠ [] ∧
    key = names.key ∧ Spelled names ∧ Covers .content names (.file content)
  apart : Apart fun names => m.get? (Location.key names)

theorem isTree_of_contents (h : d.contents root = .ok m) : IsTree m := by
  obtain ⟨entries, run, rfl⟩ := contents_eq_ok_iff.mp h
  obtain ⟨loc, walked⟩ := walked_of_walk run
  refine ⟨sorted_contentsOf walked.inOrder, fun key content hc => ?_, fun names rest ne there => ?_⟩
  · obtain ⟨names, ne, hg, covers, rfl⟩ := walked.get?_contentsOf.mp hc
    exact ⟨names, ne, rfl, (walked.of_file ne hg covers).1, covers⟩
  · obtain ⟨content, hc⟩ := Option.ne_none_iff_exists'.mp there
    obtain ⟨above, -, hg, -, e⟩ := walked.get?_contentsOf.mp hc
    obtain rfl := Location.key_injective e
    by_contra below
    obtain ⟨content', hc'⟩ := Option.ne_none_iff_exists'.mp below
    obtain ⟨whole, -, hg', -, e'⟩ := walked.get?_contentsOf.mp hc'
    obtain rfl := Location.key_injective e'
    rw [← List.append_assoc] at hg'
    rw [show d.get? (loc ++ names) = _ from isDirectory_of_append ne hg'] at hg
    cases hg

theorem IsTree.top (h : IsTree m) : m.get? (Location.key []) = none := by
  by_contra there
  obtain ⟨content, hc⟩ := Option.ne_none_iff_exists'.mp there
  obtain ⟨names, ne, e, -⟩ := h.named _ content hc
  exact ne (Location.key_injective e).symm

theorem IsTree.hidden (h : IsTree m) {name : Name}
    (e : name.bytes = sidecarName) {rest : Location} (ne : rest ≠ []) :
    m.get? (Location.key ([name] ++ rest)) = none := by
  by_contra there
  obtain ⟨content, hc⟩ := Option.ne_none_iff_exists'.mp there
  obtain ⟨names, -, e', -, covers⟩ := h.named _ content hc
  obtain rfl := Location.key_injective e'
  exact bytes_ne_sidecarName ne covers e

theorem shows_of_holdsTree (host : d.Hosts out goal)
    (h : d.HoldsTree goal fun names => files (Location.key names))
    (named : ∀ key content, files key = some content →
      ∃ names : Location, names ≠ [] ∧ key = names.key ∧ Spelled names ∧
        Covers .content names (.file content) ∧ Short (pathBelow out names)) :
    d.Shows out goal files := by
  have told : ∀ names content, files (Location.key names) = some content →
      Spelled names ∧ Covers .content names (.file content) ∧ Short (pathBelow out names) := by
    intro names content there
    obtain ⟨names', -, e, facts⟩ := named _ content there
    obtain rfl := Location.key_injective e
    exact facts
  have around : ∀ names ≠ [], (∃ rest : Location, rest ≠ [] ∧
      files (Location.key (names ++ rest)) ≠ none) ↔
        ∃ key, files key ≠ none ∧ Location.key names ∈ Key.ancestors key := by
    intro names ne
    constructor
    · rintro ⟨rest, ne', there⟩
      exact ⟨_, there, Location.mem_ancestors_key_iff.mpr ⟨names, rest, ne, ne', rfl, rfl⟩⟩
    · rintro ⟨key, there, hm⟩
      obtain ⟨content, e⟩ := Option.ne_none_iff_exists'.mp there
      obtain ⟨whole, -, rfl, -⟩ := named key content e
      obtain ⟨init, rest, -, ne', rfl, e'⟩ := Location.mem_ancestors_key_iff.mp hm
      obtain rfl := Location.key_injective e'
      exact ⟨rest, ne', there⟩
  obtain ⟨entries, walked, run, plain, get⟩ := walk_of_holdsTree host h fun names content there =>
    ⟨(told names content there).2.2, fun _ => (told names content there).1⟩
  refine ⟨host.reaches, host.isDirectory, fun names ne node => ?_,
    ⟨entries, run, plain, fun key => Option.ext fun content => ?_⟩, fun name sidecar isDir => ?_⟩
  · rw [h names ne, ← around names ne]
  · rw [get]
    constructor
    · rintro ⟨names, -, rfl, there, -⟩
      exact there
    · intro there
      obtain ⟨names, ne, rfl, -, covers, -⟩ := named key content there
      exact ⟨names, ne, rfl, there, covers⟩
  · rcases (h [name] (by simp) _).mp isDir with ⟨content, -, e⟩ | ⟨-, rest, ne, there⟩
    · cases e
    · obtain ⟨content, there⟩ := Option.ne_none_iff_exists'.mp there
      exact bytes_ne_sidecarName ne (told _ content there).2.1 sidecar

theorem Shows.contents (h : d.Shows out goal files) (sorted : m.Sorted)
    (get : ∀ key, files key = m.get? key) : d.contents out = .ok m := by
  obtain ⟨entries, run, -, held⟩ := h.walked
  obtain ⟨place, walked⟩ := walked_of_walk run
  refine contents_eq_ok_iff.mpr ⟨entries, run, ?_⟩
  refine KeyMap.ext_of_sorted sorted (sorted_contentsOf walked.inOrder) fun key => ?_
  rw [held, get]

theorem Shows.congr (h : d.Shows out goal files) (reach : d'.Reaches out goal)
    (same : ∀ names, d'.get? (goal ++ names) = d.get? (goal ++ names)) :
    d'.Shows out goal files := by
  have isDir : d'.IsDirectory goal := by
    have top := same []
    rw [List.append_nil] at top
    exact top.trans h.isDirectory
  refine ⟨reach, isDir, fun names ne node => by rw [same, h.get?_iff names ne], ?_,
    fun name sidecar => by rw [IsDirectory, same]; exact h.unpatched name sidecar⟩
  obtain ⟨entries, run, plain, get⟩ := h.walked
  have held := contents_congr h.reaches reach same (contents_eq_ok_iff.mpr ⟨entries, run, rfl⟩)
  obtain ⟨entries', run', e⟩ := contents_eq_ok_iff.mp held
  cases (walk_congr h.reaches reach same run).symm.trans run'
  exact ⟨entries, run', plain, fun key => by rw [← e, get]⟩

theorem Shows.file_iff (h : d.Shows out goal files) (held : d.contents out = .ok m)
    (ne : names ≠ []) : d.get? (goal ++ names) = some (.file content) ↔
      m.get? names.key = some content := by
  obtain ⟨entries, run, rfl⟩ := contents_eq_ok_iff.mp held
  obtain ⟨entries', run', -, get⟩ := h.walked
  cases run.symm.trans run'
  rw [h.get?_iff names ne, get]
  constructor
  · rintro (⟨content', there, e⟩ | ⟨e, -⟩)
    · cases e
      exact there
    · cases e
  · exact fun there => .inl ⟨content, there, rfl⟩

theorem Shows.covers (h : d.Shows out goal files) (ne : names ≠ [])
    (found : d.get? (goal ++ names) = some (.file content)) :
    Covers .content names (.file content) := by
  obtain ⟨entries, run, -, -⟩ := h.walked
  obtain ⟨loc, walked⟩ := walked_of_walk run
  have there := (h.file_iff (contents_eq_ok_iff.mpr ⟨entries, run, rfl⟩) ne).mp found
  obtain ⟨names', -, -, covers, e⟩ := walked.get?_contentsOf.mp there
  cases Location.key_injective e
  exact covers

end LayeredTree.Disk
