import LayeredTree.Proofs.Tree.Walks

/-!
A walk against a traversal of the tree. The traversal goes from a directory it has met to the
entries in it, never behind a link, and does not go into the top-level directories that are left
out. A walk lists each file and each link that is met, once, and fails just where a name is not
UTF-8 or a path is too long.
-/

set_option autoImplicit false

namespace LayeredTree

variable {d d' : Disk} {scope : WalkScope} {root : Path} {top names : Location} {name : Name}
variable {node : Node} {entry : TreeEntry} {entries : List TreeEntry}

namespace Disk

/-- What a traversal of the tree at a location comes to, by the names on the way: the entries of
the tree's own directory but for the directories that are left out, then those of each directory
it has come to. -/
inductive Meets (d : Disk) (scope : WalkScope) (top : Location) : Location → Node → Prop
  | first {name : Name} {node : Node} :
      d.get? (top ++ [name]) = some node → scope.reaches 1 = true →
      (node = .directory → Text.shown name.bytes ∉ scope.excluded) → Meets d scope top [name] node
  | inside {names : Location} {name : Name} {node : Node} :
      Meets d scope top names .directory → d.get? (top ++ (names ++ [name])) = some node →
      scope.reaches (names.length + 1) = true → Meets d scope top (names ++ [name]) node

private theorem reaches_of_succ {depth : Nat} (h : scope.reaches (depth + 1) = true) :
    scope.reaches depth = true := by
  obtain ⟨excluded, limit⟩ := scope
  cases limit with
  | none => rfl
  | some limit => exact decide_eq_true (Nat.le_of_succ_le (of_decide_eq_true h))

theorem excludes_singleton : scope.excludes [name] node = false ↔
    (node = .directory → Text.shown name.bytes ∉ scope.excluded) := by
  cases node <;> simp [WalkScope.excludes, Node.isDirectory]

theorem excludes_concat (ne : names ≠ []) :
    scope.excludes (names ++ [name]) node = scope.excludes names .directory := by
  obtain ⟨first, rest, rfl⟩ := List.exists_cons_of_ne_nil ne
  simp [WalkScope.excludes, Node.isDirectory]

theorem meets_iff : d.Meets scope top names node ↔
    names ≠ [] ∧ d.get? (top ++ names) = some node ∧ Covers scope names node := by
  constructor
  · intro met
    induction met with
    | first found reach kept =>
      exact ⟨by simp, found, reach, excludes_singleton.mpr kept⟩
    | @inside names name node _ found reach ih =>
      obtain ⟨ne, -, -, kept⟩ := ih
      refine ⟨by simp, found, ?_, (excludes_concat ne).trans kept⟩
      rwa [List.length_append]
  · rintro ⟨ne, found, reach, kept⟩
    induction names using List.reverseRecOn generalizing node with
    | nil => exact absurd rfl ne
    | append_singleton names name ih =>
      rw [List.length_append, List.length_singleton] at reach
      by_cases outermost : names = []
      · subst outermost
        exact .first found reach (excludes_singleton.mp kept)
      · have above : d.IsDirectory (top ++ names) := by
          rw [← List.append_assoc] at found
          exact isDirectory_of_child found
        rw [excludes_concat outermost] at kept
        exact .inside (ih outermost above (reaches_of_succ reach) kept) found reach

/-- Within the depth limit nothing is passed over but the top-level directories that are left out,
with all that is in them. -/
theorem not_meets_iff (ne : names ≠ []) (found : d.get? (top ++ names) = some node)
    (reach : scope.reaches names.length = true) : ¬ d.Meets scope top names node ↔
      ∃ first rest, names = first :: rest ∧ d.IsDirectory (top ++ [first]) ∧
        Text.shown first.bytes ∈ scope.excluded := by
  have left : ¬ d.Meets scope top names node ↔ scope.excludes names node = true := by
    rw [meets_iff, Covers, reach]
    simp [ne, found]
  obtain ⟨first, rest, rfl⟩ := List.exists_cons_of_ne_nil ne
  have whole : top ++ first :: rest = (top ++ [first]) ++ rest := by simp
  have around : (!rest.isEmpty || node.isDirectory) = true ↔ d.IsDirectory (top ++ [first]) := by
    cases rest with
    | nil => cases node <;> simp [IsDirectory, Node.isDirectory, found]
    | cons second rest =>
      rw [whole] at found
      exact ⟨fun _ => isDirectory_of_append (by simp) found, fun _ => rfl⟩
  rw [left, WalkScope.excludes, Bool.and_eq_true, around, List.contains_iff_mem]
  constructor
  · rintro ⟨isDir, out⟩
    exact ⟨first, rest, rfl, isDir, out⟩
  · rintro ⟨_, _, e, isDir, out⟩
    cases e
    exact ⟨isDir, out⟩

/-- The entry for something that is met. Only files and links have one. -/
def entryOf (root : Path) (names : Location) : Node → Option TreeEntry
  | .file content => some (.file names.key (pathBelow root names) content.length)
  | .link _ => some (.link names.key (pathBelow root names))
  | .directory => none
  | .other => none

theorem key_entryOf (h : entryOf root names node = some entry) : entry.key = names.key := by
  cases node with
  | file => cases h; rfl
  | link => cases h; rfl
  | directory => cases h
  | other => cases h

theorem report_of_spelled (scope : WalkScope) (root : Path)
    (spelled : node ≠ .directory → Spelled names) :
    report scope root names node = .ok (entryOf root names node) ∨
      ¬ Short (pathBelow root names) ∧ ∃ fault, report scope root names node = .error (.io fault) := by
  have key : node ≠ .directory → keyBelow root names = .ok names.key := fun plain =>
    keyBelow_eq_ok_iff.mpr ⟨spelled plain, rfl⟩
  cases node with
  | file content =>
    by_cases short : Short (pathBelow root names)
    · exact .inl (report_file_eq_ok_iff.mpr ⟨spelled nofun, short, rfl⟩)
    · refine .inr ⟨short, .measuring (pathBelow root names) (.system .nameTooLong), ?_⟩
      rw [report, key nofun]
      exact if_pos (Nat.not_le.mp short)
  | link target => exact .inl (report_link_eq_ok_iff.mpr ⟨spelled nofun, rfl⟩)
  | other =>
    left
    rw [report, key nofun]
    rfl
  | directory =>
    rw [report]
    by_cases long : scope.reaches (names.length + 1) = true ∧
        maxPathLength < (pathBelow root names).text.length
    · exact .inr ⟨Nat.not_le.mpr long.2, _, if_pos long⟩
    · exact .inl (if_neg long)

theorem report_of_unspelled (scope : WalkScope) (root : Path) (plain : node ≠ .directory)
    (h : ¬ Spelled names) :
    ∃ fault, report scope root names node = .error (.invalidPath fault) := by
  have key : keyBelow root names =
      .error (.invalidPath (.notUtf8 root (pathBelow root names))) := by
    rw [Spelled, ← List.all_eq_true] at h
    exact if_neg h
  refine ⟨.notUtf8 root (pathBelow root names), ?_⟩
  cases node with
  | directory => exact absurd rfl plain
  | file =>
    rw [report, key]
    rfl
  | link =>
    rw [report, key]
    rfl
  | other =>
    rw [report, key]
    rfl

theorem spelled_of_report {answer : Option TreeEntry} (plain : node ≠ .directory)
    (h : report scope root names node = .ok answer) : Spelled names := by
  by_contra unspelled
  obtain ⟨fault, e⟩ := report_of_unspelled scope root plain unspelled
  rw [h] at e
  cases e

theorem report_eq_ok {answer : Option TreeEntry} (h : report scope root names node = .ok answer) :
    answer = entryOf root names node := by
  rcases report_of_spelled scope root fun plain => spelled_of_report plain h
    with e | ⟨-, fault, e⟩
  · rw [h] at e
    exact Except.ok.inj e
  · rw [h] at e
    cases e

/-- What is listed of the tree at a location: the files and links that a traversal meets, each by
one entry, in strict byte order of the addresses. -/
structure Enumerates (d : Disk) (scope : WalkScope) (root : Path) (top : Location)
    (entries : List TreeEntry) : Prop where
  inOrder : TreeEntry.InOrder entries
  /-- All that has an entry is listed. -/
  listed : ∀ names node entry, d.Meets scope top names node →
    entryOf root names node = some entry → entry ∈ entries
  /-- Each entry listed is the entry of one thing that is met. -/
  origin : ∀ entry ∈ entries, ∃! met : Location × Node,
    d.Meets scope top met.1 met.2 ∧ entryOf root met.1 met.2 = some entry

theorem Enumerates.unique {entries' : List TreeEntry} (same : d.Same d')
    (h : d.Enumerates scope root top entries) (h' : d'.Enumerates scope root top entries') :
    entries = entries' := by
  have meets : ∀ names node, d.Meets scope top names node ↔ d'.Meets scope top names node := by
    intro names node
    rw [meets_iff, meets_iff, same.get?]
  refine Bytes.eq_of_ordered TreeEntry.key h.inOrder h'.inOrder fun entry => ⟨fun he => ?_, fun he => ?_⟩
  · obtain ⟨⟨names, node⟩, ⟨met, form⟩, -⟩ := h.origin entry he
    exact h'.listed names node entry ((meets _ _).mp met) form
  · obtain ⟨⟨names, node⟩, ⟨met, form⟩, -⟩ := h'.origin entry he
    exact h.listed names node entry ((meets _ _).mpr met) form

private theorem exists_error_of_mapM {α β ε : Type} {f : α → Except ε β} {l : List α} {e : ε}
    (h : l.mapM f = .error e) : ∃ a ∈ l, f a = .error e := by
  induction l with
  | nil => cases h
  | cons a l ih =>
    rw [List.mapM_cons] at h
    cases ha : f a with
    | error e' =>
      rw [ha] at h
      cases h
      exact ⟨a, List.mem_cons_self, ha⟩
    | ok b =>
      rw [ha] at h
      cases hl : l.mapM f with
      | error e' =>
        rw [hl] at h
        cases h
        obtain ⟨a', mem, ha'⟩ := ih hl
        exact ⟨a', List.mem_cons_of_mem _ mem, ha'⟩
      | ok bs =>
        rw [hl] at h
        cases h

theorem exists_met_of_error {fault : StorageError} (h : d.walk scope root = .error fault)
    (start : d.entryAt root = .ok (top, .directory)) : ∃ names node,
      d.Meets scope top names node ∧ report scope root names node = .error fault := by
  rw [walk, start] at h
  dsimp only at h
  cases hm : (d.visited scope top).mapM fun p => report scope root p.1 p.2 with
  | ok reported =>
    rw [hm] at h
    cases h
  | error fault' =>
    rw [hm] at h
    cases h
    obtain ⟨⟨names, node⟩, mem, failed⟩ := exists_error_of_mapM hm
    exact ⟨names, node, meets_iff.mpr (mem_visited.mp mem), failed⟩

theorem walk_of_missing (h : ∀ top, d.entryAt root ≠ .ok (top, .directory)) :
    d.walk scope root = .error (.rootNotFound root) := by
  unfold walk
  split
  · rename_i top start
    exact absurd start (h top)
  · rfl

theorem Walked.enumerates (h : d.Walked scope root top entries) :
    d.Enumerates scope root top entries := by
  have mem : ∀ entry, entry ∈ entries ↔ ∃ names node,
      d.Meets scope top names node ∧ entryOf root names node = some entry := by
    intro entry
    rw [h.mem_iff]
    constructor
    · rintro ⟨names, node, ne, found, covers, reported⟩
      exact ⟨names, node, meets_iff.mpr ⟨ne, found, covers⟩, (report_eq_ok reported).symm⟩
    · rintro ⟨names, node, met, form⟩
      obtain ⟨ne, found, covers⟩ := meets_iff.mp met
      obtain ⟨answer, reported⟩ := h.reported names node ne found covers
      have e := report_eq_ok reported
      rw [form] at e
      exact ⟨names, node, ne, found, covers, e ▸ reported⟩
  refine ⟨h.inOrder, fun names node entry met form => (mem entry).mpr ⟨names, node, met, form⟩,
    fun entry he => ?_⟩
  obtain ⟨names, node, met, form⟩ := (mem entry).mp he
  refine ⟨(names, node), ⟨met, form⟩, ?_⟩
  rintro ⟨names', node'⟩ ⟨met', form'⟩
  -- The address tells the names, and these what is there.
  obtain rfl := Location.key_injective ((key_entryOf form').symm.trans (key_entryOf form))
  have same := (meets_iff.mp met').2.1.symm.trans (meets_iff.mp met).2.1
  exact congrArg (Prod.mk names') (Option.some.inj same)

/-- A walk lists the tree exactly. It answers with the files and links that a traversal meets, where
the root leads to a directory and all that is met and no directory has a name in UTF-8; only a path
that is too long can be in the way. In which order the disk keeps its entries makes no difference,
and nothing within the depth limit is passed over but the directories left out by name, at the top
alone. -/
theorem walk_enumerates (d : Disk) (scope : WalkScope) (root : Path) :
    (∀ entries, d.walk scope root = .ok entries → ∃ top, d.entryAt root = .ok (top, .directory) ∧
      d.Enumerates scope root top entries ∧
      ∀ d' : Disk, d.Same d' → ∀ entries', d'.walk scope root = .ok entries' → entries' = entries) ∧
    ((∀ fault, d.walk scope root ≠ .error (.io fault)) →
      ((∃ entries, d.walk scope root = .ok entries) ↔ ∃ top, d.entryAt root = .ok (top, .directory) ∧
        ∀ names node, d.Meets scope top names node → node ≠ .directory → Spelled names)) ∧
    (∀ fault, d.walk scope root = .error (.io fault) → ∃ top names node,
      d.entryAt root = .ok (top, .directory) ∧ d.Meets scope top names node ∧
        ¬ Short (pathBelow root names)) ∧
    ∀ top names node, names ≠ [] → d.get? (top ++ names) = some node →
      scope.reaches names.length = true → (¬ d.Meets scope top names node ↔
        ∃ first rest, names = first :: rest ∧ d.IsDirectory (top ++ [first]) ∧
          Text.shown first.bytes ∈ scope.excluded) := by
  refine ⟨fun entries run => ?_, fun free => ⟨?_, ?_⟩, fun fault run => ?_,
    fun top names node => not_meets_iff⟩
  · obtain ⟨top, walked⟩ := walked_of_walk run
    refine ⟨top, entryAt_eq_ok_iff.mpr ⟨walked.reaches, walked.short, walked.isDirectory⟩,
      walked.enumerates, fun d' same entries' run' => ?_⟩
    obtain ⟨top', walked'⟩ := walked_of_walk run'
    cases walked.reaches.unique
      (walked'.reaches.mono ⟨same.here.symm, fun loc _ found => same.get? loc ▸ found⟩)
    exact (walked.enumerates.unique same walked'.enumerates).symm
  · rintro ⟨entries, run⟩
    obtain ⟨top, walked⟩ := walked_of_walk run
    refine ⟨top, entryAt_eq_ok_iff.mpr ⟨walked.reaches, walked.short, walked.isDirectory⟩,
      fun names node met plain => ?_⟩
    obtain ⟨ne, found, covers⟩ := meets_iff.mp met
    obtain ⟨answer, reported⟩ := walked.reported names node ne found covers
    exact spelled_of_report plain reported
  · rintro ⟨top, start, spelled⟩
    cases run : d.walk scope root with
    | ok entries => exact ⟨entries, rfl⟩
    | error fault =>
      obtain ⟨names, node, met, failed⟩ := exists_met_of_error run start
      rcases report_of_spelled scope root (spelled names node met)
        with e | ⟨-, fault', e⟩
      · rw [failed] at e
        cases e
      · rw [failed] at e
        cases e
        exact absurd run (free fault')
  · by_cases start : ∃ top, d.entryAt root = .ok (top, .directory)
    · obtain ⟨top, start⟩ := start
      obtain ⟨names, node, met, failed⟩ := exists_met_of_error run start
      have spelled : node ≠ .directory → Spelled names := by
        intro plain
        by_contra unspelled
        obtain ⟨fault', e⟩ := report_of_unspelled scope root plain unspelled
        rw [failed] at e
        cases e
      rcases report_of_spelled scope root spelled with e | ⟨long, -⟩
      · rw [failed] at e
        cases e
      · exact ⟨top, names, node, start, met, long⟩
    · rw [walk_of_missing fun top e => start ⟨top, e⟩] at run
      cases run

end Disk
end LayeredTree
