import LayeredTree.Patch.Merge
import LayeredTree.Proofs.Tree.Contents

set_option autoImplicit false

namespace LayeredTree

variable {base patch entries : List TreeEntry} {markers : List String} {key : Key} {raw : String}
variable {d : Disk} {scope : WalkScope} {root : Path} {loc : Location}

def filePaths (entries : List TreeEntry) : KeyMap Path :=
  entries.filterMap fun
    | .file key path _ => some (key, path)
    | .link .. => none

theorem sorted_filePaths (h : TreeEntry.InOrder entries) : (filePaths entries).Sorted := by
  refine List.pairwise_filterMap.mpr (h.imp fun {a b} less p hp q hq => ?_)
  cases a with
  | link => cases hp
  | file =>
    cases b with
    | link => cases hq
    | file =>
      cases hp
      cases hq
      exact less

theorem foldlM_files {ε : Type} (refuse : Key → ε) (files : KeyMap Path)
    (sorted : KeyMap.Sorted (files ++ filePaths entries)) :
    ((∀ key path, .link key path ∉ entries) → entries.foldlM (fun files entry =>
      match entry with
      | .file key path _ => Except.ok (files.insert key path)
      | .link key _ => Except.error (refuse key)) files = .ok (files ++ filePaths entries)) ∧
    ((∃ key path, .link key path ∈ entries) → ∃ key, entries.foldlM (fun files entry =>
      match entry with
      | .file key path _ => Except.ok (files.insert key path)
      | .link key _ => Except.error (refuse key)) files = .error (refuse key)) := by
  induction entries generalizing files with
  | nil => exact ⟨fun _ => by rw [filePaths, List.filterMap_nil, List.append_nil]; rfl, by simp⟩
  | cons entry rest ih =>
    cases entry with
    | link key path =>
      refine ⟨fun none => absurd List.mem_cons_self (none key path), fun _ => ⟨key, ?_⟩⟩
      rw [List.foldlM_cons]
      rfl
    | file key path size =>
      have one : filePaths (.file key path size :: rest) = (key, path) :: filePaths rest := rfl
      rw [one] at sorted ⊢
      have last : ∀ p ∈ files, Bytes.before p.1 key = true := fun p hp =>
        (List.pairwise_append.mp sorted).2.2 p hp _ List.mem_cons_self
      have step : files ++ (key, path) :: filePaths rest =
          files.insert key path ++ filePaths rest := by
        rw [KeyMap.insert_last last, List.append_assoc]
        rfl
      rw [step] at sorted ⊢
      obtain ⟨ok, error⟩ := ih _ sorted
      refine ⟨fun none => ?_, fun ⟨k, q, hm⟩ => ?_⟩
      · rw [List.foldlM_cons]
        exact ok fun k q hm => none k q (List.mem_cons_of_mem _ hm)
      · rw [List.foldlM_cons]
        rcases List.mem_cons.mp hm with e | hm
        · cases e
        · exact error ⟨k, q, hm⟩

namespace MergePlan

theorem baseFiles_eq (h : TreeEntry.InOrder entries) :
    baseFiles entries = (filePaths entries).mapValues .base := by
  have sorted := KeyMap.sorted_mapValues Source.base (sorted_filePaths h)
  have fold := KeyMap.foldl_insert_eq (m := []) sorted
  rw [List.nil_append] at fold
  refine Eq.trans ?_ fold
  unfold filePaths baseFiles
  rw [List.foldl_map, List.foldl_filterMap]
  congr 1
  funext files entry
  cases entry with
  | file => rfl
  | link => rfl

theorem patchFiles_eq (h : TreeEntry.InOrder entries)
    (none : ∀ key path, .link key path ∉ entries) : patchFiles entries = .ok (filePaths entries) :=
  (foldlM_files Conflict.linkInPatch [] (sorted_filePaths h)).1 none

theorem patchFiles_link (h : TreeEntry.InOrder entries)
    (some : ∃ key path, .link key path ∈ entries) : ∃ conflict, patchFiles entries = .error conflict := by
  obtain ⟨key, e⟩ := (foldlM_files Conflict.linkInPatch [] (sorted_filePaths h)).2 some
  exact ⟨_, e⟩

/-- All markers can be read, and none names a file of the patch. -/
def Readable (supplied : KeyMap Path) (markers : List String) : Prop :=
  ∀ raw ∈ markers, (∃ key, Key.ofMarker raw = .ok key) ∧
    supplied.get? (Bytes.ofString raw) = none

private def mark (supplied : KeyMap Path) (keys : KeyMap Unit) (raw : String) :
    Except Conflict (KeyMap Unit) :=
  match Key.ofMarker raw with
  | .error fault => .error (.rejectedMarker fault)
  | .ok key =>
    if supplied.contains key then .error (.deletedAndSupplied key)
    else .ok (keys.insert key ())

private theorem deletions_from (supplied : KeyMap Path) (markers : List String)
    (keys : KeyMap Unit) (sorted : keys.Sorted) :
    (Readable supplied markers ∧ ∃ keys', markers.foldlM (mark supplied) keys = .ok keys' ∧ keys'.Sorted ∧
        ∀ key, keys'.get? key = some () ↔
          keys.get? key = some () ∨ key ∈ markers.map Bytes.ofString) ∨
    (¬ Readable supplied markers ∧ ∃ conflict, markers.foldlM (mark supplied) keys = .error conflict) := by
  induction markers generalizing keys with
  | nil => exact .inl ⟨by simp [Readable], keys, rfl, sorted, by simp⟩
  | cons raw rest ih =>
    rw [List.foldlM_cons, mark]
    cases hm : Key.ofMarker raw with
    | error fault =>
      right
      refine ⟨fun h => ?_, _, rfl⟩
      obtain ⟨key, e⟩ := (h raw List.mem_cons_self).1
      rw [hm] at e
      cases e
    | ok key =>
      obtain ⟨rfl, -⟩ := Key.ofMarker_eq_ok_iff.mp hm
      dsimp only
      by_cases taken : supplied.contains (Bytes.ofString raw) = true
      · right
        rw [if_pos taken]
        refine ⟨fun h => ?_, _, rfl⟩
        obtain ⟨path, hp⟩ := KeyMap.contains_iff.mp taken
        rw [(h raw List.mem_cons_self).2] at hp
        cases hp
      · have free := KeyMap.contains_eq_false_iff.mp (by simpa using taken)
        rw [if_neg taken]
        rcases ih (keys.insert (Bytes.ofString raw) ()) (KeyMap.sorted_insert sorted) with
          ⟨readable, keys', run, sorted', mem⟩ | ⟨none, conflict, run⟩
        · left
          refine ⟨fun r hr => ?_, keys', run, sorted', fun key => ?_⟩
          · rcases List.mem_cons.mp hr with rfl | hr
            · exact ⟨⟨_, hm⟩, free⟩
            · exact readable r hr
          · rw [mem, KeyMap.get?_insert, List.map_cons, List.mem_cons]
            by_cases e : key = Bytes.ofString raw
            · simp [e]
            · simp [e]
        · right
          exact ⟨fun h => none fun r hr => h r (List.mem_cons_of_mem _ hr), conflict, run⟩

theorem deletions_cases (supplied : KeyMap Path) (markers : List String) :
    (Readable supplied markers ∧ ∃ keys, deletions supplied markers = .ok keys ∧
      keys.Sorted ∧ ∀ key, keys.get? key = some () ↔ key ∈ markers.map Bytes.ofString) ∨
    (¬ Readable supplied markers ∧
      ∃ conflict, deletions supplied markers = .error conflict) := by
  rcases deletions_from supplied markers [] List.Pairwise.nil with
    ⟨readable, keys, run, sorted, mem⟩ | refused
  · exact .inl ⟨readable, keys, run, sorted, fun key => by simpa using mem key⟩
  · exact .inr refused

theorem withoutDeleted_cases (files : KeyMap Source) (keys : KeyMap Unit) (sorted : keys.Sorted)
    (hf : files.Sorted) :
    ((∀ key, keys.get? key = some () → files.get? key ≠ none) ∧
      ∃ kept, withoutDeleted files keys = .ok kept ∧ kept.Sorted ∧
        ∀ key, kept.get? key = if keys.get? key = some () then none else files.get? key) ∨
    (¬ (∀ key, keys.get? key = some () → files.get? key ≠ none) ∧
      ∃ conflict, withoutDeleted files keys = .error conflict) := by
  unfold withoutDeleted
  induction keys generalizing files with
  | nil => exact .inl ⟨by simp, files, rfl, hf, by simp⟩
  | cons p rest ih =>
    obtain ⟨k, ⟨⟩⟩ := p
    obtain ⟨least, tail⟩ := List.pairwise_cons.mp sorted
    have other : ∀ key, KeyMap.get? rest key = some () → key ≠ k := by
      rintro key h rfl
      have less := least _ (KeyMap.mem_of_get? h)
      rw [Bytes.before_irrefl] at less
      cases less
    rw [List.foldlM_cons]
    dsimp only
    by_cases found : files.contains k = true
    · rw [if_pos found]
      rcases ih (files.erase k) tail (KeyMap.sorted_erase hf) with
        ⟨all, kept, run, sorted', get⟩ | ⟨none, conflict, run⟩
      · left
        refine ⟨fun key h => ?_, kept, run, sorted', fun key => ?_⟩
        · rw [KeyMap.get?_cons] at h
          by_cases e : key = k
          · subst e
            obtain ⟨source, hs⟩ := KeyMap.contains_iff.mp found
            rw [hs]
            nofun
          · rw [if_neg e] at h
            have := all key h
            rwa [KeyMap.get?_erase, if_neg e] at this
        · rw [get, KeyMap.get?_erase, KeyMap.get?_cons]
          by_cases e : key = k
          · simp [e]
          · simp [e]
      · right
        refine ⟨fun h => none fun key hk => ?_, conflict, run⟩
        have there := h key (by rw [KeyMap.get?_cons, if_neg (other key hk)]; exact hk)
        rwa [KeyMap.get?_erase, if_neg (other key hk)]
    · right
      rw [if_neg found]
      refine ⟨fun h => ?_, _, rfl⟩
      have there := h k (by rw [KeyMap.get?_cons, if_pos rfl])
      exact there (KeyMap.contains_eq_false_iff.mp (by simpa using found))

theorem overridden_from (files : KeyMap Source) (supplied : KeyMap Path) (hf : files.Sorted)
    (hs : supplied.Sorted) : (overridden files supplied).Sorted ∧ ∀ key,
      (overridden files supplied).get? key =
        ((supplied.get? key).map Source.patch).or (files.get? key) := by
  unfold overridden
  induction supplied generalizing files with
  | nil => exact ⟨hf, fun key => rfl⟩
  | cons p rest ih =>
    obtain ⟨k, path⟩ := p
    obtain ⟨least, tail⟩ := List.pairwise_cons.mp hs
    obtain ⟨sorted, get⟩ := ih (files.insert k (.patch path)) (KeyMap.sorted_insert hf) tail
    refine ⟨sorted, fun key => ?_⟩
    rw [List.foldl_cons, get, KeyMap.get?_insert, KeyMap.get?_cons]
    by_cases e : key = k
    · subst e
      have free : KeyMap.get? rest key = none := by
        refine KeyMap.get?_eq_none_iff.mpr fun value hm => ?_
        have less := least _ hm
        rw [Bytes.before_irrefl] at less
        cases less
      simp [free]
    · simp [e]

theorem clash?_eq_none_iff {files : KeyMap Source} : clash? files = none ↔
    ∀ key parent, files.get? key ≠ none → parent ∈ Key.ancestors key →
      files.get? parent = none := by
  unfold clash?
  simp only [List.findSome?_eq_none_iff, Option.map_eq_none_iff, List.find?_eq_none,
    KeyMap.mem_keys_iff, Bool.not_eq_true, KeyMap.contains_eq_false_iff]
  exact ⟨fun h key parent hk => h key hk parent, fun h key hk parent => h key parent hk⟩

/-- Where the merged tree has its file for an address from. -/
def sourceOf (base patch : List TreeEntry) (markers : List String) (key : Key) : Option Source :=
  (((filePaths patch).get? key).map Source.patch).or
    (if key ∈ markers.map Bytes.ofString then none
      else ((filePaths base).get? key).map Source.base)

structure IsPlannable (base patch : List TreeEntry) (markers : List String) : Prop where
  plain : ∀ key path, .link key path ∉ patch
  readable : ∀ raw ∈ markers, ∃ key, Key.ofMarker raw = .ok key
  spared : ∀ raw ∈ markers, (filePaths patch).get? (Bytes.ofString raw) = none
  found : ∀ raw ∈ markers, (filePaths base).get? (Bytes.ofString raw) ≠ none
  apart : ∀ key parent, sourceOf base patch markers key ≠ none → parent ∈ Key.ancestors key →
    sourceOf base patch markers parent = none

private theorem ok_bind {ε α β : Type} (a : α) (f : α → Except ε β) :
    (Except.ok a >>= f) = f a := rfl

theorem build_cases (hb : TreeEntry.InOrder base) (hp : TreeEntry.InOrder patch)
    (markers : List String) :
    (IsPlannable base patch markers ∧ ∃ plan, build base patch markers = .ok plan ∧
      plan.files.Sorted ∧ ∀ key, plan.files.get? key = sourceOf base patch markers key) ∨
    (¬ IsPlannable base patch markers ∧ ∃ conflict, build base patch markers = .error conflict) := by
  unfold build
  by_cases links : ∃ key path, .link key path ∈ patch
  · right
    obtain ⟨conflict, e⟩ := patchFiles_link hp links
    obtain ⟨key, path, hm⟩ := links
    rw [e]
    exact ⟨fun sound => sound.plain key path hm, conflict, rfl⟩
  have plain : ∀ key path, .link key path ∉ patch := fun key path hm => links ⟨key, path, hm⟩
  rw [patchFiles_eq hp plain, ok_bind]
  rcases deletions_cases (filePaths patch) markers with
    ⟨readable, keys, e, sortedKeys, mem⟩ | ⟨unreadable, conflict, e⟩
  · have sortedBase := KeyMap.sorted_mapValues Source.base (sorted_filePaths hb)
    rw [e, ok_bind, baseFiles_eq hb]
    rcases withoutDeleted_cases _ keys sortedKeys sortedBase with
      ⟨found, kept, e, sortedKept, get⟩ | ⟨lost, conflict, e⟩
    · rw [e, ok_bind]
      obtain ⟨sorted, all⟩ := overridden_from kept (filePaths patch) sortedKept
        (sorted_filePaths hp)
      have source : ∀ key, (overridden kept (filePaths patch)).get? key =
          sourceOf base patch markers key := by
        intro key
        rw [all, get, KeyMap.get?_mapValues, sourceOf]
        simp only [mem]
      dsimp only
      cases hc : clash? (overridden kept (filePaths patch)) with
      | none =>
        left
        refine ⟨⟨plain, fun raw h => (readable raw h).1, fun raw h => (readable raw h).2, ?_, ?_⟩,
          _, rfl, sorted, source⟩
        · intro raw h
          have there := found _ ((mem _).mpr (List.mem_map_of_mem h))
          rw [KeyMap.get?_mapValues] at there
          simpa using there
        · simp only [← source]
          exact clash?_eq_none_iff.mp hc
      | some conflict =>
        right
        refine ⟨fun sound => ?_, conflict, rfl⟩
        have clear : clash? (overridden kept (filePaths patch)) = none :=
          clash?_eq_none_iff.mpr (by simpa only [source] using sound.apart)
        rw [clear] at hc
        cases hc
    · right
      rw [e]
      refine ⟨fun sound => lost fun key hk => ?_, conflict, rfl⟩
      obtain ⟨raw, hr, rfl⟩ := List.mem_map.mp ((mem key).mp hk)
      rw [KeyMap.get?_mapValues]
      simpa using sound.found raw hr
  · right
    rw [e]
    exact ⟨fun sound => unreadable fun raw h => ⟨sound.readable raw h, sound.spared raw h⟩,
      conflict, rfl⟩

end MergePlan
end LayeredTree
