import LayeredTree.Proofs.Patch.Delivery
import LayeredTree.Proofs.Patch.Ends

set_option autoImplicit false

namespace LayeredTree

open World

namespace Patch

variable {w v : World} {d d₁ : Disk} {before after out mergeRoot : Path} {base goal : Location}
variable {old new : KeyMap Bytes} {entries patch : List TreeEntry} {record : PatchRecord}

/-- Beside the sidecar there is no place for a file of its name, and that is all that can be in the
way of an author. -/
theorem exists_author_iff (hb : Publishes w.disk before old) (ha : Publishes w.disk after new)
    (prepared : Prepared w.disk out goal d) (fits : ShortChanges out old new)
    (short : Disk.Short (PatchRecord.draftPath out)) (signature : Signature) :
    (∃ summary v, author before after out signature w = .ok summary v) ↔
      changes old new sidecarName = none := by
  have tree := Disk.isTree_of_contents ha.contents
  constructor
  · rintro ⟨summary, v, run⟩
    have again : ∀ d', Disk.makeDirectories out w.disk = .ok () d' →
        Prepared w.disk out goal d' := by
      intro d' made
      cases prepared.made.symm.trans made
      exact prepared
    obtain ⟨-, -, -, d', -, -, -, holdsTree⟩ := of_author hb.contents ha.contents again run
    by_contra there
    obtain ⟨content, hc⟩ := Option.ne_none_iff_exists'.mp there
    have file := (holdsTree [sidecar] (by simp) (.file content)).mpr
      (.inl ⟨content, (if_neg (by simp)).trans hc, rfl⟩)
    have record := (holdsTree [sidecar, PatchRecord.file] (by simp) _).mpr
      (.inl ⟨_, if_pos rfl, rfl⟩)
    have isDir : v.disk.IsDirectory (goal ++ [sidecar]) :=
      Disk.isDirectory_of_append (List.cons_ne_nil PatchRecord.file []) (by simpa using record)
    rw [show v.disk.get? (goal ++ [sidecar]) = _ from isDir] at file
    cases file
  · intro free
    obtain ⟨summary, d', -, grown, -, carried, done, -⟩ :=
      author_run hb ha prepared fits signature
    have vacant : d'.get? (goal ++ [sidecar]) = none :=
      carried.free (by simp) free fun rest ne => changes_of_none (tree.hidden rfl ne)
    obtain ⟨d'', written, -⟩ := Disk.writeRecord_run (prepared.hosts.mono grown) vacant short
      (recordOf w old signature summary.removed)
    obtain ⟨v, run, -⟩ := done d'' written
    exact ⟨summary, v, run⟩

theorem Prepared.untouched {d' : Disk} (prepared : Prepared d out goal d₁)
    (same : Disk.SameOutside goal d₁ d') (there : ∃ node, d.get? base = some node)
    (outside : ¬ base <+: goal)
    (kept : ∀ names, d₁.get? (base ++ names) = d.get? (base ++ names)) (names : Location) :
    d'.get? (base ++ names) = d.get? (base ++ names) := by
  rw [same.2, kept]
  rintro ⟨le, -⟩
  rcases List.prefix_or_prefix_of_prefix le (List.prefix_append base names) with ⟨rest, e⟩ | le
  · have busy : rest ≠ [] := by
      rintro rfl
      rw [List.append_nil] at e
      exact outside (e ▸ List.prefix_rfl)
    obtain ⟨node, found⟩ := there
    have later := prepared.within.2 _ _ found
    rw [← e, prepared.bare rest busy] at later
    cases later
  · exact outside le

theorem mergeable_iff_plain {removed : List Key} {supplied : KeyMap Bytes}
    (earlier : Disk.IsTree old) (later : Disk.IsTree new)
    (gone : ∀ key, key ∈ removed ↔ old.get? key ≠ none ∧ new.get? key = none)
    (supplies : ∀ key, supplied.get? key = changes old new key)
    (plain : ∀ key path, .link key path ∉ patch) :
    Mergeable old supplied patch (removed.map markerOf) ↔ ∀ key ∈ removed, (92 : UInt8) ∉ key := by
  constructor
  · intro mergeable key hk
    obtain ⟨content, hc⟩ := Option.ne_none_iff_exists'.mp ((gone key).mp hk).1
    obtain ⟨names, -, rfl, spelled, -⟩ := earlier.named key content hc
    obtain ⟨key', read⟩ := mergeable.accepted _ (List.mem_map_of_mem hk)
    obtain ⟨e, back, -⟩ := Key.ofMarker_eq_ok_iff.mp read
    rwa [e, ofString_markerOf (Location.spelled_key spelled)] at back
  · exact mergeable_changes earlier later gone supplies plain

/-- The language of trees that authors and merges share. An author refuses a pair just where the
patch needs the name of the sidecar for a file. What it wrote meets a conflict just where a file is
gone whose address has a backslash. -/
theorem author_then_merge (hb : Publishes w.disk before old) (ha : Publishes w.disk after new)
    (prepared : Prepared w.disk out goal d) (place : w.disk.Reaches before base)
    (outside : ¬ base <+: goal)
    (untouched : ∀ names, d.get? (base ++ names) = w.disk.get? (base ++ names))
    (fits : ShortChanges out old new) (short : Disk.Short (PatchRecord.draftPath out))
    (clock : w.now.IsShown) (signature : Signature) (mergeRoot : Path) :
    ((∃ summary v, author before after out signature w = .ok summary v) ↔
      changes old new sidecarName = none) ∧
    ∀ summary v, author before after out signature w = .ok summary v →
      ((∃ conflict u, merge mergeRoot before out v = .error (.mergeConflict conflict) u) ↔
        ∃ key, old.get? key ≠ none ∧ new.get? key = none ∧ (92 : UInt8) ∈ key) := by
  refine ⟨exists_author_iff hb ha prepared fits short signature, fun summary v run => ?_⟩
  have again : ∀ d', Disk.makeDirectories out w.disk = .ok () d' →
      Prepared w.disk out goal d' := by
    intro d' made
    cases prepared.made.symm.trans made
    exact prepared
  obtain ⟨tells, d', ready, grown, same, lies⟩ := lies_of_author hb.contents ha.contents again run
  have gone := tells.removed.mem_iff
  cases prepared.made.symm.trans ready.made
  have tree := Disk.isTree_of_contents ha.contents
  have earlier := Disk.isTree_of_contents hb.contents
  have left := prepared.untouched same place.exists outside untouched
  have reach := (place.mono prepared.within).mono grown
  have content := Disk.contents_congr place reach left hb.contents
  obtain ⟨entries, walk, e⟩ := Disk.contents_eq_ok_iff.mp content
  obtain ⟨patch, walk', plain, supplies⟩ := lies.walked tree
  have reads := lies.recorded (PatchRecord.parse_text signature (Digest.ofContents old)
    (summary.removed.map markerOf) (Instant.parse_text clock)) rfl
  obtain ⟨u, loaded, like⟩ := PatchRecord.load_of_ok reads
  rw [like.disk] at walk walk'
  have read : ∀ entries, u.disk.contentsOf entries = v.disk.contentsOf entries := by
    intro entries
    rw [like.disk]
  have conflicts : (∃ conflict u', mergeWith mergeRoot before out
      (recordOf w old signature summary.removed) u = .error (.mergeConflict conflict) u') ↔ _ :=
    mergeWith_conflicts_iff walk walk'
  rw [read, read, ← e, show (recordOf w old signature summary.removed).removed =
    summary.removed.map markerOf from rfl, mergeable_iff_plain earlier tree gone supplies plain]
    at conflicts
  have run' : merge mergeRoot before out v =
      mergeWith mergeRoot before out (recordOf w old signature summary.removed) u :=
    bind_of_ok (failingAs_of_ok loaded)
  rw [run', conflicts]
  constructor
  · intro h
    obtain ⟨key, hk, back⟩ : ∃ key ∈ summary.removed, (92 : UInt8) ∈ key := by
      simpa using h
    exact ⟨key, ((gone key).mp hk).1, ((gone key).mp hk).2, back⟩
  · rintro ⟨key, there, absent, back⟩ h
    exact h key ((gone key).mpr ⟨there, absent⟩) back

def renamed : World := .holding [
  ([47, 97], .directory), ([47, 97, 47, 97, 92, 98], .file [1]), ([47, 98], .directory),
  ([47, 98, 47, 99], .file [2])]

/-- The patch from one to the other is written, and then no base takes it. -/
theorem refuses_backslash : ∃ summary v,
    author ⟨[47, 97]⟩ ⟨[47, 98]⟩ ⟨[47, 111]⟩ (.uniform 1) renamed = .ok summary v ∧
      ∃ conflict u, merge ⟨[47, 109]⟩ ⟨[47, 97]⟩ ⟨[47, 111]⟩ v =
        .error (.mergeConflict conflict) u := by
  have hb : Publishes renamed.disk ⟨[47, 97]⟩ [([97, 92, 98], [1])] :=
    ⟨[.file [97, 92, 98] ⟨[47, 97, 47, 97, 92, 98]⟩ 1], by rfl, by simp, by rfl⟩
  have ha : Publishes renamed.disk ⟨[47, 98]⟩ [([99], [2])] :=
    ⟨[.file [99] ⟨[47, 98, 47, 99]⟩ 1], by rfl, by simp, by rfl⟩
  have way : renamed.disk.get? [⟨[111], by decide⟩] = none := by rfl
  have get := Disk.get?_plant (by simp) way renamed.disk.isDirectory_nil Node.directory
  have made : (renamed.disk.plant [⟨[111], by decide⟩] .directory).IsDirectory
      [⟨[111], by decide⟩] := by rfl
  have prepared : Prepared renamed.disk ⟨[47, 111]⟩ [⟨[111], by decide⟩]
      (renamed.disk.plant [⟨[111], by decide⟩] .directory) :=
    ⟨by rfl, Disk.hosts_path made (by decide), isBare_of_children (by rfl)⟩
  have isDir : renamed.disk.get? [⟨[97], by decide⟩] = some .directory := by rfl
  have place : renamed.disk.Reaches ⟨[47, 97]⟩ [⟨[97], by decide⟩] := Disk.reaches_path isDir rfl
  have fits : ShortChanges ⟨[47, 111]⟩ [([97, 92, 98], [1])] [([99], [2])] := by
    intro key there
    obtain ⟨content, hc⟩ := Option.ne_none_iff_exists'.mp there
    have hn := (changes_eq_some_iff.mp hc).1
    obtain rfl : key = [99] := KeyMap.eq_of_get?_singleton hn
    decide
  obtain ⟨accepts, refuses⟩ := author_then_merge hb ha prepared place (by decide)
    (fun names => by rw [get, if_neg (by simp)]) fits (by decide) ⟨by decide, by decide, by decide⟩
    (.uniform 1) ⟨[47, 109]⟩
  obtain ⟨summary, v, run⟩ := accepts.mpr (changes_of_none (by decide))
  exact ⟨summary, v, run, (refuses summary v run).mpr ⟨[97, 92, 98], by decide, by decide, by decide⟩⟩

end Patch
end LayeredTree
