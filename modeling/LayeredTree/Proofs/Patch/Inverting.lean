import LayeredTree.Proofs.Patch.Agreement

set_option autoImplicit false

namespace LayeredTree

open World

namespace Patch

variable {w u v : World} {d d₁ : Disk} {before after out mergeRoot p : Path} {goal : Location}
variable {old new m : KeyMap Bytes} {key : Key} {entries patch : List TreeEntry}
variable {record : PatchRecord} {signature : Signature} {summary : PatchSummary}

/-- A merge of two trees gives this content. It fails over a request to the disk only, and over none
if there is room for the result. -/
structure MergesTo (w : World) (mergeRoot before after : Path) (m : KeyMap Bytes) : Prop where
  exact : ∀ p v, merge mergeRoot before after w = .ok p v → v.disk.contents p = .ok m
  refused : ∀ e v, merge mergeRoot before after w = .error e v → ∃ fault, e = .storage (.io fault)
  succeeds : ∀ d p u, Room w mergeRoot m.get? d p u → ∃ v, merge mergeRoot before after w = .ok p v

theorem Room.alike {files : Key → Option Bytes} {w₁ : World} (h : Room w mergeRoot files d p w₁)
    (like : Alike w u) : ∃ u₁, Room u mergeRoot files d p u₁ := by
  have rooted : Alike { w with disk := d } { u with disk := d } :=
    ⟨rfl, like.environment, like.now, like.serial⟩
  obtain ⟨u₁, fresh, -⟩ := (blind_freshDirectory mergeRoot mergedName).of_ok rooted h.fresh
  exact ⟨u₁, like.disk ▸ h.made, fresh, h.short⟩

theorem mergesTo_of_mergeable (recorded : w.disk.record after = .ok record)
    (hb : w.disk.walk .content before = .ok entries)
    (hp : w.disk.walk .content after = .ok patch)
    (mergeable : Mergeable (w.disk.contentsOf entries) (w.disk.contentsOf patch) patch
      record.removed)
    (sorted : m.Sorted) (same : ∀ key, merged (w.disk.contentsOf entries) (w.disk.contentsOf patch)
      record.removed key = m.get? key) : MergesTo w mergeRoot before after m := by
  obtain ⟨u, loaded, like⟩ := PatchRecord.load_of_ok recorded
  have run : merge mergeRoot before after w = mergeWith mergeRoot before after record u :=
    bind_of_ok (failingAs_of_ok loaded)
  rw [like.disk] at hb hp mergeable same
  refine ⟨fun p v ok => ?_, fun e v fails => ?_, fun d p w₁ room => ?_⟩
  · rw [run] at ok
    obtain ⟨base, supplied, goal, hb', hp', shows⟩ := shows_of_mergeWith ok
    cases hb'.symm.trans (Disk.contents_eq_ok_iff.mpr ⟨entries, hb, rfl⟩)
    cases hp'.symm.trans (Disk.contents_eq_ok_iff.mpr ⟨patch, hp, rfl⟩)
    exact shows.contents sorted same
  · rw [run] at fails
    exact io_of_mergeWith hb hp mergeable fails
  · obtain ⟨u₁, room'⟩ := room.alike like
    rw [← funext same] at room'
    obtain ⟨-, -, v, done, -⟩ := exists_mergeWith hb hp mergeable room'
    exact ⟨v, run.trans done⟩

theorem prepared_of_goesDown (spelled : out.text ≠ []) (down : w.disk.GoesDown out)
    (run : author before after out signature w = .ok summary v) : ∃ goal,
      ∀ d, Disk.makeDirectories out w.disk = .ok () d → Prepared w.disk out goal d := by
  obtain ⟨-, -, -, -, empty, d, made, -⟩ := steps_of_author run
  obtain ⟨goal, reach, short, isDir⟩ :=
    Disk.hasDirectory_iff.mp (Disk.hasDirectory_of_makeDirectories spelled made)
  refine ⟨goal, fun d' made' => ?_⟩
  cases made.symm.trans made'
  refine ⟨made, ⟨reach, isDir, short⟩, fun more ne => ?_⟩
  have same : d.get? (goal ++ more) = w.disk.get? (goal ++ more) := by
    by_contra new
    have above := (Disk.prefix_of_makeDirectories down made reach isDir new).length_le
    have some := List.length_pos_iff.mpr ne
    rw [List.length_append] at above
    omega
  have dug := Disk.dugFor_makeDirectories down
  rw [after_of_ok made] at dug
  rw [same]
  rcases dug.reaches_cases down reach isDir with old | ⟨place, names, breaks, rfl⟩
  · exact empty goal old short more ne
  · obtain ⟨-, -, -, -, -, -, -, free⟩ := breaks
    rw [List.append_assoc]
    exact Disk.get?_append_of_none free

theorem changes_ne_none_iff (told : ToldApart old new) : changes old new key ≠ none ↔
    ∃ content, new.get? key = some content ∧ old.get? key ≠ some content := by
  constructor
  · intro there
    obtain ⟨content, hc⟩ := Option.ne_none_iff_exists'.mp there
    obtain ⟨hn, apart⟩ := changes_eq_some_iff.mp hc
    refine ⟨content, hn, fun same => apart ?_⟩
    rw [same, Option.map_some]
  · rintro ⟨content, hn, apart⟩
    have hc : changes old new key = some content := by
      refine changes_eq_some_iff.mpr ⟨hn, fun same => apart ?_⟩
      obtain ⟨earlier, ho, e⟩ := Option.map_eq_some_iff.mp same
      rw [ho, told key earlier content ho hn e]
    rw [hc]
    nofun

theorem Tells.changes_eq (h : Tells summary old new) :
    changes old new key = if key ∈ summary.changed then new.get? key else none := by
  by_cases there : changes old new key = none
  · rw [if_neg fun hm => (h.changed.mem_iff key).mp hm there, there]
  · rw [if_pos ((h.changed.mem_iff key).mpr there)]
    obtain ⟨content, hc⟩ := Option.ne_none_iff_exists'.mp there
    rw [hc, (changes_eq_some_iff.mp hc).1]

/-- The patch between two trees and what it is good for. Its summary lists in byte order the files
whose content is new and those that are gone; the first are all that a walk over the patch meets,
and the record names the others, with the signature and the digest of the earlier tree. Both trees
are as they were. The earlier one with the patch gives the later one, unless a file is gone whose
address has a backslash. -/
structure Inverse (w v : World) (before after out : Path) (signature : Signature)
    (summary : PatchSummary) (old new : KeyMap Bytes) : Prop where
  earlier : w.disk.contents before = .ok old
  later : w.disk.contents after = .ok new
  changed : KeyMap.Lists summary.changed fun key =>
    ∃ content, new.get? key = some content ∧ old.get? key ≠ some content
  removed : KeyMap.Lists summary.removed fun key => old.get? key ≠ none ∧ new.get? key = none
  digest : ∃ u, Digest.compute before w = .ok summary.previousHash u
  walked : ∃ patch, v.disk.walk .content out = .ok patch ∧
    (∀ key path, .link key path ∉ patch) ∧ ∀ key, (v.disk.contentsOf patch).get? key =
      if key ∈ summary.changed then new.get? key else none
  recorded : ∃ record, v.disk.record out = .ok record ∧
    record.previousSignature = some signature ∧
    record.previousHash = some summary.previousHash ∧
    record.removed.map Bytes.ofString = summary.removed
  untouched : ∀ tree, w.disk.Reaches before tree ∨ w.disk.Reaches after tree →
    ∀ names, v.disk.get? (tree ++ names) = w.disk.get? (tree ++ names)
  merges : (∀ key ∈ summary.removed, (92 : UInt8) ∉ key) →
    ∀ mergeRoot, MergesTo v mergeRoot before out new

/-- Authors invert. Whatever two trees hold, a patch that was written under a path that goes down,
outside both, is the least one that turns the earlier tree into the later one. -/
theorem author_inverts (spelled : out.text ≠ []) (down : w.disk.GoesDown out)
    (outside : ∀ d goal, Disk.makeDirectories out w.disk = .ok () d → d.Reaches out goal →
      ∀ tree, w.disk.Reaches before tree ∨ w.disk.Reaches after tree → ¬ tree <+: goal)
    (clock : w.now.IsShown)
    (told : ∀ old new, w.disk.contents before = .ok old → w.disk.contents after = .ok new →
      ToldApart old new)
    (run : author before after out signature w = .ok summary v) :
    ∃ old new, Inverse w v before after out signature summary old new := by
  obtain ⟨goal, prepared⟩ := prepared_of_goesDown spelled down run
  obtain ⟨baseFiles, newFiles, published, published', -⟩ := steps_of_author run
  obtain ⟨base, walk, -, -⟩ := publishable_eq_ok_iff.mp published
  obtain ⟨full, walk', -, -⟩ := publishable_eq_ok_iff.mp published'
  have hb := Disk.contents_eq_ok_iff.mpr ⟨base, walk, rfl⟩
  have ha := Disk.contents_eq_ok_iff.mpr ⟨full, walk', rfl⟩
  obtain ⟨tells, d, ready, grown, same, lies⟩ := lies_of_author hb ha prepared run
  have earlier := Disk.isTree_of_contents hb
  have later := Disk.isTree_of_contents ha
  have gone := tells.removed.mem_iff
  have apart := told _ _ hb ha
  have untouched : ∀ tree, w.disk.Reaches before tree ∨ w.disk.Reaches after tree →
      ∀ names, v.disk.get? (tree ++ names) = w.disk.get? (tree ++ names) := by
    intro tree reach
    have off := outside d goal ready.made ready.hosts.reaches tree reach
    have there := reach.elim Disk.Reaches.exists Disk.Reaches.exists
    refine ready.untouched same there off fun names => ?_
    by_contra new
    exact off ((List.prefix_append tree names).trans (Disk.prefix_of_makeDirectories down
      ready.made ready.hosts.reaches ready.hosts.isDirectory new))
  obtain ⟨patch, walked, plain, supplies⟩ := lies.walked later
  have recorded := lies.recorded (PatchRecord.parse_text signature _
    (summary.removed.map markerOf) (Instant.parse_text clock)) rfl
  obtain ⟨u, computed, -⟩ := Digest.compute_of_ok (Disk.digest_of_contents hb)
  refine ⟨_, _, hb, ha, tells.changed.congr fun key => changes_ne_none_iff apart, tells.removed,
    ⟨u, tells.hash ▸ computed⟩, ⟨patch, walked, plain, fun key => ?_⟩,
    ⟨_, recorded, rfl, congrArg some tells.hash.symm, ofString_markers earlier gone⟩, untouched,
    fun back mergeRoot => ?_⟩
  · rw [supplies, tells.changes_eq]
  · obtain ⟨tree, wb⟩ := Disk.walked_of_walk walk
    have reach := (wb.reaches.mono ready.within).mono grown
    have still := Disk.contents_congr wb.reaches reach (untouched tree (.inl wb.reaches)) hb
    obtain ⟨entries, walk, e⟩ := Disk.contents_eq_ok_iff.mp still
    have mergeable := mergeable_changes earlier later gone supplies plain back
    have merged := merged_changes earlier gone supplies apart
    rw [e] at mergeable merged
    exact mergesTo_of_mergeable recorded walk walked mergeable later.sorted merged

/-- The patch from a tree with a file to one with a directory of its name is written, and gives that
directory. -/
theorem inverts_nesting : ∃ summary v,
    author ⟨[47, 98]⟩ ⟨[47, 112]⟩ ⟨[47, 111]⟩ (.uniform 1) nesting = .ok summary v ∧
      Inverse nesting v ⟨[47, 98]⟩ ⟨[47, 112]⟩ ⟨[47, 111]⟩ (.uniform 1) summary [([107], [1])]
        [([107, 47, 110], [2])] ∧
      MergesTo v ⟨[47, 109]⟩ ⟨[47, 98]⟩ ⟨[47, 111]⟩ [([107, 47, 110], [2])] := by
  have hb : Publishes nesting.disk ⟨[47, 98]⟩ [([107], [1])] :=
    ⟨[.file [107] ⟨[47, 98, 47, 107]⟩ 1], by rfl, by simp, by rfl⟩
  have ha : Publishes nesting.disk ⟨[47, 112]⟩ [([107, 47, 110], [2])] :=
    ⟨[.file [107, 47, 110] ⟨[47, 112, 47, 107, 47, 110]⟩ 1], by rfl, by simp, by rfl⟩
  have made : (nesting.disk.plant [⟨[111], by decide⟩] .directory).IsDirectory
      [⟨[111], by decide⟩] := by rfl
  have prepared : Prepared nesting.disk ⟨[47, 111]⟩ [⟨[111], by decide⟩]
      (nesting.disk.plant [⟨[111], by decide⟩] .directory) :=
    ⟨by rfl, Disk.hosts_path made (by decide), isBare_of_children (by rfl)⟩
  have fits : ShortChanges ⟨[47, 111]⟩ [([107], [1])] [([107, 47, 110], [2])] := by
    intro key there
    obtain ⟨content, hc⟩ := Option.ne_none_iff_exists'.mp there
    have hn := (changes_eq_some_iff.mp hc).1
    obtain rfl : key = [107, 47, 110] := KeyMap.eq_of_get?_singleton hn
    decide
  obtain ⟨summary, v, run⟩ := (exists_author_iff hb ha prepared fits (by decide)
    (.uniform 1)).mpr (changes_of_none (by decide))
  have isBase : nesting.disk.IsDirectory [⟨[98], by decide⟩] := by rfl
  have isNew : nesting.disk.IsDirectory [⟨[112], by decide⟩] := by rfl
  have outside : ∀ d goal, Disk.makeDirectories ⟨[47, 111]⟩ nesting.disk = .ok () d →
      d.Reaches ⟨[47, 111]⟩ goal → ∀ tree, nesting.disk.Reaches ⟨[47, 98]⟩ tree ∨
        nesting.disk.Reaches ⟨[47, 112]⟩ tree → ¬ tree <+: goal := by
    intro d goal made' reach tree place
    cases prepared.made.symm.trans made'
    cases reach.unique prepared.hosts.reaches
    rcases place with place | place
    · cases place.unique (Disk.reaches_path isBase rfl)
      decide
    · cases place.unique (Disk.reaches_path isNew rfl)
      decide
  have told : ∀ old new, nesting.disk.contents ⟨[47, 98]⟩ = .ok old →
      nesting.disk.contents ⟨[47, 112]⟩ = .ok new → ToldApart old new := by
    intro old new ho hn key a b hold hnew
    cases ho.symm.trans hb.contents
    cases hn.symm.trans ha.contents
    have here : key = [107] := KeyMap.eq_of_get?_singleton hold
    have there : key = [107, 47, 110] := KeyMap.eq_of_get?_singleton hnew
    exact absurd (here.symm.trans there) (by decide)
  obtain ⟨old, new, inverse⟩ := author_inverts (by decide) (Disk.goesDown_of_steps (by decide))
    outside ⟨by decide, by decide, by decide⟩ told run
  cases inverse.earlier.symm.trans hb.contents
  cases inverse.later.symm.trans ha.contents
  refine ⟨summary, v, run, inverse, inverse.merges (fun key hk => ?_) ⟨[47, 109]⟩⟩
  obtain ⟨content, hc⟩ := Option.ne_none_iff_exists'.mp ((inverse.removed.mem_iff key).mp hk).1
  rw [KeyMap.eq_of_get?_singleton hc]
  decide

end Patch
end LayeredTree
