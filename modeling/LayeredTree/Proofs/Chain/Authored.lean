import LayeredTree.Proofs.Chain.Building
import LayeredTree.Proofs.Patch.Agreement
import LayeredTree.Proofs.Tree.Enumerating

set_option autoImplicit false

namespace LayeredTree.Chain

open World

variable {ε : Type} {w : World} {area : WorkArea} {temp top base loc : Location}
variable {taken : List Name}
variable {d : Disk} {old new first last : KeyMap Bytes} {signature : Signature}
variable {patches : List (Location × Signature)}

/-- An author, whatever else was in the world then, made the patch at the location from a tree with
the old content and one with the new content. No address that it deletes has a backslash, and it
lies there as it was left. -/
def Authored (d : Disk) (loc : Location) (signature : Signature) (old new : KeyMap Bytes) : Prop :=
  ∃ (u v : World) (before after : Path) (summary : PatchSummary),
    u.disk.contents before = .ok old ∧ u.disk.contents after = .ok new ∧
      u.disk.Passable [] loc ∧ u.now.IsShown ∧
      Patch.author before after (Location.path loc) signature u = .ok summary v ∧
      (∀ key ∈ summary.removed, (92 : UInt8) ∉ key) ∧
      ∀ names, d.get? (loc ++ names) = v.disk.get? (loc ++ names)

/-- The content has room below the directory of merged trees. -/
def ShortBelowMergeRoot (area : WorkArea) (m : KeyMap Bytes) : Prop :=
  ∀ key, m.get? key ≠ none → area.mergeRoot.text.length + 14 + key.length ≤ maxPathLength

theorem Authored.linked (h : Authored d loc signature old new) (told : Patch.ToldApart old new)
    (below : ShortBelowMergeRoot area new) : Linked d area loc signature old new := by
  obtain ⟨u, v, before, after, summary, hb, ha, way, clock, run, plain, left⟩ := h
  obtain ⟨tells, -, -, -, -, lies⟩ :=
    Patch.lies_of_author hb ha (Patch.prepared_of_author way run) run
  exact ⟨summary.removed, u.now, ⟨lies.congr left, clock, told, Disk.isTree_of_contents hb,
    Disk.isTree_of_contents ha, tells.removed.mem_iff, plain, below⟩⟩

/-- The chain law. Patches that were authored one after the other, each against the version before
and under its signature, are built onto any tree with the first content. What is built has the last
content, and its digest. The merge root may be a link, if it leads where it does by a way that is
not lost with the layers. -/
theorem build_authored (ready : Ready w.disk area temp top taken)
    (lasts : top = mergePlace temp ∨
      w.disk.ReachesWithout (LostWith (base :: patches.map Prod.fst)) area.mergeRoot top)
    (isDirectory : w.disk.IsDirectory base)
    (snapshot : w.disk.contents (Location.path base) = .ok first)
    (authored : Follows (fun loc signature old new => Authored w.disk loc signature old new ∧
      Patch.ToldApart old new ∧ ShortBelowMergeRoot area new) first signature patches last)
    (apart : (base :: patches.map Prod.fst).Pairwise Location.Disjoint)
    (off : ∀ layer ∈ base :: patches.map Prod.fst,
      ¬ layer <+: mergePlace temp ∧ ¬ layer <+: top)
    (few : taken.length + patches.length ≤ 62 ^ World.freshWidth)
    (resource : ResourceId) {locks : ResourceLocks}
    (free : ∀ lock, locks.get? resource = some lock → lock.held = false) : ∃ p locks' v,
      (build area resource (⟨.snapshot, signature, Location.path base⟩ :: patches.map patchAt)
        locks : Action ε _) w = .ok (some (.ok p), locks') v ∧ v.disk.contents p = .ok last ∧
      ∃ u, Digest.compute p v = .ok (Digest.ofContents last) u := by
  have follows : Follows (Linked w.disk area) first signature patches last :=
    authored.imp fun _ _ _ _ _ link => link.1.linked link.2.1 link.2.2
  have there : ∀ layer ∈ base :: patches.map Prod.fst, w.disk.IsDirectory layer := by
    intro layer hm
    rcases List.mem_cons.mp hm with rfl | hm
    · exact isDirectory
    · exact follows.isDirectory layer hm
  have stays : StaysAt w.disk (LostWith (base :: patches.map Prod.fst)) area temp top := by
    rcases ready.merge with ⟨e, -⟩ | ⟨⟨text, link⟩, -, -⟩
    · exact .inl e
    refine lasts.imp_right fun way => ⟨?_, ⟨text, link⟩, way⟩
    rintro ⟨layer, hm, le | e⟩
    · exact (off layer hm).1 le
    · have up := Disk.isDirectory_dropLast_of_isDirectory (there layer hm)
      rw [Disk.IsDirectory, ← e, link] at up
      cases up
  have spent : ∀ patch ∈ patches, ∀ other, patch.1 <+: other ∨ other = patch.1.dropLast →
      LostWith (base :: patches.map Prod.fst) other := fun patch hm other inside =>
    ⟨patch.1, List.mem_cons_of_mem _ (List.mem_map_of_mem hm), inside⟩
  have stage : Stage w.disk (LostWith (base :: patches.map Prod.fst)) w.disk area temp top taken
      (Location.path base) base first :=
    ⟨ready, stays, fun _ _ _ held => held, isDirectory, snapshot, (off base List.mem_cons_self).2,
      .inl rfl, fun other _ inside => ⟨base, List.mem_cons_self, inside.imp_right And.left⟩⟩
  have off' : ∀ patch ∈ patches, ¬ patch.1 <+: top := fun patch hm =>
    (off patch.1 (List.mem_cons_of_mem _ (List.mem_map_of_mem hm))).2
  obtain ⟨p, locks', v, run, content⟩ :=
    build_run (ε := ε) stage follows apart off' spent few resource free
  obtain ⟨u, computed, -⟩ := Digest.compute_of_ok (Disk.digest_of_contents content)
  exact ⟨p, locks', v, run, content, u, computed⟩

/-- A tree `/a` with the file `x`, a tree `/b` with the file `y`, a temp hierarchy `/t` in which the
merge root is a link to `/m`, and a tree `/s` with the file of `/a` and a link that has no name in
UTF-8. -/
def twoVersions : World := .holding [
  ([47, 97], .directory), ([47, 97, 47, 120], .file [1]), ([47, 98], .directory),
  ([47, 98, 47, 121], .file [2]), ([47, 116], .directory), ([47, 109], .directory),
  ([47, 116, 47, 109, 101, 114, 103, 101], .link [47, 109]), ([47, 115], .directory),
  ([47, 115, 47, 120], .file [1]), ([47, 115, 47, 255], .link [120])]

private theorem exists_authored : ∃ summary v,
    Patch.author ⟨[47, 97]⟩ ⟨[47, 98]⟩ ⟨[47, 112]⟩ (.uniform 1) twoVersions = .ok summary v ∧
      (∀ key ∈ summary.removed, (92 : UInt8) ∉ key) ∧
      Authored v.disk [⟨[112], by decide⟩] (.uniform 1) [([120], [1])] [([121], [2])] ∧
      ∀ other, ¬ [⟨[112], by decide⟩] <+: other →
        v.disk.get? other = twoVersions.disk.get? other := by
  have hb : Patch.Publishes twoVersions.disk ⟨[47, 97]⟩ [([120], [1])] :=
    ⟨[.file [120] ⟨[47, 97, 47, 120]⟩ 1], by rfl, by simp, by rfl⟩
  have ha : Patch.Publishes twoVersions.disk ⟨[47, 98]⟩ [([121], [2])] :=
    ⟨[.file [121] ⟨[47, 98, 47, 121]⟩ 1], by rfl, by simp, by rfl⟩
  have free : twoVersions.disk.get? [⟨[112], by decide⟩] = none := by rfl
  have way : twoVersions.disk.Passable [] [⟨[112], by decide⟩] :=
    Disk.passable_singleton twoVersions.disk.isDirectory_nil (.inl free)
  have made : (twoVersions.disk.plant [⟨[112], by decide⟩] .directory).IsDirectory
      [⟨[112], by decide⟩] := by rfl
  have prepared : Patch.Prepared twoVersions.disk ⟨[47, 112]⟩ [⟨[112], by decide⟩]
      (twoVersions.disk.plant [⟨[112], by decide⟩] .directory) :=
    ⟨by rfl, Disk.hosts_path made (by decide), Patch.isBare_of_children (by rfl)⟩
  have fits : Patch.ShortChanges ⟨[47, 112]⟩ [([120], [1])] [([121], [2])] := by
    intro key there
    obtain ⟨content, hc⟩ := Option.ne_none_iff_exists'.mp there
    have hn := (Patch.changes_eq_some_iff.mp hc).1
    obtain rfl : key = [121] := KeyMap.eq_of_get?_singleton hn
    decide
  obtain ⟨summary, v, run⟩ := (Patch.exists_author_iff hb ha prepared fits (by decide)
    (.uniform 1)).mpr (Patch.changes_of_none (by decide))
  have again : ∀ d, Disk.makeDirectories ⟨[47, 112]⟩ twoVersions.disk = .ok () d →
      Patch.Prepared twoVersions.disk ⟨[47, 112]⟩ [⟨[112], by decide⟩] d :=
    Patch.prepared_of_author way run
  obtain ⟨tells, d, prepared', -, outside, -⟩ :=
    Patch.lies_of_author hb.contents ha.contents again run
  cases prepared.made.symm.trans prepared'.made
  have plain : ∀ key ∈ summary.removed, (92 : UInt8) ∉ key := by
    intro key hk
    obtain ⟨content, hc⟩ := Option.ne_none_iff_exists'.mp ((tells.removed.mem_iff key).mp hk).1
    rw [KeyMap.eq_of_get?_singleton hc]
    decide
  refine ⟨summary, v, run, plain, ⟨twoVersions, v, ⟨[47, 97]⟩, ⟨[47, 98]⟩, summary, hb.contents,
    ha.contents, way, ⟨by decide, by decide, by decide⟩, run, plain, fun _ => rfl⟩, ?_⟩
  intro other away
  rw [outside.2 other fun below => away below.1,
    Disk.get?_plant (by simp) free twoVersions.disk.isDirectory_nil Node.directory, if_neg]
  rintro rfl
  exact away (List.prefix_refl _)

private theorem told_twoVersions : Patch.ToldApart [([120], [1])] [([121], [2])] := by
  intro key a b hold hnew
  have here : key = [120] := KeyMap.eq_of_get?_singleton hold
  have there : key = [121] := KeyMap.eq_of_get?_singleton hnew
  exact absurd (here.symm.trans there) (by decide)

private theorem below_twoVersions :
    ShortBelowMergeRoot ⟨⟨[47, 100]⟩, ⟨[47, 116]⟩⟩ [([121], [2])] := by
  intro key there
  obtain ⟨content, hc⟩ := Option.ne_none_iff_exists'.mp there
  rw [KeyMap.eq_of_get?_singleton hc]
  decide

/-- The patch from `/a` to `/b` is written to `/p`, and `/a` and `/p` are built into a tree like
`/b`. -/
theorem builds_two_versions : ∃ summary v p locks u,
    Patch.author ⟨[47, 97]⟩ ⟨[47, 98]⟩ ⟨[47, 112]⟩ (.uniform 1) twoVersions = .ok summary v ∧
      (build ⟨⟨[47, 100]⟩, ⟨[47, 116]⟩⟩ ⟨"r", "s", none⟩
        [⟨.snapshot, .uniform 1, ⟨[47, 97]⟩⟩, ⟨.patch, .uniform 2, ⟨[47, 112]⟩⟩] .empty :
          Action Empty _) v = .ok (some (.ok p), locks) u ∧
      u.disk.contents p = .ok [([121], [2])] := by
  obtain ⟨summary, v, run, -, authored, kept⟩ := exists_authored
  have isBase : v.disk.IsDirectory [⟨[97], by decide⟩] := kept _ (by decide)
  have isTemp : v.disk.IsDirectory [⟨[116], by decide⟩] := kept _ (by decide)
  have isTop : v.disk.IsDirectory [⟨[109], by decide⟩] := kept _ (by decide)
  have link : v.disk.get? (mergePlace [⟨[116], by decide⟩]) = some (.link [47, 109]) :=
    kept _ (by decide)
  have lasts : v.disk.ReachesWithout (LostWith [[⟨[97], by decide⟩], [⟨[112], by decide⟩]])
      ⟨[47, 116, 47, 109, 101, 114, 103, 101]⟩ [⟨[109], by decide⟩] :=
    Disk.reachesWithout_link link isTop (by unfold LostWith; decide) (by unfold LostWith; decide)
  have bare : ∀ name : Name, v.disk.get? ([⟨[109], by decide⟩] ++ [name]) = none := by
    intro name
    have empty : twoVersions.disk.IsBare [⟨[109], by decide⟩] := Patch.isBare_of_children (by rfl)
    have away : ¬ [⟨[112], by decide⟩] <+: [⟨[109], by decide⟩] ++ [name] :=
      fun le => absurd (List.cons_prefix_cons.mp le).1 (by decide)
    exact (kept _ away).trans (empty [name] (by simp))
  have ready : Ready v.disk ⟨⟨[47, 100]⟩, ⟨[47, 116]⟩⟩ [⟨[116], by decide⟩] [⟨[109], by decide⟩]
      [] := by
    refine ⟨rfl, isTemp, .inr ⟨⟨_, link⟩, lasts v.disk fun _ _ _ held => held⟩,
      fun name there => absurd (bare name) there, by decide⟩
  have snapshot : v.disk.contents (Location.path [⟨[97], by decide⟩]) = .ok [([120], [1])] := by
    have before : twoVersions.disk.IsDirectory [⟨[97], by decide⟩] := by rfl
    refine Disk.contents_congr (Disk.reaches_path before rfl) (Disk.reaches_path isBase rfl)
      (fun names => kept _ ?_) (by rfl)
    rintro ⟨rest, e⟩
    exact absurd (List.cons_eq_cons.mp e).1 (by decide)
  have follows : Follows (fun loc signature old new => Authored v.disk loc signature old new ∧
      Patch.ToldApart old new ∧ ShortBelowMergeRoot ⟨⟨[47, 100]⟩, ⟨[47, 116]⟩⟩ new)
      [([120], [1])] (.uniform 1)
        [([⟨[112], by decide⟩], .uniform 2)] [([121], [2])] :=
    .cons ⟨authored, told_twoVersions, below_twoVersions⟩ (.nil _ _)
  have apart : [[⟨[97], by decide⟩], [(⟨[112], by decide⟩ : Name)]].Pairwise
      Location.Disjoint := by
    refine List.pairwise_pair.mpr ⟨by decide, by decide⟩
  have idle : ∀ lock, ResourceLocks.empty.get? ⟨"r", "s", none⟩ = some lock →
      lock.held = false := by
    rintro _ ⟨⟩
  obtain ⟨p, locks, u, built, content, -⟩ := build_authored (ε := Empty) ready (.inr lasts) isBase
    snapshot follows apart (by decide) (by decide) ⟨"r", "s", none⟩ idle
  exact ⟨summary, v, p, locks, u, run, built, content⟩

private theorem nodes_twoVersions : twoVersions.disk.nodes = [([⟨[97], by decide⟩], .directory),
    ([⟨[97], by decide⟩, ⟨[120], by decide⟩], .file [1]), ([⟨[98], by decide⟩], .directory),
    ([⟨[98], by decide⟩, ⟨[121], by decide⟩], .file [2]), ([⟨[116], by decide⟩], .directory),
    ([⟨[109], by decide⟩], .directory),
    ([⟨[116], by decide⟩, ⟨[109, 101, 114, 103, 101], by decide⟩], .link [47, 109]),
    ([⟨[115], by decide⟩], .directory),
    ([⟨[115], by decide⟩, ⟨[120], by decide⟩], .file [1]),
    ([⟨[115], by decide⟩, ⟨[255], by decide⟩], .link [120])] := by
  rfl

private theorem sameFiles (names : Location) (content : Bytes) :
    twoVersions.disk.get? (⟨[115], by decide⟩ :: names) = some (.file content) ↔
      twoVersions.disk.get? (⟨[97], by decide⟩ :: names) = some (.file content) := by
  rw [Disk.get?_eq_some_iff _ (by simp), Disk.get?_eq_some_iff _ (by simp), nodes_twoVersions]
  simp

private theorem walk_unwalkable (kept : ∀ names, d.get? (⟨[115], by decide⟩ :: names) =
    twoVersions.disk.get? (⟨[115], by decide⟩ :: names)) :
    ∃ fault, d.walk .content ⟨[47, 115]⟩ = .error (.invalidPath fault) := by
  have isDir : d.IsDirectory [⟨[115], by decide⟩] := kept []
  have reach : d.Reaches ⟨[47, 115]⟩ [⟨[115], by decide⟩] := Disk.reaches_path isDir rfl
  cases run : d.walk .content ⟨[47, 115]⟩ with
  | ok entries =>
    obtain ⟨place, walked⟩ := Disk.walked_of_walk run
    obtain rfl : place = [⟨[115], by decide⟩] := walked.reaches.unique reach
    have odd : d.get? ([⟨[115], by decide⟩] ++ [⟨[255], by decide⟩]) = some (.link [120]) :=
      (kept [⟨[255], by decide⟩]).trans (by rfl)
    obtain ⟨told, reported⟩ := walked.reported _ _ (by simp) odd ⟨by decide, by decide⟩
    cases reported
  | error e =>
    obtain ⟨names, node, met, failed⟩ :=
      Disk.exists_met_of_error run (Disk.entryAt_eq_ok_iff.mpr ⟨reach, by decide, isDir⟩)
    obtain ⟨ne, found, -⟩ := Disk.meets_iff.mp met
    rw [List.singleton_append, kept, Disk.get?_eq_some_iff _ (by simp), nodes_twoVersions]
      at found
    have held : names = [] ∧ node = .directory ∨
        names = [⟨[120], by decide⟩] ∧ node = .file [1] ∨
          names = [⟨[255], by decide⟩] ∧ node = .link [120] := by simpa using found
    rcases held with ⟨rfl, -⟩ | ⟨rfl, rfl⟩ | ⟨rfl, rfl⟩
    · exact absurd rfl ne
    · have fine : Disk.report .content ⟨[47, 115]⟩ [⟨[120], by decide⟩] (.file [1]) =
          .ok (some (.file [120] ⟨[47, 115, 47, 120]⟩ 1)) := by rfl
      cases fine.symm.trans failed
    · have refused : Disk.report .content ⟨[47, 115]⟩ [⟨[255], by decide⟩] (.link [120]) =
          .error (.invalidPath (.notUtf8 ⟨[47, 115]⟩ ⟨[47, 115, 47, 255]⟩)) := by rfl
      cases refused.symm.trans failed
      exact ⟨_, rfl⟩

/-- A snapshot that has the same regular files, and a link beside them whose name is not UTF-8,
cannot be walked, and nothing is built onto it. -/
theorem refuses_unwalkable : ∃ summary v fault locks u,
    Patch.author ⟨[47, 97]⟩ ⟨[47, 98]⟩ ⟨[47, 112]⟩ (.uniform 1) twoVersions = .ok summary v ∧
      (∀ key ∈ summary.removed, (92 : UInt8) ∉ key) ∧
      (∀ names content, v.disk.get? (⟨[115], by decide⟩ :: names) = some (.file content) ↔
        twoVersions.disk.get? (⟨[97], by decide⟩ :: names) = some (.file content)) ∧
      (build ⟨⟨[47, 100]⟩, ⟨[47, 116]⟩⟩ ⟨"r", "s", none⟩
        [⟨.snapshot, .uniform 1, ⟨[47, 115]⟩⟩, ⟨.patch, .uniform 2, ⟨[47, 112]⟩⟩] .empty :
          Action Empty _) v = .ok (some (.error (.storage (.invalidPath fault))), locks) u := by
  obtain ⟨summary, v, run, plain, authored, kept⟩ := exists_authored
  have kept' : ∀ names, v.disk.get? (⟨[115], by decide⟩ :: names) =
      twoVersions.disk.get? (⟨[115], by decide⟩ :: names) :=
    fun names => kept _ fun le => absurd (List.cons_prefix_cons.mp le).1 (by decide)
  obtain ⟨fault, walked⟩ := walk_unwalkable kept'
  have undigested : v.disk.digest ⟨[47, 115]⟩ = .error (.invalidPath fault) := by
    rw [Disk.digest_eq_map_contents, Disk.contents, walked]
    rfl
  have isDir : v.disk.IsDirectory [⟨[115], by decide⟩] := kept' []
  have present : v.disk.hasEntry ⟨[47, 115]⟩ = true :=
    Disk.hasEntry_iff.mpr ⟨_, Disk.reaches_path isDir rfl, by decide⟩
  obtain ⟨removed, time, link⟩ := authored.linked told_twoVersions below_twoVersions
  have present' : v.disk.hasEntry (Location.path [⟨[112], by decide⟩]) = true :=
    Disk.hasEntry_iff.mpr ⟨_, link.lies.hosts.reaches, link.lies.hosts.short⟩
  have recorded := link.lies.recorded (PatchRecord.parse_text (.uniform 1)
    (Digest.ofContents [([120], [1])]) (removed.map Patch.markerOf)
      (Instant.parse_text link.clock)) rfl
  obtain ⟨answer, locks, u, built, ends⟩ := build_cases (ε := Empty) ⟨⟨[47, 100]⟩, ⟨[47, 116]⟩⟩
    ⟨"r", "s", none⟩ [⟨.snapshot, .uniform 1, ⟨[47, 115]⟩⟩, ⟨.patch, .uniform 2, ⟨[47, 112]⟩⟩]
      .empty v
  refine ⟨summary, v, fault, locks, u, run, plain, fun names content => ?_, ?_⟩
  · rw [kept']
    exact sameFiles names content
  rcases ends with ⟨_, refused, -⟩ | ⟨-, ⟨lock, found, -⟩, -⟩ |
    ⟨first, rest, u₁, u', taken, same, -, -, folded⟩
  · cases refused
  · cases found
  · cases taken
    rw [← same] at undigested present present' recorded
    obtain ⟨v', failed⟩ := fold_of_undigested ⟨⟨[47, 100]⟩, ⟨[47, 116]⟩⟩
      ⟨by decide, by decide⟩ ⟨present, present'⟩ recorded rfl rfl undigested (.uniform 2) []
    rcases folded with ⟨p, folded, -⟩ | ⟨e, folded, rfl⟩
    · cases failed.symm.trans folded
    · cases failed.symm.trans folded
      exact built

end LayeredTree.Chain
