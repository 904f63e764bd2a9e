import LayeredTree.Resource.Chain
import LayeredTree.Proofs.Lifecycle
import LayeredTree.Proofs.Patch.Delivery
import LayeredTree.Proofs.Patch.Naming

set_option autoImplicit false

namespace LayeredTree

open World

variable {ε : Type} {w : World}

namespace Combiner

theorem runScoped_of_combine (c : Combiner) {c' : Combiner} {w' : World}
    {result : Except CombineError Path} (run : (c.combine : Action ε _) w = .ok (result, c') w')
    (pending : c'.released = false) : ∃ u v,
      (c.runScoped : Action ε _) w = .ok (result, { c' with released := true }) v ∧
      u.disk = w'.disk ∧
      v.disk = (after (Release.release c'.policy c'.request.after : Action ε Unit)
        (after (Release.release c'.policy c'.request.before : Action ε Unit) u)).disk := by
  obtain ⟨v, freed, cleaned⟩ := cleanup_first (ε := ε) pending w'
  obtain ⟨u, v', freed', same, released⟩ := releaseInputs_run (ε := ε) c' w'
  cases freed.symm.trans freed'
  exact ⟨u, v, runScoped_of_cleanup run cleaned rfl, same, released⟩

theorem runScoped_of_merged (c : Combiner) (first : c.stage = .start) (pending : c.released = false)
    {record : PatchRecord} {p : Path} {merged : World} (admits : c.request.Admits w.disk record)
    (merge : Patch.mergeWith c.mergeRoot c.request.before c.request.after record w = .ok p merged) :
    ∃ c' u v, (c.runScoped : Action ε _) w = .ok (.ok p, c') v ∧ u.disk = merged.disk ∧
      v.disk = (after (Release.release c.policy c.request.after : Action ε Unit)
        (after (Release.release c.policy c.request.before : Action ε Unit) u)).disk := by
  obtain ⟨result, c', v, run, cases⟩ := combine_cases (ε := ε) c first w
  rcases cases with ⟨record', p', v', admits', merge', rfl, rfl, like⟩ |
    ⟨record', e, v', admits', merge', -⟩ | ⟨none, -⟩
  · cases CombineRequest.Admits.unique admits' admits
    cases merge'.symm.trans merge
    obtain ⟨u, v₁, ended, same, released⟩ := runScoped_of_combine (ε := ε) c run pending
    exact ⟨_, u, v₁, ended, same.trans like.disk.symm, released⟩
  · cases CombineRequest.Admits.unique admits' admits
    cases merge'.symm.trans merge
  · exact absurd admits (none record)

end Combiner
namespace Disk

/-- The second disk has all of the first that is not lost. -/
def KeptBut (lost : Location → Prop) (d d' : Disk) : Prop :=
  ∀ loc node, ¬ lost loc → d.get? loc = some node → d'.get? loc = some node

/-- The path leads to a directory, whatever happens to what is lost. -/
def ReachesWithout (d : Disk) (lost : Location → Prop) (p : Path) (loc : Location) : Prop :=
  ∀ d', d.KeptBut lost d' → d'.Reaches p loc ∧ d'.IsDirectory loc

theorem reachesWithout_link {d : Disk} {lost : Location → Prop} {dir top : Location} {name : Name}
    (link : d.get? (dir ++ [name]) = some (.link (Location.path top).text))
    (isDir : d.IsDirectory top) (stays : ¬ lost (dir ++ [name])) (stays' : ¬ lost top) :
    d.ReachesWithout lost (Location.path (dir ++ [name])) top := by
  intro d' kept
  have isDir' : d'.IsDirectory top := kept _ _ stays' isDir
  exact ⟨reaches_link isDir' (kept _ _ stays link), isDir'⟩

end Disk
namespace Chain

variable {area : WorkArea} {temp top base loc other : Location} {taken : List Name} {d : Disk}
variable {old new : KeyMap Bytes} {signature : Signature} {removed : List Key} {time : Instant}

def mergeDir : Name := ⟨WorkArea.mergeName, by decide⟩

/-- The place of the directory of merged trees. -/
def mergePlace (temp : Location) : Location := temp ++ [mergeDir]

theorem mergeRoot_eq_path (root : area.tempRoot = Location.path temp) :
    area.mergeRoot = Location.path (mergePlace temp) := by
  have name : WorkArea.mergeName = mergeDir.bytes := rfl
  rw [WorkArea.mergeRoot, root, name, Location.child_path]
  rfl

theorem length_merged (root : area.tempRoot = Location.path temp) (n : Nat) :
    (Location.path (mergePlace temp ++ [Patch.mergedChild n])).text.length =
      area.mergeRoot.text.length + 13 := by
  have start : Patch.mergedName.length = 6 := by decide
  have name : (Location.key [Patch.mergedChild n] : Key).length = 12 := by
    change (Patch.mergedName ++ World.freshDigits World.freshWidth n).length = 12
    rw [List.length_append, start, World.length_freshDigits]
    rfl
  rw [Location.length_path_append (by simp [mergePlace]) (by simp), name, mergeRoot_eq_path root]

theorem frees_of_below {data : Location} (dataRoot : area.dataRoot = Location.path data)
    (tempRoot : area.tempRoot = Location.path temp) (short : Disk.Short (Location.path loc))
    (le : temp <+: loc) (offTemp : loc ≠ temp) (offData : loc ≠ data)
    (offMerge : loc ≠ mergePlace temp) : area.Frees loc := by
  refine ⟨short, ⟨area.tempRoot, .inr rfl, ?_, ?_⟩, ?_⟩
  · rw [tempRoot, Location.isWithin_path_iff]
    exact le
  · rw [tempRoot, Bool.eq_false_iff, ne_eq, Location.same_path_iff]
    exact offTemp
  · rintro ⟨root, rfl | rfl | rfl, same⟩
    · rw [dataRoot, Location.same_path_iff] at same
      exact offData same
    · rw [tempRoot, Location.same_path_iff] at same
      exact offTemp same
    · rw [mergeRoot_eq_path tempRoot, Location.same_path_iff] at same
      exact offMerge same

/-- The temp hierarchy of an area is in place, and merged trees are made at the top: in the
directory of merged trees, if that is not a link to another one. They have paths that are short
enough, and names other than those taken. -/
structure Ready (d : Disk) (area : WorkArea) (temp top : Location) (taken : List Name) : Prop where
  root : area.tempRoot = Location.path temp
  isDirectory : d.IsDirectory temp
  merge : (top = mergePlace temp ∧ (d.get? top = none ∨ d.IsDirectory top)) ∨
    (∃ text, d.get? (mergePlace temp) = some (.link text)) ∧ d.Reaches area.mergeRoot top ∧
      d.IsDirectory top
  known : ∀ name, d.get? (top ++ [name]) ≠ none → name ∈ taken
  short : area.mergeRoot.text.length + 13 ≤ maxPathLength

theorem child_mergeRoot (root : area.tempRoot = Location.path temp) (n : Nat) :
    area.mergeRoot.child (Patch.mergedChild n).bytes =
      Location.path (mergePlace temp ++ [Patch.mergedChild n]) := by
  rw [mergeRoot_eq_path root, Location.child_path]

namespace Ready

theorem above (h : Ready d area temp top taken) (le : other <+: mergePlace temp)
    (proper : other ≠ mergePlace temp) : d.IsDirectory other := by
  rcases List.prefix_concat_iff.mp le with rfl | ⟨rest, e⟩
  · exact absurd rfl proper
  · have there := h.isDirectory
    rw [← e] at there
    by_cases last : rest = []
    · rwa [last, List.append_nil] at there
    · exact Disk.isDirectory_of_append last there

theorem exists_free (h : Ready d area temp top taken) (few : taken.length < 62 ^ World.freshWidth) :
    ∃ n, d.get? (top ++ [Patch.mergedChild n]) = none := by
  obtain ⟨n, new⟩ := Patch.exists_free_name few
  refine ⟨n, ?_⟩
  by_contra there
  exact new (h.known _ there)

theorem isDirectory_of_some {node : Node} (h : Ready d area temp top taken)
    (held : d.get? top = some node) : node = .directory := by
  rcases h.merge with ⟨-, free | there⟩ | ⟨-, -, there⟩
  · cases free.symm.trans held
  · exact Option.some.inj (held.symm.trans there)
  · exact Option.some.inj (held.symm.trans there)

theorem exists_top (h : Ready d area temp top taken) : ∃ d₁,
    Disk.makeDirectories area.mergeRoot d = .ok () d₁ ∧ d₁.Reaches area.mergeRoot top ∧
      d₁.IsDirectory top ∧ ∀ other ≠ top, d₁.get? other = d.get? other := by
  have room := h.short
  rcases h.merge with ⟨rfl, place⟩ | ⟨-, reach, isDir⟩
  · rw [mergeRoot_eq_path h.root] at room ⊢
    have way : d.Passable [] (mergePlace temp) := by
      intro init le
      rw [List.nil_append]
      by_cases last : init = mergePlace temp
      · rw [last]
        exact place
      · exact .inr (h.above le last)
    have short : Disk.Short (Location.path (mergePlace temp)) := by
      rw [Disk.Short]
      omega
    obtain ⟨d₁, made, raised⟩ := Disk.makeDirectories_path way short
    have isDir : d₁.IsDirectory (mergePlace temp) := raised.isDirectory d.isDirectory_nil
    refine ⟨d₁, made, Disk.reaches_path isDir rfl, isDir, fun other ne => ?_⟩
    rw [raised.get?]
    split
    · rename_i on
      exact (h.above on.2.2 ne).symm
    · rfl
  · exact ⟨d, reach.makeDirectories isDir (by rw [Disk.Short]; omega), reach, isDir, fun _ _ => rfl⟩

theorem exists_room {n : Nat} (h : Ready w.disk area temp top taken)
    (free : w.disk.get? (top ++ [Patch.mergedChild n]) = none) : ∃ d₁ n serial,
      Disk.makeDirectories area.mergeRoot w.disk = .ok () d₁ ∧
      World.freshDirectory area.mergeRoot Patch.mergedName { w with disk := d₁ } =
        .ok (Location.path (mergePlace temp ++ [Patch.mergedChild n]))
          { w with
            disk := d₁.plant (top ++ [Patch.mergedChild n]) .directory
            serial := serial } ∧
      w.disk.get? (top ++ [Patch.mergedChild n]) = none ∧
      d₁.Reaches area.mergeRoot top ∧ d₁.IsDirectory top ∧
      ∀ other ≠ top, d₁.get? other = w.disk.get? other := by
  obtain ⟨d₁, made, reach, isDir, frame⟩ := h.exists_top
  have free' : d₁.get? (top ++ [Patch.mergedChild n]) = none := by
    rw [frame _ (by simp)]
    exact free
  have short : ∀ n, Disk.Short (area.mergeRoot.child (Patch.mergedChild n).bytes) := by
    intro n
    rw [child_mergeRoot h.root, Disk.Short, length_merged h.root]
    exact h.short
  have absolute : area.mergeRoot.isAbsolute = true := by
    rw [mergeRoot_eq_path h.root]
    exact Location.isAbsolute_path _
  obtain ⟨n, serial, vacant, fresh⟩ :=
    Patch.exists_freshDirectory (w := { w with disk := d₁ }) absolute reach isDir short free'
  rw [child_mergeRoot h.root] at fresh
  refine ⟨d₁, n, serial, made, fresh, ?_, reach, isDir, frame⟩
  rw [← frame _ (by simp)]
  exact vacant

/-- What can be merged and fits is merged in the temp hierarchy. Beside the new tree and the
directory it is in nothing changes. -/
theorem exists_merge {n : Nat} {before after : Path} {record : PatchRecord}
    {base patch : List TreeEntry} (h : Ready w.disk area temp top taken)
    (free : w.disk.get? (top ++ [Patch.mergedChild n]) = none)
    (hb : w.disk.walk .content before = .ok base) (hp : w.disk.walk .content after = .ok patch)
    (mergeable : Patch.Mergeable (w.disk.contentsOf base) (w.disk.contentsOf patch) patch
      record.removed)
    (fits : ∀ key, Patch.merged (w.disk.contentsOf base) (w.disk.contentsOf patch) record.removed
      key ≠ none → ∃ names : Location, names ≠ [] ∧ key = names.key ∧
        area.mergeRoot.text.length + 14 + key.length ≤ maxPathLength) : ∃ n v,
    Patch.mergeWith area.mergeRoot before after record w =
        .ok (Location.path (mergePlace temp ++ [Patch.mergedChild n])) v ∧
      w.disk.get? (top ++ [Patch.mergedChild n]) = none ∧
      v.disk.Shows (Location.path (mergePlace temp ++ [Patch.mergedChild n]))
        (top ++ [Patch.mergedChild n])
        (Patch.merged (w.disk.contentsOf base) (w.disk.contentsOf patch) record.removed) ∧
      ∀ other, other ≠ top → ¬ top ++ [Patch.mergedChild n] <+: other →
        v.disk.get? other = w.disk.get? other := by
  obtain ⟨d₁, n, serial, made, fresh, free, reach, isDir, frame⟩ := h.exists_room free
  have short : ∀ key, Patch.merged (w.disk.contentsOf base) (w.disk.contentsOf patch) record.removed
      key ≠ none →
        Disk.Short (Key.path (Location.path (mergePlace temp ++ [Patch.mergedChild n])) key) := by
    intro key there
    obtain ⟨names, busy, rfl, room⟩ := fits key there
    rw [Location.path_key busy, Disk.pathBelow_path, Disk.Short,
      Location.length_path_append (by simp) busy, length_merged h.root]
    omega
  obtain ⟨goal, d', v, run, like, opened, same, shows⟩ :=
    Patch.exists_mergeWith hb hp mergeable ⟨made, fresh, short⟩
  have planted : (d₁.plant (top ++ [Patch.mergedChild n])
      .directory).IsDirectory (top ++ [Patch.mergedChild n]) := by
    have vacant := frame (top ++ [Patch.mergedChild n]) (by simp)
    rw [free] at vacant
    exact Disk.get?_plant_self (by simp) vacant (by rwa [List.dropLast_concat]) _
  have child := (reach.mono (Disk.within_plant (top ++ [Patch.mergedChild n]) .directory)).child
    planted rfl
  rw [child_mergeRoot h.root] at child
  obtain rfl : goal = top ++ [Patch.mergedChild n] := opened.hosts.reaches.unique child
  obtain rfl : d' = v.disk := like.disk
  refine ⟨n, v, run, free, shows, fun other ne away => ?_⟩
  rw [same.2 other fun below => away below.1, opened.get?, if_neg, frame other ne]
  rintro rfl
  exact away (List.prefix_refl _)

end Ready

/-- A patch at a location turns a tree with the old content, known by the signature, into one with
the new content, which fits below the directory of merged trees. -/
structure Extends (d : Disk) (area : WorkArea) (loc : Location) (signature : Signature)
    (old new : KeyMap Bytes) (removed : List Key) (time : Instant) : Prop where
  lies : Patch.Lies d (Location.path loc) loc (PatchRecord.full signature (Digest.ofContents old)
    (removed.map Patch.markerOf) time) old new
  clock : time.IsShown
  told : Patch.ToldApart old new
  earlier : Disk.IsTree old
  later : Disk.IsTree new
  gone : ∀ key, key ∈ removed ↔ old.get? key ≠ none ∧ new.get? key = none
  plain : ∀ key ∈ removed, (92 : UInt8) ∉ key
  fits : ∀ key, new.get? key ≠ none → area.mergeRoot.text.length + 14 + key.length ≤ maxPathLength

/-- There is a new directory at the top, at a place that was free. Beside it only the top itself can
be new. -/
structure AddsBelow (top : Location) (name : Name) (d d' : Disk) : Prop where
  free : d.get? (top ++ [name]) = none
  isDirectory : d'.IsDirectory (top ++ [name])
  get? : ∀ other, other ≠ top → ¬ top ++ [name] <+: other → d'.get? other = d.get? other

namespace AddsBelow

variable {d' : Disk} {name : Name} {layer : Location} (h : AddsBelow top name d d')

include h

theorem isTop : d'.IsDirectory top := Disk.isDirectory_of_child h.isDirectory

theorem keeps {node : Node} (ready : Ready d area temp top taken)
    (held : d.get? other = some node) : d'.get? other = some node := by
  by_cases e : other = top
  · subst e
    rw [ready.isDirectory_of_some held]
    exact h.isTop
  · rw [h.get? other e, held]
    rintro ⟨rest, rfl⟩
    rw [Disk.get?_append_of_none h.free] at held
    cases held

theorem apart (there : d.IsDirectory layer) (off : ¬ layer <+: top) :
    (top ++ [name]).Disjoint layer ∧
      ∀ names, d'.get? (layer ++ names) = d.get? (layer ++ names) := by
  have apart := Location.disjoint_of_free h.free there off
  refine ⟨apart, fun names => h.get? _ ?_ (apart.not_prefix_append names)⟩
  intro e
  exact off ⟨names, e⟩

theorem known {d₂ : Disk} (ready : Ready d area temp top taken) (sub : d₂.Within d') :
    ∀ other, d₂.get? (top ++ [other]) ≠ none → other ∈ name :: taken := by
  intro other there
  by_cases new : other = name
  · rw [new]
    exact List.mem_cons_self
  · obtain ⟨node, e⟩ := Option.ne_none_iff_exists'.mp there
    have away : ¬ top ++ [name] <+: top ++ [other] :=
      fun le => new (Location.child_prefix_child_iff.mp le).symm
    have before := sub.2 _ _ e
    rw [h.get? _ (by simp) away] at before
    exact List.mem_cons_of_mem _ (ready.known other (by rw [before]; nofun))

end AddsBelow

/-- The patch merged onto the old content makes a new tree with the new one. Beside that tree and
the directory it is in nothing changes. -/
theorem merge_run (ready : Ready w.disk area temp top taken)
    (few : taken.length < 62 ^ World.freshWidth) {current : Path}
    (content : w.disk.contents current = .ok old)
    (link : Extends w.disk area loc signature old new removed time) : ∃ n v,
      Patch.mergeWith area.mergeRoot current (Location.path loc) (PatchRecord.full signature
        (Digest.ofContents old) (removed.map Patch.markerOf) time) w =
          .ok (Location.path (mergePlace temp ++ [Patch.mergedChild n])) v ∧
      AddsBelow top (Patch.mergedChild n) w.disk v.disk ∧
      v.disk.contents (Location.path (mergePlace temp ++ [Patch.mergedChild n])) = .ok new := by
  obtain ⟨entries, hb, rfl⟩ := Disk.contents_eq_ok_iff.mp content
  obtain ⟨patch, hp, plain, supplied⟩ := link.lies.walked link.later
  have mergeable : Patch.Mergeable _ _ patch (PatchRecord.full signature
      (Digest.ofContents (w.disk.contentsOf entries)) (removed.map Patch.markerOf) time).removed :=
    Patch.mergeable_changes link.earlier link.later link.gone supplied plain link.plain
  have whole := Patch.merged_changes link.earlier link.gone supplied link.told
  obtain ⟨_, free⟩ := ready.exists_free few
  obtain ⟨n, v, run, free', shows, frame⟩ :=
    ready.exists_merge free hb hp mergeable fun key there => by
      have there' : new.get? key ≠ none := whole key ▸ there
      obtain ⟨bytes, e⟩ := Option.ne_none_iff_exists'.mp there'
      obtain ⟨names, busy, named, -⟩ := link.later.named key bytes e
      exact ⟨names, busy, named, link.fits _ there'⟩
  exact ⟨n, v, run, ⟨free', shows.isDirectory, frame⟩, shows.contents link.later.sorted whole⟩

/-- A layer that is released can take its place with it, and the directory right around it. -/
def LostWith (layers : List Location) (loc : Location) : Prop :=
  ∃ layer ∈ layers, layer <+: loc ∨ loc = layer.dropLast

/-- The merge root leads to the top as long as nothing else is lost: it is that directory, or a link
to it by a way over other places. -/
def StaysAt (d : Disk) (lost : Location → Prop) (area : WorkArea) (temp top : Location) : Prop :=
  top = mergePlace temp ∨ (¬ lost (mergePlace temp) ∧
    (∃ text, d.get? (mergePlace temp) = some (.link text)) ∧
      d.ReachesWithout lost area.mergeRoot top)

namespace StaysAt

variable {d₀ : Disk} {lost : Location → Prop}

theorem reaches (h : StaysAt d₀ lost area temp top) (root : area.tempRoot = Location.path temp)
    (kept : d₀.KeptBut lost d) (isTop : d.IsDirectory top) : d.Reaches area.mergeRoot top := by
  rcases h with rfl | ⟨-, -, way⟩
  · rw [mergeRoot_eq_path root]
    exact Disk.reaches_path isTop rfl
  · exact (way d kept).1

theorem reaches_child (h : StaysAt d₀ lost area temp top)
    (root : area.tempRoot = Location.path temp) (kept : d₀.KeptBut lost d) {n : Nat}
    (isDir : d.IsDirectory (top ++ [Patch.mergedChild n])) :
    d.Reaches (Location.path (mergePlace temp ++ [Patch.mergedChild n]))
      (top ++ [Patch.mergedChild n]) := by
  rw [← child_mergeRoot root]
  exact (h.reaches root kept (Disk.isDirectory_of_child isDir)).child isDir rfl

theorem isDirectory (h : StaysAt d₀ lost area temp top) (kept : d₀.KeptBut lost d)
    (isTop : d.IsDirectory top) : d.IsDirectory temp := by
  rcases h with rfl | ⟨stays, ⟨text, held⟩, -⟩
  · exact Disk.isDirectory_of_child isTop
  · exact Disk.isDirectory_of_child (kept _ _ stays held)

theorem ready (h : StaysAt d₀ lost area temp top) (root : area.tempRoot = Location.path temp)
    (short : area.mergeRoot.text.length + 13 ≤ maxPathLength) (kept : d₀.KeptBut lost d)
    (isTop : d.IsDirectory top) (known : ∀ name, d.get? (top ++ [name]) ≠ none → name ∈ taken) :
    Ready d area temp top taken := by
  refine ⟨root, h.isDirectory kept isTop, ?_, known, short⟩
  have reach := h.reaches root kept isTop
  rcases h with rfl | ⟨stays, ⟨text, held⟩, -⟩
  · exact .inl ⟨rfl, .inr isTop⟩
  · exact .inr ⟨⟨text, kept _ _ stays held⟩, reach, isTop⟩

end StaysAt

/-- A tree with the content lies at its place, and there is room for merged ones. It is the first
layer or was merged before; of the disk that the chain was started on, all that is not lost is there
still. -/
structure Stage (d₀ : Disk) (lost : Location → Prop) (d : Disk) (area : WorkArea)
    (temp top : Location) (taken : List Name) (current : Path) (base : Location)
    (content : KeyMap Bytes) : Prop where
  ready : Ready d area temp top taken
  stays : StaysAt d₀ lost area temp top
  kept : d₀.KeptBut lost d
  isDirectory : d.IsDirectory base
  contents : d.contents current = .ok content
  off : ¬ base <+: top
  place : current = Location.path base ∨ ∃ n,
    current = Location.path (mergePlace temp ++ [Patch.mergedChild n]) ∧
      base = top ++ [Patch.mergedChild n]
  spent : ∀ other, d₀.get? other ≠ none →
    base <+: other ∨ (other = base.dropLast ∧ other ≠ top) → lost other

theorem ne_nil_of_off (off : ¬ base <+: top) : base ≠ [] := by
  rintro rfl
  exact off List.nil_prefix

namespace Stage

variable {d₀ : Disk} {lost : Location → Prop} {current : Path} {u v : World}

theorem admits (h : Stage d₀ lost d area temp top taken current base old)
    (link : Extends d area loc signature old new removed time) :
    CombineRequest.Admits ⟨current, Location.path loc, some signature⟩ d
      (PatchRecord.full signature (Digest.ofContents old) (removed.map Patch.markerOf) time) := by
  obtain ⟨entries, run, -⟩ := Disk.contents_eq_ok_iff.mp h.contents
  obtain ⟨place, walked⟩ := Disk.walked_of_walk run
  have given : current.isEmpty = false := by simpa [Path.isEmpty] using walked.reaches.1
  have given' : (Location.path loc).isEmpty = false := by simp [Path.isEmpty]
  refine ⟨⟨given, given'⟩, ⟨?_, ?_⟩, ?_, ⟨signature, rfl, rfl⟩,
    ⟨_, _, Disk.digest_of_contents h.contents, rfl⟩⟩
  · exact Disk.hasEntry_iff.mpr ⟨place, walked.reaches, walked.short⟩
  · exact Disk.hasEntry_iff.mpr ⟨loc, link.lies.hosts.reaches, link.lies.hosts.short⟩
  · have reads := PatchRecord.parse_text signature (Digest.ofContents old)
      (removed.map Patch.markerOf) (Instant.parse_text link.clock)
    exact link.lies.recorded reads rfl

theorem release_current (h : Stage d₀ lost d area temp top taken current base old)
    (kept : d₀.KeptBut lost u.disk) (isTop : u.disk.IsDirectory top)
    (isDir : u.disk.IsDirectory base) :
    (after (Release.release area.policy current : Action ε Unit) u).disk.Within u.disk ∧
      ∀ other, ¬ base <+: other → other ≠ base.dropLast →
        (after (Release.release area.policy current : Action ε Unit) u).disk.get? other =
          u.disk.get? other := by
  have ne : base ≠ [] := ne_nil_of_off h.off
  rcases h.place with rfl | ⟨n, rfl, rfl⟩
  · obtain ⟨sub, cleared⟩ := Release.release_clears (ε := ε) area ne isDir
    refine ⟨sub, fun other away proper => (cleared other proper).2 ?_⟩
    simpa using fun _ => away
  · have shared : area.Protects (mergePlace temp) := by
      refine ⟨area.mergeRoot, .inr (.inr rfl), ?_⟩
      rw [mergeRoot_eq_path h.ready.root, Location.same_path_iff]
    have isTemp : u.disk.IsDirectory (mergePlace temp).dropLast := by
      rw [mergePlace, List.dropLast_concat]
      exact h.stays.isDirectory kept isTop
    obtain ⟨v, run, e⟩ := Release.release_child (ε := ε) area shared isTemp (Patch.mergedChild n)
    rw [after_of_ok run, e]
    split
    swap
    · exact ⟨.refl _, fun _ _ _ => rfl⟩
    -- Without the tree the merge root leads to the top as well.
    have lasting : d₀.KeptBut lost (u.disk.uproot (top ++ [Patch.mergedChild n])) := by
      intro other node stays held
      rw [Disk.get?_uproot (by simp), if_neg, kept other node stays held]
      exact fun le => stays (h.spent other (by rw [held]; nofun) (.inl le))
    have isTop' : (u.disk.uproot (top ++ [Patch.mergedChild n])).IsDirectory top := by
      rw [Disk.IsDirectory, Disk.get?_uproot (by simp), if_neg h.off]
      exact isTop
    have reach := h.stays.reaches h.ready.root lasting isTop'
    have free : (u.disk.uproot (top ++ [Patch.mergedChild n])).get?
        (top ++ [Patch.mergedChild n]) = none := by
      rw [Disk.get?_uproot (by simp), if_pos List.prefix_rfl]
    have short : Disk.Short (area.mergeRoot.child (Patch.mergedChild n).bytes) := by
      rw [child_mergeRoot h.ready.root, Disk.Short, length_merged h.ready.root]
      exact h.ready.short
    have pruned := reach.after_removeTree_child (Disk.uproot_within _) free isDir short
    rw [child_mergeRoot h.ready.root] at pruned
    exact ⟨pruned.within, fun other away _ => (pruned.get? other).trans (if_neg away)⟩

theorem releases_keep (h : Stage d₀ lost d area temp top taken current base old)
    (kept : d₀.KeptBut lost u.disk) (isTop : u.disk.IsDirectory top)
    (isDir : u.disk.IsDirectory base) (isDir' : u.disk.IsDirectory loc) (ne : loc ≠ [])
    (apart : base.Disjoint loc)
    (released : v.disk = (after (Release.release area.policy (Location.path loc) : Action ε Unit)
      (after (Release.release area.policy current : Action ε Unit) u)).disk) :
    v.disk.Within u.disk ∧ ∀ other, ¬ base <+: other → other ≠ base.dropLast →
      ¬ loc <+: other → other ≠ loc.dropLast → v.disk.get? other = u.disk.get? other := by
  obtain ⟨sub, same⟩ := h.release_current (ε := ε) kept isTop isDir
  have proper := apart.append_ne_dropLast []
  rw [List.append_nil] at proper
  obtain ⟨sub', cleared⟩ := Release.release_clears (ε := ε) area ne
    ((same loc apart.1 proper).trans isDir')
  rw [← released] at sub' cleared
  refine ⟨sub'.trans sub, fun other away proper away' proper' => ?_⟩
  rw [(cleared other proper').2 (by simpa using fun _ => away'), same other away proper]

theorem kept_of_released (h : Stage d₀ lost d area temp top taken current base old) {d₁ d₂ : Disk}
    (spent : ∀ other, loc <+: other ∨ other = loc.dropLast → lost other)
    (kept : d₀.KeptBut lost d₁) (isTop : d₁.IsDirectory top) (isTop' : d₂.IsDirectory top)
    (left : ∀ other, ¬ base <+: other → other ≠ base.dropLast → ¬ loc <+: other →
      other ≠ loc.dropLast → d₂.get? other = d₁.get? other) : d₀.KeptBut lost d₂ := by
  intro other node stays held
  have there : d₀.get? other ≠ none := by
    rw [held]
    nofun
  have before := kept other node stays held
  by_cases e : other = top
  · subst e
    cases (show d₁.get? _ = _ from isTop).symm.trans before
    exact isTop'
  · rw [left other (fun le => stays (h.spent other there (.inl le)))
      (fun e' => stays (h.spent other there (.inr ⟨e', e⟩)))
      (fun le => stays (spent other (.inl le))) (fun e => stays (spent other (.inr e)))]
    exact before

/-- One link of a chain. The combiner makes the next tree and releases the last one and the patch;
each layer that is apart from these is as it was, and apart from the new tree too. -/
theorem link_run (h : Stage d₀ lost w.disk area temp top taken current base old)
    (few : taken.length < 62 ^ World.freshWidth) (off : ¬ loc <+: top)
    (spent : ∀ other, loc <+: other ∨ other = loc.dropLast → lost other)
    (apart : base.Disjoint loc)
    (link : Extends w.disk area loc signature old new removed time) : ∃ n c v,
      ((Combiner.inArea ⟨current, Location.path loc, some signature⟩
        area).runScoped : Action ε _) w =
          .ok (.ok (Location.path (mergePlace temp ++ [Patch.mergedChild n])), c) v ∧
      Stage d₀ lost v.disk area temp top (Patch.mergedChild n :: taken)
        (Location.path (mergePlace temp ++ [Patch.mergedChild n]))
        (top ++ [Patch.mergedChild n]) new ∧
      ∀ layer, w.disk.IsDirectory layer → ¬ layer <+: top → base.Disjoint layer →
        loc.Disjoint layer → (top ++ [Patch.mergedChild n]).Disjoint layer ∧
          ∀ names, v.disk.get? (layer ++ names) = w.disk.get? (layer ++ names) := by
  obtain ⟨n, merged, merge, adds, content⟩ := merge_run h.ready few h.contents link
  obtain ⟨c, u, v, run, same, released⟩ := Combiner.runScoped_of_merged (ε := ε)
    (Combiner.inArea ⟨current, Location.path loc, some signature⟩ area) rfl rfl
      (h.admits link) merge
  rw [← same] at adds content
  have kept : d₀.KeptBut lost u.disk := fun other node stays held =>
    adds.keeps h.ready (h.kept other node stays held)
  obtain ⟨newApart, -⟩ := adds.apart h.isDirectory h.off
  obtain ⟨newApart', -⟩ := adds.apart link.lies.hosts.isDirectory off
  obtain ⟨sub, left⟩ := h.releases_keep kept adds.isTop (adds.keeps h.ready h.isDirectory)
    (adds.keeps h.ready link.lies.hosts.isDirectory) (ne_nil_of_off off) apart released
  -- What is apart from both inputs outlasts their releases, the new tree included.
  have beside : ∀ layer, base.Disjoint layer → loc.Disjoint layer → ∀ names,
      v.disk.get? (layer ++ names) = u.disk.get? (layer ++ names) :=
    fun layer away away' names => left _ (away.not_prefix_append names)
      (away.append_ne_dropLast names) (away'.not_prefix_append names)
      (away'.append_ne_dropLast names)
  have stillNew := beside _ newApart.symm newApart'.symm
  have isDirNew : v.disk.IsDirectory (top ++ [Patch.mergedChild n]) := by
    have whole := stillNew []
    rw [List.append_nil] at whole
    exact whole.trans adds.isDirectory
  have isTop' : v.disk.IsDirectory top := Disk.isDirectory_of_child isDirNew
  have kept' := h.kept_of_released spent kept adds.isTop isTop' left
  refine ⟨n, c, v, run, ⟨h.stays.ready h.ready.root h.ready.short kept' isTop'
    (adds.known h.ready sub), h.stays, kept', isDirNew, ?_, Location.not_child_prefix top _,
    .inr ⟨n, rfl, rfl⟩, ?_⟩, fun layer there off apart apart' => ?_⟩
  · exact Disk.contents_congr (h.stays.reaches_child h.ready.root kept adds.isDirectory)
      (h.stays.reaches_child h.ready.root kept' isDirNew) stillNew content
  · rintro other there (⟨rest, rfl⟩ | ⟨e, proper⟩)
    · -- The place was free, so what was there at the start is lost.
      by_contra stays
      obtain ⟨node, held⟩ := Option.ne_none_iff_exists'.mp there
      have now := h.kept _ _ stays held
      rw [Disk.get?_append_of_none adds.free] at now
      cases now
    · rw [List.dropLast_concat] at e
      exact absurd e proper
  · obtain ⟨away, before⟩ := adds.apart there off
    refine ⟨away, fun names => ?_⟩
    rw [beside layer apart apart', before]

end Stage

end Chain
end LayeredTree
