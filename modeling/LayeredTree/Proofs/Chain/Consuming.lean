import LayeredTree.Proofs.Chain.Building
import LayeredTree.Proofs.Patch.Ends

set_option autoImplicit false

namespace LayeredTree

open World

variable {ε : Type} {w v u : World} {d d' : Disk} {area : WorkArea}
variable {data temp base loc other : Location} {name : Name} {signature : Signature}
variable {patches : List (Location × Signature)}

namespace Chain

/-- The hierarchies of an area are where it has them, and the directory of merged trees is no link.
No directory that is made in there gets the name of the data hierarchy. -/
structure AreaLaidOut (d : Disk) (area : WorkArea) (data temp : Location) : Prop where
  dataRoot : area.dataRoot = Location.path data
  tempRoot : area.tempRoot = Location.path temp
  isDirectory : d.IsDirectory temp
  plain : ∀ text, d.get? (mergePlace temp) ≠ some (.link text)
  apart : ∀ name, d.get? (mergePlace temp ++ [name]) = none → mergePlace temp ++ [name] ≠ data

theorem AreaLaidOut.frees (laid : AreaLaidOut d area data temp)
    (free : d.get? (mergePlace temp ++ [name]) = none)
    (short : Disk.Short (Location.path (mergePlace temp ++ [name]))) :
    area.Frees (mergePlace temp ++ [name]) :=
  frees_of_below laid.dataRoot laid.tempRoot short ⟨[mergeDir, name], by simp [mergePlace]⟩
    (by simp [mergePlace]) (laid.apart name free) (by simp)

/-- A tree that a link starts from: a layer, or a tree that was merged. -/
def Beside (temp base : Location) : Prop :=
  base.Disjoint (mergePlace temp) ∨ ∃ name, base = mergePlace temp ++ [name]

namespace Beside

theorem off (h : Beside temp base) : ¬ base <+: mergePlace temp := by
  rcases h with apart | ⟨name, rfl⟩
  · exact apart.1
  · intro le
    have longer := le.length_le
    simp at longer

theorem ne (h : Beside temp base) : base ≠ mergePlace temp := by
  rintro rfl
  exact h.off (List.prefix_refl _)

theorem append_ne_dropLast (h : Beside temp base) {names : Location} (ne : names ≠ []) :
    mergePlace temp ++ names ≠ base.dropLast := by
  rcases h with apart | ⟨name, rfl⟩
  · exact apart.append_ne_dropLast names
  · simpa using ne

end Beside

/-- Of what was there, beside the directory of merged trees and those around the layers, just what
the area frees of the layers is gone. -/
def Consumes (area : WorkArea) (temp : Location) (layers : List Location) (d d' : Disk)
    (other : Location) : Prop :=
  other ≠ mergePlace temp → (∀ layer ∈ layers, other ≠ layer.dropLast) →
    Cleared area layers d d' other

theorem Consumes.get?_eq {layers : List Location} {names : Location}
    (consumed : Consumes area temp layers d d' (loc ++ names))
    (apart : ∀ layer ∈ layers, layer.Disjoint loc) (proper : loc ++ names ≠ mergePlace temp) :
    d'.get? (loc ++ names) = d.get? (loc ++ names) := by
  refine (consumed proper fun layer hm => ?_).2 fun layer hm _ => ?_
  · exact (apart layer hm).append_ne_dropLast names
  · exact (apart layer hm).not_prefix_append names

/-- Between two links the running tree and the layers that are left lie apart from each other, and
the area is in place. -/
structure Running (w : World) (area : WorkArea) (data temp base : Location)
    (layers : List Location) : Prop where
  laidOut : AreaLaidOut w.disk area data temp
  isDirectory : w.disk.IsDirectory base
  beside : Beside temp base
  laid : ∀ layer ∈ layers, w.disk.IsDirectory layer ∧ layer.Disjoint (mergePlace temp)
  apart : (base :: layers).Pairwise Location.Disjoint

/-- The patch passes the checks against the running tree under the signature that the layer before
it was published with. The next tree has the content of that tree with the patch merged onto it. -/
structure MergesInto (layers : Disk) (area : WorkArea) (w : World) (base loc : Location)
    (signature : Signature) (record : PatchRecord) (old patch : KeyMap Bytes)
    (entries : List TreeEntry) (next : Location) (v : World) : Prop where
  admits : CombineRequest.Admits ⟨Location.path base, Location.path loc, some signature⟩ w.disk
    record
  running : w.disk.contents (Location.path base) = .ok old
  walked : layers.walk .content (Location.path loc) = .ok entries
  layer : layers.contents (Location.path loc) = .ok patch
  mergeable : Patch.Mergeable old patch entries record.removed
  ran : ∃ c, ((Combiner.inArea ⟨Location.path base, Location.path loc, some signature⟩
    area).runScoped : Action CombineError _) w = .ok (.ok (Location.path next), c) v
  merged : ∃ new, v.disk.contents (Location.path next) = .ok new ∧
    ∀ key, new.get? key = Patch.merged old patch record.removed key

/-- A link made a tree that was not there, and consumed the running tree and the patch. -/
structure Grown (area : WorkArea) (temp : Location) (w : World) (base loc : Location) (name : Name)
    (v : World) : Prop where
  free : w.disk.get? (mergePlace temp ++ [name]) = none
  frees : area.Frees (mergePlace temp ++ [name])
  isDirectory : v.disk.IsDirectory (mergePlace temp ++ [name])
  consumes : ∀ other, ¬ mergePlace temp ++ [name] <+: other →
    Consumes area temp [base, loc] w.disk v.disk other

theorem runScoped_clears {request : CombineRequest} {c : Combiner} {w' : World}
    {result : Except CombineError Path} (before : request.before = Location.path base)
    (after_ : request.after = Location.path loc) (ne : base ≠ []) (ne' : loc ≠ [])
    (isDir : w'.disk.IsDirectory base) (isDir' : w'.disk.IsDirectory loc)
    (apart : base.Disjoint loc)
    (run : ((Combiner.inArea request area).combine : Action ε _) w = .ok (result, c) w')
    (pending : c.released = false) (policy : c.policy = area.policy) (same : c.request = request) :
    ∃ c' v, ((Combiner.inArea request area).runScoped : Action ε _) w = .ok (result, c') v ∧
      ∀ other, other ≠ base.dropLast → other ≠ loc.dropLast →
        Cleared area [base, loc] w'.disk v.disk other := by
  obtain ⟨u, v, ended, still, released⟩ := Combiner.runScoped_of_combine (ε := ε) _ run pending
  rw [policy, same, before, after_] at released
  rw [← still] at isDir isDir' ⊢
  obtain ⟨-, cleared⟩ := Release.releases_clear (ε := ε) area ne ne' isDir isDir' apart released
  exact ⟨_, v, ended, cleared⟩

namespace Running

variable {layers : List Location} (h : Running w area data temp base (loc :: layers))

include h

theorem beside_patch : Beside temp loc := .inl (h.laid loc List.mem_cons_self).2

theorem disjoint : base.Disjoint loc := (List.pairwise_cons.mp h.apart).1 loc List.mem_cons_self

theorem disjoint_later {layer : Location} (hm : layer ∈ layers) :
    ∀ first ∈ [base, loc], first.Disjoint layer := by
  obtain ⟨fromBase, rest⟩ := List.pairwise_cons.mp h.apart
  obtain ⟨fromLoc, -⟩ := List.pairwise_cons.mp rest
  simp only [List.forall_mem_cons]
  exact ⟨fromBase layer (List.mem_cons_of_mem _ hm), fromLoc layer hm, nofun⟩

theorem mergesInto_of_merged {record : PatchRecord} {p : Path} {w₁ w₂ : World} {c : Combiner}
    (admits : CombineRequest.Admits ⟨Location.path base, Location.path loc, some signature⟩ w.disk
      record)
    (merge : Patch.mergeWith area.mergeRoot (Location.path base) (Location.path loc) record w =
      .ok p w₂) (like : Alike w₂ w₁)
    (run : ((Combiner.inArea ⟨Location.path base, Location.path loc, some signature⟩
      area).combine : Action CombineError _) w = .ok (.ok p, c) w₁)
    (pending : c.released = false) (policy : c.policy = area.policy)
    (same : c.request = ⟨Location.path base, Location.path loc, some signature⟩) :
    ∃ name old patch entries v, MergesInto w.disk area w base loc signature record old patch entries
      (mergePlace temp ++ [name]) v ∧ Grown area temp w base loc name v := by
  rw [mergeRoot_eq_path h.laidOut.tempRoot] at merge
  obtain ⟨n, old, patch, rfl, short, free, frame, hb, hp, mergeable, shows⟩ :=
    Patch.of_mergeWith h.laidOut.isDirectory h.laidOut.plain merge
  rw [like.disk] at frame shows
  -- Both inputs were there before, so that they are apart from the new tree.
  have new : ∀ {layer : Location}, Beside temp layer → w.disk.IsDirectory layer →
      layer.Disjoint (mergePlace temp ++ [Patch.mergedChild n]) ∧ w₁.disk.IsDirectory layer := by
    intro layer beside there
    have away := Location.disjoint_of_free free there beside.off
    exact ⟨away.symm, (frame layer beside.ne away.1).trans there⟩
  obtain ⟨away, there⟩ := new h.beside h.isDirectory
  obtain ⟨away', there'⟩ := new h.beside_patch (h.laid loc List.mem_cons_self).1
  obtain ⟨c', v, ended, cleared⟩ := runScoped_clears rfl rfl (ne_nil_of_off h.beside.off)
    (ne_nil_of_off h.beside_patch.off) there there' h.disjoint run pending policy same
  have still : ∀ names, v.disk.get? (mergePlace temp ++ [Patch.mergedChild n] ++ names) =
      w₁.disk.get? (mergePlace temp ++ [Patch.mergedChild n] ++ names) := by
    intro names
    refine (cleared _ (away.append_ne_dropLast names) (away'.append_ne_dropLast names)).2 ?_
    simp only [List.forall_mem_cons]
    exact ⟨fun _ => away.not_prefix_append names, fun _ => away'.not_prefix_append names, nofun⟩
  have isNew : v.disk.IsDirectory (mergePlace temp ++ [Patch.mergedChild n]) := by
    have top := still []
    rw [List.append_nil] at top
    exact top.trans shows.isDirectory
  obtain ⟨entries, walk, -, get⟩ := shows.walked
  have content := Disk.contents_congr (Disk.reaches_path shows.isDirectory rfl)
    (Disk.reaches_path isNew rfl) still (Disk.contents_eq_ok_iff.mpr ⟨entries, walk, rfl⟩)
  refine ⟨Patch.mergedChild n, w.disk.contentsOf old, w.disk.contentsOf patch, patch, v,
    ⟨admits, Disk.contents_eq_ok_iff.mpr ⟨old, hb, rfl⟩, hp,
      Disk.contents_eq_ok_iff.mpr ⟨patch, hp, rfl⟩, mergeable, ⟨c', ended⟩, _, content, get⟩,
    free, h.laidOut.frees free short, isNew, fun other outside proper around => ?_⟩
  simp only [List.forall_mem_cons] at around
  exact (cleared other around.1 around.2.1).of_eq (frame other proper outside)

theorem link_cases (signature : Signature) :
    (∃ e c v, ((Combiner.inArea ⟨Location.path base, Location.path loc, some signature⟩
        area).runScoped : Action CombineError _) w = .ok (.error e, c) v ∧
      ∀ other, Consumes area temp [base, loc] w.disk v.disk other) ∨
    ∃ name record old patch entries v, MergesInto w.disk area w base loc signature record old patch
      entries (mergePlace temp ++ [name]) v ∧ Grown area temp w base loc name v := by
  have isDir := h.isDirectory
  have isDir' := (h.laid loc List.mem_cons_self).1
  have beside' := h.beside_patch
  have ne : base ≠ [] := ne_nil_of_off h.beside.off
  have ne' : loc ≠ [] := ne_nil_of_off beside'.off
  obtain ⟨result, c, w₁, run, cases⟩ := Combiner.combine_cases (ε := CombineError)
    (Combiner.inArea ⟨Location.path base, Location.path loc, some signature⟩ area) rfl w
  rcases cases with ⟨record, p, w₂, admits, merge, rfl, rfl, like⟩ |
    ⟨record, e, w₂, admits, merge, rfl, rfl, like⟩ | ⟨-, e, rfl, rfl, like⟩
  · obtain ⟨name, old, patch, entries, v, merges, grown⟩ :=
      h.mergesInto_of_merged admits merge like run rfl rfl rfl
    exact .inr ⟨name, record, old, patch, entries, v, merges, grown⟩
  · left
    have merge' : Patch.mergeWith area.mergeRoot _ _ record w = .error e w₂ := merge
    rw [mergeRoot_eq_path h.laidOut.tempRoot] at merge'
    have frame : ∀ other ≠ mergePlace temp, w₁.disk.get? other = w.disk.get? other := by
      intro other proper
      rw [← like.disk]
      exact (Patch.of_mergeWith_error h.laidOut.isDirectory merge').2 other proper
    obtain ⟨c', v, ended, cleared⟩ := runScoped_clears rfl rfl ne ne'
      ((frame base h.beside.ne).trans isDir) ((frame loc beside'.ne).trans isDir') h.disjoint run
        rfl rfl rfl
    refine ⟨e, c', v, ended, fun other proper around => ?_⟩
    simp only [List.forall_mem_cons] at around
    exact (cleared other around.1 around.2.1).of_eq (frame other proper)
  · left
    obtain ⟨c', v, ended, cleared⟩ := runScoped_clears rfl rfl ne ne' (like.disk ▸ isDir)
      (like.disk ▸ isDir') h.disjoint run rfl rfl rfl
    refine ⟨e, c', v, ended, fun other proper around => ?_⟩
    simp only [List.forall_mem_cons] at around
    rw [like.disk]
    exact cleared other around.1 around.2.1

theorem get?_later (grown : Grown area temp w base loc name v) {layer : Location}
    (hm : layer ∈ layers) (names : Location) :
    v.disk.get? (layer ++ names) = w.disk.get? (layer ++ names) := by
  have outside := (h.laid layer (List.mem_cons_of_mem _ hm)).2
  refine (grown.consumes _ ?_).get?_eq (h.disjoint_later hm) fun e => outside.1 ⟨names, e⟩
  exact (outside.symm.append [name]).not_prefix_append names

theorem areaLaidOut_next (grown : Grown area temp w base loc name v) :
    AreaLaidOut v.disk area data temp := by
  have laid := h.laidOut
  have merge := Disk.isDirectory_of_child grown.isDirectory
  refine ⟨laid.dataRoot, laid.tempRoot, Disk.isDirectory_of_child merge, fun text link => ?_,
    fun other free same => ?_⟩
  · cases (show v.disk.get? (mergePlace temp) = _ from merge).symm.trans link
  have outside : ¬ mergePlace temp ++ [name] <+: mergePlace temp ++ [other] := by
    intro le
    rw [← le.eq_of_length (by simp), show v.disk.get? _ = _ from grown.isDirectory] at free
    cases free
  have spared : ∀ layer, Beside temp layer → area.Frees layer →
      ¬ layer <+: mergePlace temp ++ [other] := by
    intro layer beside frees le
    rcases List.prefix_concat_iff.mp le with rfl | le
    · refine frees.2.2 ⟨area.dataRoot, .inl rfl, ?_⟩
      rw [laid.dataRoot, Location.same_path_iff, same]
    · exact beside.off le
  have cleared := grown.consumes _ outside (by simp) (by
    simp only [List.forall_mem_cons]
    exact ⟨h.beside.append_ne_dropLast (by simp), h.beside_patch.append_ne_dropLast (by simp),
      nofun⟩)
  rw [cleared.2] at free
  · exact laid.apart other free same
  · simp only [List.forall_mem_cons]
    exact ⟨spared base h.beside, spared loc h.beside_patch, nofun⟩

theorem step (grown : Grown area temp w base loc name v) :
    Running v area data temp (mergePlace temp ++ [name]) layers := by
  refine ⟨h.areaLaidOut_next grown, grown.isDirectory, .inr ⟨name, rfl⟩, fun layer hm => ?_,
    List.pairwise_cons.mpr ⟨fun layer hm => ?_, ?_⟩⟩
  · obtain ⟨there, outside⟩ := h.laid layer (List.mem_cons_of_mem _ hm)
    have top := h.get?_later grown hm []
    rw [List.append_nil] at top
    exact ⟨top.trans there, outside⟩
  · exact (h.laid layer (List.mem_cons_of_mem _ hm)).2.symm.append [name]
  · exact (List.pairwise_cons.mp (List.pairwise_cons.mp h.apart).2).2

theorem free_of_free (grown : Grown area temp w base loc name v) {other : Name}
    (off : ¬ base <+: mergePlace temp ++ [other])
    (vacant : other ≠ name → v.disk.get? (mergePlace temp ++ [other]) = none) :
    w.disk.get? (mergePlace temp ++ [other]) = none := by
  by_cases same : other = name
  · rw [same]
    exact grown.free
  have outside : ¬ mergePlace temp ++ [name] <+: mergePlace temp ++ [other] := fun le =>
    same (Location.child_prefix_child_iff.mp le).symm
  have cleared := grown.consumes _ outside (by simp) (by
    simp only [List.forall_mem_cons]
    exact ⟨h.beside.append_ne_dropLast (by simp), h.beside_patch.append_ne_dropLast (by simp),
      nofun⟩)
  rw [← cleared.2]
  · exact vacant same
  · simp only [List.forall_mem_cons]
    have patch := (h.laid loc List.mem_cons_self).2
    exact ⟨fun _ => off, fun _ => patch.not_prefix_append _, nofun⟩

end Running

/-- The patches pass one after the other, each against the tree that was made of those before it
and under the signature of the layer before it. -/
inductive Folded (layers : Disk) (area : WorkArea) : World → Location → Signature →
    List (Location × Signature) → World → Location → Signature → Prop
  | nil (w : World) (base : Location) (signature : Signature) :
      Folded layers area w base signature [] w base signature
  | cons {w v u : World} {base loc next goal : Location} {signature own last : Signature}
      {record : PatchRecord} {old patch : KeyMap Bytes} {entries : List TreeEntry}
      {patches : List (Location × Signature)} :
      MergesInto layers area w base loc signature record old patch entries next v →
      Folded layers area v next own patches u goal last →
      Folded layers area w base signature ((loc, own) :: patches) u goal last

theorem Folded.congr {layers layers' : Disk} {goal : Location} {last : Signature}
    (h : Folded layers area w base signature patches u goal last)
    (isDir : ∀ patch ∈ patches, layers'.IsDirectory patch.1)
    (same : ∀ patch ∈ patches, ∀ names,
      layers.get? (patch.1 ++ names) = layers'.get? (patch.1 ++ names)) :
    Folded layers' area w base signature patches u goal last := by
  induction h with
  | nil w base signature => exact .nil w base signature
  | @cons w v u base loc next goal signature own last _ _ _ _ patches merges rest ih =>
    have there := isDir _ List.mem_cons_self
    have left := same _ List.mem_cons_self
    have there' : layers.IsDirectory loc := by
      have top := left []
      rw [List.append_nil] at top
      exact top.trans there
    have reach := Disk.reaches_path there' rfl
    have reach' := Disk.reaches_path there rfl
    refine .cons { merges with
      walked := Disk.walk_congr reach reach' (fun names => (left names).symm) merges.walked
      layer := Disk.contents_congr reach reach' (fun names => (left names).symm) merges.layer } ?_
    exact ih (fun patch hm => isDir patch (List.mem_cons_of_mem _ hm))
      fun patch hm => same patch (List.mem_cons_of_mem _ hm)

inductive FoldEnds (area : WorkArea) (temp : Location) (w : World) (base : Location)
    (signature : Signature) (patches : List (Location × Signature)) :
    EStateM.Result CombineError World Path → Prop
  | all {goal : Location} {v : World} {last : Signature} :
      Folded w.disk area w base signature patches v goal last →
      (patches ≠ [] → (∃ name, goal = mergePlace temp ++ [name]) ∧ v.disk.IsDirectory goal ∧
        (¬ base <+: goal → w.disk.get? goal = none) ∧ ∀ other, ¬ goal <+: other →
          Consumes area temp (base :: patches.map Prod.fst) w.disk v.disk other) →
      FoldEnds area temp w base signature patches (.ok (Location.path goal) v)
  | stopped {done later : List (Location × Signature)} {failed : Location × Signature}
      {current : Location} {last : Signature} {u v : World} {e : CombineError} {c : Combiner} :
      patches = done ++ failed :: later →
      Folded w.disk area w base signature done u current last →
      ((Combiner.inArea ⟨Location.path current, Location.path failed.1, some last⟩
        area).runScoped : Action CombineError _) u = .ok (.error e, c) v →
      (∀ other, Consumes area temp (base :: (done ++ [failed]).map Prod.fst) w.disk v.disk other) →
      FoldEnds area temp w base signature patches (.error e v)

theorem Grown.consumes_trans {layers : List Location} (grown : Grown area temp w base loc name v)
    (later : Consumes area temp ((mergePlace temp ++ [name]) :: layers) v.disk d other) :
    Consumes area temp (base :: loc :: layers) w.disk d other := by
  intro proper around
  simp only [List.forall_mem_cons] at around
  obtain ⟨up, up', others⟩ := around
  have then_ := later proper (by
    simp only [List.forall_mem_cons, List.dropLast_concat]
    exact ⟨proper, others⟩)
  by_cases inside : mergePlace temp ++ [name] <+: other
  · have gone := then_.1 ⟨_, List.mem_cons_self, grown.frees, inside⟩
    obtain ⟨names, rfl⟩ := inside
    exact .of_none (Disk.get?_append_of_none grown.free) gone
  · have first := grown.consumes other inside proper (by
      simp only [List.forall_mem_cons]
      exact ⟨up, up', nofun⟩)
    refine (first.trans then_).congr fun layer below => ?_
    have ne : layer ≠ mergePlace temp ++ [name] := by
      rintro rfl
      exact inside below
    simp [ne]

theorem fold_ends (h : Running w area data temp base (patches.map Prod.fst)) :
    FoldEnds area temp w base signature patches
      (fold area (Location.path base) signature (patches.map patchAt) w) := by
  induction patches generalizing w base signature with
  | nil => exact .all (.nil w base signature) fun ne => absurd rfl ne
  | cons patch patches ih =>
    obtain ⟨loc, own⟩ := patch
    rw [List.map_cons] at h ⊢
    rcases h.link_cases signature with ⟨e, c, v, run, consumed⟩ |
      ⟨name, record, old, content, entries, v, merges, grown⟩
    · rw [fold_of_error run]
      exact .stopped (List.nil_append _).symm (.nil w base signature) run consumed
    obtain ⟨c, run⟩ := merges.ran
    rw [fold_of_ok run]
    have whole : ∀ {done : List (Location × Signature)} {u : World} {goal : Location}
        {last : Signature}, (∀ patch ∈ done, patch ∈ patches) →
          Folded v.disk area v (mergePlace temp ++ [name]) own done u goal last →
            Folded w.disk area w base signature ((loc, own) :: done) u goal last := by
      intro done u goal last sub folded
      have listed : ∀ patch ∈ done, patch.1 ∈ patches.map Prod.fst :=
        fun patch hm => List.mem_map_of_mem (sub patch hm)
      refine .cons merges (folded.congr (fun patch hm => ?_) fun patch hm => ?_)
      · exact (h.laid _ (List.mem_cons_of_mem _ (listed patch hm))).1
      · exact h.get?_later grown (listed patch hm)
    generalize ends : fold area _ own (patches.map patchAt) v = result
    have rest : FoldEnds area temp v (mergePlace temp ++ [name]) own patches _ := ih (h.step grown)
    rw [ends] at rest
    cases rest with
    | @all goal u last folded new =>
      refine .all (whole (fun _ hm => hm) folded) fun _ => ?_
      by_cases none : patches = []
      · subst none
        cases folded with
        | nil => exact ⟨⟨name, rfl⟩, grown.isDirectory, fun _ => grown.free, grown.consumes⟩
      · obtain ⟨⟨name', rfl⟩, isGoal, fresh, consumed⟩ := new none
        refine ⟨⟨name', rfl⟩, isGoal, fun off => ?_, fun other off => ?_⟩
        · exact h.free_of_free grown off fun ne => fresh fun le =>
            ne (Location.child_prefix_child_iff.mp le).symm
        · exact grown.consumes_trans (consumed other off)
    | @stopped done rest failed current last u u' e c split folded stuck consumed =>
      refine .stopped ((congrArg (List.cons (loc, own)) split).trans List.cons_append.symm)
        (whole (fun patch hm => ?_) folded) stuck fun other => grown.consumes_trans (consumed other)
      rw [split]
      exact List.mem_append_left _ hm

end Chain
end LayeredTree
