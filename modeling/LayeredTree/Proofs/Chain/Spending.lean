import Mathlib.Data.List.Pairwise
import LayeredTree.Proofs.Chain.Consuming
import LayeredTree.Proofs.Surviving

/-!
What a build leaves. It folds a chain of layers, and nothing but a chain. Each layer that it came to
is spent then, each that it did not come to is as it was, and no tree stays but the one it answers
with.
-/

set_option autoImplicit false

namespace LayeredTree

open World

variable {ε : Type} {w v u : World} {d d' : Disk} {area : WorkArea}
variable {data temp base loc : Location} {signature : Signature}
variable {patches : List (Location × Signature)}

namespace Chain

/-- The area has both of its roots, as it has them once it is made. Its directory of merged trees is
no link, whether it is there or not. -/
structure AreaMade (d : Disk) (area : WorkArea) (data temp : Location) : Prop where
  dataRoot : area.dataRoot = Location.path data
  tempRoot : area.tempRoot = Location.path temp
  isData : d.IsDirectory data
  isTemp : d.IsDirectory temp
  plain : ∀ text, d.get? (mergePlace temp) ≠ some (.link text)

theorem AreaMade.laidOut (h : AreaMade d area data temp) : AreaLaidOut d area data temp := by
  refine ⟨h.dataRoot, h.tempRoot, h.isTemp, h.plain, fun name free same => ?_⟩
  rw [same, show d.get? data = _ from h.isData] at free
  cases free

theorem exists_areaMade {dataPath tempPath : Path}
    (h : WorkArea.prepare dataPath tempPath w = .ok area v)
    (plain : ∀ temp text, area.tempRoot = Location.path temp →
      v.disk.get? (mergePlace temp) ≠ some (.link text)) :
    ∃ data temp, AreaMade v.disk area data temp := by
  obtain ⟨data, dataRoot, isData⟩ := WorkArea.roots_of_prepare h area.dataRoot (.inl rfl)
  obtain ⟨temp, tempRoot, isTemp⟩ := WorkArea.roots_of_prepare h area.tempRoot (.inr rfl)
  exact ⟨data, temp, dataRoot, tempRoot, isData, isTemp, fun text => plain temp text tempRoot⟩

/-- The layers are directories under the paths of their places. These are apart from each other and
from the directory of merged trees. -/
structure Laid (d : Disk) (temp : Location) (layers : List Layer) (places : List Location) :
    Prop where
  paths : layers.map Layer.path = places.map Location.path
  isDirectory : ∀ loc ∈ places, d.IsDirectory loc
  apart : places.Pairwise Location.Disjoint
  outside : ∀ loc ∈ places, loc.Disjoint (mergePlace temp)

/-- A directory is gone with all that was in it if the area sanctioned its path, and else it is as
it was. -/
def Spent (area : WorkArea) (d d' : Disk) (loc : Location) : Prop :=
  ∀ names, d'.get? (loc ++ names) =
    if area.policy d (Location.path loc) then none else d.get? (loc ++ names)

theorem exists_patches {layers : List Layer} {places : List Location}
    (paths : layers.map Layer.path = places.map Location.path)
    (all : ∀ layer ∈ layers, layer.kind = .patch) :
    ∃ patches : List (Location × Signature), layers = patches.map patchAt ∧
      places = patches.map Prod.fst := by
  induction layers generalizing places with
  | nil => exact ⟨[], rfl, List.map_eq_nil_iff.mp paths.symm⟩
  | cons layer rest ih =>
    cases places with
    | nil => cases paths
    | cons loc places =>
      obtain ⟨e, paths'⟩ := List.cons_eq_cons.mp paths
      obtain ⟨patch, others⟩ := List.forall_mem_cons.mp all
      obtain ⟨patches, rfl, rfl⟩ := ih paths' others
      refine ⟨(loc, layer.signature) :: patches, congrArg (List.cons · _) ?_, rfl⟩
      cases layer
      cases e
      cases patch
      rfl

section Consumed

variable {places : List Location}

theorem spent_of_consumes (isDir : d.IsDirectory loc) (outside : loc.Disjoint (mergePlace temp))
    (listed : loc ∈ places) (apart : places.Pairwise Location.Disjoint)
    (consumed : ∀ names, Consumes area temp places d d' (loc ++ names)) : Spent area d d' loc := by
  intro names
  have others : ∀ layer ∈ places, layer = loc ∨ layer.Disjoint loc := by
    intro layer hm
    by_cases same : layer = loc
    · exact .inl same
    · exact .inr (apart.forall hm listed same)
  have cleared := consumed names (fun e => outside.1 ⟨names, e⟩) fun layer hm => by
    rcases others layer hm with rfl | away
    · intro e
      have longer := congrArg List.length e
      have ne : layer ≠ [] := ne_nil_of_off outside.1
      have busy := List.length_pos_iff.mpr ne
      rw [List.length_append, List.length_dropLast] at longer
      omega
    · exact away.append_ne_dropLast names
  have judged := WorkArea.policy_path_iff area (ne_nil_of_off outside.1) isDir
  split
  · rename_i sanctioned
    exact cleared.1 ⟨loc, listed, judged.mp sanctioned, List.prefix_append _ _⟩
  · rename_i kept
    refine cleared.2 fun layer hm frees => ?_
    rcases others layer hm with rfl | away
    · exact absurd (judged.mpr frees) kept
    · exact away.not_prefix_append names

end Consumed

/-- All links passed. With at least one patch the layers are spent, and the directory of merged
trees has one more directory than before. -/
structure AllPassed (area : WorkArea) (temp : Location) (w : World) (layers : List Layer)
    (base : Location) (signature : Signature) (patches : List (Location × Signature))
    (goal : Location) (v : World) : Prop where
  chain : layers = ⟨.snapshot, signature, Location.path base⟩ :: patches.map patchAt
  folded : ∃ u u' last, u.disk = w.disk ∧ u'.disk = v.disk ∧
    Folded w.disk area u base signature patches u' goal last
  spent : patches ≠ [] → ∀ loc ∈ base :: patches.map Prod.fst, Spent area w.disk v.disk loc
  new : patches ≠ [] → ∃ name, goal = mergePlace temp ++ [name] ∧ w.disk.get? goal = none ∧
    v.disk.IsDirectory goal ∧ ∀ other ≠ name, ∀ names,
      v.disk.get? (mergePlace temp ++ other :: names) =
        w.disk.get? (mergePlace temp ++ other :: names)

/-- The links before one passed, and that one failed. The layers up to it are spent, those after it
are as they were, and nothing is left in the directory of merged trees. -/
structure StoppedAt (area : WorkArea) (temp : Location) (w : World) (layers : List Layer)
    (base : Location) (signature : Signature) (done : List (Location × Signature))
    (failed : Location × Signature) (later : List (Location × Signature)) (e : CombineError)
    (v : World) : Prop where
  chain : layers = ⟨.snapshot, signature, Location.path base⟩ ::
    (done ++ failed :: later).map patchAt
  stopped : ∃ u u' v' current last c, u.disk = w.disk ∧ v'.disk = v.disk ∧
    Folded w.disk area u base signature done u' current last ∧
      ((Combiner.inArea ⟨Location.path current, Location.path failed.1, some last⟩
        area).runScoped : Action CombineError _) u' = .ok (.error e, c) v'
  spent : ∀ loc ∈ base :: (done ++ [failed]).map Prod.fst, Spent area w.disk v.disk loc
  untouched : ∀ patch ∈ later, ∀ names,
    v.disk.get? (patch.1 ++ names) = w.disk.get? (patch.1 ++ names)
  clean : ∀ names ≠ [], v.disk.get? (mergePlace temp ++ names) =
    w.disk.get? (mergePlace temp ++ names)

section FromFold

variable {layers : List Layer}
variable (apart : (base :: patches.map Prod.fst).Pairwise Location.Disjoint)
variable (laid : ∀ loc ∈ base :: patches.map Prod.fst,
  w.disk.IsDirectory loc ∧ loc.Disjoint (mergePlace temp))
variable (chain : layers = ⟨.snapshot, signature, Location.path base⟩ :: patches.map patchAt)
variable (start : u.disk = w.disk)

include apart laid chain start

theorem allPassed_of_fold {p : Path} {u' : World} (stop : v.disk = u'.disk)
    (ends : FoldEnds area temp u base signature patches (.ok p u')) :
    ∃ goal, p = Location.path goal ∧ AllPassed area temp w layers base signature patches goal v := by
  cases ends with
  | @all goal _ last folded new =>
    rw [start] at folded new
    rw [← stop] at new
    refine ⟨goal, rfl, chain, ⟨u, u', last, start, stop.symm, folded⟩, fun ne => ?_, fun ne => ?_⟩
    · obtain ⟨⟨name, rfl⟩, -, -, consumed⟩ := new ne
      intro loc hm
      obtain ⟨isDir, outside⟩ := laid loc hm
      have away := outside.symm.append [name]
      exact spent_of_consumes isDir outside hm apart fun names =>
        consumed _ (away.not_prefix_append names)
    · obtain ⟨⟨name, rfl⟩, isGoal, fresh, consumed⟩ := new ne
      have off := (laid base List.mem_cons_self).2
      refine ⟨name, rfl, fresh (off.not_prefix_append _), isGoal, fun other apart' names => ?_⟩
      refine (consumed _ fun le => ?_).get?_eq (fun layer hm => (laid layer hm).2) (by simp)
      have inner := (List.prefix_append_right_inj _).mp le
      exact apart' (List.cons_prefix_cons.mp inner).1.symm

theorem stoppedAt_of_fold {e : CombineError} {u' : World} (stop : v.disk = u'.disk)
    (ends : FoldEnds area temp u base signature patches (.error e u')) :
    ∃ done failed later, StoppedAt area temp w layers base signature done failed later e v := by
  cases ends with
  | @stopped done later failed current last u₁ _ _ c split folded stuck consumed =>
    rw [start] at folded consumed
    rw [← stop] at consumed
    subst split
    have whole : base :: (done ++ failed :: later).map Prod.fst =
        (base :: (done ++ [failed]).map Prod.fst) ++ later.map Prod.fst := by simp
    rw [whole] at apart laid
    obtain ⟨apart', -, between⟩ := List.pairwise_append.mp apart
    have before := fun loc hm => laid loc (List.mem_append_left _ hm)
    refine ⟨done, failed, later, chain, ⟨u, u₁, u', current, last, c, start, stop.symm, folded,
      stuck⟩, fun loc hm => ?_, fun patch hm names => ?_, fun names ne => ?_⟩
    · obtain ⟨isDir, outside⟩ := before loc hm
      exact spent_of_consumes isDir outside hm apart' fun names => consumed _
    · have listed := List.mem_map_of_mem (f := Prod.fst) hm
      have outside := (laid _ (List.mem_append_right _ listed)).2
      exact (consumed _).get?_eq (fun layer hl => between layer hl _ listed)
        fun e => outside.1 ⟨names, e⟩
    · exact (consumed _).get?_eq (fun layer hl => (before layer hl).2) (by simpa using ne)

end FromFold

/-- A build consumes just what it came to. It ends well only if the layers are one snapshot with
patches after it, each of which passes against the running tree; then all layers are spent. If a
link fails, the layers up to that link are. -/
theorem build_consumes (areaMade : AreaMade w.disk area data temp) {layers : List Layer}
    {places : List Location} (laid : Laid w.disk temp layers places) (resource : ResourceId)
    (locks : ResourceLocks) : ∃ answer locks' v,
      (build area resource layers locks : Action ε _) w = .ok (answer, locks') v ∧
      (¬ IsChain layers → (∃ fault, answer = some (.error (.invalidState fault))) ∧
        locks' = locks ∧ v.disk = w.disk) ∧
      (answer = none → (∃ lock, locks.get? resource = some lock ∧ lock.held = true) ∧
        locks' = locks ∧ v.disk = w.disk) ∧
      (∀ p, answer = some (.ok p) → ∃ base signature patches goal, p = Location.path goal ∧
        AllPassed area temp w layers base signature patches goal v) ∧
      ∀ e, IsChain layers → answer = some (.error e) → ∃ base signature done failed later,
        StoppedAt area temp w layers base signature done failed later e v := by
  obtain ⟨answer, locks', v, run, ends⟩ := build_cases (ε := ε) area resource layers locks w
  refine ⟨answer, locks', v, run, ?_⟩
  rcases shape_cases resource layers with ⟨first, rest, shaped, rfl, top, all⟩ | ⟨none, fault, bad⟩
  · have chain : IsChain (first :: rest) := ⟨first, rest, rfl, top, all⟩
    refine ⟨fun h => absurd chain h, ?_⟩
    rcases ends with ⟨fault, refused, -⟩ | ⟨-, held, rfl, rfl, same⟩ |
      ⟨first', rest', u, u', taken, same, same', -, folded⟩
    · cases shaped.symm.trans refused
    · exact ⟨fun _ => ⟨held, rfl, same⟩, (fun _ e => by cases e), fun _ _ e => by cases e⟩
    · cases shaped.symm.trans taken
      cases places with
      | nil => cases laid.paths
      | cons base places =>
        obtain ⟨e, paths⟩ := List.cons_eq_cons.mp laid.paths
        obtain ⟨patches, rfl, rfl⟩ := exists_patches paths all
        obtain ⟨kind, signature, path⟩ := first
        obtain rfl : path = Location.path base := e
        obtain rfl : kind = .snapshot := top
        have layer : ∀ loc ∈ base :: patches.map Prod.fst,
            w.disk.IsDirectory loc ∧ loc.Disjoint (mergePlace temp) :=
          fun loc hm => ⟨laid.isDirectory loc hm, laid.outside loc hm⟩
        obtain ⟨isBase, off⟩ := layer base List.mem_cons_self
        have running : Running u area data temp base (patches.map Prod.fst) := by
          refine ⟨same ▸ areaMade.laidOut, same ▸ isBase, .inl off, fun loc hm => ?_, laid.apart⟩
          rw [same]
          exact layer loc (List.mem_cons_of_mem _ hm)
        have ends : FoldEnds area temp u base signature patches
            (fold area (Location.path base) signature (patches.map patchAt) u) := fold_ends running
        rcases folded with ⟨p, folded, rfl⟩ | ⟨e, folded, rfl⟩
        · rw [show fold area (Location.path base) signature _ u = _ from folded] at ends
          refine ⟨(fun e => by cases e), fun p' e => ?_, fun _ _ e => by cases e⟩
          cases e
          obtain ⟨goal, e, passed⟩ := allPassed_of_fold laid.apart layer rfl same same' ends
          exact ⟨base, signature, patches, goal, e, passed⟩
        · rw [show fold area (Location.path base) signature _ u = _ from folded] at ends
          refine ⟨(fun e => by cases e), (fun _ e => by cases e), fun e' _ same₂ => ?_⟩
          cases same₂
          obtain ⟨done, failed, later, stopped⟩ :=
            stoppedAt_of_fold laid.apart layer rfl same same' ends
          exact ⟨base, signature, done, failed, later, stopped⟩
  · rcases ends with ⟨fault', -, rfl, rfl, same⟩ | ⟨⟨parts, good⟩, -⟩ |
      ⟨first, rest, u, u', good, -⟩
    · exact ⟨fun _ => ⟨⟨fault', rfl⟩, rfl, same⟩, (fun e => by cases e), (fun _ e => by cases e),
        fun _ chain => absurd chain none⟩
    · cases bad.symm.trans good
    · cases bad.symm.trans good

/-- A data hierarchy `/d` and a temp hierarchy `/t` with a snapshot `/t/a` and a patch `/t/p` that
has no record. -/
def unrecorded : World := .holding [
  ([47, 100], .directory), ([47, 116], .directory), ([47, 116, 47, 97], .directory),
  ([47, 116, 47, 97, 47, 120], .file [1]), ([47, 116, 47, 112], .directory),
  ([47, 116, 47, 112, 47, 121], .file [2])]

/-- In an area that was made there, the one link breaks and both layers are gone. -/
theorem consumes_unrecorded : ∃ made e locks v,
    WorkArea.prepare ⟨[47, 100]⟩ ⟨[47, 116]⟩ unrecorded = .ok ⟨⟨[47, 100]⟩, ⟨[47, 116]⟩⟩ made ∧
      (build ⟨⟨[47, 100]⟩, ⟨[47, 116]⟩⟩ ⟨"r", "s", none⟩
        [⟨.snapshot, .uniform 1, ⟨[47, 116, 47, 97]⟩⟩, ⟨.patch, .uniform 2, ⟨[47, 116, 47, 112]⟩⟩]
          .empty : Action Empty _) made = .ok (some (.error e), locks) v ∧
      v.disk.get? [⟨[116], by decide⟩, ⟨[97], by decide⟩] = none ∧
      v.disk.get? [⟨[116], by decide⟩, ⟨[112], by decide⟩] = none := by
  let made := after (WorkArea.prepare ⟨[47, 100]⟩ ⟨[47, 116]⟩) unrecorded
  have prepared : WorkArea.prepare ⟨[47, 100]⟩ ⟨[47, 116]⟩ unrecorded =
      .ok ⟨⟨[47, 100]⟩, ⟨[47, 116]⟩⟩ made := by rfl
  obtain ⟨data, temp, areaMade⟩ := exists_areaMade prepared fun temp text e => by
    obtain rfl : [⟨[116], by decide⟩] = temp := Location.path_injective e
    rw [show made.disk.get? (mergePlace [⟨[116], by decide⟩]) = none from rfl]
    rintro ⟨⟩
  obtain rfl : [⟨[116], by decide⟩] = temp := Location.path_injective areaMade.tempRoot
  have laid : Laid made.disk [⟨[116], by decide⟩]
      [⟨.snapshot, .uniform 1, ⟨[47, 116, 47, 97]⟩⟩, ⟨.patch, .uniform 2, ⟨[47, 116, 47, 112]⟩⟩]
      [[⟨[116], by decide⟩, ⟨[97], by decide⟩], [⟨[116], by decide⟩, ⟨[112], by decide⟩]] := by
    refine ⟨by rfl, ?_, List.pairwise_pair.mpr ⟨by decide, by decide⟩, ?_⟩
    · simp only [List.forall_mem_cons]
      exact ⟨by rfl, by rfl, List.forall_mem_nil _⟩
    · simp only [List.forall_mem_cons]
      exact ⟨⟨by decide, by decide⟩, ⟨by decide, by decide⟩, List.forall_mem_nil _⟩
  obtain ⟨answer, locks, v, run, -, -, -, stops⟩ :=
    build_consumes (ε := Empty) areaMade laid ⟨"r", "s", none⟩ .empty
  have broken : ∃ e locks v, (build ⟨⟨[47, 100]⟩, ⟨[47, 116]⟩⟩ ⟨"r", "s", none⟩
      [⟨.snapshot, .uniform 1, ⟨[47, 116, 47, 97]⟩⟩, ⟨.patch, .uniform 2, ⟨[47, 116, 47, 112]⟩⟩]
        .empty : Action Empty _) made = .ok (some (.error e), locks) v := ⟨_, _, _, by rfl⟩
  obtain ⟨e, locks', v', run'⟩ := broken
  cases run.symm.trans run'
  obtain ⟨base, signature, done, failed, later, stopped⟩ :=
    stops e ⟨_, _, rfl, rfl, by simp⟩ rfl
  obtain ⟨head, tail⟩ := List.cons_eq_cons.mp stopped.chain
  obtain rfl : [⟨[116], by decide⟩, ⟨[97], by decide⟩] = base :=
    Location.path_injective (congrArg Layer.path head)
  obtain rfl : done = [] := by
    have length := congrArg List.length tail
    simp only [List.length_cons, List.length_nil, List.length_map, List.length_append] at length
    exact List.eq_nil_of_length_eq_zero (by omega)
  obtain ⟨only, -⟩ := List.cons_eq_cons.mp tail
  have place : [⟨[116], by decide⟩, ⟨[112], by decide⟩] = failed.1 :=
    Location.path_injective (congrArg Layer.path only)
  have gone := stopped.spent
  rw [List.nil_append, List.map_cons, List.map_nil, ← place] at gone
  have snapshot := gone _ List.mem_cons_self []
  have patch := gone _ (List.mem_cons_of_mem _ List.mem_cons_self) []
  rw [List.append_nil, if_pos (by rfl)] at snapshot patch
  exact ⟨made, e, locks, v, prepared, run, snapshot, patch⟩

end Chain
end LayeredTree
