import LayeredTree.Command.Run
import LayeredTree.Proofs.Patch.Ends
import LayeredTree.Proofs.Staging.Staged

set_option autoImplicit false

namespace LayeredTree

open World Chain

variable {ε : Type} {w v : World} {d : Disk} {area : WorkArea} {data temp top : Location}
variable {before patch : Path} {signature : Signature} {request : CombineRequest}

namespace Combiner

/-- What a combine in an area makes of an admitted patch: a new tree in the directory of merged
trees, or where that leads, with the merged content. -/
structure Merges (request : CombineRequest) (temp : Location) (d d' : Disk) (top : Location) (n : Nat)
    (record : PatchRecord) (base layer : List TreeEntry) : Prop where
  admits : request.Admits d record
  rooted : ∃ d₁, Patch.Rooted d (mergePlace temp) top d₁ ∧
    d₁.NewAt (top ++ [Patch.mergedChild n]) d'
  short : Disk.Short (Location.path (mergePlace temp ++ [Patch.mergedChild n]))
  walkBase : d.walk .content request.before = .ok base
  walkLayer : d.walk .content request.after = .ok layer
  mergeable : Patch.Mergeable (d.contentsOf base) (d.contentsOf layer) layer record.removed
  shows : d'.Shows (Location.path (mergePlace temp ++ [Patch.mergedChild n]))
    (top ++ [Patch.mergedChild n])
    (Patch.merged (d.contentsOf base) (d.contentsOf layer) record.removed)

theorem Merges.within {d' : Disk} {n : Nat} {record : PatchRecord} {base layer : List TreeEntry}
    (h : Merges request temp d d' top n record base layer) : d.Within d' := by
  obtain ⟨d₁, rooted, new⟩ := h.rooted
  exact rooted.dug.within.trans new.within

theorem combine_ends (hasRoots : area.HasRoots w.disk data temp) (request : CombineRequest) :
    ∃ result c v, ((inArea request area).combine : Action ε _) w = .ok (result, c) v ∧
      (c.released = false ∧ c.policy = area.policy ∧ c.request = request) ∧
      ((∃ e, result = .error e ∧ w.disk.Dug v.disk ∧
          ∀ other ≠ mergePlace temp, v.disk.get? other = w.disk.get? other) ∨
        ∃ top n record base layer,
          result = .ok (Location.path (mergePlace temp ++ [Patch.mergedChild n])) ∧
            Merges request temp w.disk v.disk top n record base layer) := by
  have root : (inArea request area).mergeRoot = Location.path (temp ++ [mergeDir]) :=
    mergeRoot_eq_path hasRoots.tempRoot
  obtain ⟨result, c, v, run, cases⟩ := combine_cases (ε := ε) (inArea request area) rfl w
  refine ⟨result, c, v, run, ?_⟩
  rcases cases with ⟨record, p, v', admits, merge, rfl, rfl, like⟩ |
    ⟨record, e, v', -, merge, rfl, rfl, like⟩ | ⟨-, e, rfl, rfl, like⟩
  · rw [root] at merge
    obtain ⟨d, top, n, base, layer, rooted, rfl, short, new, hb, hp, mergeable, shows⟩ :=
      Patch.of_mergeWith_ok hasRoots.isTemp merge
    rw [like.disk] at new shows
    exact ⟨⟨rfl, rfl, rfl⟩, .inr ⟨top, n, record, base, layer, rfl, admits, ⟨d, rooted, new⟩, short,
      hb, hp, mergeable, shows⟩⟩
  · rw [root] at merge
    have left := Patch.of_mergeWith_error hasRoots.isTemp merge
    rw [like.disk] at left
    exact ⟨⟨rfl, rfl, rfl⟩, .inl ⟨e, rfl, left⟩⟩
  · rw [← like.disk]
    exact ⟨⟨rfl, rfl, rfl⟩, .inl ⟨e, rfl, .refl _, fun _ _ => rfl⟩⟩

end Combiner

namespace Command

/-- The first half: copies of both trees are staged, combined and released. -/
def gather (area : WorkArea) (before patch : Path) (signature : Signature) :
    Action CommandError Path := do
  let base ← failingAs .storage (Staging.stage area "base-" .content before)
  let layer ← match ← outcome (Staging.stage area "patch-" .everything patch) with
    | .ok layer => pure layer
    | .error e =>
      Release.release area.policy base
      throw (.storage e)
  let (result, _) ← (Combiner.inArea ⟨base, layer, some signature⟩ area).runScoped
  failingAs .combine (settle result)

/-- The second half: a merged tree is put in its place, and what is left of it is released. -/
def deliver (area : WorkArea) (merged output : Path) : Action CommandError String := do
  let relocated ← outcome (Staging.relocate merged output)
  Release.release area.policy merged
  failingAs .storage (settle relocated)
  let digest ← failingAs .storage (Digest.compute output)
  pure s!"Combined tree written to {output.shown} (digest {digest.text})"

theorem runCombine_eq (storage : StorageSettings) (before patch : Path) (signature : Signature)
    (output : Path) : runCombine storage before patch signature output = (do
      if (← get).disk.hasEntry output then throw (.outputExists output)
      let area ← failingAs .storage (WorkArea.ofSettings storage)
      let merged ← gather area before patch signature
      deliver area merged output) := by
  unfold runCombine gather deliver
  simp only [bind_assoc]
  refine bind_congr fun w => ?_
  split
  · rfl
  · refine bind_congr fun area => bind_congr fun base => bind_congr fun staged => ?_
    cases staged with
    | ok layer => simp only [bind_assoc]
    | error e => simp only [bind_assoc]

def told (output : Path) (digest : Digest) : String :=
  s!"Combined tree written to {output.shown} (digest {digest.text})"

/-- The second half relocates the tree and releases it whatever came of that. It succeeds if the
tree was relocated and the output has a digest then. -/
theorem deliver_run {merged output : Path} {w₁ v : World}
    (relocated : after (Staging.relocate merged output) w = w₁)
    (released : (Release.release area.policy merged : Action CommandError Unit) w₁ = .ok () v) :
    (after (deliver area merged output) w).disk = v.disk ∧
      ∀ text u, deliver area merged output w = .ok text u → u.disk = v.disk ∧
        Staging.relocate merged output w = .ok () w₁ ∧ ∃ digest files,
          v.disk.digest output = .ok (digest, files) ∧ text = told output digest := by
  subst relocated
  cases moved : Staging.relocate merged output w with
  | error e w₁ =>
    rw [after_of_error moved] at released
    have run : deliver area merged output w = .error (.storage e) v :=
      (bind_of_ok (outcome_of_error moved)).trans ((bind_of_ok released).trans (bind_of_error rfl))
    refine ⟨by rw [after_of_error run], fun text u ended => ?_⟩
    cases run.symm.trans ended
  | ok _ w₁ =>
    rw [after_of_ok moved] at released ⊢
    have run : deliver area merged output w = _ :=
      (bind_of_ok (outcome_of_ok moved)).trans ((bind_of_ok released).trans (bind_of_ok rfl))
    cases found : v.disk.digest output with
    | error e =>
      obtain ⟨u, failed, like⟩ := Digest.compute_of_error found
      have run' := run.trans (bind_of_error (failingAs_of_error failed))
      refine ⟨by rw [after_of_error run', like.disk], fun text u ended => ?_⟩
      cases run'.symm.trans ended
    | ok answer =>
      obtain ⟨digest, files⟩ := answer
      obtain ⟨u, computed, like⟩ := Digest.compute_of_ok found
      have run' := run.trans (bind_of_ok (failingAs_of_ok computed))
      refine ⟨by rw [after_of_ok (run'.trans rfl), like.disk], fun text u' ended => ?_⟩
      cases run'.symm.trans ended
      exact ⟨like.disk.symm, rfl, digest, files, rfl, rfl⟩

/-- Two trees were staged and released again around a step. -/
structure Unstaged (d u u' d' : Disk) (base layer : Location) : Prop where
  here : u'.here = u.here → d'.here = d.here
  shrunk : d'.Within u'
  within : ∀ other, base <+: other ∨ layer <+: other → d.get? other = none ∧ d'.get? other = none
  beside : ∀ other, ¬ base <+: other → ¬ layer <+: other →
    u.get? other = d.get? other ∧ d'.get? other = u'.get? other

theorem Unstaged.get?_eq {u u' d' : Disk} {base layer other : Location}
    (h : Unstaged d u u' d' base layer) (same : u'.get? other = u.get? other) :
    d'.get? other = d.get? other := by
  by_cases inside : base <+: other ∨ layer <+: other
  · obtain ⟨free, gone⟩ := h.within other inside
    rw [free, gone]
  · obtain ⟨off, off'⟩ := not_or.mp inside
    obtain ⟨before, after_⟩ := h.beside other off off'
    rw [after_, same, before]

theorem Unstaged.dug {u u' d' : Disk} {base layer : Location}
    (h : Unstaged d u u' d' base layer) (dug : u.Dug u') : d.Dug d' := by
  refine ⟨h.here dug.here, fun other => ?_⟩
  rcases dug.get? other with same | ⟨none, isDir⟩
  · exact .inl (h.get?_eq same)
  · by_cases inside : base <+: other ∨ layer <+: other
    · obtain ⟨free, gone⟩ := h.within other inside
      exact .inl (gone.trans free.symm)
    · obtain ⟨off, off'⟩ := not_or.mp inside
      obtain ⟨before, after_⟩ := h.beside other off off'
      exact .inr ⟨before.symm.trans none, after_.trans isDir⟩

theorem unstaged_of_pruned {d u₁ u u' d₁ d' : Disk} {base layer : Location}
    (new : d.NewAt base u₁) (new' : u₁.NewAt layer u) (gone : u'.Pruned base d₁)
    (gone' : d₁.Pruned layer d') : Unstaged d u u' d' base layer := by
  refine ⟨fun same => ?_, gone'.within.trans gone.within, fun other inside => ?_,
    fun other off off' => ⟨?_, ?_⟩⟩
  · rw [gone'.here, gone.here, same, new'.here, new.here]
  · have free : d.get? other = none := by
      rcases inside with ⟨rest, rfl⟩ | ⟨rest, rfl⟩
      · exact Disk.get?_append_of_none new.free
      · cases found : d.get? (layer ++ rest) with
        | none => rfl
        | some node =>
          have still := new.within.2 _ _ found
          rw [Disk.get?_append_of_none new'.free] at still
          cases still
    refine ⟨free, ?_⟩
    rw [gone'.get?, gone.get?]
    rcases inside with le | le
    · rw [if_pos le]
      split <;> rfl
    · rw [if_pos le]
  · rw [new'.get? other off', new.get? other off]
  · rw [gone'.get?, if_neg off', gone.get?, if_neg off]

/-- The first half merges copies of both trees that are gone after it, or it makes the directory of
merged trees at most. -/
theorem gather_ends (hasRoots : area.HasRoots w.disk data temp) (before patch : Path)
    (signature : Signature) :
    (∃ e v, gather area before patch signature w = .error e v ∧ w.disk.Dug v.disk ∧
      ∀ other ≠ mergePlace temp, v.disk.get? other = w.disk.get? other) ∨
    ∃ b l top n record base layer, ∃ u₁ u u' v : World,
      Staging.Staged w.disk temp .content before b u₁.disk ∧
      Staging.Staged u₁.disk temp .everything patch l u.disk ∧
      Combiner.Merges ⟨Location.path (temp ++ [b]), Location.path (temp ++ [l]), some signature⟩
        temp u.disk u'.disk top n record base layer ∧
      Unstaged w.disk u.disk u'.disk v.disk (temp ++ [b]) (temp ++ [l]) ∧
      gather area before patch signature w =
        .ok (Location.path (mergePlace temp ++ [Patch.mergedChild n])) v := by
  rcases Staging.stage_run hasRoots "base-" (by decide) .content before with
    ⟨e, v, failed, same⟩ | ⟨b, u₁, staged, copy⟩
  · exact .inl ⟨_, v, bind_of_error (failingAs_of_error failed), (Disk.Dug.refl _).congr same,
      fun other _ => same.get? other⟩
  have stands₁ := hasRoots.mono copy.new.within
  have first : gather area before patch signature w = _ := bind_of_ok (failingAs_of_ok staged)
  rcases Staging.stage_run stands₁ "patch-" (by decide) .everything patch with
    ⟨e, v, failed, same⟩ | ⟨l, u, staged', copy'⟩
  · have isDir : v.disk.IsDirectory (temp ++ [b]) := (same.get? _).trans copy.isDirectory
    obtain ⟨v', released, gone⟩ := Release.release_freed (ε := CommandError) hasRoots.protects_temp
      (copy.frees hasRoots) isDir
    have back : w.disk.Same v'.disk := by
      refine Disk.NewAt.pruned ⟨?_, copy.new.free, fun other off => ?_⟩ gone
      · rw [same.here, copy.new.here]
      · rw [same.get?, copy.new.get? other off]
    refine .inl ⟨_, v', first.trans ((bind_of_ok (outcome_of_error failed)).trans
      ((bind_of_ok released).trans (bind_of_error rfl))), (Disk.Dug.refl _).congr back,
      fun other _ => back.get? other⟩
  have stands₂ := stands₁.mono copy'.new.within
  obtain ⟨result, c, u', run, ⟨pending, policy, same⟩, ends⟩ := Combiner.combine_ends
    (ε := CommandError) stands₂
    ⟨Location.path (temp ++ [b]), Location.path (temp ++ [l]), some signature⟩
  obtain ⟨u'', v, ended, still, released⟩ := Combiner.runScoped_of_combine (ε := CommandError)
    _ run pending
  have grown : u.disk.Within u'.disk := by
    rcases ends with ⟨-, -, dug, -⟩ | ⟨_, _, _, _, _, -, merges⟩
    · exact dug.within
    · exact merges.within
  have off : ¬ temp ++ [b] <+: temp ++ [l] := by
    intro le
    have free := copy'.new.free
    rw [← le.eq_of_length (by simp), show u₁.disk.get? _ = _ from copy.isDirectory] at free
    cases free
  -- Both copies are there until they are released, one after the other.
  obtain ⟨x, run₁, gone⟩ := Release.release_freed (ε := CommandError) (w := u'')
    hasRoots.protects_temp (copy.frees hasRoots) (by
      rw [still]
      exact (copy'.new.within.trans grown).isDirectory copy.isDirectory)
  obtain ⟨y, run₂, gone'⟩ := Release.release_freed (ε := CommandError) (w := x)
    hasRoots.protects_temp (copy'.frees stands₁) (by
      rw [Disk.IsDirectory, gone.get?, if_neg off, still]
      exact grown.isDirectory copy'.isDirectory)
  rw [policy, same, after_of_ok run₁, after_of_ok run₂] at released
  rw [still] at gone
  have unstaged := unstaged_of_pruned copy.new copy'.new gone (released ▸ gone')
  have whole : gather area before patch signature w = failingAs .combine (settle result) v :=
    first.trans ((bind_of_ok (outcome_of_ok staged')).trans (bind_of_ok ended))
  rcases ends with ⟨e, rfl, dug, frame⟩ | ⟨top, n, record, base, layer, rfl, merges⟩
  · exact .inl ⟨_, v, whole, unstaged.dug dug, fun other ne => unstaged.get?_eq (frame other ne)⟩
  · exact .inr ⟨b, l, top, n, record, base, layer, u₁, u, u', v, copy, copy', merges, unstaged,
      whole⟩

end Command
end LayeredTree
