import LayeredTree.Proofs.Ancestry
import LayeredTree.Proofs.Releasing

set_option autoImplicit false

namespace LayeredTree.Combiner

open World

variable {ε : Type} {c : Combiner} {w : World}

def releaseInputs (c : Combiner) : Action ε Unit :=
  World.inside (c.span "cleanup") do
    Release.release c.policy c.request.before
    Release.release c.policy c.request.after

/-- The combiner once its pipeline has ended. -/
def ended (c : Combiner) : Except CombineError Path → Combiner
  | .ok path => { c with stage := .done, finalPath := some path }
  | .error _ => { c with stage := .failed }

theorem releaseInputs_run (c : Combiner) (w : World) : ∃ u v,
    (c.releaseInputs : Action ε _) w = .ok () v ∧ u.disk = w.disk ∧
      v.disk = (after (Release.release c.policy c.request.after : Action ε Unit)
        (after (Release.release c.policy c.request.before : Action ε Unit) u)).disk := by
  let opened : World := { w with spans := w.spans ++ [c.span "cleanup"] }
  obtain ⟨w₁, first, -⟩ := Release.release_run (ε := ε) c.policy c.request.before opened
  obtain ⟨w₂, second, -⟩ := Release.release_run (ε := ε) c.policy c.request.after w₁
  refine ⟨opened, _, inside_of_ok ((bind_of_ok first).trans second), rfl, ?_⟩
  rw [after_of_ok first, after_of_ok second]

theorem cleanup_first (pending : c.released = false) (w : World) : ∃ v,
    (c.releaseInputs : Action ε _) w = .ok () v ∧
      (c.cleanup : Action ε _) w = .ok { c with released := true } v := by
  let opened : World := { w with spans := w.spans ++ [c.span "cleanup"] }
  obtain ⟨w₁, first, -⟩ := Release.release_run (ε := ε) c.policy c.request.before opened
  obtain ⟨w₂, second, -⟩ := Release.release_run (ε := ε) c.policy c.request.after w₁
  refine ⟨_, inside_of_ok ((bind_of_ok first).trans second), inside_of_ok ?_⟩
  rw [if_neg (by simp [pending]), bind_of_ok first, bind_of_ok second]
  rfl

theorem cleanup_again (done : c.released = true) (w : World) :
    (c.cleanup : Action ε _) w = .ok c w := by
  refine inside_of_ok (v := { w with spans := w.spans ++ [c.span "cleanup"] }) ?_
  rw [if_pos done]
  rfl

theorem combine_first (first : c.stage = .start) (w : World) : ∃ result v,
    (c.combine : Action ε _) w = .ok (result, c.ended result) v := by
  obtain ⟨result, c', v, run, ⟨-, p, -, -, -, rfl, rfl, -⟩ | ⟨-, e, -, -, -, rfl, rfl, -⟩ |
    ⟨-, e, rfl, rfl, -⟩⟩ := combine_cases (ε := ε) c first w
  all_goals exact ⟨_, v, run⟩

theorem combine_run (c : Combiner) (w : World) : ∃ result c' v,
    (c.combine : Action ε _) w = .ok (result, c') v ∧ c'.released = c.released ∧
      (c'.releaseInputs : Action ε _) = c.releaseInputs := by
  by_cases first : c.stage = .start
  · obtain ⟨result, v, run⟩ := combine_first (ε := ε) first w
    refine ⟨result, _, v, run, ?_⟩
    cases result <;> exact ⟨rfl, rfl⟩
  · exact ⟨_, c, w, combine_again first w, rfl, rfl⟩

theorem runScoped_of_cleanup {c' c'' : Combiner} {result : Except CombineError Path} {u v : World}
    (run : (c.combine : Action ε _) w = .ok (result, c') u)
    (cleaned : (c'.cleanup : Action ε _) u = .ok c'' v) (done : c''.released = true) :
    (c.runScoped : Action ε _) w = .ok (result, c'') v := by
  rw [runScoped, bind_of_ok run]
  dsimp only
  rw [bind_of_ok cleaned, bind_of_ok (cleanup_again done v)]
  rfl

theorem runScoped_run (c : Combiner) (w : World) : ∃ result c' u v,
    (c.combine : Action ε _) w = .ok (result, c') u ∧
      (c.runScoped : Action ε _) w = .ok (result, { c' with released := true }) v ∧
      (c.released = false → (c.releaseInputs : Action ε _) u = .ok () v) ∧
      (c.released = true → v = u) := by
  obtain ⟨result, c', u, run, flag, same⟩ := combine_run (ε := ε) c w
  cases released : c.released with
  | true =>
    rw [released] at flag
    have again : { c' with released := true } = c' := by rw [← flag]
    refine ⟨result, c', u, u, run, ?_, nofun, fun _ => rfl⟩
    rw [again]
    exact runScoped_of_cleanup run (cleanup_again flag u) flag
  | false =>
    rw [released] at flag
    obtain ⟨v, freed, cleaned⟩ := cleanup_first (ε := ε) flag u
    exact ⟨result, c', u, v, run, runScoped_of_cleanup run cleaned rfl, fun _ => same ▸ freed, nofun⟩

inductive Call
  | combine
  | cleanup

/-- A call and the world that it finds, as others left it. -/
structure Turn where
  call : Call
  found : World

def called (c : Combiner) (turn : Turn) : Combiner :=
  match turn.call with
  | .combine => match (c.combine : Action Empty _) turn.found with
    | .ok (_, c') _ => c'
    | .error e _ => e.elim
  | .cleanup => match (c.cleanup : Action Empty _) turn.found with
    | .ok c' _ => c'
    | .error e _ => e.elim

def calledAll (c : Combiner) (turns : List Turn) : Combiner := turns.foldl called c

theorem called_cases (c : Combiner) (turn : Turn) :
    (turn.call = .combine ∧ c.stage = .start ∧ ∃ result, c.called turn = c.ended result) ∨
    (turn.call = .combine ∧ c.stage ≠ .start ∧ c.called turn = c) ∨
    turn.call = .cleanup ∧ c.called turn = { c with released := true } := by
  obtain ⟨call, found⟩ := turn
  cases call with
  | combine =>
    by_cases first : c.stage = .start
    · obtain ⟨result, v, run⟩ := combine_first (ε := Empty) first found
      exact .inl ⟨rfl, first, result, by simp [called, run]⟩
    · exact .inr (.inl ⟨rfl, first, by simp [called, combine_again first]⟩)
  | cleanup =>
    refine .inr (.inr ⟨rfl, ?_⟩)
    cases released : c.released with
    | true =>
      have run := cleanup_again (ε := Empty) released found
      simp [called, run, ← released]
    | false =>
      obtain ⟨v, -, run⟩ := cleanup_first (ε := Empty) released found
      simp [called, run]

/-- Between calls there is a result if and only if the combiner is done. -/
def Rests (c : Combiner) : Prop :=
  c.stage = .start ∧ c.finalPath = none ∨ c.stage = .done ∧ c.finalPath.isSome ∨
    c.stage = .failed ∧ c.finalPath = none

theorem Rests.called (h : c.Rests) (turn : Turn) : (c.called turn).Rests := by
  rcases c.called_cases turn with ⟨-, first, result, e⟩ | ⟨-, -, e⟩ | ⟨-, e⟩ <;> rw [e]
  · rcases h with ⟨-, none⟩ | ⟨stage, -⟩ | ⟨stage, -⟩
    · cases result with
      | ok p => exact .inr (.inl ⟨rfl, rfl⟩)
      | error fault => exact .inr (.inr ⟨rfl, none⟩)
    · cases first.symm.trans stage
    · cases first.symm.trans stage
  · exact h
  · exact h

/-- What the calls so far come to: which inputs the combiner has, whether it has run and whether its
inputs were released. -/
structure ComesTo (c : Combiner) (turns : List Turn) (c' : Combiner) : Prop where
  request : c'.request = c.request
  policy : c'.policy = c.policy
  start : c'.stage = .start ↔ c.stage = .start ∧ ∀ turn ∈ turns, turn.call ≠ .combine
  kept : c.stage ≠ .start → c'.stage = c.stage ∧ c'.finalPath = c.finalPath
  released : c'.released = true ↔ c.released = true ∨ ∃ turn ∈ turns, turn.call = .cleanup

theorem comesTo_called (c : Combiner) (turn : Turn) : ComesTo c [turn] (c.called turn) := by
  rcases c.called_cases turn with ⟨call, first, result, e⟩ | ⟨call, ran, e⟩ | ⟨call, e⟩ <;> rw [e]
  · refine ⟨?_, ?_, ?_, fun ran => absurd first ran, ?_⟩ <;> cases result <;> simp [ended, call]
  · exact ⟨rfl, rfl, by simp [call, ran], fun _ => ⟨rfl, rfl⟩, by simp [call]⟩
  · exact ⟨rfl, rfl, by simp [call], fun _ => ⟨rfl, rfl⟩, by simp [call]⟩

theorem comesTo_calledAll (c : Combiner) (turns : List Turn) :
    ComesTo c turns (c.calledAll turns) := by
  induction turns generalizing c with
  | nil => exact ⟨rfl, rfl, by simp [calledAll], fun _ => ⟨rfl, rfl⟩, by simp [calledAll]⟩
  | cons turn rest ih =>
    have head := comesTo_called c turn
    have tail := ih (c.called turn)
    refine ⟨tail.request.trans head.request, tail.policy.trans head.policy, ?_, fun ran => ?_, ?_⟩
    · rw [calledAll, List.foldl_cons, ← calledAll, tail.start, head.start, and_assoc]
      simp
    · obtain ⟨stage, path⟩ := head.kept ran
      obtain ⟨stage', path'⟩ := tail.kept (stage ▸ ran)
      exact ⟨stage'.trans stage, path'.trans path⟩
    · rw [calledAll, List.foldl_cons, ← calledAll, tail.released, head.released, or_assoc]
      simp

theorem Rests.calledAll (h : c.Rests) (turns : List Turn) : (c.calledAll turns).Rests := by
  induction turns generalizing c with
  | nil => exact h
  | cons turn rest ih => exact ih (h.called turn)

/-- Whatever calls there were, and whatever each of them found: The combiner has not run, is done or
has failed. It has run from the first combine on, and then neither its stage nor its result changes
any more. It has a result if and only if it is done. The first combine settles both; any other is an
error that changes nothing at all. A cleanup changes neither; the first one releases each input
once, and any other changes nothing. So a scoped run, and also giving the combiner up, releases each
input once unless that was done before. -/
theorem life_cycle (request : CombineRequest) (mergeRoot : Path) (policy : PathPolicy)
    (turns : List Turn) : ∃ c, (withPolicy request mergeRoot policy).calledAll turns = c ∧
    (c.stage = .start ∨ c.stage = .done ∨ c.stage = .failed) ∧
    (c.stage = .start ↔ ∀ turn ∈ turns, turn.call ≠ .combine) ∧
    (c.finalPath.isSome = true ↔ c.stage = .done) ∧
    (c.stage ≠ .start → ∀ more, (c.calledAll more).stage = c.stage ∧
      (c.calledAll more).finalPath = c.finalPath) ∧
    (∀ w, c.stage = .start → ∃ result v,
      (c.combine : Action ε _) w = .ok (result, c.ended result) v) ∧
    (∀ w, c.stage ≠ .start → (c.combine : Action ε _) w =
      .ok (.error (.invalidState (.alreadyRan c.stage)), c) w) ∧
    (∀ w, ∃ c' v, (c.cleanup : Action ε _) w = .ok c' v ∧
      c'.stage = c.stage ∧ c'.finalPath = c.finalPath ∧
      ((∀ turn ∈ turns, turn.call ≠ .cleanup) →
        ((withPolicy request mergeRoot policy).releaseInputs : Action ε _) w = .ok () v) ∧
      ((∃ turn ∈ turns, turn.call = .cleanup) → v = w)) ∧
    (∀ w, ∃ result c' u v, (c.combine : Action ε _) w = .ok (result, c') u ∧
      (c.runScoped : Action ε _) w = .ok (result, { c' with released := true }) v ∧
      ((∀ turn ∈ turns, turn.call ≠ .cleanup) →
        ((withPolicy request mergeRoot policy).releaseInputs : Action ε _) u = .ok () v) ∧
      ((∃ turn ∈ turns, turn.call = .cleanup) → v = u)) ∧
    ∀ w, ∃ c' v, (c.abandon : Action ε _) w = .ok c' v ∧
      ((∀ turn ∈ turns, turn.call ≠ .cleanup) →
        ((withPolicy request mergeRoot policy).releaseInputs : Action ε _) w = .ok () v) ∧
      ((∃ turn ∈ turns, turn.call = .cleanup) → v = w) := by
  have comes := comesTo_calledAll (withPolicy request mergeRoot policy) turns
  have rests : ((withPolicy request mergeRoot policy).calledAll turns).Rests :=
    Rests.calledAll (.inl ⟨rfl, rfl⟩) turns
  generalize (withPolicy request mergeRoot policy).calledAll turns = c at comes rests
  have same : (c.releaseInputs : Action ε _) =
      (withPolicy request mergeRoot policy).releaseInputs := by
    rw [releaseInputs, releaseInputs, span, span, comes.request, comes.policy]
  have once : c.released = true ↔ ∃ turn ∈ turns, turn.call = .cleanup :=
    comes.released.trans (or_iff_right nofun)
  have never : c.released = false ↔ ∀ turn ∈ turns, turn.call ≠ .cleanup := by
    rw [← Bool.not_eq_true, once]
    simp
  have cleaned : ∀ w, ∃ c' v, (c.cleanup : Action ε _) w = .ok c' v ∧
      c'.stage = c.stage ∧ c'.finalPath = c.finalPath ∧
      ((∀ turn ∈ turns, turn.call ≠ .cleanup) →
        ((withPolicy request mergeRoot policy).releaseInputs : Action ε _) w = .ok () v) ∧
      ((∃ turn ∈ turns, turn.call = .cleanup) → v = w) := by
    intro w
    rw [← once, ← never, ← same]
    cases released : c.released with
    | true => exact ⟨c, w, cleanup_again released w, rfl, rfl, nofun, fun _ => rfl⟩
    | false =>
      obtain ⟨v, freed, run⟩ := cleanup_first (ε := ε) released w
      exact ⟨_, v, run, rfl, rfl, fun _ => freed, nofun⟩
  refine ⟨c, rfl, ?_, comes.start.trans (and_iff_right rfl), ?_, fun ran more =>
    (comesTo_calledAll c more).kept ran, fun w first => combine_first first w,
    fun w ran => combine_again ran w, cleaned, fun w => ?_, fun w => ?_⟩
  · rcases rests with ⟨stage, -⟩ | ⟨stage, -⟩ | ⟨stage, -⟩ <;> simp [stage]
  · rcases rests with ⟨stage, path⟩ | ⟨stage, path⟩ | ⟨stage, path⟩ <;> simp [stage, path]
  · rw [← once, ← never, ← same]
    exact runScoped_run c w
  · obtain ⟨c', v, run, -, -, freed, kept⟩ := cleaned w
    exact ⟨c', v, run, freed, kept⟩

end LayeredTree.Combiner
