import LayeredTree.Proofs.Chain.Building
import Mathlib.Logic.Relation

/-!
Tables of locks in use. Callers keep the guards they got until they give them back; meanwhile others
take locks, clear the table and build resources. No resource is ever held twice, and none is refused
that nobody holds.
-/

set_option autoImplicit false

namespace LayeredTree

/-- A table of locks and the guards that callers keep. -/
structure Custody where
  locks : ResourceLocks
  guards : List ResourceGuard

namespace Custody

variable {s s' : Custody} {r : ResourceId} {lock : ResourceLock}

def start : Custody := ⟨.empty, []⟩

/-- One thing that is done with the table. Whoever has to wait for a lock does nothing. A build that
others come in between is a lock that is given back later. -/
inductive Step : Custody → Custody → Prop
  | lock {s : Custody} {r : ResourceId} {guard : ResourceGuard} {locks : ResourceLocks} :
      s.locks.lock r = some (guard, locks) → Step s ⟨locks, guard :: s.guards⟩
  | tryLock {s : Custody} {r : ResourceId} {answer : Option ResourceGuard}
      {locks : ResourceLocks} :
      s.locks.tryLock r = (answer, locks) → Step s ⟨locks, answer.toList ++ s.guards⟩
  | drop {s : Custody} {guard : ResourceGuard} :
      guard ∈ s.guards → Step s ⟨s.locks.release guard, s.guards.erase guard⟩
  | prune {s : Custody} : Step s ⟨s.locks.prune, s.guards⟩
  | build {s : Custody} {area : WorkArea} {r : ResourceId} {layers : List Layer} {w v : World}
      {answer : Option (Except CombineError Path)} {locks : ResourceLocks} :
      (Chain.build area r layers s.locks : Action Empty _) w = .ok (answer, locks) v →
      Step s ⟨locks, s.guards⟩

/-- The table accounts for the guards that are out: each of them holds the lock that the table has
for its resource, and every lock has one share for the table and one for its guard. -/
structure Sound (s : Custody) : Prop where
  distinct : s.locks.Distinct
  numbered : ∀ r lock, s.locks.get? r = some lock → lock.number < s.locks.next
  unshared : ∀ r r' lock lock', s.locks.get? r = some lock → s.locks.get? r' = some lock' →
    lock.number = lock'.number → r = r'
  nodup : s.guards.Nodup
  known : ∀ guard ∈ s.guards, ∃ lock, s.locks.get? guard.resource = some lock ∧
    lock.number = guard.number
  held : ∀ r lock, s.locks.get? r = some lock →
    (lock.held = true ↔ ⟨r, lock.number⟩ ∈ s.guards)
  counted : ∀ r lock, s.locks.get? r = some lock →
    lock.shares = 1 + s.guards.count ⟨r, lock.number⟩

namespace Sound

theorem start : start.Sound :=
  ⟨List.nodup_nil, nofun, nofun, List.nodup_nil, nofun, nofun, nofun⟩

theorem guard_eq (h : s.Sound) {guard guard' : ResourceGuard} (out : guard ∈ s.guards)
    (out' : guard' ∈ s.guards) (same : guard.resource = guard'.resource) : guard = guard' := by
  obtain ⟨lock, found, number⟩ := h.known guard out
  obtain ⟨lock', found', number'⟩ := h.known guard' out'
  rw [same, found'] at found
  cases found
  cases guard
  cases guard'
  simp_all

theorem single (h : s.Sound) : s.guards.Pairwise fun guard guard' =>
    guard.resource ≠ guard'.resource := by
  refine List.Nodup.pairwise_of_forall_ne h.nodup fun guard out guard' out' ne same => ?_
  exact ne (h.guard_eq out out' same)

theorem exists_held_iff (h : s.Sound) : (∃ lock, s.locks.get? r = some lock ∧ lock.held = true) ↔
    ∃ guard ∈ s.guards, guard.resource = r := by
  constructor
  · rintro ⟨lock, found, held⟩
    exact ⟨_, (h.held r lock found).mp held, rfl⟩
  · rintro ⟨guard, out, rfl⟩
    obtain ⟨lock, found, number⟩ := h.known guard out
    refine ⟨lock, found, (h.held _ lock found).mpr ?_⟩
    rwa [number]

theorem ensure (h : s.Sound) (r : ResourceId) : Sound ⟨s.locks.ensure r, s.guards⟩ := by
  cases found : s.locks.get? r with
  | some lock =>
    have same : s.locks.ensure r = s.locks := by rw [ResourceLocks.ensure, found]
    rw [same]
    exact h
  | none =>
    have next : (s.locks.ensure r).next = s.locks.next + 1 := by
      rw [ResourceLocks.ensure, found]
    have get : ∀ k lock, (s.locks.ensure r).get? k = some lock →
        k = r ∧ lock = ⟨s.locks.next, false, 1⟩ ∨ s.locks.get? k = some lock := by
      intro k lock e
      rw [ResourceLocks.get?_ensure, found] at e
      split at e
      · rename_i same
        exact .inl ⟨same, (Option.some.inj e).symm⟩
      · exact .inr e
    have fresh : ∀ number, (⟨r, number⟩ : ResourceGuard) ∉ s.guards := by
      intro number out
      obtain ⟨lock, there, -⟩ := h.known _ out
      cases found.symm.trans there
    refine ⟨h.distinct.ensure r, fun k lock e => ?_, fun k k' lock lock' e e' same => ?_, h.nodup,
      fun guard out => ?_, fun k lock e => ?_, fun k lock e => ?_⟩
    · rw [next]
      rcases get k lock e with ⟨-, rfl⟩ | e
      · exact Nat.lt_succ_self _
      · exact Nat.lt_succ_of_lt (h.numbered k lock e)
    · rcases get k lock e with ⟨rfl, rfl⟩ | old <;>
        rcases get k' lock' e' with ⟨rfl, rfl⟩ | old'
      · rfl
      · exact absurd same (h.numbered k' lock' old').ne'
      · exact absurd same (h.numbered k lock old).ne
      · exact h.unshared k k' lock lock' old old' same
    · obtain ⟨lock, there, number⟩ := h.known guard out
      refine ⟨lock, ?_, number⟩
      rw [ResourceLocks.get?_ensure, if_neg]
      · exact there
      · rintro rfl
        cases found.symm.trans there
    · rcases get k lock e with ⟨rfl, rfl⟩ | e
      · simp [fresh]
      · exact h.held k lock e
    · rcases get k lock e with ⟨rfl, rfl⟩ | e
      · simp [List.count_eq_zero_of_not_mem (fresh _)]
      · exact h.counted k lock e

theorem alter (h : s.Sound) (found : s.locks.get? r = some lock)
    {f : ResourceLock → ResourceLock} {guards : List ResourceGuard}
    (same : (f lock).number = lock.number) (nodup : guards.Nodup)
    (others : ∀ guard, guard ≠ ⟨r, lock.number⟩ → guards.count guard = s.guards.count guard)
    (held : (f lock).held = true ↔ ⟨r, lock.number⟩ ∈ guards)
    (counted : (f lock).shares = 1 + guards.count ⟨r, lock.number⟩) :
    Sound ⟨s.locks.alter r f, guards⟩ := by
  have get : ∀ k lock', (s.locks.alter r f).get? k = some lock' →
      k = r ∧ lock' = f lock ∨ k ≠ r ∧ s.locks.get? k = some lock' := by
    intro k lock' e
    rw [ResourceLocks.get?_alter] at e
    split at e
    · rename_i e'
      rw [e', found] at e
      exact .inl ⟨e', (Option.some.inj e).symm⟩
    · rename_i ne
      exact .inr ⟨ne, e⟩
  -- Numbers stay, so a lock has the number that it had before.
  have before : ∀ k lock', (s.locks.alter r f).get? k = some lock' →
      ∃ lock, s.locks.get? k = some lock ∧ lock'.number = lock.number := by
    intro k lock' e
    rcases get k lock' e with ⟨rfl, rfl⟩ | ⟨-, e⟩
    · exact ⟨lock, found, same⟩
    · exact ⟨lock', e, rfl⟩
  refine ⟨h.distinct.alter r f, fun k lock' e => ?_, fun k k' a b e e' number => ?_, nodup,
    fun guard out => ?_, fun k lock' e => ?_, fun k lock' e => ?_⟩
  · obtain ⟨old, there, number⟩ := before k lock' e
    rw [number]
    exact h.numbered k old there
  · obtain ⟨a', there, number₁⟩ := before k a e
    obtain ⟨b', there', number₂⟩ := before k' b e'
    exact h.unshared k k' a' b' there there' (number₁.symm.trans (number.trans number₂))
  · rw [ResourceLocks.get?_alter]
    by_cases e : guard = ⟨r, lock.number⟩
    · subst e
      exact ⟨f lock, by rw [if_pos rfl, found, Option.map_some], same⟩
    · have out' : guard ∈ s.guards := by
        rwa [← List.count_pos_iff, ← others guard e, List.count_pos_iff]
      obtain ⟨old, there, number⟩ := h.known guard out'
      rw [if_neg]
      · exact ⟨old, there, number⟩
      · intro e'
        rw [e', found] at there
        cases there
        exact e (by cases guard; simp_all)
  · rcases get k lock' e with ⟨rfl, rfl⟩ | ⟨ne, e⟩
    · rw [same]
      exact held
    · rw [h.held k lock' e, ← List.count_pos_iff, ← List.count_pos_iff,
        others _ fun e => ne (congrArg ResourceGuard.resource e)]
  · rcases get k lock' e with ⟨rfl, rfl⟩ | ⟨ne, e⟩
    · rw [same]
      exact counted
    · rw [h.counted k lock' e, others _ fun e => ne (congrArg ResourceGuard.resource e)]

theorem tryLock (h : s.Sound) (r : ResourceId) :
    ((∃ guard ∈ s.guards, guard.resource = r) ∧ s.locks.tryLock r = (none, s.locks)) ∨
    (∀ guard ∈ s.guards, guard.resource ≠ r) ∧ ∃ guard locks,
      s.locks.tryLock r = (some guard, locks) ∧ guard.resource = r ∧
        Sound ⟨locks, guard :: s.guards⟩ := by
  rcases ResourceLocks.tryLock_cases s.locks r with ⟨lock, found, held, run⟩ |
    ⟨idle, lock, found, held, run⟩
  · exact .inl ⟨h.exists_held_iff.mp ⟨lock, found, held⟩, run⟩
  · have free : ∀ guard ∈ s.guards, guard.resource ≠ r := by
      intro guard out e
      obtain ⟨lock, found, held⟩ := h.exists_held_iff.mpr ⟨guard, out, e⟩
      rw [idle lock found] at held
      cases held
    have absent : (⟨r, lock.number⟩ : ResourceGuard) ∉ s.guards := fun out => free _ out rfl
    refine .inr ⟨free, _, _, run, rfl, (h.ensure r).alter found rfl ?_ ?_ ?_ ?_⟩
    · exact List.nodup_cons.mpr ⟨absent, h.nodup⟩
    · exact fun guard ne => List.count_cons_of_ne ne.symm
    · simp
    · rw [(h.ensure r).counted r lock found]
      simp [Nat.add_assoc]

theorem release (h : s.Sound) {guard : ResourceGuard} (out : guard ∈ s.guards) :
    Sound ⟨s.locks.release guard, s.guards.erase guard⟩ := by
  obtain ⟨lock, found, number⟩ := h.known guard out
  have e : guard = ⟨guard.resource, lock.number⟩ := by rw [number]
  rw [ResourceLocks.release, found]
  dsimp only
  rw [if_pos number]
  refine h.alter found rfl (h.nodup.erase guard) (fun other ne => ?_) ?_ ?_
  · rw [← e] at ne
    exact List.count_erase_of_ne ne
  · rw [← e]
    simp [h.nodup.not_mem_erase]
  · rw [h.counted _ lock found, ← e, List.count_erase_self]
    have positive := List.count_pos_iff.mpr out
    show 1 + s.guards.count guard - 1 = 1 + (s.guards.count guard - 1)
    omega

theorem get?_prune (h : s.Sound) : s.locks.prune.get? r = some lock ↔
    s.locks.get? r = some lock ∧ ⟨r, lock.number⟩ ∈ s.guards := by
  rw [h.distinct.get?_prune]
  refine and_congr_right fun found => ?_
  rw [h.counted r lock found, ← List.count_pos_iff]
  omega

theorem prune (h : s.Sound) : Sound ⟨s.locks.prune, s.guards⟩ := by
  have kept : ∀ r lock, s.locks.prune.get? r = some lock → s.locks.get? r = some lock :=
    fun r lock e => (h.get?_prune.mp e).1
  refine ⟨h.distinct.prune, fun r lock e => h.numbered r lock (kept r lock e),
    fun r r' lock lock' e e' => h.unshared r r' lock lock' (kept r lock e) (kept r' lock' e'),
    h.nodup, fun guard out => ?_, fun r lock e => h.held r lock (kept r lock e),
    fun r lock e => h.counted r lock (kept r lock e)⟩
  obtain ⟨lock, found, number⟩ := h.known guard out
  refine ⟨lock, h.get?_prune.mpr ⟨found, ?_⟩, number⟩
  rwa [number]

theorem names_prune (h : s.Sound) :
    (s.locks.prune.entries.map Prod.fst).Perm (s.guards.map ResourceGuard.resource) := by
  have single : (s.guards.map ResourceGuard.resource).Nodup := List.pairwise_map.mpr h.single
  refine (List.perm_ext_iff_of_nodup h.prune.distinct single).mpr fun r => ?_
  rw [ResourceLocks.mem_names_iff, List.mem_map]
  constructor
  · rintro ⟨lock, found⟩
    exact ⟨_, (h.get?_prune.mp found).2, rfl⟩
  · rintro ⟨guard, out, rfl⟩
    obtain ⟨lock, found, -⟩ := h.prune.known guard out
    exact ⟨lock, found⟩

/-- A build that is asked for on a sound table ends. It has to wait if the layers are a chain whose
resource is held; otherwise it gives back the lock that it took, if it took one. -/
theorem build (h : s.Sound) (area : WorkArea) (r : ResourceId) (layers : List Layer) (w : World) :
    ∃ answer locks v, (Chain.build area r layers s.locks : Action Empty _) w =
        .ok (answer, locks) v ∧
      Sound ⟨locks, s.guards⟩ ∧
      (answer = none ↔ Chain.IsChain layers ∧ ∃ guard ∈ s.guards, guard.resource = r) ∧
      (answer ≠ none → Chain.IsChain layers → ∃ guard taken,
        s.locks.lock r = some (guard, taken) ∧ locks = taken.release guard) := by
  obtain ⟨answer, locks, v, run, ends⟩ := Chain.build_cases (ε := Empty) area r layers s.locks w
  refine ⟨answer, locks, v, run, ?_⟩
  rcases Chain.shape_cases r layers with ⟨first, rest, shaped, rfl, top, all⟩ | ⟨bad, fault, no⟩
  · have chain : Chain.IsChain (first :: rest) := ⟨first, rest, rfl, top, all⟩
    rcases ends with ⟨fault, refused, -⟩ | ⟨-, held, rfl, rfl, -⟩ |
      ⟨first', rest', u, u', -, -, -, ⟨guard, taken, locked, rfl⟩, folded⟩
    · cases shaped.symm.trans refused
    · refine ⟨h, ?_, fun some => absurd rfl some⟩
      exact iff_of_true rfl ⟨chain, h.exists_held_iff.mp held⟩
    · have tried := ResourceLocks.tryLock_of_lock locked
      rcases h.tryLock r with ⟨-, run'⟩ | ⟨free, guard', locks', run', rfl, sound⟩
      · cases tried.symm.trans run'
      cases tried.symm.trans run'
      have released := sound.release List.mem_cons_self
      rw [List.erase_cons_head] at released
      refine ⟨released, iff_of_false ?_ ?_, fun _ _ => ⟨guard, taken, locked, rfl⟩⟩
      · rcases folded with ⟨p, -, rfl⟩ | ⟨e, -, rfl⟩ <;> nofun
      · rintro ⟨-, other, out, e⟩
        exact free other out e
  · rcases ends with ⟨fault', -, rfl, rfl, -⟩ | ⟨⟨parts, shaped⟩, -⟩ |
      ⟨first', rest', u, u', shaped, -⟩
    · exact ⟨h, iff_of_false nofun fun both => bad both.1, fun _ chain => absurd chain bad⟩
    · cases no.symm.trans shaped
    · cases no.symm.trans shaped

theorem step (h : s.Sound) (step : Step s s') : s'.Sound := by
  cases step with
  | @lock r guard locks run =>
    have tried := ResourceLocks.tryLock_of_lock run
    rcases h.tryLock r with ⟨-, run'⟩ | ⟨-, guard', locks', run', -, sound⟩
    · cases tried.symm.trans run'
    · cases tried.symm.trans run'
      exact sound
  | @tryLock r answer locks run =>
    rcases h.tryLock r with ⟨-, run'⟩ | ⟨-, guard', locks', run', -, sound⟩
    · cases run.symm.trans run'
      exact h
    · cases run.symm.trans run'
      exact sound
  | drop out => exact h.release out
  | prune => exact h.prune
  | @build area r layers w v answer locks run =>
    obtain ⟨answer', locks', v', run', sound, -⟩ := h.build area r layers w
    cases run.symm.trans run'
    exact sound

theorem of_steps (run : Relation.ReflTransGen Step Custody.start s) : s.Sound := by
  induction run with
  | refl => exact .start
  | tail _ last ih => exact ih.step last

end Sound

/-- However a table has been used: No two guards that are out are for one resource. An attempt to
lock a resource succeeds, and nobody has to wait for it, if and only if no guard for it is out. The
lock that a guard holds is the one that the table has for the resource, also after clearing, and no
two resources have the same one. Just after clearing the table has the locks of the resources that
are held and no others. A build has to wait only if a guard for its resource is out; with any other
result it has given back what it took, so the same resources are held as before. -/
theorem exclusive (run : Relation.ReflTransGen Step start s) :
    (s.guards.Pairwise fun guard guard' => guard.resource ≠ guard'.resource) ∧
    (∀ r, (s.locks.tryLock r).1 = none ↔ ∃ guard ∈ s.guards, guard.resource = r) ∧
    (∀ r, s.locks.lock r = none ↔ ∃ guard ∈ s.guards, guard.resource = r) ∧
    (∀ r guard, (s.locks.tryLock r).1 = some guard → guard.resource = r) ∧
    (∀ guard ∈ s.guards, ∃ lock, s.locks.get? guard.resource = some lock ∧
      lock.number = guard.number ∧ s.locks.prune.get? guard.resource = some lock) ∧
    (∀ r r' lock lock', s.locks.get? r = some lock → s.locks.get? r' = some lock' →
      lock.number = lock'.number → r = r') ∧
    (s.locks.prune.entries.map Prod.fst).Perm (s.guards.map ResourceGuard.resource) ∧
    ∀ area r layers w, ∃ answer locks v,
      (Chain.build area r layers s.locks : Action Empty _) w = .ok (answer, locks) v ∧
      (answer = none ↔ Chain.IsChain layers ∧ ∃ guard ∈ s.guards, guard.resource = r) ∧
      (answer ≠ none → Chain.IsChain layers → ∃ guard taken,
        s.locks.lock r = some (guard, taken) ∧ locks = taken.release guard) ∧
      ∀ r', (locks.tryLock r').1 = none ↔ ∃ guard ∈ s.guards, guard.resource = r' := by
  have refused : ∀ {s : Custody}, s.Sound → ∀ r, (s.locks.tryLock r).1 = none ↔
      ∃ guard ∈ s.guards, guard.resource = r := by
    intro s h r
    rcases h.tryLock r with ⟨out, tried⟩ | ⟨free, guard, locks, tried, -⟩
    · exact iff_of_true (by rw [tried]) out
    · rw [tried]
      exact iff_of_false nofun fun ⟨guard, out, e⟩ => free guard out e
  have h := Sound.of_steps run
  refine ⟨h.single, refused h, fun r => ?_, fun r guard got => ?_, fun guard out => ?_, h.unshared,
    h.names_prune, fun area r layers w => ?_⟩
  · rw [ResourceLocks.lock_eq_none_iff, h.exists_held_iff]
  · rcases h.tryLock r with ⟨-, tried⟩ | ⟨-, guard', locks, tried, e, -⟩
    · rw [tried] at got
      cases got
    · rw [tried] at got
      cases got
      exact e
  · obtain ⟨lock, found, number⟩ := h.known guard out
    refine ⟨lock, found, number, h.get?_prune.mpr ⟨found, ?_⟩⟩
    rwa [number]
  · obtain ⟨answer, locks, v, built, sound, waits, took⟩ := h.build area r layers w
    exact ⟨answer, locks, v, built, waits, took, refused sound⟩

/-- With one resource held and the table cleared, that resource is refused and another is not. -/
theorem exclusive_once_cleared : ∃ s : Custody, Relation.ReflTransGen Step start s ∧
    (s.locks.tryLock ⟨"a", "s", none⟩).1 = none ∧ (s.locks.tryLock ⟨"b", "s", none⟩).1 ≠ none := by
  have run : Relation.ReflTransGen Step start _ :=
    .tail (.tail .refl (.tryLock (r := ⟨"a", "s", none⟩) rfl)) .prune
  obtain ⟨-, refused, -⟩ := exclusive run
  exact ⟨_, run, (refused _).mpr (by decide), fun none => absurd ((refused _).mp none) (by decide)⟩

end Custody
end LayeredTree
