import LayeredTree.Resource.Locks
import Mathlib.Data.List.Nodup

set_option autoImplicit false

namespace LayeredTree.ResourceLocks

variable {t : ResourceLocks} {r k : ResourceId} {found : ResourceLock}

/-- No resource has two locks. -/
def Distinct (t : ResourceLocks) : Prop := (t.entries.map Prod.fst).Nodup

theorem get?_eq_none_iff : t.get? r = none ↔ r ∉ t.entries.map Prod.fst := by
  rw [get?, List.lookup_eq_none_iff, List.mem_map]
  constructor
  · rintro absent ⟨entry, hm, rfl⟩
    simpa using absent entry hm
  · intro absent entry hm
    rw [bne_iff_ne]
    rintro rfl
    exact absent ⟨entry, hm, rfl⟩

theorem mem_names_iff : r ∈ t.entries.map Prod.fst ↔ ∃ lock, t.get? r = some lock := by
  rw [← Option.ne_none_iff_exists', ne_eq, get?_eq_none_iff, not_not]

theorem Distinct.get?_eq_some_iff (h : t.Distinct) :
    t.get? r = some found ↔ (r, found) ∈ t.entries := by
  rw [Distinct] at h
  rw [get?]
  generalize t.entries = entries at h ⊢
  induction entries with
  | nil => simp
  | cons entry rest ih =>
    obtain ⟨name, lock⟩ := entry
    rw [List.map_cons, List.nodup_cons] at h
    rw [List.lookup_cons, List.mem_cons]
    by_cases e : r = name
    · subst e
      have absent : (r, found) ∉ rest := fun hm => h.1 (List.mem_map.mpr ⟨_, hm, rfl⟩)
      simp [absent, eq_comm]
    · simp [beq_eq_false_iff_ne.mpr e, ih h.2, e]

theorem get?_alter (f : ResourceLock → ResourceLock) :
    (t.alter r f).get? k = if k = r then (t.get? k).map f else t.get? k := by
  rw [get?, get?, alter]
  induction t.entries with
  | nil => simp
  | cons entry rest ih =>
    obtain ⟨name, lock⟩ := entry
    rw [List.map_cons]
    by_cases e : name = r
    · by_cases e' : k = name
      · simp [← e, e']
      · simpa [List.lookup_cons, ← e, e', beq_eq_false_iff_ne.mpr e'] using ih
    · by_cases e' : k = name
      · simp [e, e']
      · simp [List.lookup_cons, e, beq_eq_false_iff_ne.mpr e', ih]

theorem get?_ensure : (t.ensure r).get? k =
    if k = r then some ((t.get? r).getD ⟨t.next, false, 1⟩) else t.get? k := by
  rw [ensure]
  split
  · rename_i lock there
    by_cases e : k = r
    · simp [e, there]
    · simp [e]
  · rename_i none
    rw [get?, List.lookup_append, ← get?]
    by_cases e : k = r
    · simp [e, none]
    · simp [List.lookup_cons, e, beq_eq_false_iff_ne.mpr e]

theorem Distinct.ensure (h : t.Distinct) (r : ResourceId) : (t.ensure r).Distinct := by
  rw [ResourceLocks.ensure]
  split
  · exact h
  · rename_i none
    rw [Distinct, List.map_append]
    exact h.append (List.nodup_singleton r) (List.disjoint_singleton.mpr (get?_eq_none_iff.mp none))

theorem Distinct.alter (h : t.Distinct) (r : ResourceId) (f : ResourceLock → ResourceLock) :
    (t.alter r f).Distinct := by
  have names : (t.alter r f).entries.map Prod.fst = t.entries.map Prod.fst := by
    rw [ResourceLocks.alter, List.map_map]
    refine List.map_congr_left fun entry _ => ?_
    by_cases e : entry.1 = r
    · simp [e]
    · simp [e]
  rw [Distinct, names]
  exact h

theorem Distinct.prune (h : t.Distinct) : t.prune.Distinct :=
  List.Nodup.sublist (List.filter_sublist.map Prod.fst) h

theorem Distinct.get?_prune (h : t.Distinct) :
    t.prune.get? r = some found ↔ t.get? r = some found ∧ 1 < found.shares := by
  rw [h.prune.get?_eq_some_iff, h.get?_eq_some_iff, ResourceLocks.prune, List.mem_filter,
    decide_eq_true_iff]

/-- A lock that is held is refused and all stays as it is. Any other is taken, if need be after it
was made. -/
theorem tryLock_cases (t : ResourceLocks) (r : ResourceId) :
    (∃ lock, t.get? r = some lock ∧ lock.held = true ∧ t.tryLock r = (none, t)) ∨
    (∀ lock, t.get? r = some lock → lock.held = false) ∧
      ∃ lock, (t.ensure r).get? r = some lock ∧ lock.held = false ∧
        t.tryLock r = (some ⟨r, lock.number⟩, (t.ensure r).alter r fun lock =>
          { lock with held := true, shares := lock.shares + 1 }) := by
  have made : (t.ensure r).get? r = some ((t.get? r).getD ⟨t.next, false, 1⟩) := by
    rw [get?_ensure, if_pos rfl]
  cases there : t.get? r with
  | none =>
    rw [there, Option.getD_none] at made
    refine .inr ⟨nofun, _, made, rfl, ?_⟩
    simp [tryLock, made]
  | some lock =>
    rw [there, Option.getD_some] at made
    cases held : lock.held with
    | true =>
      have same : t.ensure r = t := by rw [ensure, there]
      refine .inl ⟨lock, rfl, held, ?_⟩
      simp [tryLock, same, there, held]
    | false =>
      refine .inr ⟨fun other e => Option.some.inj e ▸ held, lock, made, held, ?_⟩
      simp [tryLock, made, held]

theorem lock_of_tryLock {guard : ResourceGuard} {t' : ResourceLocks}
    (run : t.tryLock r = (some guard, t')) : t.lock r = some (guard, t') := by
  rw [lock, run]

theorem tryLock_of_lock {guard : ResourceGuard} {t' : ResourceLocks}
    (run : t.lock r = some (guard, t')) : t.tryLock r = (some guard, t') := by
  rw [lock] at run
  split at run
  · rename_i tried
    cases run
    exact tried
  · cases run

theorem lock_eq_none_iff :
    t.lock r = none ↔ ∃ lock, t.get? r = some lock ∧ lock.held = true := by
  rcases tryLock_cases t r with ⟨lock, there, held, run⟩ | ⟨idle, lock, -, -, run⟩
  · rw [ResourceLocks.lock, run]
    exact ⟨fun _ => ⟨lock, there, held⟩, fun _ => rfl⟩
  · rw [lock_of_tryLock run]
    refine ⟨nofun, ?_⟩
    rintro ⟨lock, there, held⟩
    rw [idle lock there] at held
    cases held

end LayeredTree.ResourceLocks
