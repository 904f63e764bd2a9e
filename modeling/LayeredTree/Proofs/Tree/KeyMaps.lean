import Mathlib.Tactic.Common
import LayeredTree.Tree.KeyMap

set_option autoImplicit false

namespace LayeredTree

namespace Bytes

variable {a b c : Bytes}

theorem before_irrefl (a : Bytes) : before a a = false := by
  induction a with
  | nil => rfl
  | cons x xs ih => simpa [before] using ih

theorem before_trans (h : before a b = true) (h' : before b c = true) : before a c = true := by
  induction a generalizing b c with
  | nil =>
    cases c with
    | nil => cases b <;> simp [before] at h h'
    | cons => rfl
  | cons x xs ih =>
    cases b with
    | nil => simp [before] at h
    | cons y ys =>
      cases c with
      | nil => simp [before] at h'
      | cons z zs =>
        simp only [before] at h h' ⊢
        by_cases xy : x < y
        · by_cases yz : y < z
          · simp [UInt8.lt_trans xy yz]
          · by_cases zy : z < y
            · simp [yz, zy] at h'
            · obtain rfl : y = z := UInt8.le_antisymm (UInt8.not_lt.mp zy) (UInt8.not_lt.mp yz)
              simp [xy]
        · by_cases yx : y < x
          · simp [xy, yx] at h
          · obtain rfl : x = y := UInt8.le_antisymm (UInt8.not_lt.mp yx) (UInt8.not_lt.mp xy)
            by_cases yz : x < z
            · simp [yz]
            · by_cases zy : z < x
              · simp [yz, zy] at h'
              · simp only [xy, yz, zy, if_false] at h h' ⊢
                exact ih h h'

theorem before_asymm (h : before a b = true) : before b a = false := by
  rw [Bool.eq_false_iff]
  intro h'
  have self := before_trans h h'
  rw [before_irrefl] at self
  cases self

theorem eq_of_not_before (h : before a b = false) (h' : before b a = false) : a = b := by
  induction a generalizing b with
  | nil =>
    cases b with
    | nil => rfl
    | cons => simp [before] at h
  | cons x xs ih =>
    cases b with
    | nil => simp [before] at h'
    | cons y ys =>
      simp only [before] at h h'
      by_cases xy : x < y
      · simp [xy] at h
      · by_cases yx : y < x
        · simp [yx] at h'
        · obtain rfl : x = y := UInt8.le_antisymm (UInt8.not_lt.mp yx) (UInt8.not_lt.mp xy)
          simp only [xy, if_false] at h h'
          rw [ih h h']

theorem before_of_ne (ne : a ≠ b) (h : before b a = false) : before a b = true := by
  by_contra none
  exact ne (eq_of_not_before (by simpa using none) h)

theorem eq_of_ordered {α : Type} (key : α → Bytes) {xs ys : List α}
    (h : xs.Pairwise fun x y => before (key x) (key y) = true)
    (h' : ys.Pairwise fun x y => before (key x) (key y) = true) (same : ∀ x, x ∈ xs ↔ x ∈ ys) :
    xs = ys := by
  refine List.Perm.eq_of_pairwise (fun x y _ _ less more => ?_) h h' ?_
  · rw [before_asymm less] at more
    cases more
  · have nodup : ∀ {zs : List α}, (zs.Pairwise fun x y => before (key x) (key y) = true) →
        zs.Nodup := fun ordered => ordered.imp fun {x y} apart e => by
      rw [e, before_irrefl] at apart
      cases apart
    exact (List.perm_ext_iff_of_nodup (nodup h) (nodup h')).mpr same

end Bytes

namespace KeyMap

variable {α : Type} {m m' : KeyMap α} {key other : Key} {value : α}

/-- The addresses stand in byte order, each once. -/
def Sorted (m : KeyMap α) : Prop := m.Pairwise fun p q => Bytes.before p.1 q.1 = true

theorem notMem_of_sorted {rest : KeyMap α} {done : List Key} (h : Sorted ((key, value) :: rest))
    (new : ∀ p ∈ (key, value) :: rest, p.1 ∉ done) : ∀ p ∈ rest, p.1 ∉ key :: done := by
  intro p hp hm
  rcases List.mem_cons.mp hm with e | hm
  · have less := (List.pairwise_cons.mp h).1 p hp
    rw [e, Bytes.before_irrefl] at less
    cases less
  · exact new p (List.mem_cons_of_mem _ hp) hm

theorem eq_of_get?_singleton {found : α} (h : KeyMap.get? [(key, value)] other = some found) :
    other = key := by
  by_contra ne
  rw [get?_cons, if_neg ne] at h
  cases h

theorem mem_insert {p : Key × α} (h : p ∈ m.insert key value) : p = (key, value) ∨ p ∈ m := by
  induction m with
  | nil => simpa [insert] using h
  | cons q rest ih =>
    obtain ⟨k, v⟩ := q
    by_cases same : key = k
    · rw [insert, if_pos same] at h
      exact (List.mem_cons.mp h).imp id (List.mem_cons_of_mem _)
    · by_cases first : Bytes.before key k = true
      · rw [insert, if_neg same, if_pos first] at h
        exact List.mem_cons.mp h
      · rw [insert, if_neg same, if_neg first] at h
        rcases List.mem_cons.mp h with e | h
        · exact .inr (e ▸ List.mem_cons_self)
        · exact (ih h).imp id (List.mem_cons_of_mem _)

theorem sorted_insert (h : m.Sorted) : (m.insert key value).Sorted := by
  induction m with
  | nil => exact List.pairwise_singleton _ _
  | cons q rest ih =>
    obtain ⟨k, v⟩ := q
    obtain ⟨least, tail⟩ := List.pairwise_cons.mp h
    by_cases same : key = k
    · subst same
      rw [insert, if_pos rfl]
      exact List.pairwise_cons.mpr ⟨least, tail⟩
    · by_cases first : Bytes.before key k = true
      · rw [insert, if_neg same, if_pos first]
        refine List.pairwise_cons.mpr ⟨fun p hp => ?_, h⟩
        rcases List.mem_cons.mp hp with rfl | hp
        · exact first
        · exact Bytes.before_trans first (least p hp)
      · rw [insert, if_neg same, if_neg first]
        refine List.pairwise_cons.mpr ⟨fun p hp => ?_, ih tail⟩
        rcases mem_insert hp with rfl | hp
        · exact Bytes.before_of_ne (Ne.symm same) (by simpa using first)
        · exact least p hp

theorem sorted_erase (h : m.Sorted) : (m.erase key).Sorted := List.Pairwise.filter _ h

theorem mem_of_get? (h : m.get? key = some value) : (key, value) ∈ m := by
  induction m with
  | nil => cases h
  | cons q rest ih =>
    obtain ⟨k, v⟩ := q
    rw [get?_cons] at h
    split at h
    · rename_i e
      cases h
      exact e ▸ List.mem_cons_self
    · exact List.mem_cons_of_mem _ (ih h)

theorem get?_eq_some_iff (sorted : m.Sorted) :
    m.get? key = some value ↔ (key, value) ∈ m := by
  refine ⟨mem_of_get?, fun h => ?_⟩
  induction m with
  | nil => cases h
  | cons q rest ih =>
    obtain ⟨k, v⟩ := q
    obtain ⟨least, tail⟩ := List.pairwise_cons.mp sorted
    rw [get?_cons]
    rcases List.mem_cons.mp h with e | h
    · cases e
      rw [if_pos rfl]
    · have apart := least _ h
      rw [if_neg, ih tail h]
      rintro rfl
      rw [Bytes.before_irrefl] at apart
      cases apart

theorem get?_eq_none_iff : m.get? key = none ↔ ∀ value, (key, value) ∉ m := by
  induction m with
  | nil => simp
  | cons q rest ih =>
    obtain ⟨k, v⟩ := q
    rw [get?_cons]
    by_cases e : key = k
    · subst e
      rw [if_pos rfl]
      exact ⟨nofun, fun none => absurd List.mem_cons_self (none v)⟩
    · simp [e, ih]

theorem mem_keys_iff : key ∈ m.keys ↔ m.get? key ≠ none := by
  rw [ne_eq, get?_eq_none_iff, keys, List.mem_map]
  push Not
  constructor
  · rintro ⟨⟨k, value⟩, hm, rfl⟩
    exact ⟨value, hm⟩
  · rintro ⟨value, hm⟩
    exact ⟨_, hm, rfl⟩

theorem ext_of_sorted (h : m.Sorted) (h' : m'.Sorted) (e : ∀ key, m.get? key = m'.get? key) :
    m = m' := by
  refine Bytes.eq_of_ordered Prod.fst h h' fun ⟨key, value⟩ => ?_
  rw [← get?_eq_some_iff h, ← get?_eq_some_iff h', e]

theorem insert_last (last : ∀ p ∈ m, Bytes.before p.1 key = true) :
    m.insert key value = m ++ [(key, value)] := by
  induction m with
  | nil => rfl
  | cons q rest ih =>
    obtain ⟨k, v⟩ := q
    have less := last _ List.mem_cons_self
    have ne : key ≠ k := by
      rintro rfl
      rw [Bytes.before_irrefl] at less
      cases less
    rw [insert, if_neg ne, if_neg (by simp [Bytes.before_asymm less]),
      ih fun p hp => last p (List.mem_cons_of_mem _ hp)]
    rfl

theorem foldl_insert_eq {pairs : KeyMap α} (h : Sorted (m ++ pairs)) :
    pairs.foldl (fun m p => m.insert p.1 p.2) m = m ++ pairs := by
  induction pairs generalizing m with
  | nil => simp
  | cons p pairs ih =>
    have last : ∀ q ∈ m, Bytes.before q.1 p.1 = true := fun q hq =>
      (List.pairwise_append.mp h).2.2 q hq p List.mem_cons_self
    rw [List.foldl_cons, insert_last last, ih]
    · simp
    · rw [List.append_assoc]
      exact h

theorem contains_iff : m.contains key = true ↔ ∃ value, m.get? key = some value := by
  rw [contains, Option.isSome_iff_exists]

theorem contains_eq_false_iff : m.contains key = false ↔ m.get? key = none := by
  rw [contains, Option.isSome_eq_false_iff, Option.isNone_iff_eq_none]

def mapValues {β : Type} (f : α → β) (m : KeyMap α) : KeyMap β := m.map fun p => (p.1, f p.2)

theorem get?_mapValues {β : Type} (f : α → β) (m : KeyMap α) (key : Key) :
    (m.mapValues f).get? key = (m.get? key).map f := by
  induction m with
  | nil => rfl
  | cons q rest ih =>
    obtain ⟨k, v⟩ := q
    rw [mapValues, List.map_cons, get?_cons, get?_cons]
    split
    · rfl
    · exact ih

theorem sorted_mapValues {β : Type} (f : α → β) (h : m.Sorted) : (m.mapValues f).Sorted :=
  List.pairwise_map.mpr h

/-- The list has the addresses with a property in byte order, each once. -/
structure Lists (keys : List Key) (wanted : Key → Prop) : Prop where
  inOrder : keys.Pairwise fun a b => Bytes.before a b = true
  mem_iff : ∀ key, key ∈ keys ↔ wanted key

theorem lists_filter_keys (h : m.Sorted) (keep : Key → Bool) :
    Lists (m.keys.filter keep) fun key => m.get? key ≠ none ∧ keep key = true := by
  have inOrder : m.keys.Pairwise fun a b => Bytes.before a b = true := List.pairwise_map.mpr h
  exact ⟨inOrder.filter keep, fun key => by rw [List.mem_filter, mem_keys_iff]⟩

theorem Lists.congr {keys : List Key} {wanted wanted' : Key → Prop} (h : Lists keys wanted)
    (same : ∀ key, wanted key ↔ wanted' key) : Lists keys wanted' :=
  ⟨h.inOrder, fun key => (h.mem_iff key).trans (same key)⟩

end KeyMap
end LayeredTree
