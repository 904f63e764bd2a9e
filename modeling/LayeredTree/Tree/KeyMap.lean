import LayeredTree.Tree.Key

set_option autoImplicit false

namespace LayeredTree

/-- Addresses with their values, in byte order. -/
abbrev KeyMap (α : Type) := List (Key × α)

namespace KeyMap

variable {α : Type}

def get? (m : KeyMap α) (key : Key) : Option α := m.lookup key

def contains (m : KeyMap α) (key : Key) : Bool := (m.get? key).isSome

def insert (m : KeyMap α) (key : Key) (value : α) : KeyMap α :=
  match m with
  | [] => [(key, value)]
  | (k, v) :: rest =>
    if key = k then (key, value) :: rest
    else if Bytes.before key k then (key, value) :: (k, v) :: rest
    else (k, v) :: insert rest key value

def erase (m : KeyMap α) (key : Key) : KeyMap α := m.filter fun p => p.1 != key

def ofList (pairs : List (Key × α)) : KeyMap α := pairs.foldl (fun m p => m.insert p.1 p.2) []

def keys (m : KeyMap α) : List Key := m.map Prod.fst

@[simp] theorem get?_nil (key : Key) : get? ([] : KeyMap α) key = none := rfl

theorem get?_cons (k : Key) (v : α) (m : KeyMap α) (key : Key) :
    get? ((k, v) :: m) key = if key = k then some v else m.get? key := by
  by_cases e : key = k
  · simp [get?, e]
  · have ne : (key == k) = false := by simpa using e
    simp [get?, List.lookup_cons, ne, e]

theorem get?_insert (m : KeyMap α) (key other : Key) (value : α) :
    (m.insert key value).get? other = if other = key then some value else m.get? other := by
  induction m with
  | nil => rw [insert, get?_cons]
  | cons p rest ih =>
    obtain ⟨k, v⟩ := p
    rw [insert]
    split
    · rename_i same
      subst same
      rw [get?_cons, get?_cons]
      by_cases h : other = key
      · rw [if_pos h, if_pos h]
      · rw [if_neg h, if_neg h, if_neg h]
    · rename_i ne
      split
      · rw [get?_cons]
      · rw [get?_cons, get?_cons, ih]
        by_cases h : other = k
        · have apart : other ≠ key := fun e => ne (e.symm.trans h)
          rw [if_pos h, if_pos h, if_neg apart]
        · rw [if_neg h, if_neg h]

theorem get?_erase (m : KeyMap α) (key other : Key) :
    (m.erase key).get? other = if other = key then none else m.get? other := by
  induction m with
  | nil => exact (ite_self none).symm
  | cons p rest ih =>
    obtain ⟨k, v⟩ := p
    rw [get?_cons]
    by_cases hk : k = key
    · have gone : erase ((k, v) :: rest) key = erase rest key := by simp [erase, hk]
      rw [gone, ih, hk]
      by_cases h : other = key
      · rw [if_pos h, if_pos h]
      · rw [if_neg h, if_neg h, if_neg h]
    · have kept : erase ((k, v) :: rest) key = (k, v) :: erase rest key := by simp [erase, hk]
      rw [kept, get?_cons, ih]
      by_cases h : other = k
      · have apart : other ≠ key := fun e => hk (h.symm.trans e)
        rw [if_pos h, if_pos h, if_neg apart]
      · rw [if_neg h, if_neg h]

end KeyMap
end LayeredTree
