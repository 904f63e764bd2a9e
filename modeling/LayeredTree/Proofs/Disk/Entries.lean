import Mathlib.Data.List.Induction
import Mathlib.Tactic.Common
import LayeredTree.Disk.Basic

set_option autoImplicit false

namespace LayeredTree

namespace Name

@[simp] theorem ofBytes?_bytes (name : Name) : Name.ofBytes? name.bytes = some name := by
  simp [ofBytes?, name.isName]

theorem eq_of_ofBytes? {b : Bytes} {name : Name} (h : Name.ofBytes? b = some name) :
    b = name.bytes := by
  unfold ofBytes? at h
  split at h
  · cases h
    rfl
  · cases h

theorem bytes_injective {m n : Name} (h : m.bytes = n.bytes) : m = n := by
  cases m
  cases n
  simp_all

variable (name : Name)

@[simp] theorem isIdle_bytes : Path.isIdle name.bytes = false := name.isName.1

@[simp] theorem bytes_ne_dotDot : name.bytes ≠ Path.dotDot := name.isName.2.1

@[simp] theorem bytes_ne_nil : name.bytes ≠ [] := fun h => by
  have := name.isIdle_bytes
  simp [h, Path.isIdle] at this

@[simp] theorem bytes_ne_dot : name.bytes ≠ Path.dot := fun h => by
  have := name.isIdle_bytes
  simp [h, Path.isIdle] at this

theorem slash_notMem : slash ∉ name.bytes := name.isName.2.2.1

theorem zero_notMem : (0 : UInt8) ∉ name.bytes := name.isName.2.2.2.1

end Name

theorem Location.child_prefix_child_iff {dir : Location} {a b : Name} :
    dir ++ [a] <+: dir ++ [b] ↔ a = b := by
  constructor
  · intro le
    have last := List.append_cancel_left (le.eq_of_length (by simp))
    exact (List.cons_eq_cons.mp last).1
  · rintro rfl
    exact List.prefix_rfl

namespace Disk

variable {d : Disk} {loc other : Location} {node : Node}

def Within (d d' : Disk) : Prop :=
  d'.here = d.here ∧ ∀ loc node, d.get? loc = some node → d'.get? loc = some node

theorem Within.refl (d : Disk) : d.Within d := ⟨rfl, fun _ _ h => h⟩

theorem Within.trans {d₁ d₂ d₃ : Disk} (h : d₁.Within d₂) (h' : d₂.Within d₃) : d₁.Within d₃ :=
  ⟨h'.1.trans h.1, fun loc node e => h'.2 loc node (h.2 loc node e)⟩

theorem Within.isDirectory {d' : Disk} (h : d.Within d') (dir : d.IsDirectory loc) :
    d'.IsDirectory loc := h.2 _ _ dir

theorem isDirectory_nil (d : Disk) : d.IsDirectory [] := d.get?_nil

theorem isDirectory_dropLast_of_get? (ne : loc ≠ []) (h : d.get? loc = some node) :
    d.IsDirectory loc.dropLast :=
  d.isDirectory_dropLast ((d.get?_eq_some_iff ne node).mp h)

theorem isDirectory_dropLast_of_isDirectory (h : d.IsDirectory loc) :
    d.IsDirectory loc.dropLast := by
  by_cases ne : loc = []
  · rw [ne]
    exact d.isDirectory_nil
  · exact isDirectory_dropLast_of_get? ne h

theorem isDirectory_of_child {name : Name} (h : d.get? (loc ++ [name]) = some node) :
    d.IsDirectory loc := by
  have up := isDirectory_dropLast_of_get? (by simp) h
  rwa [List.dropLast_concat] at up

theorem isDirectory_of_append {rest : Location} (ne : rest ≠ [])
    (h : d.get? (loc ++ rest) = some node) : d.IsDirectory loc := by
  induction rest using List.reverseRecOn generalizing node with
  | nil => exact absurd rfl ne
  | append_singleton rest name ih =>
    rw [← List.append_assoc] at h
    have up := isDirectory_of_child h
    by_cases e : rest = []
    · simpa [e] using up
    · exact ih e up

theorem get?_append_of_not_isDirectory {rest : Location} (ne : rest ≠ [])
    (h : ¬ d.IsDirectory loc) : d.get? (loc ++ rest) = none := by
  cases e : d.get? (loc ++ rest) with
  | none => rfl
  | some node => exact absurd (isDirectory_of_append ne e) h

theorem get?_append_of_none {rest : Location} (h : d.get? loc = none) :
    d.get? (loc ++ rest) = none := by
  by_cases e : rest = []
  · simpa [e] using h
  · apply get?_append_of_not_isDirectory e
    simp [IsDirectory, h]

/-- Both disks have the same entries. -/
structure Same (d d' : Disk) : Prop where
  here : d'.here = d.here
  get? : ∀ loc, d'.get? loc = d.get? loc

theorem Same.refl (d : Disk) : d.Same d := ⟨rfl, fun _ => rfl⟩

/-- The second disk lacks what the first has at a place and below it, and nothing else. -/
structure Pruned (d : Disk) (loc : Location) (d' : Disk) : Prop where
  here : d'.here = d.here
  get? : ∀ other, d'.get? other = if loc <+: other then none else d.get? other

theorem Pruned.within {d' : Disk} (h : d.Pruned loc d') : d'.Within d := by
  refine ⟨h.here.symm, fun other node found => ?_⟩
  rw [h.get?] at found
  split at found
  · cases found
  · exact found

/-- The first disk has nothing at a place, and off that place the second one is the same. -/
structure NewAt (d : Disk) (loc : Location) (d' : Disk) : Prop where
  here : d'.here = d.here
  free : d.get? loc = none
  get? : ∀ other, ¬ loc <+: other → d'.get? other = d.get? other

theorem NewAt.within {d' : Disk} (h : d.NewAt loc d') : d.Within d' := by
  refine ⟨h.here, fun other node found => ?_⟩
  rw [h.get? other]
  · exact found
  · rintro ⟨rest, rfl⟩
    rw [get?_append_of_none h.free] at found
    cases found

theorem NewAt.pruned {d' d'' : Disk} (h : d.NewAt loc d') (pruned : d'.Pruned loc d'') :
    d.Same d'' := by
  refine ⟨pruned.here.trans h.here, fun other => ?_⟩
  rw [pruned.get?]
  split
  · rename_i below
    obtain ⟨rest, rfl⟩ := below
    exact (get?_append_of_none h.free).symm
  · rename_i away
    exact h.get? other away

@[simp] theorem here_plant (loc : Location) (node : Node) : (d.plant loc node).here = d.here := by
  unfold plant
  split <;> rfl

@[simp] theorem here_refill (loc : Location) (content : Bytes) :
    (d.refill loc content).here = d.here := rfl

@[simp] theorem here_uproot (loc : Location) : (d.uproot loc).here = d.here := rfl

@[simp] theorem here_clear (loc : Location) : (d.clear loc).here = d.here := rfl

@[simp] theorem here_graft (source target : Location) :
    (d.graft source target).here = d.here := by
  unfold graft
  split <;> rfl

theorem get?_plant (ne : loc ≠ []) (free : d.get? loc = none) (dir : d.IsDirectory loc.dropLast)
    (node : Node) (other : Location) :
    (d.plant loc node).get? other = if other = loc then some node else d.get? other := by
  by_cases one : other = []
  · subst one
    rw [get?_nil, get?_nil, if_neg (Ne.symm ne)]
  apply Option.ext
  intro n
  rw [get?_eq_some_iff _ one]
  simp only [plant, ne, free, dir, ne_eq, not_false_eq_true, and_self, dite_true, List.mem_append,
    List.mem_singleton, Prod.mk.injEq]
  rw [← get?_eq_some_iff d one]
  by_cases e : other = loc
  · subst e
    simp [free, eq_comm]
  · simp [e]

theorem get?_plant_self (ne : loc ≠ []) (free : d.get? loc = none)
    (dir : d.IsDirectory loc.dropLast) (node : Node) :
    (d.plant loc node).get? loc = some node := by
  rw [get?_plant ne free dir, if_pos rfl]

theorem within_plant (loc : Location) (node : Node) : d.Within (d.plant loc node) := by
  refine ⟨here_plant loc node, fun other n h => ?_⟩
  by_cases ok : loc ≠ [] ∧ d.get? loc = none ∧ d.IsDirectory loc.dropLast
  · rw [get?_plant ok.1 ok.2.1 ok.2.2, if_neg]
    · exact h
    · rintro rfl
      rw [ok.2.1] at h
      cases h
  · rwa [plant, dif_neg ok]

private theorem mem_refill {content : Bytes} : (other, node) ∈ (d.refill loc content).nodes ↔
    ∃ m, (other, m) ∈ d.nodes ∧
      node = if other = loc ∧ m.isFile = true then .file content else m := by
  simp only [refill, List.mem_map, Prod.exists, refilled]
  constructor
  · rintro ⟨k, m, hm, he⟩
    split at he
    · rename_i hk
      obtain ⟨rfl, rfl⟩ := Prod.mk.inj he
      exact ⟨m, hm, (if_pos hk).symm⟩
    · rename_i hk
      obtain ⟨rfl, rfl⟩ := Prod.mk.inj he
      exact ⟨m, hm, (if_neg hk).symm⟩
  · rintro ⟨m, hm, rfl⟩
    refine ⟨other, m, hm, ?_⟩
    split <;> rfl

theorem get?_refill (loc : Location) (content : Bytes) (other : Location) :
    (d.refill loc content).get? other =
      if other = loc ∧ (d.get? loc).any Node.isFile then some (.file content)
      else d.get? other := by
  by_cases one : other = []
  · subst one
    rw [get?_nil, get?_nil, if_neg]
    rintro ⟨rfl, h⟩
    rw [get?_nil] at h
    cases h
  apply Option.ext
  intro n
  rw [get?_eq_some_iff _ one, mem_refill]
  simp only [← get?_eq_some_iff d one]
  by_cases e : other = loc
  · subst e
    cases d.get? other with
    | none => simp
    | some m =>
      by_cases f : m.isFile = true
      · simp [f, @eq_comm _ n]
      · simp [f, @eq_comm _ n]
  · simp [e]

theorem get?_uproot (ne : loc ≠ []) (other : Location) :
    (d.uproot loc).get? other = if loc <+: other then none else d.get? other := by
  by_cases one : other = []
  · subst one
    rw [get?_nil, get?_nil, if_neg]
    simpa using ne
  apply Option.ext
  intro n
  rw [get?_eq_some_iff _ one]
  simp only [uproot, List.mem_filter, Bool.not_eq_eq_eq_not, Bool.not_true, Bool.eq_false_iff,
    ne_eq, List.isPrefixOf_iff_prefix]
  rw [← get?_eq_some_iff d one]
  by_cases h : loc <+: other <;> simp [h]

theorem get?_uproot_of_not_isDirectory (ne : loc ≠ []) (plain : ¬ d.IsDirectory loc)
    (other : Location) :
    (d.uproot loc).get? other = if other = loc then none else d.get? other := by
  rw [get?_uproot ne]
  by_cases below : loc <+: other
  · obtain ⟨rest, rfl⟩ := below
    rw [if_pos (List.prefix_append _ _)]
    split
    · rfl
    · rename_i more
      rw [get?_append_of_not_isDirectory (by simpa using more) plain]
  · have off : other ≠ loc := by
      rintro rfl
      exact below List.prefix_rfl
    rw [if_neg below, if_neg off]

theorem get?_clear (loc other : Location) :
    (d.clear loc).get? other = if loc <+: other ∧ other ≠ loc then none else d.get? other := by
  by_cases one : other = []
  · subst one
    rw [get?_nil, get?_nil, if_neg]
    rintro ⟨h, ne⟩
    exact ne (List.prefix_nil.mp h).symm
  apply Option.ext
  intro n
  rw [get?_eq_some_iff _ one]
  simp only [clear, List.mem_filter, Bool.or_eq_true, Bool.not_eq_eq_eq_not, Bool.not_true,
    Bool.eq_false_iff, ne_eq, List.isPrefixOf_iff_prefix, beq_iff_eq]
  rw [← get?_eq_some_iff d one]
  by_cases h : loc <+: other <;> by_cases e : other = loc <;> simp [h, e]

theorem get?_graft {source target : Location} (sne : source ≠ []) (tne : target ≠ [])
    (apart : ¬ source <+: target) (free : d.get? target = none)
    (up : d.IsDirectory target.dropLast) (other : Location) :
    (d.graft source target).get? other =
      if target <+: other then d.get? (source ++ other.drop target.length)
      else if source <+: other then none else d.get? other := by
  by_cases one : other = []
  · subst one
    rw [get?_nil, get?_nil, if_neg (by simpa using tne), if_neg (by simpa using sne)]
  have off : source.isPrefixOf target = false := by
    rw [Bool.eq_false_iff, ne_eq, List.isPrefixOf_iff_prefix]
    exact apart
  have mem : ∀ n, (other, n) ∈ (d.graft source target).nodes ↔
      ((other, n) ∈ d.nodes ∧ ¬ source <+: other) ∨
        ∃ rest, other = target ++ rest ∧ (source ++ rest, n) ∈ d.nodes := by
    intro n
    simp only [graft, sne, tne, off, free, up, ne_eq, not_false_eq_true, and_self, dite_true,
      List.mem_append, List.mem_filter, List.mem_map, Bool.not_eq_eq_eq_not, Bool.not_true,
      Bool.eq_false_iff, List.isPrefixOf_iff_prefix]
    refine or_congr Iff.rfl ⟨?_, ?_⟩
    · rintro ⟨⟨k, m⟩, ⟨hm, le⟩, e⟩
      obtain ⟨rest, rfl⟩ := le
      rw [carried, List.drop_left, Prod.mk.injEq] at e
      obtain ⟨rfl, rfl⟩ := e
      exact ⟨rest, rfl, hm⟩
    · rintro ⟨rest, rfl, hm⟩
      exact ⟨(source ++ rest, n), ⟨hm, List.prefix_append _ _⟩, by rw [carried, List.drop_left]⟩
  apply Option.ext
  intro n
  rw [get?_eq_some_iff _ one, mem]
  by_cases below : target <+: other
  · obtain ⟨rest, rfl⟩ := below
    have gone : ¬ (target ++ rest, n) ∈ d.nodes := by
      rw [← get?_eq_some_iff d one, get?_append_of_none free]
      rintro ⟨⟩
    rw [if_pos (List.prefix_append _ _), List.drop_left, get?_eq_some_iff _ (by simp [sne])]
    constructor
    · rintro (⟨hm, -⟩ | ⟨rest', e, hm⟩)
      · exact absurd hm gone
      · rwa [List.append_cancel_left e]
    · intro hm
      exact .inr ⟨rest, rfl, hm⟩
  · rw [if_neg below]
    have none : ¬ ∃ rest, other = target ++ rest ∧ (source ++ rest, n) ∈ d.nodes := by
      rintro ⟨rest, rfl, -⟩
      exact below (List.prefix_append _ _)
    rw [← get?_eq_some_iff d one]
    by_cases le : source <+: other
    · simp [le, none]
    · simp [le, none]

theorem uproot_within (loc : Location) : (d.uproot loc).Within d := by
  refine ⟨rfl, fun other n h => ?_⟩
  by_cases one : other = []
  · subst one
    rwa [get?_nil] at h ⊢
  · rw [get?_eq_some_iff _ one] at h ⊢
    exact (List.mem_filter.mp h).1

theorem clear_within (loc : Location) : (d.clear loc).Within d := by
  refine ⟨rfl, fun other n h => ?_⟩
  rw [get?_clear] at h
  split at h
  · cases h
  · exact h

theorem mem_below (names : Location) (node : Node) :
    (names, node) ∈ d.below loc ↔ names ≠ [] ∧ d.get? (loc ++ names) = some node := by
  unfold below
  rw [List.mem_filterMap]
  constructor
  · rintro ⟨⟨k, n⟩, hk, h⟩
    simp only [List.isPrefixOf_iff_prefix] at h
    split at h
    · rename_i hp
      obtain ⟨rest, rfl⟩ := hp.1
      simp only [List.drop_left, Option.some.injEq, Prod.mk.injEq] at h
      obtain ⟨rfl, rfl⟩ := h
      have ne : rest ≠ [] := by
        rintro rfl
        simp at hp
      exact ⟨ne, (d.get?_eq_some_iff (by simp [ne]) n).mpr hk⟩
    · cases h
  · rintro ⟨ne, h⟩
    refine ⟨(loc ++ names, node), (d.get?_eq_some_iff (by simp [ne]) node).mp h, ?_⟩
    simp [List.isPrefixOf_iff_prefix, ne]

theorem below_isEmpty_iff : (d.below loc).isEmpty = true ↔
    ∀ names ≠ [], d.get? (loc ++ names) = none := by
  rw [List.isEmpty_iff, List.eq_nil_iff_forall_not_mem]
  constructor
  · intro h names ne
    cases e : d.get? (loc ++ names) with
    | none => rfl
    | some node => exact absurd ((mem_below names node).mpr ⟨ne, e⟩) (h _)
  · rintro h ⟨names, node⟩ hm
    obtain ⟨ne, e⟩ := (mem_below names node).mp hm
    rw [h names ne] at e
    cases e

theorem nodup_below (loc : Location) : ((d.below loc).map Prod.fst).Nodup := by
  unfold below
  rw [List.map_filterMap]
  have key := d.distinct
  rw [List.Nodup, List.pairwise_map] at key
  rw [List.Nodup, List.pairwise_filterMap]
  refine key.imp fun {p q} ne a ha b hb => ?_
  obtain ⟨k, n⟩ := p
  obtain ⟨k', n'⟩ := q
  simp only [List.isPrefixOf_iff_prefix, Option.map_eq_some_iff] at ha hb
  obtain ⟨⟨a, m⟩, ha, rfl⟩ := ha
  obtain ⟨⟨b, m'⟩, hb, rfl⟩ := hb
  split at ha
  · split at hb
    · rename_i hp hq
      obtain ⟨r, rfl⟩ := hp.1
      obtain ⟨r', rfl⟩ := hq.1
      simp only [List.drop_left, Option.some.injEq, Prod.mk.injEq] at ha hb
      rintro rfl
      exact ne (by rw [ha.1, hb.1])
    · cases hb
  · cases ha

theorem mem_children (name : Name) (node : Node) :
    (name, node) ∈ d.children loc ↔ d.get? (loc ++ [name]) = some node := by
  unfold children
  rw [List.mem_filterMap]
  constructor
  · rintro ⟨⟨k, n⟩, hk, h⟩
    dsimp only at h
    split at h
    · rename_i e
      obtain ⟨last, hl, he⟩ := Option.map_eq_some_iff.mp h
      obtain ⟨rfl, rfl⟩ := Prod.mk.inj he
      obtain ⟨init, rfl⟩ := List.getLast?_eq_some_iff.mp hl
      rw [List.dropLast_concat] at e
      subst e
      exact (d.get?_eq_some_iff (by simp) n).mpr hk
    · cases h
  · intro h
    exact ⟨(loc ++ [name], node), (d.get?_eq_some_iff (by simp) node).mp h, by simp⟩

end Disk
end LayeredTree
