import Mathlib.Data.List.Basic
import LayeredTree.Tree.Walk
import LayeredTree.Proofs.Paths

set_option autoImplicit false

namespace LayeredTree

theorem Key.mem_ancestors_iff {key other : Key} :
    other ∈ Key.ancestors key ↔ ∃ rest, key = other ++ slash :: rest := by
  induction key generalizing other with
  | nil => simp [Key.ancestors]
  | cons b key ih =>
    rw [Key.ancestors, List.mem_append, List.mem_map]
    constructor
    · rintro (h | ⟨up, h, rfl⟩)
      · split at h
        · rename_i e
          rw [List.mem_singleton] at h
          subst h e
          exact ⟨key, rfl⟩
        · cases h
      · obtain ⟨rest, rfl⟩ := ih.mp h
        exact ⟨rest, rfl⟩
    · rintro ⟨rest, e⟩
      cases other with
      | nil =>
        left
        obtain ⟨rfl, rfl⟩ := List.cons_eq_cons.mp e
        simp
      | cons c other =>
        right
        obtain ⟨rfl, tail⟩ := List.cons_eq_cons.mp e
        exact ⟨other, ih.mpr ⟨rest, tail⟩, rfl⟩

namespace Key

theorem checkSegments_eq_ok_iff (raw : String) (segments : List Bytes) :
    checkSegments raw segments = .ok () ↔
      ∀ s ∈ segments, Path.isIdle s = false ∧ s ≠ Path.dotDot := by
  induction segments with
  | nil => simp [checkSegments]
  | cons s rest ih =>
    rw [checkSegments, List.forall_mem_cons, ← ih]
    by_cases empty : s = []
    · simp [empty, Path.isIdle]
    · by_cases up : s = Path.dot ∨ s = Path.dotDot
      · rw [if_neg empty, if_pos up]
        refine ⟨by rintro ⟨⟩, fun h => ?_⟩
        rcases up with rfl | rfl
        · exact absurd h.1.1 (by decide)
        · exact absurd rfl h.1.2
      · rw [if_neg empty, if_neg up]
        rw [not_or] at up
        simp [Path.isIdle, empty, up]

theorem ofMarker_eq_ok_iff {raw : String} {key : Key} : ofMarker raw = .ok key ↔
    key = Bytes.ofString raw ∧ (92 : UInt8) ∉ key ∧ (0 : UInt8) ∉ key ∧
      ∀ s ∈ Bytes.splitOn slash key, Path.isIdle s = false ∧ s ≠ Path.dotDot := by
  unfold ofMarker
  dsimp only
  generalize Bytes.ofString raw = bytes
  by_cases empty : bytes = []
  · subst empty
    refine ⟨by rintro ⟨⟩, ?_⟩
    rintro ⟨rfl, -, -, h⟩
    exact absurd (h [] (by simp [Bytes.splitOn])).1 (by decide)
  by_cases illegal : (92 : UInt8) ∈ bytes ∨ (0 : UInt8) ∈ bytes
  · rw [if_neg empty, if_pos illegal]
    refine ⟨by rintro ⟨⟩, ?_⟩
    rintro ⟨rfl, back, zero, -⟩
    exact absurd illegal (by simp [back, zero])
  by_cases absolute : bytes.head? = some slash
  · rw [if_neg empty, if_neg illegal, if_pos absolute]
    refine ⟨by rintro ⟨⟩, ?_⟩
    rintro ⟨rfl, -, -, h⟩
    have first := (Bytes.head?_splitOn slash key).mpr (.inr absolute)
    exact absurd (h [] (List.mem_of_head? first)).1 (by decide)
  rw [if_neg empty, if_neg illegal, if_neg absolute]
  rw [not_or] at illegal
  cases hs : checkSegments raw (Bytes.splitOn slash bytes) with
  | error fault =>
    refine ⟨by rintro ⟨⟩, ?_⟩
    rintro ⟨rfl, -, -, h⟩
    rw [(checkSegments_eq_ok_iff raw _).mpr h] at hs
    cases hs
  | ok =>
    have plain := (checkSegments_eq_ok_iff raw _).mp hs
    constructor
    · intro h
      cases h
      exact ⟨rfl, illegal.1, illegal.2, plain⟩
    · rintro ⟨rfl, -⟩
      rfl

end Key

namespace Location

variable {loc loc' init rest : Location} {root : Path} {name : Name} {other : Key}

/-- The address of the names that lead to a location. -/
def key (loc : Location) : Key := Key.ofNames (loc.map Name.bytes)

theorem splitOn_key (ne : loc ≠ []) : Bytes.splitOn slash loc.key = loc.map Name.bytes := by
  refine Bytes.splitOn_joinWith (by simpa using ne) fun piece hp => ?_
  obtain ⟨name, -, rfl⟩ := List.mem_map.mp hp
  exact name.slash_notMem

@[simp] theorem key_nil : key [] = [] := rfl

theorem key_ne_nil (ne : loc ≠ []) : loc.key ≠ [] := by
  intro e
  have pieces := splitOn_key ne
  rw [e] at pieces
  obtain ⟨name, rest, rfl⟩ := List.exists_cons_of_ne_nil ne
  have first := (List.cons_eq_cons.mp pieces).1
  exact name.bytes_ne_nil first.symm

theorem key_injective (h : loc.key = loc'.key) : loc = loc' := by
  by_cases ne : loc = []
  · subst ne
    by_contra ne'
    exact key_ne_nil (Ne.symm ne') h.symm
  · by_cases ne' : loc' = []
    · subst ne'
      exact absurd h (key_ne_nil ne)
    · have pieces := congrArg (Bytes.splitOn slash) h
      rw [splitOn_key ne, splitOn_key ne'] at pieces
      exact List.map_injective_iff.mpr (fun _ _ => Name.bytes_injective) pieces

theorem key_append (ne : init ≠ []) (ne' : rest ≠ []) :
    (init ++ rest).key = init.key ++ slash :: rest.key := by
  rw [key, Key.ofNames, List.map_append]
  exact Bytes.joinWith_append (by simpa using ne) (by simpa using ne')

theorem mem_ancestors_key_iff : other ∈ Key.ancestors loc.key ↔
    ∃ init rest : Location, init ≠ [] ∧ rest ≠ [] ∧ loc = init ++ rest ∧ other = init.key := by
  rw [Key.mem_ancestors_iff]
  constructor
  · rintro ⟨tail, e⟩
    by_cases ne : loc = []
    · subst ne
      simp at e
    · have pieces := splitOn_key ne
      rw [e, Bytes.splitOn_append_cons] at pieces
      obtain ⟨init, rest, rfl, hi, hr⟩ := List.map_eq_append_iff.mp pieces.symm
      refine ⟨init, rest, ?_, ?_, rfl, ?_⟩
      · rintro rfl
        exact Bytes.splitOn_ne_nil slash other hi.symm
      · rintro rfl
        exact Bytes.splitOn_ne_nil slash tail hr.symm
      · rw [key, Key.ofNames, hi, Bytes.joinWith_splitOn]
  · rintro ⟨init, rest, ne, ne', rfl, rfl⟩
    exact ⟨rest.key, key_append ne ne'⟩

theorem length_path_append (ne : loc ≠ []) (ne' : rest ≠ []) :
    (Location.path (loc ++ rest)).text.length =
      (Location.path loc).text.length + 1 + rest.key.length := by
  have whole : (Location.path (loc ++ rest)).text = slash :: (loc ++ rest).key :=
    text_path_of_ne (by simp [ne])
  have front : (Location.path loc).text = slash :: loc.key := text_path_of_ne ne
  rw [whole, front, key_append ne ne']
  simp only [List.length_cons, List.length_append]
  omega

theorem path_key (ne : loc ≠ []) : Key.path root loc.key = Disk.pathBelow root loc := by
  rw [Key.path, splitOn_key ne, Disk.pathBelow, List.foldl_map]

end Location

namespace Disk

@[simp] theorem pathBelow_nil (root : Path) : pathBelow root [] = root := rfl

@[simp] theorem pathBelow_concat (root : Path) (names : Location) (name : Name) :
    pathBelow root (names ++ [name]) = (pathBelow root names).child name.bytes := by
  rw [pathBelow, List.foldl_append]
  rfl

theorem pathBelow_path (loc names : Location) :
    pathBelow (Location.path loc) names = Location.path (loc ++ names) := by
  induction names using List.reverseRecOn with
  | nil => rw [pathBelow_nil, List.append_nil]
  | append_singleton names name ih =>
    rw [pathBelow_concat, ih, Location.child_path, List.append_assoc]

end Disk
end LayeredTree
