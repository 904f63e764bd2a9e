import Mathlib.Tactic.Common
import LayeredTree.Path

set_option autoImplicit false

namespace LayeredTree

namespace Bytes

variable {sep : UInt8}

theorem splitOn_cons_self (rest : Bytes) : splitOn sep (sep :: rest) = [] :: splitOn sep rest := by
  simp [splitOn]

theorem splitOn_cons_of_ne {b : UInt8} (ne : b ≠ sep) (rest : Bytes) {piece : Bytes}
    {pieces : List Bytes} (h : splitOn sep rest = piece :: pieces) :
    splitOn sep (b :: rest) = (b :: piece) :: pieces := by
  simp [splitOn, ne, h]

theorem splitOn_of_notMem {b : Bytes} (h : sep ∉ b) : splitOn sep b = [b] := by
  induction b with
  | nil => rfl
  | cons a b ih =>
    simp only [List.mem_cons, not_or] at h
    exact splitOn_cons_of_ne (Ne.symm h.1) b (ih h.2)

theorem splitOn_append_cons (a b : Bytes) :
    splitOn sep (a ++ sep :: b) = splitOn sep a ++ splitOn sep b := by
  induction a with
  | nil => simp [splitOn]
  | cons c a ih =>
    by_cases e : c = sep
    · subst e
      rw [List.cons_append, splitOn_cons_self, splitOn_cons_self, ih, List.cons_append]
    · obtain ⟨piece, pieces, hs⟩ := List.exists_cons_of_ne_nil (splitOn_ne_nil sep a)
      rw [List.cons_append, splitOn_cons_of_ne e a hs]
      rw [hs, List.cons_append] at ih
      rw [splitOn_cons_of_ne e _ ih, List.cons_append]

theorem notMem_of_mem_splitOn {b piece : Bytes} (h : piece ∈ splitOn sep b) : sep ∉ piece := by
  induction b generalizing piece with
  | nil =>
    rw [splitOn, List.mem_singleton] at h
    simp [h]
  | cons c b ih =>
    by_cases e : c = sep
    · subst e
      rw [splitOn_cons_self] at h
      rcases List.mem_cons.mp h with rfl | h
      · simp
      · exact ih h
    · obtain ⟨first, pieces, hs⟩ := List.exists_cons_of_ne_nil (splitOn_ne_nil sep b)
      rw [splitOn_cons_of_ne e b hs] at h
      rcases List.mem_cons.mp h with rfl | h
      · have := ih (hs ▸ List.mem_cons_self : first ∈ splitOn sep b)
        simp [this, Ne.symm e]
      · exact ih (hs ▸ List.mem_cons_of_mem _ h)

theorem mem_of_mem_splitOn {b piece : Bytes} {c : UInt8} (h : piece ∈ splitOn sep b)
    (hc : c ∈ piece) : c ∈ b := by
  induction b generalizing piece with
  | nil =>
    rw [splitOn, List.mem_singleton] at h
    simp [h] at hc
  | cons a b ih =>
    by_cases e : a = sep
    · subst e
      rw [splitOn_cons_self] at h
      rcases List.mem_cons.mp h with rfl | h
      · simp at hc
      · exact List.mem_cons_of_mem _ (ih h hc)
    · obtain ⟨first, pieces, hs⟩ := List.exists_cons_of_ne_nil (splitOn_ne_nil sep b)
      rw [splitOn_cons_of_ne e b hs] at h
      rcases List.mem_cons.mp h with rfl | h
      · rcases List.mem_cons.mp hc with rfl | hc
        · exact List.mem_cons_self
        · exact List.mem_cons_of_mem _ (ih (hs ▸ List.mem_cons_self : first ∈ splitOn sep b) hc)
      · exact List.mem_cons_of_mem _ (ih (hs ▸ List.mem_cons_of_mem _ h) hc)

theorem joinWith_cons {piece : Bytes} {pieces : List Bytes} (ne : pieces ≠ []) :
    joinWith sep (piece :: pieces) = piece ++ sep :: joinWith sep pieces := by
  cases pieces with
  | nil => exact absurd rfl ne
  | cons p ps => rfl

theorem splitOn_joinWith {pieces : List Bytes} (ne : pieces ≠ [])
    (h : ∀ piece ∈ pieces, sep ∉ piece) : splitOn sep (joinWith sep pieces) = pieces := by
  induction pieces with
  | nil => exact absurd rfl ne
  | cons piece pieces ih =>
    have free := h piece List.mem_cons_self
    by_cases e : pieces = []
    · subst e
      exact splitOn_of_notMem free
    · rw [joinWith_cons e, splitOn_append_cons, splitOn_of_notMem free,
        ih e fun p hp => h p (List.mem_cons_of_mem _ hp), List.singleton_append]

theorem joinWith_append {a b : List Bytes} (ha : a ≠ []) (hb : b ≠ []) :
    joinWith sep (a ++ b) = joinWith sep a ++ sep :: joinWith sep b := by
  induction a with
  | nil => exact absurd rfl ha
  | cons piece a ih =>
    by_cases e : a = []
    · subst e
      exact joinWith_cons hb
    · rw [List.cons_append, joinWith_cons (by simp [e]), ih e, joinWith_cons e,
        List.append_assoc, List.cons_append]

theorem head?_splitOn (sep : UInt8) (b : Bytes) :
    (splitOn sep b).head? = some [] ↔ b = [] ∨ b.head? = some sep := by
  cases b with
  | nil => simp [splitOn]
  | cons a b =>
    by_cases e : a = sep
    · simp [splitOn, e]
    · obtain ⟨piece, pieces, hs⟩ := List.exists_cons_of_ne_nil (splitOn_ne_nil sep b)
      simp [splitOn_cons_of_ne e b hs, e]

theorem mem_joinWith {b sep : UInt8} {pieces : List Bytes} (other : b ≠ sep)
    (h : b ∈ joinWith sep pieces) : ∃ piece ∈ pieces, b ∈ piece := by
  induction pieces with
  | nil => simp [joinWith] at h
  | cons piece pieces ih =>
    by_cases e : pieces = []
    · subst e
      exact ⟨piece, by simp, h⟩
    · rw [joinWith_cons e, List.mem_append, List.mem_cons] at h
      rcases h with h | rfl | h
      · exact ⟨piece, by simp, h⟩
      · exact absurd rfl other
      · obtain ⟨found, hf, hb⟩ := ih h
        exact ⟨found, List.mem_cons_of_mem _ hf, hb⟩

end Bytes

end LayeredTree
