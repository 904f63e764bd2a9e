import LayeredTree.Proofs.Tree.Walks
import LayeredTree.Proofs.Written.Texts

set_option autoImplicit false

namespace LayeredTree

namespace Text

/-- The piece is a character of one byte other than zero. -/
def Utf8Piece.IsOneByte : Utf8Piece → Prop
  | .char c => 0 < c.toNat ∧ c.toNat < 128
  | .broken _ => False

/-- A character that is begun is none of one byte. -/
def Utf8State.IsLong : Utf8State → Prop
  | .start => True
  | .inside missing low _ code _ => 2 ≤ code ∨ 2 ≤ missing ∧ 130 ≤ code * 64 + low.toNat

variable {s : Utf8State} {b : UInt8}

theorem lead_cases (plain : ∀ piece ∈ (Utf8State.lead b).1, piece.IsOneByte) :
    (Utf8State.lead b).2.IsLong ∧ (Utf8State.lead b).2 ≠ .start ∨
      Utf8State.lead b = ([.char (Char.ofNat b.toNat)], .start) := by
  unfold Utf8State.lead at plain ⊢
  split_ifs at plain ⊢ with ascii two e0 ed three f0 f4 four
  · exact .inr rfl
  · have above : 0xC2 ≤ b.toNat := two.1
    exact .inl ⟨.inl (by omega), nofun⟩
  · exact .inl ⟨.inr (by decide), nofun⟩
  · exact .inl ⟨.inl (by decide), nofun⟩
  · have above : 0xE1 ≤ b.toNat := three.1
    have low : (0x80 : UInt8).toNat = 128 := rfl
    exact .inl ⟨.inr ⟨le_refl 2, by omega⟩, nofun⟩
  · exact .inl ⟨.inr (by decide), nofun⟩
  · exact .inl ⟨.inl (by decide), nofun⟩
  · have above : 0xF1 ≤ b.toNat := four.1
    have low : (0x80 : UInt8).toNat = 128 := rfl
    exact .inl ⟨.inr ⟨by decide, by omega⟩, nofun⟩
  · exact absurd (plain _ List.mem_cons_self) id

theorem not_isOneByte_ofNat {n : Nat} (h : 128 ≤ n) : ¬ (Utf8Piece.char (Char.ofNat n)).IsOneByte := by
  rintro ⟨pos, less⟩
  by_cases valid : n.isValidChar
  · have code : (Char.ofNat n).toNat = n := by
      rw [Char.ofNat, dif_pos valid]
      rfl
    omega
  · rw [Char.ofNat, dif_neg valid] at pos
    exact absurd pos (by decide)

theorem next_cases (long : s.IsLong) (plain : ∀ piece ∈ (s.next b).1, piece.IsOneByte) :
    (s.next b).2.IsLong ∧ (s.next b).2 ≠ .start ∨
      s = .start ∧ s.next b = ([.char (Char.ofNat b.toNat)], .start) := by
  cases s with
  | start => exact (lead_cases plain).imp id fun e => ⟨rfl, e⟩
  | inside missing low high code seen =>
    unfold Utf8State.next at plain ⊢
    dsimp only at plain ⊢
    split_ifs at plain ⊢ with fits
    · have above : low.toNat ≤ b.toNat := fits.1
      rcases missing with _ | _ | missing
      · have more : 2 ≤ code := long.resolve_right fun h => absurd h.1 (by decide)
        exact absurd (plain _ List.mem_cons_self) (not_isOneByte_ofNat (by omega))
      · have more : 2 ≤ code := long.resolve_right fun h => absurd h.1 (by decide)
        exact absurd (plain _ List.mem_cons_self) (not_isOneByte_ofNat (by omega))
      · have more : 2 ≤ code * 64 + (b.toNat - 128) := by
          rcases long with more | ⟨-, more⟩ <;> omega
        exact .inl ⟨.inl more, nofun⟩
    · exact absurd (plain _ List.mem_cons_self) id

theorem utf8Pieces_of_isOneByte {bytes : Bytes} (long : s.IsLong)
    (plain : ∀ piece ∈ utf8Pieces s bytes, piece.IsOneByte) :
    s = .start ∧ utf8Pieces s bytes = bytes.map fun b => .char (Char.ofNat b.toNat) := by
  induction bytes generalizing s with
  | nil =>
    cases s with
    | start => exact ⟨rfl, rfl⟩
    | inside => exact absurd (plain _ List.mem_cons_self) id
  | cons b rest ih =>
    have whole : utf8Pieces s (b :: rest) = (s.next b).1 ++ utf8Pieces (s.next b).2 rest := rfl
    rw [whole] at plain ⊢
    have later := fun long => ih long fun piece hp => plain piece (List.mem_append_right _ hp)
    rcases next_cases long fun piece hp => plain piece (List.mem_append_left _ hp) with
      ⟨long, ne⟩ | ⟨rfl, e⟩
    · exact absurd (later long).1 ne
    · rw [e] at later ⊢
      rw [(later trivial).2]
      exact ⟨rfl, rfl⟩

theorem shown_eq_sidecarName_iff {bytes : Bytes} :
    shown bytes = ".patch" ↔ bytes = sidecarName := by
  refine ⟨fun e => ?_, fun e => ?_⟩
  · have chars := String.ofList_injective (e.trans (String.ofList_toList (s := ".patch")).symm)
    have plain : ∀ piece ∈ utf8Pieces .start bytes, piece.IsOneByte := by
      have all : (".patch".toList.all fun c => 0 < c.toNat ∧ c.toNat < 128) = true := by decide
      have each : ∀ c ∈ ".patch".toList, 0 < c.toNat ∧ c.toNat < 128 := by
        simpa only [List.all_eq_true, decide_eq_true_eq] using all
      rw [← chars, List.forall_mem_map] at each
      intro piece hp
      cases piece with
      | char c => exact each _ hp
      | broken => exact absurd (show (65533 : Nat) < 128 from (each _ hp).2) (by decide)
    have long : Utf8State.IsLong .start := trivial
    rw [(utf8Pieces_of_isOneByte long plain).2, List.map_map] at chars
    have codes := congrArg (List.map Char.toNat) chars
    rw [List.map_map] at codes
    have same : bytes.map UInt8.toNat = sidecarName.map UInt8.toNat := by
      refine (List.map_congr_left fun b _ => ?_).trans codes
      exact (toNat_ofNat_of_lt (b.toNat_lt.trans (by decide))).symm
    exact List.map_injective_iff.mpr (fun _ _ => UInt8.toNat_inj.mp) same
  · rw [e]
    decide

end Text

theorem WalkScope.excludes_content_iff {top : Name} {rest : Location} {node : Node} :
    WalkScope.excludes .content (top :: rest) node = true ↔
      top.bytes = sidecarName ∧ (rest ≠ [] ∨ node.isDirectory = true) := by
  have listed : WalkScope.content.excluded.contains (Text.shown top.bytes) = true ↔
      top.bytes = sidecarName := by
    rw [← Text.shown_eq_sidecarName_iff, List.contains_iff_mem]
    exact List.mem_singleton
  rw [excludes, Bool.and_eq_true, listed, Bool.or_eq_true, and_comm]
  simp

end LayeredTree
