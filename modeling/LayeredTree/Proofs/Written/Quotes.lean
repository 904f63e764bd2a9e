import LayeredTree.Proofs.Reading.Texts

set_option autoImplicit false

namespace LayeredTree.Json

variable {c : Char} {b : UInt8} {bytes : Bytes}

theorem isPlainByte_of_mem (quote : c ≠ '"') (back : c ≠ '\\') (low : ¬ c.toNat < 32)
    (hb : b ∈ String.utf8EncodeChar c) : IsPlainByte b := by
  by_cases ascii : c.toNat < 128
  · rw [Text.utf8EncodeChar_of_ascii ascii, List.mem_singleton] at hb
    have value : b.toNat = c.toNat := by
      rw [hb, UInt8.toNat_ofNat']
      omega
    have other : ∀ d : Char, c ≠ d → b.toNat ≠ d.toNat := by
      intro d ne e
      exact ne (Char.toNat_inj.mp (value.symm.trans e))
    refine ⟨fun e => other '"' quote (by rw [e]; rfl), fun e => other '\\' back (by rw [e]; rfl), ?_⟩
    rw [UInt8.lt_iff_toNat_lt, value]
    exact low
  · have high := Text.le_of_mem_utf8EncodeChar (Nat.not_lt.mp ascii) hb
    refine ⟨fun e => ?_, fun e => ?_, ?_⟩
    · rw [e] at high
      exact absurd high (by decide)
    · rw [e] at high
      exact absurd high (by decide)
    · rw [UInt8.lt_iff_toNat_lt]
      have bound : (32 : UInt8).toNat = 32 := rfl
      omega

theorem pieces_plain (plain : ∀ b ∈ bytes, IsPlainByte b) : Pieces bytes bytes := by
  induction bytes with
  | nil => exact .nil
  | cons b bytes ih =>
    exact .cons (.plain (plain b List.mem_cons_self))
      (ih fun b hb => plain b (List.mem_cons_of_mem _ hb))

private theorem pieces_control (n : Fin 32) :
    Pieces (['\\', 'u', '0', '0', Nat.digitChar (n / 16), Nat.digitChar (n % 16)].flatMap
      String.utf8EncodeChar) (String.utf8EncodeChar (Char.ofNat n)) := by
  let digits (n : Fin 32) : Bytes := [48, 48, UInt8.ofNat (Nat.digitChar (n / 16)).toNat,
    UInt8.ofNat (Nat.digitChar (n % 16)).toNat]
  have form : ∀ n : Fin 32, ['\\', 'u', '0', '0', Nat.digitChar (n / 16),
      Nat.digitChar (n % 16)].flatMap String.utf8EncodeChar = 92 :: 117 :: digits n := by decide
  have value : ∀ n : Fin 32, hexRow? (digits n) = some n := by decide
  rw [form]
  exact (Piece.unit rfl (value n) (by omega)).pieces

theorem pieces_escapedChar (c : Char) :
    Pieces ((escapedChar c).flatMap String.utf8EncodeChar) (String.utf8EncodeChar c) := by
  unfold escapedChar
  -- The characters with an escape of one letter come first.
  iterate 7
    split
    · rename_i h
      subst h
      exact (Piece.short rfl).pieces
  split
  · rename_i low
    have control := pieces_control ⟨c.toNat, low⟩
    rwa [Char.ofNat_toNat] at control
  · rename_i quote back _ _ _ _ _ low
    rw [List.flatMap_singleton]
    exact pieces_plain fun b hb => isPlainByte_of_mem quote back low hb

theorem pieces_escaped (chars : List Char) :
    Pieces ((chars.flatMap escapedChar).flatMap String.utf8EncodeChar)
      (chars.flatMap String.utf8EncodeChar) := by
  induction chars with
  | nil => exact .nil
  | cons c chars ih =>
    rw [List.flatMap_cons, List.flatMap_append, List.flatMap_cons]
    exact (pieces_escapedChar c).append ih

def quoted (s : String) : Bytes := Bytes.ofString (textForm s)

theorem isText_quoted (s : String) : IsText (quoted s) s := by
  have quote : String.utf8EncodeChar '"' = [34] := by decide
  refine ⟨(s.toList.flatMap escapedChar).flatMap String.utf8EncodeChar, ?_, ?_⟩
  · rw [quoted, textForm, Bytes.ofString_ofList, List.flatMap_append, List.flatMap_cons,
      List.flatMap_singleton, quote]
    rfl
  · rw [Bytes.ofString_eq]
    exact pieces_escaped s.toList

end LayeredTree.Json
