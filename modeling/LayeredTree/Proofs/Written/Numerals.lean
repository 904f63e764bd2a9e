import LayeredTree.Proofs.Reading.Numbers

set_option autoImplicit false

namespace LayeredTree.Json

variable {n : Nat}

def numeral (n : Nat) : Bytes := Bytes.ofString (toString n)

theorem numeral_eq (n : Nat) : numeral n =
    (Nat.toDigits 10 n).flatMap String.utf8EncodeChar := Bytes.ofString_ofList _

theorem utf8EncodeChar_digitChar (h : n < 10) :
    String.utf8EncodeChar n.digitChar = [UInt8.ofNat (48 + n)] := by
  have all : ∀ d : Fin 10, String.utf8EncodeChar (Nat.digitChar d) = [UInt8.ofNat (48 + d)] := by
    decide
  exact all ⟨n, h⟩

theorem numeral_of_lt (h : n < 10) : numeral n = [UInt8.ofNat (48 + n)] := by
  rw [numeral_eq, Nat.toDigits_of_lt_base h, List.flatMap_singleton, utf8EncodeChar_digitChar h]

theorem numeral_of_le (h : 10 ≤ n) :
    numeral n = numeral (n / 10) ++ [UInt8.ofNat (48 + n % 10)] := by
  rw [numeral_eq, numeral_eq, Nat.toDigits_of_base_le (by decide) h, List.flatMap_append,
    List.flatMap_singleton, utf8EncodeChar_digitChar (Nat.mod_lt _ (by decide))]

theorem toNat_digit (h : n < 10) : (UInt8.ofNat (48 + n)).toNat = 48 + n := by
  rw [UInt8.toNat_ofNat']
  omega

theorem isDigit_digit (h : n < 10) : isDigit (UInt8.ofNat (48 + n)) = true := by
  have all : ∀ d : Fin 10, isDigit (UInt8.ofNat (48 + d)) = true := by decide
  exact all ⟨n, h⟩

theorem isDigit_of_mem_numeral (n : Nat) : ∀ b ∈ numeral n, isDigit b = true := by
  induction n using Nat.strongRecOn with
  | _ n ih =>
    by_cases small : n < 10
    · rw [numeral_of_lt small]
      intro b hb
      rw [List.mem_singleton.mp hb]
      exact isDigit_digit small
    · rw [numeral_of_le (Nat.not_lt.mp small)]
      intro b hb
      rcases List.mem_append.mp hb with hb | hb
      · exact ih (n / 10) (by omega) b hb
      · rw [List.mem_singleton.mp hb]
        exact isDigit_digit (Nat.mod_lt _ (by decide))

theorem exists_numeral_eq (pos : 0 < n) : ∃ b more, numeral n = b :: more ∧ b ≠ 48 := by
  induction n using Nat.strongRecOn with
  | _ n ih =>
    by_cases small : n < 10
    · refine ⟨_, [], numeral_of_lt small, fun zero => ?_⟩
      have value := toNat_digit small
      rw [zero, show (48 : UInt8).toNat = 48 from rfl] at value
      omega
    · obtain ⟨b, more, e, ne⟩ := ih (n / 10) (by omega) (by omega)
      exact ⟨b, _, by rw [numeral_of_le (Nat.not_lt.mp small), e, List.cons_append], ne⟩

theorem isWhole_numeral (n : Nat) : IsWhole (numeral n) := by
  rcases Nat.eq_zero_or_pos n with rfl | pos
  · have zero : numeral 0 = [48] := numeral_of_lt (by decide)
    rw [zero]
    exact ⟨⟨by simp, by simp; rfl⟩, fun _ => rfl⟩
  · obtain ⟨b, more, e, ne⟩ := exists_numeral_eq pos
    have digits := isDigit_of_mem_numeral n
    rw [e] at digits ⊢
    exact ⟨⟨List.cons_ne_nil _ _, digits⟩, fun zero => absurd (Option.some.inj zero) ne⟩

theorem digitsValue_numeral (n : Nat) : digitsValue (numeral n) = n := by
  induction n using Nat.strongRecOn with
  | _ n ih =>
    by_cases small : n < 10
    · rw [numeral_of_lt small]
      change 0 * 10 + ((UInt8.ofNat (48 + n)).toNat - 48) = n
      rw [toNat_digit small]
      omega
    · rw [numeral_of_le (Nat.not_lt.mp small), digitsValue_concat, ih (n / 10) (by omega),
        toNat_digit (Nat.mod_lt n (by decide))]
      omega

end LayeredTree.Json
