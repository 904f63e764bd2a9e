import LayeredTree.Patch.Record
import Mathlib.Data.List.Basic
import Mathlib.Tactic.Common

set_option autoImplicit false

namespace LayeredTree

section Reading

variable {σ ε α β : Type} {x : StateT σ (Except ε) α} {s s' : σ} {a : α} {b : β}

theorem bind_of_read {f : α → StateT σ (Except ε) β} (h : x s = .ok (a, s')) :
    (x >>= f) s = f a s' := by
  change (x s >>= fun p => f p.1 p.2) = _
  rw [h]
  rfl

theorem map_of_read {f : α → β} (h : x s = .ok (a, s')) : (f <$> x) s = .ok (f a, s') := by
  change (x s >>= fun p => Except.ok (f p.1, p.2)) = _
  rw [h]
  rfl

theorem read_bind_iff {f : α → StateT σ (Except ε) β} :
    (x >>= f) s = .ok (b, s') ↔ ∃ a t, x s = .ok (a, t) ∧ f a t = .ok (b, s') := by
  change (x s >>= fun p => f p.1 p.2) = _ ↔ _
  cases x s with
  | error e => exact ⟨nofun, nofun⟩
  | ok p =>
    obtain ⟨a, t⟩ := p
    constructor
    · exact fun h => ⟨a, t, rfl, h⟩
    · rintro ⟨_, _, ⟨⟩, h⟩
      exact h

theorem read_map_iff {f : α → β} :
    (f <$> x) s = .ok (b, s') ↔ ∃ a, x s = .ok (a, s') ∧ b = f a := by
  change (x s >>= fun p => Except.ok (f p.1, p.2)) = _ ↔ _
  cases x s with
  | error e => exact ⟨nofun, nofun⟩
  | ok p =>
    obtain ⟨a, t⟩ := p
    constructor
    · intro h
      cases h
      exact ⟨a, rfl, rfl⟩
    · rintro ⟨_, ⟨⟩, rfl⟩
      rfl

end Reading

namespace Bytes

theorem ofString_ofList (l : List Char) :
    ofString (String.ofList l) = l.flatMap String.utf8EncodeChar := by
  have bytes : (String.ofList l).toUTF8 = l.utf8Encode := String.toByteArray_ofList
  rw [ofString, bytes, List.utf8Encode, List.toList_data_toByteArray]

theorem ofString_eq (s : String) : ofString s = s.toList.flatMap String.utf8EncodeChar := by
  rw [← ofString_ofList, String.ofList_toList]

theorem ofString_append (s t : String) : ofString (s ++ t) = ofString s ++ ofString t := by
  rw [ofString_eq, ofString_eq, ofString_eq, String.toList_append, List.flatMap_append]

theorem toString?_ofString (s : String) : toString? (ofString s) = some s := by
  have whole : (⟨(ofString s).toArray⟩ : ByteArray) = s.toByteArray := by
    rw [ofString, Array.toArray_toList]
    rfl
  rw [toString?, whole, String.fromUTF8?, dif_pos s.isValidUTF8]
  rfl

theorem ofString_of_toString? {b : Bytes} {s : String} (h : toString? b = some s) :
    ofString s = b := by
  unfold toString? String.fromUTF8? at h
  split at h
  · cases h
    exact List.toList_toArray
  · cases h

end Bytes

namespace Text

variable {c : Char} {b : UInt8}

theorem toNat_ofNat_of_lt {n : Nat} (h : n < 0xd800) : (Char.ofNat n).toNat = n := by
  have valid : n.isValidChar := .inl h
  rw [Char.ofNat, dif_pos valid]
  rfl

theorem utf8EncodeChar_of_ascii (h : c.toNat < 128) :
    String.utf8EncodeChar c = [UInt8.ofNat c.toNat] :=
  if_pos (Nat.le_of_lt_succ h)

theorem le_of_mem_utf8EncodeChar (h : 128 ≤ c.toNat) (hb : b ∈ String.utf8EncodeChar c) :
    128 ≤ b.toNat := by
  have wide : ¬ c.val.toNat ≤ 0x7f := Nat.not_le.mpr h
  unfold String.utf8EncodeChar at hb
  dsimp only at hb
  rw [if_neg wide] at hb
  have big : ∀ low n bound : Nat, 128 ≤ low → low + bound ≤ 256 → n % bound < bound →
      128 ≤ (UInt8.ofNat (n % bound + low)).toNat := by
    intro low n bound le top less
    rw [UInt8.toNat_ofNat']
    omega
  have cont : ∀ n : Nat, 128 ≤ (UInt8.ofNat (n % 0x40 + 0x80)).toNat := fun n =>
    big 0x80 n 0x40 (by omega) (by omega) (Nat.mod_lt _ (by omega))
  split at hb
  · rcases List.mem_cons.mp hb with rfl | hb
    · exact big 0xc0 _ 0x20 (by omega) (by omega) (Nat.mod_lt _ (by omega))
    · rw [List.mem_singleton.mp hb]
      exact cont _
  · split at hb
    · rcases List.mem_cons.mp hb with rfl | hb
      · exact big 0xe0 _ 0x10 (by omega) (by omega) (Nat.mod_lt _ (by omega))
      · simp only [List.mem_cons, List.not_mem_nil, or_false] at hb
        rcases hb with rfl | rfl
        · exact cont _
        · exact cont _
    · rcases List.mem_cons.mp hb with rfl | hb
      · exact big 0xf0 _ 0x08 (by omega) (by omega) (Nat.mod_lt _ (by omega))
      · simp only [List.mem_cons, List.not_mem_nil, or_false] at hb
        rcases hb with rfl | rfl | rfl
        · exact cont _
        · exact cont _
        · exact cont _

end Text

namespace Hex

variable {b : UInt8}

theorem value?_digit (h : b < 16) : value? (digit b) = some b := by
  have all : ∀ n : Fin 16, value? (digit (UInt8.ofNat n)) = some (UInt8.ofNat n) := by decide
  have small : b.toNat < 16 := h
  have this := all ⟨b.toNat, small⟩
  rwa [UInt8.ofNat_toNat] at this

theorem digit_halves (b : UInt8) : b / 16 * 16 + b % 16 = b := by
  apply UInt8.toNat_inj.mp
  have size := b.toNat_lt
  rw [UInt8.toNat_add, UInt8.toNat_mul, UInt8.toNat_div, UInt8.toNat_mod]
  have sixteen : (16 : UInt8).toNat = 16 := rfl
  rw [sixteen]
  omega

theorem decodePairs_encode (bytes : Bytes) (position : Nat) :
    decodePairs position (encode bytes) = .ok bytes := by
  induction bytes generalizing position with
  | nil => rfl
  | cons b rest ih =>
    have size := b.toNat_lt
    have sixteen : (16 : UInt8).toNat = 16 := rfl
    have high : b / 16 < 16 := by
      rw [UInt8.lt_iff_toNat_lt, UInt8.toNat_div, sixteen]
      omega
    have low : b % 16 < 16 := by
      rw [UInt8.lt_iff_toNat_lt, UInt8.toNat_mod, sixteen]
      omega
    rw [encode, decodePairs, value?_digit high, value?_digit low]
    dsimp only
    rw [ih, digit_halves]
    rfl

theorem length_encode (bytes : Bytes) : (encode bytes).length = 2 * bytes.length := by
  induction bytes with
  | nil => rfl
  | cons b rest ih =>
    rw [encode, List.length_cons, List.length_cons, List.length_cons, ih]
    omega

theorem decode_encode (bytes : Bytes) : decode (encode bytes) = .ok bytes := by
  rw [decode, length_encode, if_neg (by omega)]
  exact decodePairs_encode bytes 0

theorem mem_encode {bytes : Bytes} {d : UInt8} (h : d ∈ encode bytes) :
    48 ≤ d.toNat ∧ d.toNat ≤ 102 := by
  have all : ∀ n : Fin 16, 48 ≤ (digit (UInt8.ofNat n)).toNat ∧
      (digit (UInt8.ofNat n)).toNat ≤ 102 := by decide
  have half : ∀ b : UInt8, b.toNat < 16 → 48 ≤ (digit b).toNat ∧ (digit b).toNat ≤ 102 := by
    intro b small
    have this := all ⟨b.toNat, small⟩
    rwa [UInt8.ofNat_toNat] at this
  induction bytes with
  | nil => cases h
  | cons b rest ih =>
    have size := b.toNat_lt
    have sixteen : (16 : UInt8).toNat = 16 := rfl
    rw [encode, List.mem_cons, List.mem_cons] at h
    rcases h with rfl | rfl | h
    · apply half
      rw [UInt8.toNat_div, sixteen]
      omega
    · apply half
      rw [UInt8.toNat_mod, sixteen]
      omega
    · exact ih h

end Hex

theorem Text.trim_of_none {l : List Char} (h : ∀ c ∈ l, isBlank c = false) : trim l = l := by
  have front : ∀ m : List Char, (∀ c ∈ m, isBlank c = false) → m.dropWhile isBlank = m := by
    intro m hm
    cases m with
    | nil => rfl
    | cons c rest => exact List.dropWhile_cons_of_neg (by simp [hm c List.mem_cons_self])
  rw [trim, front l h, front l.reverse fun c hc => h c (List.mem_reverse.mp hc),
    List.reverse_reverse]

namespace Hex

theorem toNat_ofNat_of_mem {bytes : Bytes} {d : UInt8} (h : d ∈ encode bytes) :
    (Char.ofNat d.toNat).toNat = d.toNat := by
  obtain ⟨-, top⟩ := mem_encode h
  exact Text.toNat_ofNat_of_lt (by omega)

theorem trimmedBytes_text (bytes : Bytes) : trimmedBytes (text bytes) = encode bytes := by
  have plain : ∀ c ∈ (encode bytes).map (fun d => Char.ofNat d.toNat), Text.isBlank c = false := by
    intro c hc
    obtain ⟨d, hd, rfl⟩ := List.mem_map.mp hc
    obtain ⟨low, top⟩ := mem_encode hd
    have value := toNat_ofNat_of_mem hd
    unfold Text.isBlank
    rw [value]
    simp only [Bool.or_eq_false_iff, Bool.and_eq_false_iff, decide_eq_false_iff_not, beq_eq_false_iff_ne]
    omega
  rw [trimmedBytes, text, String.toList_ofList, Text.trim_of_none plain, Bytes.ofString_ofList,
    List.flatMap_map]
  have each : ∀ d ∈ encode bytes, String.utf8EncodeChar (Char.ofNat d.toNat) = [d] := by
    intro d hd
    obtain ⟨-, top⟩ := mem_encode hd
    have value := toNat_ofNat_of_mem hd
    rw [Text.utf8EncodeChar_of_ascii (by omega), value, UInt8.ofNat_toNat]
  rw [List.flatMap_congr each, List.flatMap_singleton']

end Hex

theorem Signature.parse_text (s : Signature) : parse s.text = .ok s := by
  rw [parse, text, Hex.trimmedBytes_text, Hex.decode_encode]
  exact dif_pos s.length_eq

theorem Digest.parse_text (d : Digest) : parse d.text = .ok d := by
  rw [parse, text, Hex.trimmedBytes_text, Hex.decode_encode]
  exact dif_pos d.length_eq

end LayeredTree
