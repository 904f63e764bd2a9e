import LayeredTree.Proofs.Reading.Fields
import LayeredTree.Proofs.Written.Moments

set_option autoImplicit false

namespace LayeredTree

namespace Text

variable {s core : List Char}

/-- What stands between the blanks at the two ends of a text. -/
structure IsCore (s core : List Char) : Prop where
  around : ∃ front back : List Char, s = front ++ core ++ back ∧
    (∀ c ∈ front, isBlank c = true) ∧ ∀ c ∈ back, isBlank c = true
  first : ∀ c ∈ core.head?, isBlank c = false
  last : ∀ c ∈ core.getLast?, isBlank c = false

private theorem dropWhile_blanks {front rest : List Char} (blanks : ∀ c ∈ front, isBlank c = true)
    (first : ∀ c ∈ rest.head?, isBlank c = false) : (front ++ rest).dropWhile isBlank = rest := by
  rw [List.dropWhile_append_of_pos blanks]
  cases rest with
  | nil => rfl
  | cons c rest => exact List.dropWhile_cons_of_neg (by simp [first c rfl])

private theorem exists_blanks (s : List Char) : ∃ front, s = front ++ s.dropWhile isBlank ∧
    ∀ c ∈ front, isBlank c = true :=
  ⟨s.takeWhile isBlank, List.takeWhile_append_dropWhile.symm, fun _ => List.mem_takeWhile_imp⟩

private theorem head?_dropWhile (s : List Char) :
    ∀ c ∈ (s.dropWhile isBlank).head?, isBlank c = false := by
  intro c hc
  have kept := List.head?_dropWhile_not isBlank s
  rw [Option.mem_def.mp hc] at kept
  simpa using kept

theorem IsCore.eq_trim (h : IsCore s core) : core = trim s := by
  obtain ⟨front, back, rfl, before, behind⟩ := h.around
  by_cases none : core = []
  · subst none
    have all : ∀ c ∈ front ++ [] ++ back, isBlank c = true := by
      intro c hc
      rw [List.append_nil, List.mem_append] at hc
      exact hc.elim (before c) (behind c)
    rw [trim, List.dropWhile_eq_nil_iff.mpr all]
    rfl
  · have start : ∀ c ∈ (core ++ back).head?, isBlank c = false := by
      rw [List.head?_append_of_ne_nil _ none]
      exact h.first
    have stop : ∀ c ∈ core.reverse.head?, isBlank c = false := by
      rw [List.head?_reverse]
      exact h.last
    rw [trim, List.append_assoc, dropWhile_blanks before start, List.reverse_append,
      dropWhile_blanks (fun c hc => behind c (List.mem_reverse.mp hc)) stop, List.reverse_reverse]

theorem isCore_trim (s : List Char) : IsCore s (trim s) := by
  obtain ⟨front, split, before⟩ := exists_blanks s
  obtain ⟨back, split', behind⟩ := exists_blanks (s.dropWhile isBlank).reverse
  have whole : s.dropWhile isBlank = trim s ++ back.reverse := by
    have turned := congrArg List.reverse split'
    rwa [List.reverse_reverse, List.reverse_append] at turned
  refine ⟨⟨front, back.reverse, ?_, before, fun c hc => behind c (List.mem_reverse.mp hc)⟩, ?_, ?_⟩
  · rw [List.append_assoc, ← whole]
    exact split
  · by_cases none : trim s = []
    · simp [none]
    · have kept := head?_dropWhile s
      rwa [whole, List.head?_append_of_ne_nil _ none] at kept
  · rw [trim, List.getLast?_reverse]
    exact head?_dropWhile _

theorem isCore_iff : IsCore s core ↔ core = trim s :=
  ⟨IsCore.eq_trim, fun h => h ▸ isCore_trim s⟩

end Text

namespace Hex

variable {b n : UInt8} {c : Char} {l : List Char} {t bytes : Bytes} {i : Nat}

def IsDigit (c : Char) : Prop :=
  ('0' ≤ c ∧ c ≤ '9') ∨ ('a' ≤ c ∧ c ≤ 'f') ∨ ('A' ≤ c ∧ c ≤ 'F')

instance : DecidablePred IsDigit := fun _ => inferInstanceAs (Decidable (_ ∨ _))

def bytesOf (l : List Char) : Bytes := l.flatMap String.utf8EncodeChar

theorem trimmedBytes_eq (s : String) : trimmedBytes s = bytesOf (Text.trim s.toList) := by
  rw [trimmedBytes, Bytes.ofString_ofList]
  rfl

private theorem isSome_value?_iff_of_lt (n : Fin 128) :
    (value? (UInt8.ofNat n)).isSome = true ↔ IsDigit (Char.ofNat n) := by
  revert n
  decide

theorem IsDigit.ascii (h : IsDigit c) : c.toNat < 128 := by
  have top : ∀ d : Char, d.toNat < 128 → c ≤ d → c.toNat < 128 := fun _ small le =>
    Nat.lt_of_le_of_lt le small
  rcases h with h | h | h
  · exact top '9' (by decide) h.2
  · exact top 'f' (by decide) h.2
  · exact top 'F' (by decide) h.2

theorem isSome_value?_iff (small : c.toNat < 128) :
    (value? (UInt8.ofNat c.toNat)).isSome = true ↔ IsDigit c := by
  rw [isSome_value?_iff_of_lt ⟨c.toNat, small⟩, Char.ofNat_toNat]

theorem value?_of_le (high : 128 ≤ b.toNat) : value? b = none := by
  have beyond : ∀ d : UInt8, d.toNat < 128 → ¬ b ≤ d := by
    intro d small le
    have := UInt8.le_iff_toNat_le.mp le
    omega
  unfold value?
  rw [if_neg fun h => beyond 57 (by decide) h.2, if_neg fun h => beyond 102 (by decide) h.2,
    if_neg fun h => beyond 70 (by decide) h.2]

theorem forall_bytesOf_iff :
    (∀ b ∈ bytesOf l, (value? b).isSome = true) ↔ ∀ c ∈ l, IsDigit c := by
  unfold bytesOf
  constructor
  · intro h c hc
    have each : ∀ b ∈ String.utf8EncodeChar c, (value? b).isSome = true :=
      fun b hb => h b (List.mem_flatMap.mpr ⟨c, hc, hb⟩)
    by_cases small : c.toNat < 128
    · rw [Text.utf8EncodeChar_of_ascii small] at each
      exact (isSome_value?_iff small).mp (each _ (List.mem_singleton_self _))
    · obtain ⟨b, hb⟩ := List.exists_mem_of_ne_nil _ (String.utf8EncodeChar_ne_nil (c := c))
      have none := value?_of_le (Text.le_of_mem_utf8EncodeChar (Nat.not_lt.mp small) hb)
      have some := each b hb
      rw [none] at some
      cases some
  · intro h b hb
    obtain ⟨c, hc, hb⟩ := List.mem_flatMap.mp hb
    have small := (h c hc).ascii
    rw [Text.utf8EncodeChar_of_ascii small, List.mem_singleton] at hb
    rw [hb]
    exact (isSome_value?_iff small).mpr (h c hc)

theorem bytesOf_of_digits (h : ∀ c ∈ l, IsDigit c) :
    bytesOf l = l.map fun c => UInt8.ofNat c.toNat := by
  unfold bytesOf
  rw [List.flatMap_congr fun c hc => Text.utf8EncodeChar_of_ascii (h c hc).ascii]
  exact List.flatMap_pure_eq_map _ _

private theorem small_of_value? (m : Fin 256) : ∀ n ∈ value? (UInt8.ofNat m),
    n < 16 ∧ Char.ofNat (digit n).toNat = (Char.ofNat m).toLower := by
  revert m
  decide +kernel

theorem digit_of_value? (h : value? b = some n) :
    n < 16 ∧ Char.ofNat (digit n).toNat = (Char.ofNat b.toNat).toLower := by
  have same : UInt8.ofNat b.toNat = b := UInt8.ofNat_toNat
  exact small_of_value? ⟨b.toNat, b.toNat_lt⟩ n (by rw [same]; exact h)

private theorem halves {high low : UInt8} (h : high < 16) (l : low < 16) :
    (high * 16 + low) / 16 = high ∧ (high * 16 + low) % 16 = low := by
  have sixteen : (16 : UInt8).toNat = 16 := rfl
  rw [UInt8.lt_iff_toNat_lt, sixteen] at h l
  constructor
  · apply UInt8.toNat_inj.mp
    rw [UInt8.toNat_div, UInt8.toNat_add, UInt8.toNat_mul, sixteen]
    omega
  · apply UInt8.toNat_inj.mp
    rw [UInt8.toNat_mod, UInt8.toNat_add, UInt8.toNat_mul, sixteen]
    omega

theorem Spells.length_eq (h : Spells t bytes) : t.length = 2 * bytes.length := by
  induction h with
  | nil => rfl
  | cons _ _ _ ih =>
    rw [List.length_cons, List.length_cons, List.length_cons, ih]
    omega

theorem Spells.isSome (h : Spells t bytes) : ∀ b ∈ t, (value? b).isSome = true := by
  induction h with
  | nil => simp
  | cons upper lower _ ih => simpa [upper, lower] using ih

theorem exists_spells (t : Bytes) (even : t.length % 2 = 0)
    (digits : ∀ b ∈ t, (value? b).isSome = true) : ∃ bytes, Spells t bytes := by
  match t, even, digits with
  | [], _, _ => exact ⟨[], .nil⟩
  | [_], even, _ => cases even
  | high :: low :: rest, even, digits =>
    obtain ⟨h, upper⟩ := Option.isSome_iff_exists.mp (digits high (by simp))
    obtain ⟨l, lower⟩ := Option.isSome_iff_exists.mp (digits low (by simp))
    rw [List.length_cons, List.length_cons] at even
    obtain ⟨bytes, tail⟩ := exists_spells rest (by omega) fun b hb => digits b (by simp [hb])
    exact ⟨_, .cons upper lower tail⟩

theorem Spells.encode (h : Spells t bytes) : (encode bytes).map (fun d => Char.ofNat d.toNat) =
    t.map fun b => (Char.ofNat b.toNat).toLower := by
  induction h with
  | nil => rfl
  | cons upper lower _ ih =>
    obtain ⟨h, high⟩ := digit_of_value? upper
    obtain ⟨l, low⟩ := digit_of_value? lower
    obtain ⟨quotient, rest⟩ := halves h l
    rw [Hex.encode, quotient, rest, List.map_cons, List.map_cons, high, low, ih]
    rfl

/-- The digits end before a byte that is none. -/
structure StopsAt (t : Bytes) (b : UInt8) (i : Nat) : Prop where
  split : ∃ digits rest : Bytes, t = digits ++ b :: rest ∧ digits.length = i ∧
    ∀ d ∈ digits, (value? d).isSome = true
  stray : value? b = none

theorem StopsAt.cons {d : UInt8} (some : (value? d).isSome = true) (h : StopsAt t b i) :
    StopsAt (d :: t) b (i + 1) := by
  obtain ⟨digits, rest, rfl, rfl, all⟩ := h.split
  exact ⟨⟨d :: digits, rest, rfl, rfl, List.forall_mem_cons.mpr ⟨some, all⟩⟩, h.stray⟩

theorem StopsAt.head {d : UInt8} (none : value? d = none) : StopsAt (d :: t) d 0 :=
  ⟨⟨[], t, rfl, rfl, by simp⟩, none⟩

theorem StopsAt.unique {b' : UInt8} {i' : Nat} (h : StopsAt t b i) (h' : StopsAt t b' i') :
    b = b' ∧ i = i' := by
  obtain ⟨⟨digits, rest, rfl, rfl, all⟩, stray⟩ := h
  obtain ⟨⟨digits', rest', e, rfl, all'⟩, stray'⟩ := h'
  induction digits generalizing digits' with
  | nil =>
    cases digits' with
    | nil => exact ⟨(List.cons_eq_cons.mp e).1, rfl⟩
    | cons d digits' =>
      obtain ⟨rfl, -⟩ := List.cons_eq_cons.mp e
      simpa [stray] using all' b (by simp)
  | cons d digits ih =>
    cases digits' with
    | nil =>
      obtain ⟨rfl, -⟩ := List.cons_eq_cons.mp e
      simpa [stray'] using all d (by simp)
    | cons d' digits' =>
      rw [List.forall_mem_cons] at all all'
      obtain ⟨byte, place⟩ := ih all.2 digits' (List.cons_eq_cons.mp e).2 all'.2
      exact ⟨byte, congrArg (· + 1) place⟩

theorem decodePairs_error (t : Bytes) {position : Nat} {fault : Fault}
    (h : decodePairs position t = .error fault) :
    ∃ b i, fault = .badDigit b (position + i) ∧ StopsAt t b i := by
  match t, h with
  | high :: low :: rest, h =>
    rw [decodePairs] at h
    cases upper : value? high with
    | none =>
      rw [upper] at h
      cases h
      exact ⟨high, 0, rfl, .head upper⟩
    | some n =>
      cases lower : value? low with
      | none =>
        rw [upper, lower] at h
        cases h
        exact ⟨low, 1, rfl, (StopsAt.head lower).cons (by rw [upper]; rfl)⟩
      | some m =>
        rw [upper, lower] at h
        dsimp only at h
        cases tail : decodePairs (position + 2) rest with
        | ok bytes =>
          rw [tail] at h
          cases h
        | error fault' =>
          rw [tail] at h
          cases h
          obtain ⟨b, i, rfl, stops⟩ := decodePairs_error rest tail
          refine ⟨b, i + 2, by rw [Nat.add_assoc, Nat.add_comm 2], ?_⟩
          exact (stops.cons (by rw [lower]; rfl)).cons (by rw [upper]; rfl)

/-- A text is read from two digits for each byte; an odd length is refused first, and otherwise the
first byte that is no digit. -/
theorem decode_cases (t : Bytes) :
    (t.length % 2 = 1 ∧ decode t = .error .oddLength) ∨
      (t.length % 2 = 0 ∧ ∃ b i, StopsAt t b i ∧ decode t = .error (.badDigit b i)) ∨
      ∃ bytes, Spells t bytes ∧ decode t = .ok bytes := by
  cases h : decode t with
  | ok bytes => exact .inr (.inr ⟨bytes, decode_eq_ok_iff.mp h, rfl⟩)
  | error fault =>
    unfold decode at h
    split at h
    · rename_i odd
      cases h
      exact .inl ⟨odd, rfl⟩
    · obtain ⟨b, i, rfl, stops⟩ := decodePairs_error t h
      refine .inr (.inl ⟨by omega, b, i, stops, ?_⟩)
      rw [Nat.zero_add]

theorem decode_eq_oddLength_iff : decode t = .error .oddLength ↔ t.length % 2 = 1 := by
  obtain ⟨odd, run⟩ | ⟨even, b, i, -, run⟩ | ⟨bytes, spells, run⟩ := decode_cases t
  · simp [run, odd]
  · simp [run, even]
  · simp [run, spells.even]

theorem decode_eq_badDigit_iff :
    decode t = .error (.badDigit b i) ↔ t.length % 2 = 0 ∧ StopsAt t b i := by
  obtain ⟨odd, run⟩ | ⟨even, b', i', stops, run⟩ | ⟨bytes, spells, run⟩ := decode_cases t
  · simp [run, odd]
  · rw [run]
    constructor
    · intro h
      cases h
      exact ⟨even, stops⟩
    · rintro ⟨-, stops'⟩
      obtain ⟨rfl, rfl⟩ := stops.unique stops'
      rfl
  · rw [run]
    refine ⟨nofun, fun h => ?_⟩
    obtain ⟨⟨digits, rest, rfl, -, -⟩, stray⟩ := h.2
    simpa [stray] using spells.isSome b (by simp)

theorem exists_spells_iff {width : Nat} :
    (∃ bytes, Spells (bytesOf l) bytes ∧ bytes.length = width) ↔
    l.length = 2 * width ∧ ∀ c ∈ l, IsDigit c := by
  constructor
  · rintro ⟨bytes, spells, rfl⟩
    have digits := forall_bytesOf_iff.mp spells.isSome
    have size := spells.length_eq
    rw [bytesOf_of_digits digits, List.length_map] at size
    exact ⟨size, digits⟩
  · rintro ⟨size, digits⟩
    have length : (bytesOf l).length = 2 * width := by
      rw [bytesOf_of_digits digits, List.length_map, size]
    obtain ⟨bytes, spells⟩ := exists_spells (bytesOf l) (by omega) (forall_bytesOf_iff.mpr digits)
    have same := spells.length_eq
    exact ⟨bytes, spells, by omega⟩

theorem not_spells_iff : (¬ ∃ bytes, Spells (bytesOf l) bytes) ↔
    l.length % 2 = 1 ∨ ∃ c ∈ l, ¬ IsDigit c := by
  constructor
  · intro none
    by_contra other
    rw [not_or, not_exists] at other
    have digits : ∀ c ∈ l, IsDigit c := by
      intro c hc
      by_contra stray
      exact other.2 c ⟨hc, stray⟩
    obtain ⟨bytes, spells, -⟩ := exists_spells_iff.mpr
      (⟨by omega, digits⟩ : l.length = 2 * (l.length / 2) ∧ ∀ c ∈ l, IsDigit c)
    exact none ⟨bytes, spells⟩
  · rintro broken ⟨bytes, spells⟩
    obtain ⟨size, digits⟩ := exists_spells_iff.mp ⟨bytes, spells, rfl⟩
    rcases broken with odd | ⟨c, hc, stray⟩
    · omega
    · exact stray (digits c hc)

theorem exists_fault_iff : (∃ fault, decode t = .error fault) ↔ ¬ ∃ bytes, Spells t bytes := by
  simp only [← decode_eq_ok_iff]
  cases decode t with
  | ok bytes => simp
  | error fault => simp

theorem toList_text_of_spells (digits : ∀ c ∈ l, IsDigit c) (h : Spells (bytesOf l) bytes) :
    (text bytes).toList = l.map Char.toLower := by
  rw [text, String.toList_ofList, h.encode, bytesOf_of_digits digits, List.map_map]
  apply List.map_congr_left
  intro c hc
  have small := (digits c hc).ascii
  have byte : (UInt8.ofNat c.toNat).toNat = c.toNat := by
    rw [UInt8.toNat_ofNat']
    omega
  rw [Function.comp_apply, byte, Char.ofNat_toNat]

section Codec

variable {ε α : Type} {width : Nat} {raw : α → Bytes} {ofBytes : Bytes → Except ε α}
  {parse : String → Except ε α} {write : α → String} {notHex : Fault → ε} {wrongWidth : Nat → ε}
  {message : ε → String}

/-- Values that are byte strings of one width, read and written in hexadecimal. -/
structure Wraps (width : Nat) (raw : α → Bytes) (ofBytes : Bytes → Except ε α)
    (parse : String → Except ε α) (write : α → String) (notHex : Fault → ε)
    (wrongWidth : Nat → ε) : Prop where
  length_raw : ∀ x, (raw x).length = width
  exists_raw : ∀ bytes : Bytes, bytes.length = width → ∃ x, raw x = bytes
  ofBytes_raw : ∀ x, ofBytes (raw x) = .ok x
  ofBytes_misfit : ∀ bytes : Bytes, bytes.length ≠ width →
    ofBytes bytes = .error (wrongWidth bytes.length)
  parse_of_bytes : ∀ (s : String) (bytes : Bytes), decode (trimmedBytes s) = .ok bytes →
    parse s = ofBytes bytes
  parse_of_fault : ∀ (s : String) (fault : Fault), decode (trimmedBytes s) = .error fault →
    parse s = .error (notHex fault)
  write_eq : ∀ x, write x = text (raw x)
  notHex_injective : ∀ fault fault', notHex fault = notHex fault' → fault = fault'
  wrongWidth_injective : ∀ n m, wrongWidth n = wrongWidth m → n = m
  apart : ∀ fault n, notHex fault ≠ wrongWidth n

theorem Wraps.parse_cases (h : Wraps width raw ofBytes parse write notHex wrongWidth) (s : String) :
    (∃ fault, decode (trimmedBytes s) = .error fault ∧ parse s = .error (notHex fault)) ∨
      (∃ x, decode (trimmedBytes s) = .ok (raw x) ∧ parse s = .ok x) ∨
      ∃ bytes, decode (trimmedBytes s) = .ok bytes ∧ bytes.length ≠ width ∧
        parse s = .error (wrongWidth bytes.length) := by
  cases run : decode (trimmedBytes s) with
  | error fault => exact .inl ⟨fault, rfl, h.parse_of_fault s fault run⟩
  | ok bytes =>
    have next := h.parse_of_bytes s bytes run
    by_cases fits : bytes.length = width
    · obtain ⟨x, rfl⟩ := h.exists_raw bytes fits
      exact .inr (.inl ⟨x, rfl, next.trans (h.ofBytes_raw x)⟩)
    · exact .inr (.inr ⟨bytes, rfl, fits, next.trans (h.ofBytes_misfit bytes fits)⟩)

theorem Wraps.ok_iff (h : Wraps width raw ofBytes parse write notHex wrongWidth) {s : String}
    {x : α} : parse s = .ok x ↔ decode (trimmedBytes s) = .ok (raw x) := by
  obtain ⟨fault, run, result⟩ | ⟨y, run, result⟩ | ⟨bytes, run, misfit, result⟩ := h.parse_cases s
  · simp [run, result]
  · rw [run, result, Except.ok.injEq, Except.ok.injEq]
    constructor
    · intro e
      rw [e]
    · intro e
      have same := h.ofBytes_raw y
      rw [e, h.ofBytes_raw x] at same
      exact (Except.ok.inj same).symm
  · rw [run, result, Except.ok.injEq]
    refine ⟨nofun, fun e => ?_⟩
    rw [e] at misfit
    exact absurd (h.length_raw x) misfit

theorem Wraps.notHex_iff (h : Wraps width raw ofBytes parse write notHex wrongWidth) {s : String}
    {fault : Fault} :
    parse s = .error (notHex fault) ↔ decode (trimmedBytes s) = .error fault := by
  obtain ⟨fault', run, result⟩ | ⟨y, run, result⟩ | ⟨bytes, run, misfit, result⟩ := h.parse_cases s
  · rw [run, result, Except.error.injEq, Except.error.injEq]
    exact ⟨h.notHex_injective fault' fault, fun e => by rw [e]⟩
  · simp [run, result]
  · rw [run, result, Except.error.injEq]
    exact ⟨fun e => absurd e.symm (h.apart fault _), nofun⟩

theorem Wraps.width_iff (h : Wraps width raw ofBytes parse write notHex wrongWidth) {s : String}
    {n : Nat} : parse s = .error (wrongWidth n) ↔
      (∃ bytes, decode (trimmedBytes s) = .ok bytes ∧ bytes.length = n) ∧ n ≠ width := by
  obtain ⟨fault, run, result⟩ | ⟨y, run, result⟩ | ⟨bytes, run, misfit, result⟩ := h.parse_cases s
  · rw [run, result, Except.error.injEq]
    refine ⟨fun e => absurd e (h.apart fault n), ?_⟩
    rintro ⟨⟨_, ⟨⟩, -⟩, -⟩
  · rw [run, result]
    refine ⟨nofun, ?_⟩
    rintro ⟨⟨_, ⟨⟩, rfl⟩, ne⟩
    exact absurd (h.length_raw y) ne
  · rw [run, result, Except.error.injEq]
    constructor
    · intro e
      have same := h.wrongWidth_injective _ _ e
      exact ⟨⟨bytes, rfl, same⟩, same ▸ misfit⟩
    · rintro ⟨⟨_, ⟨⟩, rfl⟩, -⟩
      rfl

/-- What is read of a text and how it is shown, by the core of the text: which cores are read, the
form in which their values are shown, and for every other core the fault that is told. -/
structure Codec (width : Nat) (parse : String → Except ε α) (write : α → String)
    (notHex : Fault → ε) (wrongWidth : Nat → ε) (message : ε → String) : Prop where
  accepts : ∀ s : String, (∃ x, parse s = .ok x) ↔
    ∃ core, Text.IsCore s.toList core ∧ core.length = 2 * width ∧ ∀ c ∈ core, IsDigit c
  shows : ∀ (s : String) (x : α), parse s = .ok x →
    ∃ core, Text.IsCore s.toList core ∧ (write x).toList = core.map Char.toLower
  back : ∀ x, parse (write x) = .ok x
  undecodable : ∀ s : String, (∃ fault, parse s = .error (notHex fault)) ↔
    ∃ core, Text.IsCore s.toList core ∧ (core.length % 2 = 1 ∨ ∃ c ∈ core, ¬ IsDigit c)
  odd : ∀ s : String, parse s = .error (notHex .oddLength) ↔
    ∃ core, Text.IsCore s.toList core ∧ (bytesOf core).length % 2 = 1
  stray : ∀ (s : String) (b : UInt8) (i : Nat), parse s = .error (notHex (.badDigit b i)) ↔
    ∃ core, Text.IsCore s.toList core ∧ (bytesOf core).length % 2 = 0 ∧ StopsAt (bytesOf core) b i
  misfit : ∀ (s : String) (n : Nat), parse s = .error (wrongWidth n) ↔
    ∃ core, Text.IsCore s.toList core ∧ (core.length = 2 * n ∧ ∀ c ∈ core, IsDigit c) ∧ n ≠ width
  /-- The wording tells the wrong width from all other faults, and which width it was. -/
  told : ∀ (e : ε) (n : Nat), message e = message (wrongWidth n) ↔ e = wrongWidth n

theorem Wraps.codec (h : Wraps width raw ofBytes parse write notHex wrongWidth)
    (told : ∀ (e : ε) (n : Nat), message e = message (wrongWidth n) ↔ e = wrongWidth n) :
    Codec width parse write notHex wrongWidth message where
  accepts s := by
    simp only [Text.isCore_iff, exists_eq_left, h.ok_iff, trimmedBytes_eq, ← exists_spells_iff,
      decode_eq_ok_iff]
    constructor
    · rintro ⟨x, spells⟩
      exact ⟨raw x, spells, h.length_raw x⟩
    · rintro ⟨bytes, spells, size⟩
      obtain ⟨x, rfl⟩ := h.exists_raw bytes size
      exact ⟨x, spells⟩
  shows s x run := by
    rw [h.ok_iff, trimmedBytes_eq, decode_eq_ok_iff] at run
    refine ⟨Text.trim s.toList, Text.isCore_trim _, ?_⟩
    rw [h.write_eq, toList_text_of_spells (forall_bytesOf_iff.mp run.isSome) run]
  back x := by
    rw [h.ok_iff, h.write_eq, trimmedBytes_text, decode_encode]
  undecodable s := by
    simp only [Text.isCore_iff, exists_eq_left, h.notHex_iff, trimmedBytes_eq, exists_fault_iff,
      not_spells_iff]
  odd s := by
    simp only [Text.isCore_iff, exists_eq_left, h.notHex_iff, trimmedBytes_eq,
      decode_eq_oddLength_iff]
  stray s b i := by
    simp only [Text.isCore_iff, exists_eq_left, h.notHex_iff, trimmedBytes_eq,
      decode_eq_badDigit_iff]
  misfit s n := by
    simp only [Text.isCore_iff, exists_eq_left, h.width_iff, trimmedBytes_eq, decode_eq_ok_iff,
      exists_spells_iff]
  told := told

end Codec

end Hex

theorem toString_injective {n m : Nat} (h : toString n = toString m) : n = m := by
  have digits : Nat.toDigits 10 n = Nat.toDigits 10 m := String.ofList_injective h
  rw [← Instant.digitsValue_toDigits n, digits, Instant.digitsValue_toDigits]

theorem append_ne_append {s t : String} (u v : String) (n : Nat)
    (long : n ≤ s.toList.length ∧ n ≤ t.toList.length) (ne : s.toList.take n ≠ t.toList.take n) :
    s ++ u ≠ t ++ v := by
  intro h
  apply ne
  have letters := congrArg (fun w : String => w.toList.take n) h
  simpa only [String.toList_append, List.take_append_of_le_length long.1,
    List.take_append_of_le_length long.2] using letters

theorem append_toString_injective {s : String} {n m : Nat} (h : s ++ toString n = s ++ toString m) :
    n = m := by
  have letters := congrArg String.toList h
  rw [String.toList_append, String.toList_append] at letters
  exact toString_injective (String.toList_injective (List.append_cancel_left letters))

namespace Signature

theorem wraps : Hex.Wraps 64 bytes ofBytes parse text Fault.notHex Fault.width where
  length_raw := length_eq
  exists_raw bytes fits := ⟨⟨bytes, fits⟩, rfl⟩
  ofBytes_raw x := dif_pos x.length_eq
  ofBytes_misfit _ misfit := dif_neg misfit
  parse_of_bytes s bytes run := by rw [parse, run]
  parse_of_fault s fault run := by rw [parse, run]
  write_eq _ := rfl
  notHex_injective _ _ := Fault.notHex.inj
  wrongWidth_injective _ _ := Fault.width.inj
  apart _ _ := nofun

theorem message_eq_width_iff (e : Fault) (n : Nat) :
    e.message = Fault.message (.width n) ↔ e = .width n := by
  refine ⟨fun h => ?_, fun h => by rw [h]⟩
  have wording : ∀ n, Fault.message (.width n) = "signature must be 64 bytes, got " ++ toString n :=
    fun _ => rfl
  cases e with
  | width m =>
    rw [wording, wording] at h
    rw [append_toString_injective h]
  | notHex fault =>
    have other : Fault.message (.notHex fault) = "signature is not valid hex: " ++ fault.message :=
      rfl
    rw [other, wording] at h
    exact absurd h (append_ne_append _ _ 12 (by decide) (by decide))

end Signature

namespace Digest

theorem wraps : Hex.Wraps 32 bytes ofBytes parse text Fault.notHex Fault.width where
  length_raw := length_eq
  exists_raw bytes fits := ⟨⟨bytes, fits⟩, rfl⟩
  ofBytes_raw x := dif_pos x.length_eq
  ofBytes_misfit _ misfit := dif_neg misfit
  parse_of_bytes s bytes run := by rw [parse, run]
  parse_of_fault s fault run := by rw [parse, run]
  write_eq _ := rfl
  notHex_injective _ _ := Fault.notHex.inj
  wrongWidth_injective _ _ := Fault.width.inj
  apart _ _ := nofun

theorem message_eq_width_iff (e : Fault) (n : Nat) :
    e.message = Fault.message (.width n) ↔ e = .width n := by
  refine ⟨fun h => ?_, fun h => by rw [h]⟩
  have wording : ∀ n, Fault.message (.width n) = "digest must be 32 bytes, got " ++ toString n :=
    fun _ => rfl
  cases e with
  | width m =>
    rw [wording, wording] at h
    rw [append_toString_injective h]
  | notHex fault =>
    have other : Fault.message (.notHex fault) = "digest is not valid hex: " ++ fault.message := rfl
    rw [other, wording] at h
    exact absurd h (append_ne_append _ _ 12 (by decide) (by decide))

end Digest

/-- Signatures are read from 128 hexadecimal digits and digests from 64, of either case and with
blanks around them, and shown as the same digits in small letters; every other text is told as
undecodable, by what is wrong in it, or as one of another width, with that width. -/
theorem codecs_exact :
    Hex.Codec 64 Signature.parse Signature.text .notHex .width Signature.Fault.message ∧
      Hex.Codec 32 Digest.parse Digest.text .notHex .width Digest.Fault.message :=
  ⟨Signature.wraps.codec Signature.message_eq_width_iff,
    Digest.wraps.codec Digest.message_eq_width_iff⟩

end LayeredTree
