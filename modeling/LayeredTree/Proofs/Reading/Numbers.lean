import LayeredTree.Proofs.Reading.Texts
import Mathlib.Data.List.Induction

set_option autoImplicit false

namespace LayeredTree.Json

variable {b e : UInt8} {s s' t w ds : Bytes} {ended : Fault} {number : Numeral}

def IsDigits (w : Bytes) : Prop := w ≠ [] ∧ ∀ b ∈ w, isDigit b = true

/-- The digits before a point. A zero at the front stands alone. -/
def IsWhole (w : Bytes) : Prop := IsDigits w ∧ (w.head? = some 48 → w = [48])

inductive IsSign : Bytes → Bool → Prop
  | none : IsSign [] false
  | minus : IsSign [45] true

inductive IsFraction : Bytes → Option Bytes → Prop
  | none : IsFraction [] none
  | point {ds : Bytes} : IsDigits ds → IsFraction (46 :: ds) (some ds)

inductive IsPower : Bytes → Option (Bool × Bytes) → Prop
  | none : IsPower [] none
  | plain {e : UInt8} {ds : Bytes} : e = 101 ∨ e = 69 → IsDigits ds →
      IsPower (e :: ds) (some (false, ds))
  | plus {e : UInt8} {ds : Bytes} : e = 101 ∨ e = 69 → IsDigits ds →
      IsPower (e :: 43 :: ds) (some (false, ds))
  | minus {e : UInt8} {ds : Bytes} : e = 101 ∨ e = 69 → IsDigits ds →
      IsPower (e :: 45 :: ds) (some (true, ds))

def IsNumeral (w : Bytes) (number : Numeral) : Prop :=
  ∃ sign fraction power, IsSign sign number.negative ∧ IsWhole number.whole ∧
    IsFraction fraction number.fraction ∧ IsPower power number.power ∧
      w = sign ++ (number.whole ++ (fraction ++ power))

def Digitless (s : Bytes) : Prop := ∀ b ∈ s.head?, isDigit b = false

/-- What follows does not continue a number. -/
def Stops (s : Bytes) : Prop :=
  ∀ b ∈ s.head?, isDigit b = false ∧ b ≠ 46 ∧ b ≠ 101 ∧ b ≠ 69

theorem stops_nil : Stops [] := nofun

theorem stops_cons (digit : isDigit b = false) (point : b ≠ 46) (mark : b ≠ 101 ∧ b ≠ 69) :
    Stops (b :: s) := by
  intro c hc
  cases hc
  exact ⟨digit, point, mark⟩

theorem isGap_of_isDigit (digit : isDigit b = true) : isGap b = false := by
  rw [← Bool.not_eq_true]
  intro gap
  simp only [isGap, Bool.or_eq_true, beq_iff_eq] at gap
  rcases gap with ((rfl | rfl) | rfl) | rfl
  all_goals cases digit

theorem Stops.gap {gap : Bytes} (h : IsGap gap) (stops : Stops s) : Stops (gap ++ s) := by
  cases gap with
  | nil => exact stops
  | cons b gap =>
    have blank := h b List.mem_cons_self
    refine stops_cons ?_ ?_ ⟨?_, ?_⟩
    · rw [← Bool.not_eq_true]
      intro digit
      rw [isGap_of_isDigit digit] at blank
      cases blank
    all_goals
      rintro rfl
      cases blank

theorem IsDigits.head (h : IsDigits w) : ∃ b more, w = b :: more ∧ isDigit b = true := by
  obtain ⟨b, more, rfl⟩ := List.exists_cons_of_ne_nil h.1
  exact ⟨b, more, rfl, h.2 b List.mem_cons_self⟩

theorem IsNumeral.head (h : IsNumeral w number) :
    ∃ b more, w = b :: more ∧ (b = 45 ∨ isDigit b = true) := by
  obtain ⟨sign, fraction, power, signed, whole, -, -, rfl⟩ := h
  obtain ⟨b, more, e, digit⟩ := whole.1.head
  rw [e]
  generalize number.negative = negative at signed
  cases signed with
  | none => exact ⟨b, _, rfl, .inr digit⟩
  | minus => exact ⟨45, _, rfl, .inl rfl⟩

theorem readSomeDigits_iff :
    readSomeDigits ended s = .ok (ds, s') ↔ IsDigits ds ∧ s = ds ++ s' ∧ Digitless s' := by
  rw [readSomeDigits, read_bind_iff]
  constructor
  · rintro ⟨_, _, ⟨⟩, h⟩
    by_cases none : s.takeWhile isDigit = []
    · rw [if_pos none, bind_of_read (show (get : Reader Bytes) _ = .ok (_, _) from rfl)] at h
      split at h <;> cases h
    · rw [if_neg none] at h
      cases h
      refine ⟨⟨none, fun b hb => List.mem_takeWhile_imp hb⟩,
        List.takeWhile_append_dropWhile.symm, fun b hb => ?_⟩
      have head := List.head?_dropWhile_not isDigit s
      rw [Option.mem_def.mp hb] at head
      simpa using head
  · rintro ⟨⟨some, digits⟩, rfl, ends⟩
    have rest : s'.takeWhile isDigit = [] ∧ s'.dropWhile isDigit = s' := by
      cases s' with
      | nil => exact ⟨rfl, rfl⟩
      | cons b s' => simp [ends b rfl]
    refine ⟨ds, s', ?_, ?_⟩
    · unfold readDigits
      rw [List.takeWhile_append_of_pos digits, List.dropWhile_append_of_pos digits, rest.1, rest.2,
        List.append_nil]
    · rw [if_neg some]
      rfl

theorem readWhole_iff :
    readWhole ended s = .ok (w, s') ↔ IsWhole w ∧ s = w ++ s' ∧ Digitless s' := by
  by_cases zero : s.head? = some 48
  · obtain ⟨t, rfl⟩ := List.head?_eq_some_iff.mp zero
    have run : readWhole ended (48 :: t) = .ok (w, s') ↔ Digitless t ∧ w = [48] ∧ s' = t := by
      cases t with
      | nil =>
        constructor
        · rintro ⟨⟩
          exact ⟨nofun, rfl, rfl⟩
        · rintro ⟨-, rfl, rfl⟩
          rfl
      | cons b t =>
        change (if isDigit b then throw .badNumber else pure [48] : Reader Bytes) (b :: t) = _ ↔ _
        by_cases digit : isDigit b = true
        · rw [if_pos digit]
          refine ⟨nofun, fun h => ?_⟩
          rw [h.1 b rfl] at digit
          cases digit
        · rw [if_neg digit]
          constructor
          · rintro ⟨⟩
            exact ⟨fun c hc => by cases hc; simpa using digit, rfl, rfl⟩
          · rintro ⟨-, rfl, rfl⟩
            rfl
    rw [run]
    constructor
    · rintro ⟨ends, rfl, rfl⟩
      exact ⟨⟨⟨by simp, by simp; rfl⟩, fun _ => rfl⟩, rfl, ends⟩
    · rintro ⟨⟨digits, alone⟩, split, ends⟩
      obtain ⟨b, more, rfl, -⟩ := digits.head
      obtain ⟨rfl, rest⟩ := List.cons_eq_cons.mp split
      cases alone rfl
      exact ⟨by rwa [rest], rfl, rest.symm⟩
  · have run : readWhole ended s = readSomeDigits ended s := by
      unfold readWhole
      rw [bind_of_read (show (get : Reader Bytes) s = .ok (s, s) from rfl)]
      split
      · exact absurd rfl zero
      · rfl
    rw [run, readSomeDigits_iff]
    constructor
    · rintro ⟨digits, rfl, ends⟩
      refine ⟨⟨digits, fun head => ?_⟩, rfl, ends⟩
      obtain ⟨b, more, rfl, -⟩ := digits.head
      exact absurd head zero
    · rintro ⟨⟨digits, -⟩, rfl, ends⟩
      exact ⟨digits, rfl, ends⟩

theorem readFraction_of_ne (h : s.head? ≠ some 46) : readFraction ended s = .ok (none, s) := by
  unfold readFraction
  rw [bind_of_read (show (get : Reader Bytes) s = .ok (s, s) from rfl)]
  split
  · exact absurd rfl h
  · rfl

theorem readFraction_sound {fraction : Option Bytes}
    (h : readFraction ended s = .ok (fraction, s')) : ∃ w, IsFraction w fraction ∧ s = w ++ s' := by
  by_cases point : s.head? = some 46
  · obtain ⟨t, rfl⟩ := List.head?_eq_some_iff.mp point
    change (some <$> readSomeDigits ended) t = _ at h
    obtain ⟨ds, read, rfl⟩ := read_map_iff.mp h
    obtain ⟨digits, rfl, -⟩ := readSomeDigits_iff.mp read
    exact ⟨46 :: ds, .point digits, rfl⟩
  · rw [readFraction_of_ne point] at h
    cases h
    exact ⟨[], .none, rfl⟩

theorem readFraction_complete {fraction : Option Bytes} (h : IsFraction w fraction)
    (ends : Digitless s) (point : s.head? ≠ some 46) :
    readFraction ended (w ++ s) = .ok (fraction, s) := by
  cases h with
  | none => exact readFraction_of_ne point
  | point digits => exact map_of_read (readSomeDigits_iff.mpr ⟨digits, rfl, ends⟩)

theorem readPower_of_ne (h : ∀ b ∈ s.head?, b ≠ 101 ∧ b ≠ 69) :
    readPower ended s = .ok (none, s) := by
  cases s with
  | nil => rfl
  | cons b s =>
    obtain ⟨small, great⟩ := h b rfl
    unfold readPower
    rw [bind_of_read (show (get : Reader Bytes) (b :: s) = .ok (b :: s, b :: s) from rfl)]
    dsimp only
    rw [if_neg (by simp [small, great])]
    rfl

private def powerDigits (negative : Bool) (ended : Fault) : Reader (Option (Bool × Bytes)) :=
  (fun ds => some (negative, ds)) <$> readSomeDigits ended

private theorem readPower_minus (mark : e = 101 ∨ e = 69) :
    readPower ended (e :: 45 :: t) = powerDigits true ended t := by
  unfold readPower
  rw [bind_of_read (show (get : Reader Bytes) _ = .ok (_, _) from rfl)]
  dsimp only
  rw [if_pos mark]
  rfl

private theorem readPower_plus (mark : e = 101 ∨ e = 69) :
    readPower ended (e :: 43 :: t) = powerDigits false ended t := by
  unfold readPower
  rw [bind_of_read (show (get : Reader Bytes) _ = .ok (_, _) from rfl)]
  dsimp only
  rw [if_pos mark]
  rfl

private theorem readPower_plain (mark : e = 101 ∨ e = 69) (minus : t.head? ≠ some 45)
    (plus : t.head? ≠ some 43) : readPower ended (e :: t) = powerDigits false ended t := by
  unfold readPower
  rw [bind_of_read (show (get : Reader Bytes) _ = .ok (_, _) from rfl)]
  dsimp only
  rw [if_pos mark, bind_of_read (show (set t : Reader Unit) (e :: t) = .ok ((), t) from rfl)]
  split
  · exact absurd rfl minus
  · exact absurd rfl plus
  · rfl

private theorem powerDigits_iff {negative : Bool} {power : Option (Bool × Bytes)} :
    powerDigits negative ended s = .ok (power, s') ↔
      ∃ ds, IsDigits ds ∧ s = ds ++ s' ∧ Digitless s' ∧ power = some (negative, ds) := by
  rw [powerDigits, read_map_iff]
  constructor
  · rintro ⟨ds, read, rfl⟩
    obtain ⟨digits, rfl, ends⟩ := readSomeDigits_iff.mp read
    exact ⟨ds, digits, rfl, ends, rfl⟩
  · rintro ⟨ds, digits, rfl, ends, rfl⟩
    exact ⟨ds, readSomeDigits_iff.mpr ⟨digits, rfl, ends⟩, rfl⟩

theorem readPower_sound {power : Option (Bool × Bytes)}
    (h : readPower ended s = .ok (power, s')) : ∃ w, IsPower w power ∧ s = w ++ s' := by
  by_cases mark : ∃ e t, s = e :: t ∧ (e = 101 ∨ e = 69)
  · obtain ⟨e, t, rfl, mark⟩ := mark
    by_cases minus : t.head? = some 45
    · obtain ⟨u, rfl⟩ := List.head?_eq_some_iff.mp minus
      rw [readPower_minus mark] at h
      obtain ⟨ds, digits, rfl, -, rfl⟩ := powerDigits_iff.mp h
      exact ⟨e :: 45 :: ds, .minus mark digits, rfl⟩
    by_cases plus : t.head? = some 43
    · obtain ⟨u, rfl⟩ := List.head?_eq_some_iff.mp plus
      rw [readPower_plus mark] at h
      obtain ⟨ds, digits, rfl, -, rfl⟩ := powerDigits_iff.mp h
      exact ⟨e :: 43 :: ds, .plus mark digits, rfl⟩
    · rw [readPower_plain mark minus plus] at h
      obtain ⟨ds, digits, rfl, -, rfl⟩ := powerDigits_iff.mp h
      exact ⟨e :: ds, .plain mark digits, rfl⟩
  · rw [readPower_of_ne] at h
    · cases h
      exact ⟨[], .none, rfl⟩
    · intro b hb
      obtain ⟨t, rfl⟩ := List.head?_eq_some_iff.mp hb
      rw [← not_or]
      exact fun e => mark ⟨b, t, rfl, e⟩

theorem readPower_complete {power : Option (Bool × Bytes)} (h : IsPower w power)
    (stops : Stops s) : readPower ended (w ++ s) = .ok (power, s) := by
  have ends : Digitless s := fun b hb => (stops b hb).1
  cases h with
  | none => exact readPower_of_ne fun b hb => (stops b hb).2.2
  | minus mark digits =>
    rw [List.cons_append, List.cons_append, readPower_minus mark]
    exact powerDigits_iff.mpr ⟨_, digits, rfl, ends, rfl⟩
  | plus mark digits =>
    rw [List.cons_append, List.cons_append, readPower_plus mark]
    exact powerDigits_iff.mpr ⟨_, digits, rfl, ends, rfl⟩
  | plain mark digits =>
    obtain ⟨b, more, rfl, digit⟩ := digits.head
    rw [List.cons_append, readPower_plain mark]
    · exact powerDigits_iff.mpr ⟨_, digits, rfl, ends, rfl⟩
    all_goals
      rintro ⟨⟩
      cases digit

private def readUnsigned (negative : Bool) (ended : Fault) : Reader Numeral := do
  let whole ← readWhole ended
  let fraction ← readFraction ended
  let power ← readPower ended
  pure ⟨negative, whole, fraction, power⟩

private theorem readUnsigned_sound {negative : Bool}
    (h : readUnsigned negative ended s = .ok (number, s')) : negative = number.negative ∧
      ∃ fraction power, IsWhole number.whole ∧ IsFraction fraction number.fraction ∧
        IsPower power number.power ∧ s = number.whole ++ (fraction ++ power) ++ s' := by
  obtain ⟨whole, t, readWhole, h⟩ := read_bind_iff.mp h
  obtain ⟨fraction, u, readFraction, h⟩ := read_bind_iff.mp h
  obtain ⟨power, v, readPower, h⟩ := read_bind_iff.mp h
  cases h
  obtain ⟨isWhole, rfl, -⟩ := readWhole_iff.mp readWhole
  obtain ⟨fraction, isFraction, rfl⟩ := readFraction_sound readFraction
  obtain ⟨power, isPower, rfl⟩ := readPower_sound readPower
  exact ⟨rfl, fraction, power, isWhole, isFraction, isPower, by simp⟩

private theorem readUnsigned_complete {negative : Bool} {whole fraction power : Bytes}
    {f : Option Bytes} {p : Option (Bool × Bytes)} (isWhole : IsWhole whole)
    (isFraction : IsFraction fraction f) (isPower : IsPower power p) (stops : Stops s) :
    readUnsigned negative ended (whole ++ (fraction ++ power) ++ s) =
      .ok (⟨negative, whole, f, p⟩, s) := by
  have behind : Digitless (power ++ s) ∧ (power ++ s).head? ≠ some 46 := by
    have mark : ∀ {e : UInt8} {t : Bytes}, e = 101 ∨ e = 69 →
        Digitless (e :: t) ∧ (e :: t).head? ≠ some 46 := by
      rintro e t (rfl | rfl)
      · exact ⟨fun b hb => by cases hb; rfl, by simp⟩
      · exact ⟨fun b hb => by cases hb; rfl, by simp⟩
    cases isPower with
    | none => exact ⟨fun b hb => (stops b hb).1, fun point => (stops 46 point).2.1 rfl⟩
    | plain e => exact mark e
    | plus e => exact mark e
    | minus e => exact mark e
  have ends : Digitless (fraction ++ (power ++ s)) := by
    cases isFraction with
    | none => exact behind.1
    | point => exact fun b hb => by cases hb; rfl
  rw [List.append_assoc, List.append_assoc, readUnsigned,
    bind_of_read (readWhole_iff.mpr ⟨isWhole, rfl, ends⟩),
    bind_of_read (readFraction_complete isFraction behind.1 behind.2),
    bind_of_read (readPower_complete isPower stops)]
  rfl

private theorem readNumeral_minus :
    readNumeral ended (45 :: t) = readUnsigned true ended t := rfl

private theorem readNumeral_plain (plain : s.head? ≠ some 45) :
    readNumeral ended s = readUnsigned false ended s := by
  unfold readNumeral
  rw [bind_of_read (show (get : Reader Bytes) s = .ok (s, s) from rfl)]
  split
  · exact absurd rfl plain
  · rfl

theorem readNumeral_sound (h : readNumeral ended s = .ok (number, s')) :
    ∃ w, IsNumeral w number ∧ s = w ++ s' := by
  by_cases minus : s.head? = some 45
  · obtain ⟨t, rfl⟩ := List.head?_eq_some_iff.mp minus
    rw [readNumeral_minus] at h
    obtain ⟨negative, fraction, power, whole, isFraction, isPower, rfl⟩ := readUnsigned_sound h
    refine ⟨45 :: (number.whole ++ (fraction ++ power)), ⟨[45], fraction, power, ?_, whole,
      isFraction, isPower, rfl⟩, rfl⟩
    rw [← negative]
    exact .minus
  · rw [readNumeral_plain minus] at h
    obtain ⟨negative, fraction, power, whole, isFraction, isPower, rfl⟩ := readUnsigned_sound h
    refine ⟨number.whole ++ (fraction ++ power), ⟨[], fraction, power, ?_, whole, isFraction,
      isPower, rfl⟩, rfl⟩
    rw [← negative]
    exact .none

theorem readNumeral_complete (h : IsNumeral w number) (stops : Stops s) :
    readNumeral ended (w ++ s) = .ok (number, s) := by
  obtain ⟨sign, fraction, power, signed, whole, isFraction, isPower, rfl⟩ := h
  obtain ⟨negative, digits, f, p⟩ := number
  cases signed with
  | minus =>
    rw [List.append_assoc, List.singleton_append, readNumeral_minus]
    exact readUnsigned_complete whole isFraction isPower stops
  | none =>
    obtain ⟨b, more, rfl, digit⟩ := whole.1.head
    rw [List.nil_append, readNumeral_plain]
    · exact readUnsigned_complete whole isFraction isPower stops
    · rintro ⟨⟩
      cases digit

theorem digitsValue_concat (ds : Bytes) (d : UInt8) :
    digitsValue (ds ++ [d]) = digitsValue ds * 10 + (d.toNat - 48) := by
  rw [digitsValue, List.foldl_append]
  rfl

theorem digitsValue_of_gatherWhole (h : (gatherWhole ds).2 = 0) :
    (gatherWhole ds).1 = digitsValue ds ∧ digitsValue ds ≤ maxWord := by
  induction ds using List.reverseRecOn with
  | nil => exact ⟨rfl, Nat.zero_le _⟩
  | append_singleton ds d ih =>
    rw [digitsValue_concat]
    rw [gatherWhole, List.foldl_append, ← gatherWhole, List.foldl_cons, List.foldl_nil] at h ⊢
    generalize gatherWhole ds = gathered at ih h
    obtain ⟨n, dropped⟩ := gathered
    dsimp only at ih h ⊢
    split at h
    · rename_i fits
      obtain ⟨rfl, -⟩ := ih fits.1
      rw [if_pos fits]
      exact ⟨rfl, fits.2⟩
    · cases h

theorem gatherWhole_of_le (h : digitsValue ds ≤ maxWord) :
    gatherWhole ds = (digitsValue ds, 0) := by
  induction ds using List.reverseRecOn with
  | nil => rfl
  | append_singleton ds d ih =>
    rw [digitsValue_concat] at h ⊢
    have front := ih (by omega)
    rw [gatherWhole] at front
    rw [gatherWhole, List.foldl_append, front, List.foldl_cons, List.foldl_nil]
    exact if_pos ⟨rfl, h⟩

theorem value_eq_natural_iff {n : Nat} : number.value = .ok (.natural n) ↔
    number.negative = false ∧ number.fraction = none ∧ number.power = none ∧
      digitsValue number.whole = n ∧ n ≤ maxWord := by
  obtain ⟨negative, whole, fraction, power⟩ := number
  unfold Numeral.value
  dsimp only
  constructor
  · intro h
    split at h
    · rename_i plain
      obtain ⟨rfl, rfl, all⟩ := plain
      obtain ⟨value, fits⟩ := digitsValue_of_gatherWhole all
      cases negative with
      | false =>
        cases h
        exact ⟨rfl, rfl, rfl, value.symm, value ▸ fits⟩
      | true =>
        rw [if_neg (by simp)] at h
        split at h <;> cases h
    · generalize scaleByTen _ _ _ = scaled at h
      cases scaled <;> cases h
  · rintro ⟨rfl, rfl, rfl, rfl, fits⟩
    rw [gatherWhole_of_le fits]
    rfl

theorem wordOf_eq_ok_iff {n : Number} {word : UInt32} :
    wordOf n = .ok word ↔ n = .natural word.toNat := by
  constructor
  · intro h
    unfold wordOf at h
    split at h
    · split at h
      · rename_i small
        cases h
        rw [UInt32.toNat_ofNat_of_lt' small]
      · cases h
    · cases h
    · cases h
  · rintro rfl
    rw [wordOf, if_pos word.toNat_lt, UInt32.ofNat_toNat]

end LayeredTree.Json
