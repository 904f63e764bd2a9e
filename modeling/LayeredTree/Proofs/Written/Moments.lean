import LayeredTree.Proofs.Reading.Moments

set_option autoImplicit false

namespace LayeredTree.Instant

variable {width n : Nat} {t : Instant}

theorem isDigit_digitChar (h : n < 10) : isDigit n.digitChar = true := by
  have all : ∀ d : Fin 10, isDigit (Nat.digitChar d) = true := by decide
  exact all ⟨n, h⟩

theorem digitValue_digitChar (h : n < 10) : digitValue n.digitChar = n := by
  have all : ∀ d : Fin 10, digitValue (Nat.digitChar d) = d := by decide
  exact all ⟨n, h⟩

theorem isDigit_of_mem_toDigits (n : Nat) : ∀ c ∈ Nat.toDigits 10 n, isDigit c = true := by
  induction n using Nat.strong_induction_on with
  | _ n ih =>
    by_cases small : n < 10
    · rw [Nat.toDigits_of_lt_base small]
      intro c hc
      rw [List.mem_singleton.mp hc]
      exact isDigit_digitChar small
    · rw [Nat.toDigits_of_base_le (by decide) (Nat.not_lt.mp small)]
      intro c hc
      rcases List.mem_append.mp hc with hc | hc
      · exact ih (n / 10) (by omega) c hc
      · rw [List.mem_singleton.mp hc]
        exact isDigit_digitChar (Nat.mod_lt _ (by decide))

theorem digitsValue_toDigits (n : Nat) : digitsValue (Nat.toDigits 10 n) = n := by
  induction n using Nat.strong_induction_on with
  | _ n ih =>
    by_cases small : n < 10
    · rw [Nat.toDigits_of_lt_base small]
      change 0 * 10 + digitValue n.digitChar = n
      rw [digitValue_digitChar small]
      omega
    · rw [Nat.toDigits_of_base_le (by decide) (Nat.not_lt.mp small), digitsValue_concat,
        ih (n / 10) (by omega), digitValue_digitChar (Nat.mod_lt _ (by decide))]
      omega

theorem isDigit_of_mem_padded (width n : Nat) : ∀ c ∈ padded width n, isDigit c = true := by
  intro c hc
  rcases List.mem_append.mp hc with hc | hc
  · rw [List.eq_of_mem_replicate hc]
    rfl
  · exact isDigit_of_mem_toDigits n c hc

theorem digitsValue_padded (width n : Nat) : digitsValue (padded width n) = n := by
  have zeros : ∀ k, (List.replicate k '0').foldl (fun n c => n * 10 + digitValue c) 0 = 0 := by
    intro k
    induction k with
    | zero => rfl
    | succ k ih => exact ih
  rw [padded, digitsValue, List.foldl_append, zeros]
  exact digitsValue_toDigits n

theorem length_padded {width : Nat} (pos : 0 < width) (h : n < 10 ^ width) :
    (padded width n).length = width := by
  have le := (Nat.length_toDigits_le_iff (by decide : 1 < 10) pos).mpr h
  rw [padded, List.length_append, List.length_replicate]
  omega

theorem isNumber_padded (width n : Nat) {limit : Option Nat}
    (fits : ∀ k ∈ limit, (padded width n).length ≤ k) : IsNumber limit (padded width n) n where
  ne_nil e := Nat.toDigits_ne_nil (List.append_eq_nil_iff.mp e).2
  digits := isDigit_of_mem_padded width n
  fits := fits
  value := digitsValue_padded width n

theorem isFixed_padded (pos : 0 < width) (h : n < 10 ^ width) : IsFixed width (padded width n) n where
  length := length_padded pos h
  digits := isDigit_of_mem_padded width n
  value := digitsValue_padded width n

theorem afterBlanks_padded (h : n < 100) : AfterBlanks (IsNumber (some 2)) (padded 2 n) n :=
  .of_none ((isFixed_padded (by decide) h).number (by decide))

theorem isYear_yearText (year : Int) : IsYear (yearText year) year := by
  unfold yearText
  split
  · have value : ((year.toNat : Nat) : Int) = year := by omega
    have form := IsYear.plain ((isFixed_padded (by decide : 0 < 4) (by omega :
      year.toNat < 10 ^ 4)).number (by decide))
    rwa [value] at form
  · have number : IsNumber none (padded 4 year.natAbs) year.natAbs := isNumber_padded _ _ nofun
    split
    · have value : -((year.natAbs : Nat) : Int) = year := by omega
      have form := IsYear.minus number
      rwa [value] at form
    · have value : ((year.natAbs : Nat) : Int) = year := by omega
      have form := IsYear.plus number
      rwa [value] at form

theorem isFraction_point {m : Nat} (pos : 0 < width) (le : width ≤ 9) (h : m < 10 ^ width)
    (value : m * 10 ^ (9 - width) = n) : IsFraction ('.' :: padded width m) n := by
  have length := length_padded pos h
  have number : IsNumber (some 9) (padded width m) m := isNumber_padded _ _ (by simpa [length])
  have form := IsFraction.point number (fun _ none => absurd none List.not_mem_nil) (.inl rfl)
  rwa [List.append_nil, length, value] at form

theorem isFraction_fractionText (h : n < 10 ^ 9) : IsFraction (fractionText n) n := by
  unfold fractionText
  split
  · rename_i none
    rw [none]
    exact .none
  split
  · exact isFraction_point (by decide) (by decide) (by omega) (by omega)
  split
  · exact isFraction_point (by decide) (by decide) (by omega) (by omega)
  · exact isFraction_point (by decide) (by decide) h (by omega)

theorem isDate_written {date : Date} (valid : date.IsValid) : IsDate (yearText date.year ++
    (['-'] ++ (padded 2 date.month ++ (['-'] ++ padded 2 date.day)))) date := by
  obtain ⟨-, -, -, top, -, within⟩ := valid
  have most := Date.monthLength_le date.year date.month
  exact ⟨_, _, _, _, _, .of_none (isYear_yearText _), isMark_singleton _,
    afterBlanks_padded (by omega), isMark_singleton _, afterBlanks_padded (by omega), rfl⟩

theorem isClock_written {clock : Clock} (shown : clock.IsShown) (h : clock.nanosecond < 10 ^ 9) :
    IsClock (padded 2 clock.hour ++ ([':'] ++ (padded 2 clock.minute ++ ([':'] ++
      (padded 2 clock.second ++ fractionText clock.nanosecond))))) clock := by
  obtain ⟨hours, minutes, seconds⟩ := shown
  exact ⟨_, _, _, _, _, _, afterBlanks_padded (by omega), isMark_singleton _,
    afterBlanks_padded (by omega), isMark_singleton _, afterBlanks_padded (by omega),
    isFraction_fractionText h, rfl⟩

structure IsShown (t : Instant) : Prop where
  inRange : t.inRange = true
  second : t.second < 86400
  nanosecond : t.nanosecond < 10 ^ 9 ∨ t.second % 60 = 59 ∧ t.nanosecond < 2 * 10 ^ 9

/-- The clock that is written for a point in time. A leap second is the sixtieth. -/
def clockOf (t : Instant) : Clock :=
  ⟨t.second / 3600, t.second / 60 % 60, t.second % 60 + t.nanosecond / 1000000000,
    t.nanosecond % 1000000000⟩

theorem IsShown.clock (h : t.IsShown) : t.clockOf.IsShown := by
  have seconds := h.second
  have nanoseconds := h.nanosecond
  unfold Clock.IsShown clockOf
  dsimp only
  omega

theorem IsShown.names (h : t.IsShown) : Names (Date.ofDayNumber t.day) t.clockOf 0 t where
  valid := by
    have range := h.inRange
    rw [Instant.inRange, decide_eq_true_eq] at range
    exact Date.isValid_ofDayNumber range.1 range.2
  near := by decide
  same := by
    have seconds := h.second
    have nanoseconds := h.nanosecond
    have leap : (t.second % 60 + t.nanosecond / 1000000000) / 60 = t.nanosecond / 1000000000 := by
      omega
    have second : t.second / 3600 * 3600 + t.second / 60 % 60 * 60 +
        (t.second % 60 + t.nanosecond / 1000000000 - t.nanosecond / 1000000000) = t.second := by
      omega
    have nanosecond : t.nanosecond % 1000000000 + t.nanosecond / 1000000000 * 1000000000 =
        t.nanosecond := by
      omega
    have day : t.day + ((t.second : Int) - 0) / 86400 = t.day := by omega
    have left : (((t.second : Int) - 0) % 86400).toNat = t.second := by omega
    rw [shown, clockOf]
    dsimp only
    rw [leap, second, nanosecond, Date.dayNumber_ofDayNumber, ofLocal, day, left]
  inRange := h.inRange

theorem isTimestamp_text (h : t.IsShown) : IsTimestamp t.text.toList t :=
  ⟨Date.ofDayNumber t.day, t.clockOf, 0, _, 'T', _, ['Z'], [], isDate_written h.names.valid,
    .inr (.inl rfl), isClock_written h.clock (Nat.mod_lt _ (by decide)), h.clock,
    .of_none (.zero (.inl rfl)), nofun, h.names, by simp [text, written, clockOf]⟩

theorem parse_text (h : t.IsShown) : parse t.text = .ok t :=
  parse_eq_ok_iff.mpr (isTimestamp_text h)

end LayeredTree.Instant
