import LayeredTree.Instant.Basic
import Mathlib.Tactic.Common
import Mathlib.Tactic.IntervalCases

set_option autoImplicit false

namespace LayeredTree.Date

theorem monthLength_le (year : Int) (month : Nat) : monthLength year month ≤ 31 := by
  unfold monthLength
  split
  · split <;> omega
  · split <;> omega

/-- The year of the era and the day of that year, both counted from March: the day falls within the
year, and only a leap year has a last day of February. -/
theorem yearOfEra_bounds {e q : Int} (low : 0 ≤ e) (top : e ≤ 146096)
    (hq : q = (e - e / 1460 + e / 36524 - e / 146096) / 365) :
    (0 ≤ q ∧ q ≤ 399) ∧ 0 ≤ e - (365 * q + q / 4 - q / 100) ∧
      e - (365 * q + q / 4 - q / 100) ≤ 365 ∧
        (e - (365 * q + q / 4 - q / 100) = 365 →
          (q + 1) % 4 = 0 ∧ ((q + 1) % 100 ≠ 0 ∨ (q + 1) % 400 = 0)) := by
  by_cases last : e = 146096
  · subst last
    subst hq
    decide
  have whole : e / 146096 = 0 := by omega
  rw [whole] at hq
  obtain ⟨c, hc⟩ : ∃ c, c = e / 36524 := ⟨_, rfl⟩
  obtain ⟨g, hg⟩ : ∃ g, g = e / 1460 := ⟨_, rfl⟩
  rw [← hc, ← hg] at hq
  have century : 0 ≤ c ∧ c ≤ 3 := by omega
  have lower : 365 * q ≤ e - g + c := by omega
  have upper : e - g + c < 365 * q + 365 := by omega
  clear hq
  have same : q / 100 = c := by
    have c₁ : 36524 * c ≤ e := by omega
    have c₂ : e < 36524 * c + 36524 := by omega
    have g₁ : 1460 * g ≤ e := by omega
    have g₂ : e < 1460 * g + 1460 := by omega
    clear hc hg
    have q₁ : 100 * c ≤ q := by omega
    have q₂ : q < 100 * c + 100 := by omega
    omega
  rw [same]
  have le : q / 4 ≤ g := by omega
  have ge : g ≤ q / 4 + 1 := by omega
  have bounds : 0 ≤ q ∧ q ≤ 399 := by omega
  refine ⟨bounds, by omega, by omega, fun leap => ?_⟩
  have next : g = q / 4 + 1 := by omega
  have three : 3 ≤ q - 4 * (q / 4) := by omega
  have four : (q + 1) % 4 = 0 := by omega
  refine ⟨four, .inl fun hundred => ?_⟩
  omega

/-- What a day number is made of. -/
structure Parts (n era q doy mp : Int) : Prop where
  day : n + 719468 = era * 146097 + (365 * q + q / 4 - q / 100 + doy)
  year : 0 ≤ q ∧ q ≤ 399
  dayOfYear : 0 ≤ doy ∧ doy ≤ 365
  leap : doy = 365 → (q + 1) % 4 = 0 ∧ ((q + 1) % 100 ≠ 0 ∨ (q + 1) % 400 = 0)
  month : mp = (5 * doy + 2) / 153
  date : ofDayNumber n = ⟨q + era * 400 + (if (if mp < 10 then mp + 3 else mp - 9) ≤ 2 then 1 else 0),
    (if mp < 10 then mp + 3 else mp - 9).toNat, (doy - (153 * mp + 2) / 5 + 1).toNat⟩

theorem exists_parts (n : Int) : ∃ era q doy mp, Parts n era q doy mp := by
  have low : 0 ≤ (n + 719468) % 146097 := by omega
  have top : (n + 719468) % 146097 ≤ 146096 := by omega
  obtain ⟨year, first, last, leap⟩ := yearOfEra_bounds low top rfl
  refine ⟨(n + 719468) / 146097, _, _, _, ?_, year, ⟨first, last⟩, leap, rfl, rfl⟩
  omega

namespace Parts

variable {n era q doy mp : Int}

theorem month_bounds (h : Parts n era q doy mp) : 0 ≤ mp ∧ mp ≤ 11 := by
  have e := h.month
  have d := h.dayOfYear
  omega

theorem day_bounds (h : Parts n era q doy mp) :
    1 ≤ doy - (153 * mp + 2) / 5 + 1 ∧ doy - (153 * mp + 2) / 5 + 1 ≤ 31 := by
  have e := h.month
  have d := h.dayOfYear
  omega

theorem dayNumber_eq (h : Parts n era q doy mp) : (ofDayNumber n).dayNumber = n := by
  obtain ⟨first, last⟩ := h.month_bounds
  have day := h.day_bounds
  have year := h.year
  have sum := h.day
  rw [h.date, dayNumber]
  dsimp only
  by_cases early : mp < 10
  · have month : (mp + 3).toNat = mp + 3 := by omega
    have late : ¬ (mp + 3).toNat ≤ 2 := by omega
    have late' : ¬ mp + 3 ≤ 2 := by omega
    rw [if_pos early, if_neg late, if_neg late', if_neg late]
    have up : ((mp + 3).toNat : Int) - 3 = mp := by omega
    have eraSame : (q + era * 400 + 0) / 400 = era := by omega
    have yearSame : (q + era * 400 + 0) % 400 = q := by omega
    rw [eraSame, yearSame]
    omega
  · have january : (mp - 9).toNat ≤ 2 := by omega
    have january' : mp - 9 ≤ 2 := by omega
    rw [if_neg early, if_pos january, if_pos january', if_pos january]
    have up : ((mp - 9).toNat : Int) + 9 = mp := by omega
    have eraSame : (q + era * 400 + 1 - 1) / 400 = era := by omega
    have yearSame : (q + era * 400 + 1 - 1) % 400 = q := by omega
    rw [eraSame, yearSame]
    omega

end Parts

namespace Parts

variable {n era q doy mp : Int}

theorem day_le_monthLength (h : Parts n era q doy mp) :
    (ofDayNumber n).day ≤ monthLength (ofDayNumber n).year (ofDayNumber n).month := by
  obtain ⟨first, last⟩ := h.month_bounds
  have e := h.month
  have d := h.dayOfYear
  have leap := h.leap
  have day := h.day_bounds
  by_cases february : mp = 11
  · subst february
    rw [h.date]
    change (doy - (153 * 11 + 2) / 5 + 1).toNat ≤
      if isLeap (q + era * 400 + 1) = true then 29 else 28
    split
    · omega
    · rename_i common
      have short : doy ≠ 365 := by
        intro last
        apply common
        obtain ⟨four, hundred⟩ := leap last
        rw [isLeap, Bool.and_eq_true, Bool.or_eq_true, beq_iff_eq, bne_iff_ne, beq_iff_eq]
        omega
      omega
  · rw [h.date]
    interval_cases mp
    all_goals first
      | exact absurd rfl february
      | change (doy - _ + 1).toNat ≤ 31
        omega
      | change (doy - _ + 1).toNat ≤ 30
        omega

end Parts

theorem isValid_ofDayNumber {n : Int} (low : dayNumber ⟨firstYear, 1, 1⟩ ≤ n)
    (top : n ≤ dayNumber ⟨lastYear, 12, 31⟩) : (ofDayNumber n).IsValid := by
  have start : dayNumber ⟨firstYear, 1, 1⟩ = -96465292 := by decide
  have stop : dayNumber ⟨lastYear, 12, 31⟩ = 95026236 := by decide
  obtain ⟨era, q, doy, mp, parts⟩ := exists_parts n
  obtain ⟨first, last⟩ := parts.month_bounds
  have day := parts.day_bounds
  have year := parts.year
  have sum := parts.day
  have within := parts.day_le_monthLength
  have inYear := parts.dayOfYear
  have month := parts.month
  rw [start] at low
  rw [stop] at top
  have yearOf : (ofDayNumber n).year = q + era * 400 + (if mp < 10 then 0 else 1) := by
    rw [parts.date]
    dsimp only
    split <;> split <;> omega
  have monthOf : 1 ≤ (ofDayNumber n).month ∧ (ofDayNumber n).month ≤ 12 := by
    rw [parts.date]
    dsimp only
    split <;> omega
  have dayOf : 1 ≤ (ofDayNumber n).day := by
    rw [parts.date]
    dsimp only
    omega
  refine ⟨?_, ?_, monthOf.1, monthOf.2, dayOf, within⟩
  · rw [yearOf, firstYear]
    clear yearOf monthOf dayOf within top
    by_contra before
    have era₀ : era ≤ -656 := by split at before <;> omega
    rcases Int.lt_or_eq_of_le era₀ with era₁ | rfl
    · omega
    · have q₀ : q ≤ 256 := by split at before <;> omega
      rcases Int.lt_or_eq_of_le q₀ with q₁ | rfl
      · omega
      · split at before <;> omega
  · rw [yearOf, lastYear]
    clear yearOf monthOf dayOf within low
    by_contra past
    have era₀ : 655 ≤ era := by split at past <;> omega
    rcases Int.lt_or_eq_of_le era₀ with era₁ | rfl
    · omega
    · have q₀ : 142 ≤ q := by split at past <;> omega
      rcases Int.lt_or_eq_of_le q₀ with q₁ | rfl
      · omega
      · split at past <;> omega

theorem dayNumber_ofDayNumber (n : Int) : (ofDayNumber n).dayNumber = n := by
  obtain ⟨era, q, doy, mp, parts⟩ := exists_parts n
  exact parts.dayNumber_eq

end LayeredTree.Date
