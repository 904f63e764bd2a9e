import Mathlib.Tactic.Common
import LayeredTree.Text.Lowercase

set_option autoImplicit false

namespace LayeredTree.Text

/-- Where the letters of a run lie, and whether all of them are even or all are odd. -/
structure Span where
  first : Nat
  last : Nat
  strides : Bool

namespace Span

/-- A code point may lie in a span. -/
def MayContain (span : Span) (n : Nat) : Prop :=
  span.first ≤ n ∧ n ≤ span.last ∧ (span.strides = true → n % 2 = span.first % 2)

/-- A span lies before or behind another, or between its code points. -/
def apart (span other : Span) : Bool :=
  span.last.blt other.first || other.last.blt span.first ||
    (span.strides && other.strides && (span.first + other.first) % 2 == 1)

theorem not_mayContain_of_apart {span other : Span} {n : Nat} (apart : span.apart other = true)
    (may : span.MayContain n) : ¬ other.MayContain n := by
  intro may'
  obtain ⟨first, last, parity⟩ := may
  obtain ⟨first', last', parity'⟩ := may'
  simp only [Span.apart, Bool.or_eq_true, Bool.and_eq_true, Nat.blt_eq, beq_iff_eq] at apart
  obtain (before | behind) | ⟨⟨strides, strides'⟩, between⟩ := apart
  · omega
  · omega
  · have := parity strides
    have := parity' strides'
    omega

end Span

namespace CaseRun

def capitals (run : CaseRun) : Span :=
  ⟨run.first, run.first + (run.count - 1) * run.gap, run.gap == 2 || run.count == 1⟩

def smalls (run : CaseRun) : Span :=
  ⟨((run.first : Int) + run.distance).toNat,
    ((run.first : Int) + run.distance).toNat + (run.count - 1) * run.gap, run.capitals.strides⟩

/-- A run has letters, one by one or every other, and its small letters are characters. -/
def sound (run : CaseRun) : Bool :=
  (run.gap == 1 || run.gap == 2) && Nat.blt 0 run.count && 0 ≤ (run.first : Int) + run.distance &&
    (run.smalls.last.blt 0xd800 ||
      (Nat.blt 0xdfff run.smalls.first && run.smalls.last.blt 0x110000))

theorem holds_iff {run : CaseRun} {n : Nat} : run.holds n = true ↔
    run.first ≤ n ∧ (n - run.first) % run.gap = 0 ∧ (n - run.first) / run.gap < run.count := by
  simp [holds, and_assoc]

theorem mayContain_capitals {run : CaseRun} {n : Nat} (sound : run.sound = true)
    (h : run.holds n = true) : run.capitals.MayContain n := by
  obtain ⟨after, stride, before⟩ := holds_iff.mp h
  have gaps : run.gap = 1 ∨ run.gap = 2 := by
    simp only [CaseRun.sound, Bool.and_eq_true, Bool.or_eq_true, beq_iff_eq] at sound
    exact sound.1.1.1
  unfold capitals Span.MayContain
  refine ⟨after, ?_, ?_⟩
  · obtain gap | gap := gaps <;> rw [gap] at before stride ⊢ <;> dsimp only <;> omega
  · intro strides
    simp only [Bool.or_eq_true, beq_iff_eq] at strides
    dsimp only
    obtain gap | gap := gaps <;> rw [gap] at before stride strides <;> omega

theorem mayContain_smalls {run : CaseRun} {n : Nat} (sound : run.sound = true)
    (h : run.holds n = true) : run.smalls.MayContain ((n : Int) + run.distance).toNat ∧
      ((n : Int) + run.distance).toNat.isValidChar := by
  obtain ⟨first, last, parity⟩ := mayContain_capitals sound h
  simp only [CaseRun.sound, Bool.and_eq_true, Bool.or_eq_true, decide_eq_true_eq, Nat.blt_eq]
    at sound
  simp only [smalls, capitals] at sound first last parity
  have may : run.smalls.MayContain ((n : Int) + run.distance).toNat := by
    refine ⟨?_, ?_, ?_⟩
    · dsimp only [smalls]
      omega
    · dsimp only [smalls]
      omega
    · intro strides
      have := parity strides
      dsimp only [smalls]
      omega
  refine ⟨may, ?_⟩
  unfold Nat.isValidChar
  obtain ⟨above, below, -⟩ := may
  dsimp only [smalls] at above below
  omega

end CaseRun

/-- The code points that a small letter must not be: the dotted capital, the capital sigma and the
capital letters of ASCII. -/
def specials : List Span := [⟨304, 304, true⟩, ⟨931, 931, true⟩, ⟨65, 90, false⟩]

private theorem caseRuns_checked :
    (caseRuns.all fun run => run.sound && specials.all run.smalls.apart &&
      (caseRuns.map CaseRun.capitals).all run.smalls.apart) = true := by
  decide +kernel

private theorem caseRun_checked {run : CaseRun} (mem : run ∈ caseRuns) : run.sound = true ∧
    (∀ special ∈ specials, run.smalls.apart special = true) ∧
      ∀ other ∈ caseRuns, run.smalls.apart other.capitals = true := by
  have h := List.all_eq_true.mp caseRuns_checked run mem
  simp only [Bool.and_eq_true, List.all_eq_true, List.forall_mem_map] at h
  exact ⟨h.1.1, h.1.2, h.2⟩

private theorem small_of_ascii : ∀ n < 128, (Char.ofNat n).toLower.toNat < 128 ∧
    (Char.ofNat n).toLower.toLower = (Char.ofNat n).toLower := by
  decide

private theorem toLower_of_small : ∀ n < 128, n < 65 ∨ 90 < n →
    (Char.ofNat n).toLower = Char.ofNat n := by
  decide

theorem smallForm_of_ascii {c : Char} (ascii : c.toNat < 128) : smallForm c = [c.toLower] :=
  if_pos ascii

theorem smallForm_of_not_holds {c : Char} (plain : c.toNat < 128 → c.toLower = c)
    (dotless : c ≠ 'İ') (off : ∀ run ∈ caseRuns, run.holds c.toNat = false) :
    smallForm c = [c] := by
  unfold smallForm
  split
  · rename_i ascii
    rw [plain ascii]
  · have none : caseRuns.find? (fun run => run.holds c.toNat) = none := by
      rw [List.find?_eq_none]
      intro run mem
      simp [off run mem]
    rw [none]

private theorem sigma_on_run : caseRuns.find? (fun run => run.holds ('Σ').toNat) ≠ none := by
  decide

private theorem smallForm_of_run {c d : Char} {run : CaseRun} (mem : run ∈ caseRuns)
    (holds : run.holds c.toNat = true)
    (moved : d = Char.ofNat ((c.toNat : Int) + run.distance).toNat) :
    d ≠ 'Σ' ∧ smallForm d = [d] := by
  obtain ⟨sound, special, apart⟩ := caseRun_checked mem
  obtain ⟨may, valid⟩ := CaseRun.mayContain_smalls sound holds
  have same : d.toNat = ((c.toNat : Int) + run.distance).toNat := by
    rw [moved, Char.ofNat, dif_pos valid]
    rfl
  rw [← same] at may
  have misses : ∀ span ∈ specials, ¬ span.MayContain d.toNat := fun span mem' =>
    Span.not_mayContain_of_apart (special span mem') may
  refine ⟨?_, smallForm_of_not_holds ?_ ?_ ?_⟩
  · rintro rfl
    exact misses ⟨931, 931, true⟩ (by simp [specials]) ⟨by decide, by decide, fun _ => rfl⟩
  · intro ascii
    rw [← Char.ofNat_toNat d]
    apply toLower_of_small d.toNat ascii
    by_contra capital
    refine misses ⟨65, 90, false⟩ (by simp [specials]) ⟨?_, ?_, by rintro ⟨⟩⟩
    all_goals
      dsimp only
      omega
  · rintro rfl
    exact misses ⟨304, 304, true⟩ (by simp [specials]) ⟨by decide, by decide, fun _ => rfl⟩
  · intro other mem'
    rw [Bool.eq_false_iff]
    intro holds'
    exact Span.not_mayContain_of_apart (apart other mem') may
      (CaseRun.mayContain_capitals (caseRun_checked mem').1 holds')

theorem smallForm_of_mem {c d : Char} (mem : d ∈ smallForm c) :
    d ≠ 'Σ' ∧ smallForm d = [d] := by
  unfold smallForm at mem
  split at mem
  case isTrue ascii =>
    obtain rfl := List.mem_singleton.mp mem
    obtain ⟨ascii', same⟩ := small_of_ascii c.toNat ascii
    rw [Char.ofNat_toNat] at ascii' same
    refine ⟨fun sigma => ?_, by rw [smallForm_of_ascii ascii', same]⟩
    rw [sigma] at ascii'
    exact absurd ascii' (by decide)
  case isFalse beyond =>
    split at mem
    · simp only [List.mem_cons, List.not_mem_nil, or_false] at mem
      obtain rfl | rfl := mem
      · exact ⟨by decide, by decide⟩
      · exact ⟨by decide, by decide⟩
    · rename_i dotless
      split at mem
      · rename_i run found
        have holds : run.holds c.toNat = true := by simpa using List.find?_some found
        exact smallForm_of_run (List.mem_of_find?_eq_some found) holds (List.mem_singleton.mp mem)
      · rename_i none
        obtain rfl := List.mem_singleton.mp mem
        refine ⟨fun sigma => sigma_on_run (sigma ▸ none), ?_⟩
        apply smallForm_of_not_holds
        · exact fun ascii => absurd ascii beyond
        · exact dotless
        · simpa using none

private theorem smallForm_sigma : smallForm 'σ' = ['σ'] ∧ smallForm 'ς' = ['ς'] := by
  decide

theorem small_of_mem_lowercaseAfter {before s : List Char} {d : Char}
    (mem : d ∈ lowercaseAfter before s) : d ≠ 'Σ' ∧ smallForm d = [d] := by
  induction s generalizing before with
  | nil => cases mem
  | cons c rest ih =>
    rw [lowercaseAfter, List.mem_append] at mem
    obtain head | tail := mem
    · split at head
      · split at head
        · obtain rfl := List.mem_singleton.mp head
          exact ⟨by decide, smallForm_sigma.2⟩
        · obtain rfl := List.mem_singleton.mp head
          exact ⟨by decide, smallForm_sigma.1⟩
      · exact smallForm_of_mem head
    · exact ih tail

theorem lowercaseAfter_of_small {before s : List Char}
    (small : ∀ d ∈ s, d ≠ 'Σ' ∧ smallForm d = [d]) : lowercaseAfter before s = s := by
  induction s generalizing before with
  | nil => rfl
  | cons c rest ih =>
    obtain ⟨plain, same⟩ := small c List.mem_cons_self
    rw [lowercaseAfter, if_neg plain, same, ih fun d mem => small d (List.mem_cons_of_mem _ mem)]
    rfl

@[simp] theorem lowercase_lowercase (s : String) : lowercase (lowercase s) = lowercase s := by
  have same : lowercaseAfter [] (lowercaseAfter [] s.toList) = lowercaseAfter [] s.toList :=
    lowercaseAfter_of_small fun _ mem => small_of_mem_lowercaseAfter mem
  unfold lowercase
  rw [String.toList_ofList, same]

end LayeredTree.Text
