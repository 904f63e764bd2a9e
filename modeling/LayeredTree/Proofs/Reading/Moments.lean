import LayeredTree.Proofs.Written.Dates
import LayeredTree.Proofs.Written.Texts
import Mathlib.Data.List.Induction
import Mathlib.Data.List.TakeWhile

set_option autoImplicit false

namespace LayeredTree.Instant

variable {α : Type} {s s' w v ds blanks : List Char} {c mark : Char} {n : Nat} {limit : Option Nat}

def IsBlanks (w : List Char) : Prop := ∀ c ∈ w, Text.isBlank c = true

def Digitless (s : List Char) : Prop := ∀ c ∈ s.head?, isDigit c = false

/-- A number of at least one digit, and at most so many if there is a limit. -/
structure IsNumber (limit : Option Nat) (w : List Char) (n : Nat) : Prop where
  ne_nil : w ≠ []
  digits : ∀ c ∈ w, isDigit c = true
  fits : ∀ k ∈ limit, w.length ≤ k
  value : digitsValue w = n

/-- A form with blanks before it. -/
def AfterBlanks {α : Type} (Form : List Char → α → Prop) (w : List Char) (a : α) : Prop :=
  ∃ blanks v, IsBlanks blanks ∧ Form v a ∧ w = blanks ++ v

def IsMark (mark : Char) (w : List Char) : Prop := ∃ blanks, IsBlanks blanks ∧ w = blanks ++ [mark]

inductive IsYear : List Char → Int → Prop
  | plain {w : List Char} {n : Nat} : IsNumber (some 4) w n → IsYear w n
  | plus {w : List Char} {n : Nat} : IsNumber none w n → IsYear ('+' :: w) n
  | minus {w : List Char} {n : Nat} : IsNumber none w n → IsYear ('-' :: w) (-n)

def IsDate (w : List Char) (date : Date) : Prop :=
  ∃ year first month second day, AfterBlanks IsYear year date.year ∧ IsMark '-' first ∧
    AfterBlanks (IsNumber (some 2)) month date.month ∧ IsMark '-' second ∧
      AfterBlanks (IsNumber (some 2)) day date.day ∧
        w = year ++ (first ++ (month ++ (second ++ day)))

/-- A fraction of a second in nanoseconds, of which nine digits count. -/
inductive IsFraction : List Char → Nat → Prop
  | none : IsFraction [] 0
  | point {ds more : List Char} {n : Nat} : IsNumber (some 9) ds n →
      (∀ c ∈ more, isDigit c = true) → (more = [] ∨ ds.length = 9) →
      IsFraction ('.' :: (ds ++ more)) (n * 10 ^ (9 - ds.length))

def IsClock (w : List Char) (clock : Clock) : Prop :=
  ∃ hour first minute second' second fraction,
    AfterBlanks (IsNumber (some 2)) hour clock.hour ∧ IsMark ':' first ∧
      AfterBlanks (IsNumber (some 2)) minute clock.minute ∧ IsMark ':' second' ∧
        AfterBlanks (IsNumber (some 2)) second clock.second ∧
          IsFraction fraction clock.nanosecond ∧
            w = hour ++ (first ++ (minute ++ (second' ++ (second ++ fraction))))

/-- What a clock can show; a sixtieth second is a leap second. -/
def Clock.IsShown (clock : Clock) : Prop :=
  clock.hour ≤ 23 ∧ clock.minute ≤ 59 ∧ clock.second ≤ 60

def IsOffset (w : List Char) (seconds : Nat) : Prop :=
  ∃ a b between c d, isDigit a = true ∧ isDigit b = true ∧
    (∀ x ∈ between, (x == ':' || Text.isBlank x) = true) ∧ ('0' ≤ c ∧ c ≤ '5' ∧ isDigit d = true) ∧
      w = a :: b :: (between ++ [c, d]) ∧
        seconds = digitsValue [a, b] * 3600 + digitsValue [c, d] * 60

inductive IsZone : List Char → Int → Prop
  | named {w : List Char} : w.map Char.toUpper = ['U', 'T', 'C'] → IsZone w 0
  | zero {c : Char} : c = 'Z' ∨ c = 'z' → IsZone [c] 0
  | ahead {w : List Char} {n : Nat} : IsOffset w n → IsZone ('+' :: w) n
  | behind {c : Char} {w : List Char} {n : Nat} : c = '-' ∨ c = '\u2212' → IsOffset w n →
      IsZone (c :: w) (-n)

/-- The instant that a date and a clock show in a zone. A leap second is the second before it, with
a thousand million nanoseconds more. -/
def shown (date : Date) (clock : Clock) (ahead : Int) : Instant :=
  ofLocal date.dayNumber
    (clock.hour * 3600 + clock.minute * 60 + (clock.second - clock.second / 60))
    (clock.nanosecond + clock.second / 60 * 1000000000) ahead

structure Names (date : Date) (clock : Clock) (ahead : Int) (t : Instant) : Prop where
  valid : date.IsValid
  near : -86400 < ahead ∧ ahead < 86400
  same : t = shown date clock ahead
  inRange : t.inRange = true

/-- A timestamp as it is taken. -/
def IsTimestamp (w : List Char) (t : Instant) : Prop :=
  ∃ date clock ahead day divider time zone blanks, IsDate day date ∧
    (divider = 't' ∨ divider = 'T' ∨ divider = ' ') ∧ IsClock time clock ∧ clock.IsShown ∧
      AfterBlanks IsZone zone ahead ∧ IsBlanks blanks ∧ Names date clock ahead t ∧
        w = day ++ divider :: (time ++ (zone ++ blanks))

structure IsFixed (width : Nat) (w : List Char) (n : Nat) : Prop where
  length : w.length = width
  digits : ∀ c ∈ w, isDigit c = true
  value : digitsValue w = n

inductive IsStandardZone : List Char → Int → Prop
  | zero {c : Char} : c = 'Z' ∨ c = 'z' → IsStandardZone [c] 0
  | ahead {hours minutes : List Char} {h m : Nat} : IsFixed 2 hours h → h ≤ 23 →
      IsFixed 2 minutes m → m ≤ 59 →
      IsStandardZone ('+' :: (hours ++ ':' :: minutes)) ((h * 3600 + m * 60 : Nat) : Int)
  | behind {hours minutes : List Char} {h m : Nat} : IsFixed 2 hours h → h ≤ 23 →
      IsFixed 2 minutes m → m ≤ 59 →
      IsStandardZone ('-' :: (hours ++ ':' :: minutes)) (-((h * 3600 + m * 60 : Nat) : Int))

/-- A timestamp of RFC 3339. -/
def IsStandardTimestamp (w : List Char) (t : Instant) : Prop :=
  ∃ (date : Date) (clock : Clock) (ahead : Int) (n : Nat) (year month day : List Char)
    (divider : Char) (hour minute second fraction zone : List Char),
    IsFixed 4 year n ∧ date.year = n ∧ IsFixed 2 month date.month ∧ IsFixed 2 day date.day ∧
      date.IsValid ∧ (divider = 't' ∨ divider = 'T' ∨ divider = ' ') ∧
        IsFixed 2 hour clock.hour ∧ IsFixed 2 minute clock.minute ∧ IsFixed 2 second clock.second ∧
          clock.IsShown ∧ IsFraction fraction clock.nanosecond ∧ IsStandardZone zone ahead ∧
            t = shown date clock ahead ∧
              w = year ++ '-' :: (month ++ '-' :: (day ++ divider :: (hour ++ ':' :: (minute ++
                ':' :: (second ++ (fraction ++ zone))))))

theorem get_eq (s : List Char) : (get : Reader (List Char)) s = .ok (s, s) := rfl

theorem set_eq (s t : List Char) : (set t : Reader Unit) s = .ok ((), t) := rfl

theorem pure_eq {α : Type} (a : α) (s : List Char) : (pure a : Reader α) s = .ok (a, s) := rfl

theorem isBlank_of_isDigit (h : isDigit c = true) : Text.isBlank c = false := by
  unfold isDigit at h
  rw [Bool.and_eq_true, decide_eq_true_eq, decide_eq_true_eq] at h
  have low : 48 ≤ c.toNat := h.1
  have top : c.toNat ≤ 57 := h.2
  unfold Text.isBlank
  simp only [Bool.or_eq_false_iff, Bool.and_eq_false_iff, decide_eq_false_iff_not,
    beq_eq_false_iff_ne]
  omega

theorem isDigit_of_isBlank (h : Text.isBlank c = true) : isDigit c = false := by
  rw [← Bool.not_eq_true]
  intro digit
  rw [isBlank_of_isDigit digit] at h
  cases h

theorem IsBlanks.digitless (h : IsBlanks blanks) (rest : Digitless s) :
    Digitless (blanks ++ s) := by
  cases blanks with
  | nil => exact rest
  | cons c blanks =>
    intro d hd
    cases hd
    exact isDigit_of_isBlank (h c List.mem_cons_self)

theorem skipBlanks_sound (h : skipBlanks s = .ok ((), s')) :
    ∃ blanks, IsBlanks blanks ∧ s = blanks ++ s' := by
  cases h
  exact ⟨s.takeWhile Text.isBlank, fun c hc => List.mem_takeWhile_imp hc,
    List.takeWhile_append_dropWhile.symm⟩

theorem skipBlanks_of_head (h : ∀ c ∈ s.head?, Text.isBlank c = false) :
    skipBlanks s = .ok ((), s) := by
  have none : s.dropWhile Text.isBlank = s := by
    cases s with
    | nil => rfl
    | cons c rest => exact List.dropWhile_cons_of_neg (by simp [h c rfl])
  change Except.ok ((), s.dropWhile Text.isBlank) = _
  rw [none]

theorem skipBlanks_complete (h : IsBlanks blanks) (head : ∀ c ∈ s.head?, Text.isBlank c = false) :
    skipBlanks (blanks ++ s) = .ok ((), s) := by
  change Except.ok ((), (blanks ++ s).dropWhile Text.isBlank) = _
  rw [List.dropWhile_append_of_pos h]
  exact skipBlanks_of_head head

theorem digitsValue_concat (ds : List Char) (c : Char) :
    digitsValue (ds ++ [c]) = digitsValue ds * 10 + digitValue c := by
  rw [digitsValue, List.foldl_append]
  rfl

def digitsOf (limit : Option Nat) (s : List Char) : List Char :=
  match limit with
  | some n => (s.take n).takeWhile isDigit
  | none => s.takeWhile isDigit

theorem digitsOf_append (digits : ∀ c ∈ ds, isDigit c = true) (fits : ∀ k ∈ limit, ds.length ≤ k)
    (ends : limit = some ds.length ∨ Digitless s) : digitsOf limit (ds ++ s) = ds := by
  have front : ∀ r : List Char, Digitless r → (ds ++ r).takeWhile isDigit = ds := by
    intro r stop
    rw [List.takeWhile_append_of_pos digits]
    cases r with
    | nil => simp
    | cons c r => simp [stop c rfl]
  cases limit with
  | none => exact front s (ends.resolve_left nofun)
  | some k =>
    have le := fits k rfl
    rw [digitsOf, List.take_append, List.take_of_length_le le]
    rcases ends with same | stop
    · cases same
      rw [Nat.sub_self, List.take_zero]
      exact front [] nofun
    · refine front _ fun c hc => ?_
      cases s with
      | nil => simp at hc
      | cons d r =>
        cases room : k - ds.length with
        | zero => simp [room] at hc
        | succ m =>
          rw [room] at hc
          exact stop c hc

theorem digitsOf_isPrefix (limit : Option Nat) (s : List Char) : digitsOf limit s <+: s := by
  cases limit with
  | none => exact List.takeWhile_prefix isDigit
  | some k => exact (List.takeWhile_prefix isDigit).trans (List.take_prefix k s)

theorem isDigit_of_mem_digitsOf (h : c ∈ digitsOf limit s) : isDigit c = true := by
  cases limit with
  | none => exact List.mem_takeWhile_imp h
  | some k => exact List.mem_takeWhile_imp h

theorem length_digitsOf_le : ∀ k ∈ limit, (digitsOf limit s).length ≤ k := by
  rintro k ⟨⟩
  have le := (List.takeWhile_prefix (l := s.take k) isDigit).length_le
  rw [List.length_take] at le
  exact le.trans (Nat.min_le_left _ _)

theorem digitsOf_ends (limit : Option Nat) (s : List Char) :
    limit = some (digitsOf limit s).length ∨ Digitless (s.drop (digitsOf limit s).length) := by
  have stop : ∀ u r : List Char, u.dropWhile isDigit ≠ [] →
      Digitless ((u ++ r).drop (u.takeWhile isDigit).length) := by
    intro u r more c hc
    have front : (u ++ r).drop (u.takeWhile isDigit).length = u.dropWhile isDigit ++ r := by
      conv_lhs => rw [← List.takeWhile_append_dropWhile (p := isDigit) (l := u), List.append_assoc]
      rw [List.drop_left' (by simp)]
    rw [front, List.head?_append_of_ne_nil _ more] at hc
    have head := List.head?_dropWhile_not isDigit u
    rw [Option.mem_def.mp hc] at head
    simpa using head
  cases limit with
  | none =>
    right
    by_cases more : s.dropWhile isDigit = []
    · have all : s.takeWhile isDigit = s := by
        conv_rhs => rw [← List.takeWhile_append_dropWhile (p := isDigit) (l := s), more]
        rw [List.append_nil]
      rw [digitsOf, all, List.drop_length]
      rintro _ ⟨⟩
    · have ends := stop s [] more
      rwa [List.append_nil] at ends
  | some k =>
    by_cases more : (s.take k).dropWhile isDigit = []
    · have all : (s.take k).takeWhile isDigit = s.take k := by
        conv_rhs => rw [← List.takeWhile_append_dropWhile (p := isDigit) (l := s.take k), more]
        rw [List.append_nil]
      rw [digitsOf, all, List.length_take]
      rcases Nat.le_total k s.length with le | le
      · exact .inl (by rw [Nat.min_eq_left le])
      · rw [Nat.min_eq_right le, List.drop_length]
        right
        rintro _ ⟨⟩
    · have ends := stop (s.take k) (s.drop k) more
      rw [List.take_append_drop] at ends
      exact .inr ends

theorem readNumber_sound (room : ∀ k ∈ limit, 0 < k) (h : readNumber limit s = .ok (n, s')) :
    ∃ w, IsNumber limit w n ∧ s = w ++ s' ∧ (limit = some w.length ∨ Digitless s') := by
  cases s with
  | nil => cases h
  | cons c t =>
    rw [readNumber, bind_of_read (get_eq _)] at h
    dsimp only at h
    split at h
    · rename_i digit
      change (if digitsValue (digitsOf limit (c :: t)) < 2 ^ 63 then (do
        set ((c :: t).drop (digitsOf limit (c :: t)).length)
        pure (digitsValue (digitsOf limit (c :: t)))) else throw Fault.outOfRange : Reader Nat)
          (c :: t) = _ at h
      have ne : digitsOf limit (c :: t) ≠ [] := by
        cases limit with
        | none => simp [digitsOf, digit]
        | some k =>
          obtain ⟨k, rfl⟩ := Nat.exists_eq_succ_of_ne_zero (room k rfl).ne'
          simp [digitsOf, digit]
      split at h
      · cases h
        obtain ⟨rest, e⟩ := digitsOf_isPrefix limit (c :: t)
        refine ⟨_, ⟨ne, fun d => isDigit_of_mem_digitsOf, length_digitsOf_le, rfl⟩, ?_,
          digitsOf_ends limit (c :: t)⟩
        exact (List.prefix_iff_eq_append.mp (digitsOf_isPrefix limit (c :: t))).symm
      · cases h
    · cases h

theorem readNumber_of_ends (h : IsNumber limit w n) (small : n < 2 ^ 63)
    (ends : limit = some w.length ∨ Digitless s) : readNumber limit (w ++ s) = .ok (n, s) := by
  obtain ⟨ne, digits, fits, rfl⟩ := h
  have taken := digitsOf_append digits fits ends
  have dropped : (w ++ s).drop w.length = s := List.drop_left
  obtain ⟨c, more, rfl⟩ := List.exists_cons_of_ne_nil ne
  rw [List.cons_append] at taken dropped
  rw [readNumber, bind_of_read (get_eq _), List.cons_append]
  dsimp only
  rw [if_pos (digits c List.mem_cons_self)]
  change (if digitsValue (digitsOf limit (c :: (more ++ s))) < 2 ^ 63 then (do
    set ((c :: (more ++ s)).drop (digitsOf limit (c :: (more ++ s))).length)
    pure (digitsValue (digitsOf limit (c :: (more ++ s)))))
    else throw Fault.outOfRange : Reader Nat) (c :: (more ++ s)) = _
  rw [taken, if_pos small, dropped]
  rfl

theorem readNumber_complete (h : IsNumber limit w n) (small : n < 2 ^ 63) (ends : Digitless s) :
    readNumber limit (w ++ s) = .ok (n, s) :=
  readNumber_of_ends h small (.inr ends)

theorem IsNumber.head (h : IsNumber limit w n) : ∃ c more, w = c :: more ∧ isDigit c = true := by
  obtain ⟨c, more, rfl⟩ := List.exists_cons_of_ne_nil h.ne_nil
  exact ⟨c, more, rfl, h.digits c List.mem_cons_self⟩

theorem digitsValue_lt (ds : List Char) (digits : ∀ c ∈ ds, isDigit c = true) :
    digitsValue ds < 10 ^ ds.length := by
  induction ds using List.reverseRecOn with
  | nil => exact Nat.one_pos
  | append_singleton ds d ih =>
    have digit := digits d (by simp)
    have less := ih fun c hc => digits c (by simp [hc])
    have value : digitValue d ≤ 9 := by
      unfold isDigit at digit
      rw [Bool.and_eq_true, decide_eq_true_eq, decide_eq_true_eq] at digit
      have top : d.toNat ≤ 57 := digit.2
      unfold digitValue
      omega
    rw [digitsValue_concat, List.length_append, List.length_singleton, Nat.pow_succ]
    omega

theorem IsNumber.lt {k : Nat} (h : IsNumber (some k) w n) : n < 10 ^ k := by
  rw [← h.value]
  exact (digitsValue_lt w h.digits).trans_le (Nat.pow_le_pow_right (by decide) (h.fits k rfl))

theorem readMark_sound (h : readMark mark s = .ok ((), s')) :
    ∃ w, IsMark mark w ∧ s = w ++ s' := by
  rw [readMark, read_bind_iff] at h
  obtain ⟨_, t, blank, h⟩ := h
  obtain ⟨blanks, isBlanks, rfl⟩ := skipBlanks_sound blank
  rw [bind_of_read (get_eq _)] at h
  cases t with
  | nil => cases h
  | cons c t =>
    dsimp only at h
    split at h
    · rename_i same
      subst same
      cases h
      exact ⟨blanks ++ [c], ⟨blanks, isBlanks, rfl⟩, by simp⟩
    · cases h

theorem readMark_complete (plain : Text.isBlank mark = false) (h : IsMark mark w) (s : List Char) :
    readMark mark (w ++ s) = .ok ((), s) := by
  obtain ⟨blanks, isBlanks, rfl⟩ := h
  have head : skipBlanks (blanks ++ [mark] ++ s) = .ok ((), mark :: s) := by
    rw [List.append_assoc]
    exact skipBlanks_complete isBlanks (by simpa using plain)
  rw [readMark, bind_of_read head, bind_of_read (get_eq _)]
  dsimp only
  rw [if_pos rfl]
  rfl

theorem IsMark.digitless (h : IsMark mark w) (plain : isDigit mark = false) (s : List Char) :
    Digitless (w ++ s) := by
  obtain ⟨blanks, isBlanks, rfl⟩ := h
  rw [List.append_assoc]
  exact isBlanks.digitless (by simpa [Digitless] using plain)

theorem readBounded_sound {low high : Nat} (h : readBounded low high s = .ok (n, s')) :
    (low ≤ n ∧ n ≤ high) ∧ ∃ w, AfterBlanks (IsNumber (some 2)) w n ∧ s = w ++ s' := by
  rw [readBounded] at h
  simp only [read_bind_iff] at h
  obtain ⟨_, t, blank, m, u, number, h⟩ := h
  obtain ⟨blanks, isBlanks, rfl⟩ := skipBlanks_sound blank
  obtain ⟨w, isNumber, rfl, -⟩ := readNumber_sound (by simp) number
  split at h
  · rename_i within
    cases h
    exact ⟨within, blanks ++ w, ⟨blanks, w, isBlanks, isNumber, rfl⟩, by simp⟩
  · cases h

theorem readBounded_complete {low high : Nat} (h : AfterBlanks (IsNumber (some 2)) w n)
    (within : low ≤ n ∧ n ≤ high) (ends : Digitless s) :
    readBounded low high (w ++ s) = .ok (n, s) := by
  obtain ⟨blanks, v, isBlanks, number, rfl⟩ := h
  have small := number.lt
  obtain ⟨c, more, e, digit⟩ := number.head
  have head : skipBlanks (blanks ++ v ++ s) = .ok ((), v ++ s) := by
    rw [List.append_assoc]
    refine skipBlanks_complete isBlanks ?_
    rw [e]
    simpa using isBlank_of_isDigit digit
  rw [readBounded, bind_of_read head, bind_of_read (readNumber_complete number (by omega) ends),
    if_pos within]
  rfl

theorem readYear_sound {year : Int} (h : readYear s = .ok (year, s')) :
    ∃ w, AfterBlanks IsYear w year ∧ s = w ++ s' := by
  rw [readYear, read_bind_iff] at h
  obtain ⟨_, t, blank, h⟩ := h
  obtain ⟨blanks, isBlanks, rfl⟩ := skipBlanks_sound blank
  have checked : ∀ {year' : Int} {u : List Char},
      (if -2 ^ 31 ≤ year' ∧ year' < 2 ^ 31 then pure year' else throw Fault.outOfRange :
        Reader Int) u = .ok (year, s') → year' = year ∧ u = s' := by
    intro year' u h
    split at h
    · cases h
      exact ⟨rfl, rfl⟩
    · cases h
  suffices found : ∃ w, IsYear w year ∧ t = w ++ s' by
    obtain ⟨w, isYear, rfl⟩ := found
    exact ⟨blanks ++ w, ⟨blanks, w, isBlanks, isYear, rfl⟩, by simp⟩
  rw [bind_of_read (get_eq _)] at h
  split at h
  · rw [bind_of_read (set_eq _ _)] at h
    simp only [read_bind_iff] at h
    obtain ⟨m, v, number, _, _, ⟨⟩, h⟩ := h
    obtain ⟨rfl, rfl⟩ := checked h
    obtain ⟨w, isNumber, rfl, -⟩ := readNumber_sound (by simp) number
    exact ⟨_, .minus isNumber, rfl⟩
  · rw [bind_of_read (set_eq _ _)] at h
    simp only [read_bind_iff] at h
    obtain ⟨m, v, number, _, _, ⟨⟩, h⟩ := h
    obtain ⟨rfl, rfl⟩ := checked h
    obtain ⟨w, isNumber, rfl, -⟩ := readNumber_sound (by simp) number
    exact ⟨_, .plus isNumber, rfl⟩
  · simp only [read_bind_iff] at h
    obtain ⟨m, v, number, _, _, ⟨⟩, h⟩ := h
    obtain ⟨rfl, rfl⟩ := checked h
    obtain ⟨w, isNumber, rfl, -⟩ := readNumber_sound (by simp) number
    exact ⟨_, .plain isNumber, rfl⟩

theorem readYear_complete {year : Int} (h : AfterBlanks IsYear w year)
    (low : -2 ^ 31 ≤ year) (top : year < 2 ^ 31) (ends : Digitless s) :
    readYear (w ++ s) = .ok (year, s) := by
  obtain ⟨blanks, v, isBlanks, isYear, rfl⟩ := h
  rw [List.append_assoc, readYear]
  cases isYear with
  | minus number =>
    rw [bind_of_read (skipBlanks_complete isBlanks (by simp; rfl)), bind_of_read (get_eq _)]
    simp only [List.cons_append]
    rw [bind_of_read (set_eq _ _), bind_of_read (readNumber_complete number (by omega) ends),
      bind_of_read (pure_eq _ _), if_pos ⟨low, top⟩]
    rfl
  | plus number =>
    rw [bind_of_read (skipBlanks_complete isBlanks (by simp; rfl)), bind_of_read (get_eq _)]
    simp only [List.cons_append]
    rw [bind_of_read (set_eq _ _), bind_of_read (readNumber_complete number (by omega) ends),
      bind_of_read (pure_eq _ _), if_pos ⟨low, top⟩]
    rfl
  | plain number =>
    have read := readNumber_complete number (by omega) ends
    obtain ⟨c, more, rfl, digit⟩ := number.head
    have dash : c ≠ '-' := by
      rintro rfl
      cases digit
    have plus : c ≠ '+' := by
      rintro rfl
      cases digit
    rw [bind_of_read (skipBlanks_complete isBlanks (by simpa using isBlank_of_isDigit digit)),
      bind_of_read (get_eq _)]
    rw [List.cons_append] at read ⊢
    simp only [List.cons.injEq, dash, plus, false_and, imp_self, implies_true]
    rw [bind_of_read read, bind_of_read (pure_eq _ _), if_pos ⟨low, top⟩]
    rfl

theorem readDate_sound {date : Date} (h : readDate s = .ok (date, s')) :
    ∃ w, IsDate w date ∧ s = w ++ s' := by
  rw [readDate] at h
  simp only [read_bind_iff] at h
  obtain ⟨year, _, readYear, _, _, readFirst, month, _, readMonth, _, _, readSecond, day, _,
    readDay, done⟩ := h
  obtain ⟨yearText, isYear, rfl⟩ := readYear_sound readYear
  obtain ⟨first, isFirst, rfl⟩ := readMark_sound readFirst
  obtain ⟨-, monthText, isMonth, rfl⟩ := readBounded_sound readMonth
  obtain ⟨second, isSecond, rfl⟩ := readMark_sound readSecond
  obtain ⟨-, dayText, isDay, rfl⟩ := readBounded_sound readDay
  cases done
  exact ⟨_, ⟨yearText, first, monthText, second, dayText, isYear, isFirst, isMonth, isSecond, isDay,
    rfl⟩, by simp⟩

theorem readDate_complete {date : Date} (h : IsDate w date) (valid : date.IsValid)
    (ends : Digitless s) : readDate (w ++ s) = .ok (date, s) := by
  obtain ⟨year, first, month, second, day, isYear, isFirst, isMonth, isSecond, isDay, rfl⟩ := h
  obtain ⟨early, late, low, top, one, within⟩ := valid
  have most := Date.monthLength_le date.year date.month
  rw [Date.firstYear] at early
  rw [Date.lastYear] at late
  have form : year ++ (first ++ (month ++ (second ++ day))) ++ s =
      year ++ (first ++ (month ++ (second ++ (day ++ s)))) := by simp
  rw [form, readDate, bind_of_read (readYear_complete isYear (by omega) (by omega)
      (isFirst.digitless rfl _)), bind_of_read (readMark_complete rfl isFirst _),
    bind_of_read (readBounded_complete isMonth ⟨low, top⟩ (isSecond.digitless rfl _)),
    bind_of_read (readMark_complete rfl isSecond _),
    bind_of_read (readBounded_complete isDay ⟨one, by omega⟩ ends)]
  rfl

theorem readFraction_of_ne (h : s.head? ≠ some '.') : readFraction s = .ok (0, s) := by
  unfold readFraction
  rw [bind_of_read (get_eq _)]
  split
  · exact absurd rfl h
  · rfl

private theorem readFraction_of_number {t : List Char} (h : readNumber (some 9) s = .ok (n, t)) :
    readFraction ('.' :: s) = .ok (n * 10 ^ (9 - (s.length - t.length)), t.dropWhile isDigit) := by
  unfold readFraction
  rw [bind_of_read (get_eq _)]
  simp only []
  rw [bind_of_read (set_eq _ _), bind_of_read h, bind_of_read (get_eq _)]
  rfl

theorem readFraction_sound (h : readFraction s = .ok (n, s')) :
    ∃ w, IsFraction w n ∧ s = w ++ s' := by
  by_cases point : s.head? = some '.'
  · obtain ⟨t, rfl⟩ := List.head?_eq_some_iff.mp point
    have start := h
    unfold readFraction at start
    rw [bind_of_read (get_eq _)] at start
    simp only [] at start
    rw [bind_of_read (set_eq _ _)] at start
    obtain ⟨m, u, number, -⟩ := read_bind_iff.mp start
    rw [readFraction_of_number number] at h
    cases h
    obtain ⟨ds, isNumber, rfl, ends⟩ := readNumber_sound (by simp) number
    have used : (ds ++ u).length - u.length = ds.length := by
      rw [List.length_append, Nat.add_sub_cancel]
    refine ⟨'.' :: (ds ++ u.takeWhile isDigit), ?_, ?_⟩
    · rw [used]
      refine .point isNumber (fun c hc => List.mem_takeWhile_imp hc) ?_
      rcases ends with full | ends
      · exact .inr (Option.some.inj full).symm
      · left
        cases u with
        | nil => rfl
        | cons c u => exact List.takeWhile_cons_of_neg (by simp [ends c rfl])
    · rw [List.cons_append, List.append_assoc, List.takeWhile_append_dropWhile]
  · rw [readFraction_of_ne point] at h
    cases h
    exact ⟨[], .none, rfl⟩

theorem readFraction_complete (h : IsFraction w n) (ends : Digitless s)
    (point : s.head? ≠ some '.') : readFraction (w ++ s) = .ok (n, s) := by
  cases h with
  | none => exact readFraction_of_ne point
  | @point ds more m number digits full =>
    have small := number.lt
    have read : readNumber (some 9) (ds ++ (more ++ s)) = .ok (m, more ++ s) := by
      have ended : some 9 = some ds.length ∨ Digitless (more ++ s) := by
        rcases full with rfl | full
        · exact .inr ends
        · exact .inl (by rw [full])
      exact readNumber_of_ends number (by omega) ended
    have used : (ds ++ (more ++ s)).length - (more ++ s).length = ds.length := by
      rw [List.length_append, Nat.add_sub_cancel]
    have rest : (more ++ s).dropWhile isDigit = s := by
      rw [List.dropWhile_append_of_pos digits]
      cases s with
      | nil => rfl
      | cons c s => exact List.dropWhile_cons_of_neg (by simp [ends c rfl])
    rw [List.cons_append, List.append_assoc, readFraction_of_number read, used, rest]

theorem readClock_sound {clock : Clock} (h : readClock s = .ok (clock, s')) :
    clock.IsShown ∧ ∃ w, IsClock w clock ∧ s = w ++ s' := by
  rw [readClock] at h
  simp only [read_bind_iff] at h
  obtain ⟨hour, _, readHour, _, _, readFirst, minute, _, readMinute, _, _, readSecond', second, _,
    readSecond, nanosecond, _, readFraction, done⟩ := h
  obtain ⟨hours, hourText, isHour, rfl⟩ := readBounded_sound readHour
  obtain ⟨first, isFirst, rfl⟩ := readMark_sound readFirst
  obtain ⟨minutes, minuteText, isMinute, rfl⟩ := readBounded_sound readMinute
  obtain ⟨second', isSecond', rfl⟩ := readMark_sound readSecond'
  obtain ⟨seconds, secondText, isSecond, rfl⟩ := readBounded_sound readSecond
  obtain ⟨fraction, isFraction, rfl⟩ := readFraction_sound readFraction
  cases done
  exact ⟨⟨hours.2, minutes.2, seconds.2⟩, _, ⟨hourText, first, minuteText, second', secondText,
    fraction, isHour, isFirst, isMinute, isSecond', isSecond, isFraction, rfl⟩, by simp⟩

theorem readClock_complete {clock : Clock} (h : IsClock w clock) (shown : clock.IsShown)
    (ends : Digitless s) (point : s.head? ≠ some '.') : readClock (w ++ s) = .ok (clock, s) := by
  obtain ⟨hour, first, minute, second', second, fraction, isHour, isFirst, isMinute, isSecond',
    isSecond, isFraction, rfl⟩ := h
  obtain ⟨hours, minutes, seconds⟩ := shown
  have behind : Digitless (fraction ++ s) := by
    generalize clock.nanosecond = nanosecond at isFraction
    cases isFraction with
    | none => exact ends
    | point => exact fun c hc => by cases hc; rfl
  have form : hour ++ (first ++ (minute ++ (second' ++ (second ++ fraction)))) ++ s =
      hour ++ (first ++ (minute ++ (second' ++ (second ++ (fraction ++ s))))) := by simp
  rw [form, readClock,
    bind_of_read (readBounded_complete isHour ⟨Nat.zero_le _, hours⟩ (isFirst.digitless rfl _)),
    bind_of_read (readMark_complete rfl isFirst _),
    bind_of_read (readBounded_complete isMinute ⟨Nat.zero_le _, minutes⟩
      (isSecond'.digitless rfl _)),
    bind_of_read (readMark_complete rfl isSecond' _),
    bind_of_read (readBounded_complete isSecond ⟨Nat.zero_le _, seconds⟩ behind),
    bind_of_read (readFraction_complete isFraction ends point)]
  rfl

theorem modify_eq (f : List Char → List Char) (s : List Char) :
    (modify f : Reader Unit) s = .ok ((), f s) := rfl

theorem readPair_iff {p : Char × Char} :
    readPair s = .ok (p, s') ↔ s = p.1 :: p.2 :: s' := by
  obtain ⟨a, b⟩ := p
  constructor
  · intro h
    rw [readPair, bind_of_read (get_eq _)] at h
    split at h
    · cases h
      rfl
    · split at h <;> cases h
    · cases h
  · rintro rfl
    rfl

theorem readOffsetMinutes_sound (h : readOffsetMinutes s = .ok (n, s')) :
    ∃ between c d, (∀ x ∈ between, (x == ':' || Text.isBlank x) = true) ∧
      ('0' ≤ c ∧ c ≤ '5' ∧ isDigit d = true) ∧ s = between ++ c :: d :: s' ∧
        n = digitsValue [c, d] := by
  rw [readOffsetMinutes, bind_of_read (modify_eq _ s), read_bind_iff] at h
  obtain ⟨⟨c, d⟩, t, pair, h⟩ := h
  have rest := readPair_iff.mp pair
  dsimp only at h rest
  split at h
  · rename_i digits
    cases h
    refine ⟨s.takeWhile fun c => c == ':' || Text.isBlank c, c, d, fun x hx => ?_, digits, ?_, rfl⟩
    · have colon := List.mem_takeWhile_imp hx
      exact colon
    · rw [← rest, List.takeWhile_append_dropWhile]
  · split at h <;> cases h

theorem readOffsetMinutes_complete {between : List Char} {c d : Char}
    (isBetween : ∀ x ∈ between, (x == ':' || Text.isBlank x) = true)
    (digits : '0' ≤ c ∧ c ≤ '5' ∧ isDigit d = true) (s : List Char) :
    readOffsetMinutes (between ++ c :: d :: s) = .ok (digitsValue [c, d], s) := by
  have digit : isDigit c = true := by
    unfold isDigit
    have le : c ≤ '9' := Char.le_trans digits.2.1 (show '5' ≤ '9' by decide)
    simp [digits.1, le]
  have stop : (c == ':' || Text.isBlank c) = false := by
    rw [isBlank_of_isDigit digit, Bool.or_false, beq_eq_false_iff_ne]
    rintro rfl
    cases digit
  have dropped : ((between ++ c :: d :: s).dropWhile fun c => c == ':' || Text.isBlank c) =
      c :: d :: s := by
    rw [List.dropWhile_append_of_pos isBetween]
    exact List.dropWhile_cons_of_neg (by simp [stop])
  have pair : readPair (c :: d :: s) = .ok ((c, d), s) := readPair_iff.mpr rfl
  rw [readOffsetMinutes, bind_of_read (modify_eq _ _), dropped, bind_of_read pair]
  dsimp only
  rw [if_pos digits]
  rfl

theorem readOffset_iff : readOffset s = .ok (n, s') ↔ ∃ w, IsOffset w n ∧ s = w ++ s' := by
  rw [readOffset, read_bind_iff]
  constructor
  · rintro ⟨⟨a, b⟩, t, pair, h⟩
    obtain rfl := readPair_iff.mp pair
    dsimp only at h
    split at h
    · rename_i digits
      obtain ⟨minutes, u, read, h⟩ := read_bind_iff.mp h
      cases h
      obtain ⟨between, c, d, isBetween, digits', rfl, rfl⟩ := readOffsetMinutes_sound read
      exact ⟨_, ⟨a, b, between, c, d, digits.1, digits.2, isBetween, digits', rfl, rfl⟩, by simp⟩
    · cases h
  · rintro ⟨w, ⟨a, b, between, c, d, first, second, isBetween, digits, rfl, rfl⟩, rfl⟩
    refine ⟨(a, b), between ++ c :: d :: s', readPair_iff.mpr (by simp), ?_⟩
    dsimp only
    rw [if_pos ⟨first, second⟩, bind_of_read (readOffsetMinutes_complete isBetween digits s')]
    rfl

theorem readZone_sound {ahead : Int} (h : readZone s = .ok (ahead, s')) :
    ∃ w, AfterBlanks IsZone w ahead ∧ s = w ++ s' := by
  rw [readZone, read_bind_iff] at h
  obtain ⟨_, t, blank, h⟩ := h
  obtain ⟨blanks, isBlanks, rfl⟩ := skipBlanks_sound blank
  suffices found : ∃ w, IsZone w ahead ∧ t = w ++ s' by
    obtain ⟨w, isZone, rfl⟩ := found
    exact ⟨blanks ++ w, ⟨blanks, w, isBlanks, isZone, rfl⟩, by simp⟩
  rw [bind_of_read (get_eq _)] at h
  split at h
  · rename_i named
    cases h
    exact ⟨t.take 3, .named named, (List.take_append_drop 3 t).symm⟩
  split at h
  · cases h
  · rename_i c rest _
    rw [bind_of_read (set_eq _ _)] at h
    split at h
    · rename_i zero
      cases h
      exact ⟨[c], .zero zero, rfl⟩
    split at h
    · rename_i plus
      subst plus
      obtain ⟨n, u, read, h⟩ := read_bind_iff.mp h
      cases h
      obtain ⟨w, offset, rfl⟩ := readOffset_iff.mp read
      exact ⟨_, .ahead offset, rfl⟩
    split at h
    · rename_i minus
      obtain ⟨n, u, read, h⟩ := read_bind_iff.mp h
      cases h
      obtain ⟨w, offset, rfl⟩ := readOffset_iff.mp read
      exact ⟨_, .behind minus offset, rfl⟩
    · cases h

theorem eq_of_toUpper (h : c.toUpper = 'U') : c = 'U' ∨ c = 'u' := by
  unfold Char.toUpper at h
  split at h
  · right
    have value := congrArg Char.val h
    dsimp only at value
    apply Char.ext
    grind
  · exact .inl h

theorem IsZone.head {ahead : Int} (h : IsZone w ahead) : ∃ c more, w = c :: more ∧
    isDigit c = false ∧ c ≠ '.' ∧ Text.isBlank c = false := by
  cases h with
  | named named =>
    obtain ⟨c, more, rfl, first, -⟩ := List.map_eq_cons_iff.mp named
    rcases eq_of_toUpper first with rfl | rfl
    · exact ⟨_, _, rfl, rfl, by decide, rfl⟩
    · exact ⟨_, _, rfl, rfl, by decide, rfl⟩
  | zero zero =>
    rcases zero with rfl | rfl
    · exact ⟨_, _, rfl, rfl, by decide, rfl⟩
    · exact ⟨_, _, rfl, rfl, by decide, rfl⟩
  | ahead => exact ⟨_, _, rfl, rfl, by decide, rfl⟩
  | behind minus =>
    rcases minus with rfl | rfl
    · exact ⟨_, _, rfl, rfl, by decide, rfl⟩
    · exact ⟨_, _, rfl, rfl, by decide, rfl⟩

theorem readZone_complete {ahead : Int} (h : AfterBlanks IsZone w ahead) (s : List Char) :
    readZone (w ++ s) = .ok (ahead, s) := by
  obtain ⟨blanks, v, isBlanks, isZone, rfl⟩ := h
  have head : skipBlanks (blanks ++ v ++ s) = .ok ((), v ++ s) := by
    obtain ⟨c, more, e, -, -, plain⟩ := isZone.head
    rw [List.append_assoc, e]
    exact skipBlanks_complete isBlanks (by simpa using plain)
  have unnamed : ∀ {c : Char} {rest : List Char}, c.toUpper ≠ 'U' →
      (((c :: rest).take 3).map Char.toUpper = ['U', 'T', 'C']) = False := by
    intro c rest other
    rw [eq_iff_iff, iff_false, List.take_succ_cons, List.map_cons, List.cons_eq_cons]
    exact fun e => other e.1
  rw [readZone, bind_of_read head, bind_of_read (get_eq _)]
  cases isZone with
  | named named =>
    have three : v.length = 3 := by
      rw [← List.length_map (f := Char.toUpper), named]
      rfl
    have front : (v ++ s).take 3 = v := List.take_left' three
    rw [front, if_pos named]
    change Except.ok (0, (v ++ s).drop 3) = _
    rw [List.drop_left' three]
  | zero zero =>
    rw [List.singleton_append, if_neg]
    · dsimp only
      rw [bind_of_read (set_eq _ _), if_pos zero]
      rfl
    · rw [unnamed (by rcases zero with rfl | rfl <;> decide)]
      exact id
  | ahead offset =>
    rw [List.cons_append, if_neg (by rw [unnamed (by decide)]; exact id)]
    dsimp only
    rw [bind_of_read (set_eq _ _), if_neg (by decide), if_pos rfl,
      bind_of_read (readOffset_iff.mpr ⟨_, offset, rfl⟩)]
    rfl
  | @behind c w n minus offset =>
    have other : ¬ (c = 'Z' ∨ c = 'z') ∧ c ≠ '+' ∧ c.toUpper ≠ 'U' := by
      rcases minus with rfl | rfl <;> decide
    rw [List.cons_append, if_neg (by rw [unnamed other.2.2]; exact id)]
    dsimp only
    rw [bind_of_read (set_eq _ _), if_neg other.1, if_neg other.2.1, if_pos minus,
      bind_of_read (readOffset_iff.mpr ⟨_, offset, rfl⟩)]
    rfl

theorem assemble_eq_ok_iff {date : Date} {clock : Clock} {ahead : Int} {t : Instant} :
    assemble date clock ahead = .ok t ↔ Names date clock ahead t := by
  unfold assemble
  constructor
  · intro h
    split at h
    · cases h
    · rename_i valid
      split at h
      · cases h
      · rename_i near
        dsimp only at h
        split at h
        · rename_i inRange
          cases h
          exact ⟨not_not.mp valid, by omega, rfl, inRange⟩
        · cases h
  · rintro ⟨valid, near, rfl, inRange⟩
    rw [if_neg (not_not.mpr valid), if_neg (by omega)]
    exact if_pos inRange

theorem readDivider_iff : readDivider s = .ok ((), s') ↔
    ∃ c, (c = 't' ∨ c = 'T' ∨ c = ' ') ∧ s = c :: s' := by
  rw [readDivider, bind_of_read (get_eq _)]
  cases s with
  | nil => exact ⟨nofun, nofun⟩
  | cons c rest =>
    dsimp only
    constructor
    · intro h
      split at h
      · rename_i divider
        cases h
        exact ⟨c, divider, rfl⟩
      · cases h
    · rintro ⟨_, divider, ⟨⟩⟩
      rw [if_pos divider]
      rfl

theorem parse_eq_ok_iff {text : String} {t : Instant} :
    parse text = .ok t ↔ IsTimestamp text.toList t := by
  have run : parse text = .ok t ↔ ∃ date clock ahead blanks,
      readParts text.toList = .ok ((date, clock, ahead), blanks) ∧ blanks.all Text.isBlank = true ∧
        assemble date clock ahead = .ok t := by
    unfold parse
    change (readParts text.toList >>= _) = _ ↔ _
    cases readParts text.toList with
    | error fault => exact ⟨nofun, nofun⟩
    | ok result =>
      obtain ⟨⟨date, clock, ahead⟩, rest⟩ := result
      change (if rest.all Text.isBlank then assemble date clock ahead else .error .trailing) = _ ↔ _
      constructor
      · intro h
        split at h
        · rename_i blank
          exact ⟨date, clock, ahead, rest, rfl, blank, h⟩
        · cases h
      · rintro ⟨_, _, _, _, ⟨⟩, blank, h⟩
        rw [if_pos blank]
        exact h
  rw [run]
  constructor
  · rintro ⟨date, clock, ahead, blanks, parts, blank, named⟩
    rw [readParts] at parts
    simp only [read_bind_iff] at parts
    obtain ⟨_, _, readDate, _, _, divided, _, _, readClock, _, _, readZone, done⟩ := parts
    obtain ⟨day, isDate, form⟩ := readDate_sound readDate
    obtain ⟨divider, isDivider, rfl⟩ := readDivider_iff.mp divided
    obtain ⟨shown, time, isClock, rfl⟩ := readClock_sound readClock
    obtain ⟨zone, isZone, rfl⟩ := readZone_sound readZone
    cases done
    exact ⟨date, clock, ahead, day, divider, time, zone, blanks, isDate, isDivider, isClock, shown,
      isZone, List.all_eq_true.mp blank, assemble_eq_ok_iff.mp named, form⟩
  · rintro ⟨date, clock, ahead, day, divider, time, zone, blanks, isDate, isDivider, isClock, shown,
      isZone, blank, names, form⟩
    refine ⟨date, clock, ahead, blanks, ?_, List.all_eq_true.mpr blank,
      assemble_eq_ok_iff.mpr names⟩
    have behindDate : Digitless (divider :: (time ++ (zone ++ blanks))) := by
      intro c hc
      cases hc
      rcases isDivider with rfl | rfl | rfl <;> rfl
    have behindClock : Digitless (zone ++ blanks) ∧ (zone ++ blanks).head? ≠ some '.' := by
      obtain ⟨before, v, isBlanks, isZone, rfl⟩ := isZone
      obtain ⟨c, more, rfl, digit, point, -⟩ := isZone.head
      rw [List.append_assoc]
      constructor
      · exact isBlanks.digitless fun d hd => by cases hd; exact digit
      · cases before with
        | nil => simpa using point
        | cons d before =>
          rintro ⟨⟩
          cases isBlanks '.' List.mem_cons_self
    rw [form, readParts, bind_of_read (readDate_complete isDate names.valid behindDate),
      bind_of_read (readDivider_iff.mpr ⟨divider, isDivider, rfl⟩),
      bind_of_read (readClock_complete isClock shown behindClock.1 behindClock.2),
      bind_of_read (readZone_complete isZone blanks)]
    rfl

theorem IsFixed.number {width : Nat} (h : IsFixed width w n) (pos : 0 < width) :
    IsNumber (some width) w n where
  ne_nil := List.length_pos_iff.mp (h.length ▸ pos)
  digits := h.digits
  fits := by
    rintro _ ⟨⟩
    exact h.length.le
  value := h.value

theorem AfterBlanks.of_none {Form : List Char → α → Prop} {a : α} (h : Form w a) :
    AfterBlanks Form w a := ⟨[], w, nofun, h, rfl⟩

theorem isMark_singleton (mark : Char) : IsMark mark [mark] := ⟨[], nofun, rfl⟩

private theorem isOffset_of_fixed {hours minutes : List Char} {h m : Nat}
    (isHours : IsFixed 2 hours h) (isMinutes : IsFixed 2 minutes m) (top : m ≤ 59) :
    IsOffset (hours ++ ':' :: minutes) (h * 3600 + m * 60) := by
  obtain ⟨a, b, rfl⟩ := List.length_eq_two.mp isHours.length
  obtain ⟨c, d, rfl⟩ := List.length_eq_two.mp isMinutes.length
  have digit := isMinutes.digits c (by simp)
  refine ⟨a, b, [':'], c, d, isHours.digits a (by simp), isHours.digits b (by simp), by simp,
    ⟨?_, ?_, isMinutes.digits d (by simp)⟩, rfl, by rw [isHours.value, isMinutes.value]⟩
  · unfold isDigit at digit
    rw [Bool.and_eq_true, decide_eq_true_eq] at digit
    exact digit.1
  · have value : digitValue c * 10 + digitValue d = m := by
      rw [← isMinutes.value]
      simp [digitsValue]
    have small : c.toNat ≤ 53 := by
      unfold digitValue at value
      omega
    exact small

theorem IsStandardZone.zone {ahead : Int} (h : IsStandardZone w ahead) :
    IsZone w ahead ∧ -86400 < ahead ∧ ahead < 86400 := by
  cases h with
  | zero zero => exact ⟨.zero zero, by decide⟩
  | ahead hours early minutes late =>
    exact ⟨.ahead (isOffset_of_fixed hours minutes late), by omega⟩
  | behind hours early minutes late =>
    exact ⟨.behind (.inl rfl) (isOffset_of_fixed hours minutes late), by omega⟩

theorem inRange_shown {date : Date} {clock : Clock} {ahead : Int} (valid : date.IsValid)
    (years : 0 ≤ date.year ∧ date.year ≤ 9999) (clocked : clock.IsShown)
    (near : -86400 < ahead ∧ ahead < 86400) : (shown date clock ahead).inRange = true := by
  obtain ⟨-, -, low, top, one, within⟩ := valid
  obtain ⟨hours, minutes, seconds⟩ := clocked
  have most := Date.monthLength_le date.year date.month
  have days : -800000 ≤ date.dayNumber ∧ date.dayNumber ≤ 4000000 := by
    unfold Date.dayNumber
    dsimp only
    split <;> omega
  have first : Date.dayNumber ⟨Date.firstYear, 1, 1⟩ ≤ -1000000 := by decide
  have last : 5000000 ≤ Date.dayNumber ⟨Date.lastYear, 12, 31⟩ := by decide
  rw [inRange, decide_eq_true_eq]
  unfold shown ofLocal
  dsimp only
  omega

theorem IsStandardTimestamp.timestamp {t : Instant} (h : IsStandardTimestamp w t) :
    IsTimestamp w t := by
  obtain ⟨date, clock, ahead, n, year, month, day, divider, hour, minute, second, fraction, zone,
    isYear, years, isMonth, isDay, valid, isDivider, isHour, isMinute, isSecond, clocked,
    isFraction, isZone, same, rfl⟩ := h
  have plain : IsYear year date.year := by
    rw [years]
    exact .plain (isYear.number (by decide))
  have small : n < 10000 := (isYear.number (by decide)).lt
  have inRange := inRange_shown valid (by omega) clocked isZone.zone.2
  refine ⟨date, clock, ahead, year ++ (['-'] ++ (month ++ (['-'] ++ day))), divider,
    hour ++ ([':'] ++ (minute ++ ([':'] ++ (second ++ fraction)))), zone, [],
    ⟨year, ['-'], month, ['-'], day, .of_none plain, isMark_singleton _,
      .of_none (isMonth.number (by decide)), isMark_singleton _,
      .of_none (isDay.number (by decide)), rfl⟩, isDivider,
    ⟨hour, [':'], minute, [':'], second, fraction, .of_none (isHour.number (by decide)),
      isMark_singleton _, .of_none (isMinute.number (by decide)), isMark_singleton _,
      .of_none (isSecond.number (by decide)), isFraction, rfl⟩, clocked, .of_none isZone.zone.1,
    nofun, ⟨valid, isZone.zone.2, same, same ▸ inRange⟩, by simp⟩

end LayeredTree.Instant
