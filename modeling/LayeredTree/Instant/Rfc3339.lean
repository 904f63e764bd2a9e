import LayeredTree.Bytes
import LayeredTree.Instant.Basic
import LayeredTree.Text.Category

set_option autoImplicit false

namespace LayeredTree.Instant

inductive Fault
  | tooShort
  | unexpected
  | outOfRange
  | trailing
  | impossible
deriving Repr, DecidableEq

def Fault.message : Fault → String
  | tooShort => "premature end of input"
  | unexpected => "input contains invalid characters"
  | outOfRange => "input is out of range"
  | trailing => "trailing input"
  | impossible => "no possible date and time matching input"

def padded (width n : Nat) : List Char :=
  let digits := Nat.toDigits 10 n
  List.replicate (width - digits.length) '0' ++ digits

/-- Years of four digits stand alone; all others carry a sign and at least four digits. -/
def yearText (year : Int) : List Char :=
  if 0 ≤ year ∧ year ≤ 9999 then padded 4 year.toNat
  else (if year < 0 then '-' else '+') :: padded 4 year.natAbs

/-- The fraction of a second: none, three, six or nine digits. -/
def fractionText (nanosecond : Nat) : List Char :=
  if nanosecond = 0 then []
  else if nanosecond % 1000000 = 0 then '.' :: padded 3 (nanosecond / 1000000)
  else if nanosecond % 1000 = 0 then '.' :: padded 6 (nanosecond / 1000)
  else '.' :: padded 9 nanosecond

def written (t : Instant) (zone : String) : List Char :=
  let date := Date.ofDayNumber t.day
  let leap := t.nanosecond / 1000000000
  yearText date.year ++ '-' :: padded 2 date.month ++ '-' :: padded 2 date.day ++
    'T' :: padded 2 (t.second / 3600) ++ ':' :: padded 2 (t.second / 60 % 60) ++
    ':' :: padded 2 (t.second % 60 + leap) ++ fractionText (t.nanosecond % 1000000000) ++
    zone.toList

def text (t : Instant) : String := String.ofList (t.written "Z")

def textWithOffset (t : Instant) : String := String.ofList (t.written "+00:00")

abbrev Reader := StateT (List Char) (Except Fault)

def isDigit (c : Char) : Bool := '0' ≤ c && c ≤ '9'

def digitValue (c : Char) : Nat := c.toNat - 48

def digitsValue (ds : List Char) : Nat := ds.foldl (fun n c => n * 10 + digitValue c) 0

def skipBlanks : Reader Unit := modify (List.dropWhile Text.isBlank)

/-- Reads at least one digit, and at most the given number of them if there is a limit. -/
def readNumber (limit : Option Nat) : Reader Nat := do
  match ← get with
  | [] => throw .tooShort
  | c :: s =>
    if isDigit c then
      let digits := match limit with
        | some n => ((c :: s).take n).takeWhile isDigit
        | none => (c :: s).takeWhile isDigit
      if digitsValue digits < 2 ^ 63 then
        set ((c :: s).drop digits.length)
        pure (digitsValue digits)
      else throw .outOfRange
    else throw .unexpected

def readMark (mark : Char) : Reader Unit := do
  skipBlanks
  match ← get with
  | [] => throw .tooShort
  | c :: rest => if c = mark then set rest else throw .unexpected

/-- Reads a number of at most two digits after blanks and checks it against its range. -/
def readBounded (low high : Nat) : Reader Nat := do
  skipBlanks
  let n ← readNumber (some 2)
  if low ≤ n ∧ n ≤ high then pure n else throw .outOfRange

def readYear : Reader Int := do
  skipBlanks
  let year : Int ← match ← get with
    | '-' :: s => do set s; pure (-(← readNumber none : Int))
    | '+' :: s => do set s; pure (← readNumber none : Int)
    | _ => do pure (← readNumber (some 4) : Int)
  if -(2 ^ 31) ≤ year ∧ year < 2 ^ 31 then pure year else throw .outOfRange

def readDate : Reader Date := do
  let year ← readYear
  readMark '-'
  let month ← readBounded 1 12
  readMark '-'
  let day ← readBounded 1 31
  pure ⟨year, month, day⟩

def readDivider : Reader Unit := do
  match ← get with
  | [] => throw .tooShort
  | c :: rest => if c = 't' ∨ c = 'T' ∨ c = ' ' then set rest else throw .unexpected

/-- Reads a fraction of a second in nanoseconds, if there is one; further digits are dropped. -/
def readFraction : Reader Nat := do
  match ← get with
  | '.' :: s =>
    set s
    let n ← readNumber (some 9)
    let used := s.length - (← get).length
    modify (List.dropWhile isDigit)
    pure (n * 10 ^ (9 - used))
  | _ => pure 0

structure Clock where
  hour : Nat
  minute : Nat
  second : Nat
  nanosecond : Nat

def readClock : Reader Clock := do
  let hour ← readBounded 0 23
  readMark ':'
  let minute ← readBounded 0 59
  readMark ':'
  let second ← readBounded 0 60
  let nanosecond ← readFraction
  pure ⟨hour, minute, second, nanosecond⟩

/-- Takes two characters that must be there. A single character beyond ASCII takes up the room of
two digits and is refused as such. -/
def readPair : Reader (Char × Char) := do
  match ← get with
  | a :: b :: rest => set rest; pure (a, b)
  | [a] => if a.toNat < 128 then throw .tooShort else throw .unexpected
  | [] => throw .tooShort

def readOffsetMinutes : Reader Nat := do
  modify (List.dropWhile fun c => c == ':' || Text.isBlank c)
  let (a, b) ← readPair
  if '0' ≤ a ∧ a ≤ '5' ∧ isDigit b then pure (digitsValue [a, b])
  else if '6' ≤ a ∧ a ≤ '9' ∧ isDigit b then throw .outOfRange
  else throw .unexpected

def readOffset : Reader Nat := do
  let (a, b) ← readPair
  if isDigit a ∧ isDigit b then
    let minutes ← readOffsetMinutes
    pure (digitsValue [a, b] * 3600 + minutes * 60)
  else throw .unexpected

/-- Reads a zone: UTC in either case, Z, or an offset in seconds with a sign. -/
def readZone : Reader Int := do
  skipBlanks
  let s ← get
  if (s.take 3).map Char.toUpper = ['U', 'T', 'C'] then
    set (s.drop 3)
    pure 0
  else match s with
    | [] => throw .tooShort
    | c :: rest =>
      set rest
      if c = 'Z' ∨ c = 'z' then pure 0
      else if c = '+' then pure (← readOffset : Int)
      else if c = '-' ∨ c = '\u2212' then pure (-(← readOffset : Int))
      else throw .unexpected

def assemble (date : Date) (clock : Clock) (ahead : Int) : Except Fault Instant :=
  if ¬ date.IsValid then .error .outOfRange
  else if ahead ≤ -86400 ∨ 86400 ≤ ahead then .error .outOfRange
  else
    let leap := clock.second / 60
    let t := ofLocal date.dayNumber (clock.hour * 3600 + clock.minute * 60 + (clock.second - leap))
      (clock.nanosecond + leap * 1000000000) ahead
    if t.inRange then .ok t else .error .impossible

def readParts : Reader (Date × Clock × Int) := do
  let date ← readDate
  readDivider
  let clock ← readClock
  let ahead ← readZone
  pure (date, clock, ahead)

def parse (s : String) : Except Fault Instant := do
  let ((date, clock, ahead), rest) ← readParts.run s.toList
  if rest.all Text.isBlank then assemble date clock ahead else throw .trailing

end LayeredTree.Instant
