import LayeredTree.Toml.Value

set_option autoImplicit false

namespace LayeredTree.Toml

/-- A step of reading: a value and the characters left over, unless the document is not well
formed. -/
abbrev Reader := StateT (List Char) Option

def isGap (c : Char) : Bool := c == ' ' || c == '\t'

def isPlain (c : Char) : Bool := c == '\t' || (32 ≤ c.toNat && c.toNat != 127)

def skipGap : Reader Unit := modify fun s => s.dropWhile isGap

def expect (c : Char) : Reader Unit
  | [] => none
  | d :: s => if d = c then some ((), s) else none

def expectWord (word : String) : Reader Unit := word.toList.forM expect

/-- Passes over gaps, line breaks and whole comments. The flag says that a comment is open; it ends
with its line. -/
def dropRoom : Bool → List Char → Option (List Char)
  | true, [] => none
  | true, '\n' :: s => dropRoom false s
  | true, '\r' :: '\n' :: s => dropRoom false s
  | true, c :: s => if isPlain c then dropRoom true s else none
  | false, [] => some []
  | false, '\n' :: s => dropRoom false s
  | false, '\r' :: '\n' :: s => dropRoom false s
  | false, '#' :: s => dropRoom true s
  | false, c :: s => if isGap c then dropRoom false s else some (c :: s)

def skipRoom : Reader Unit := fun s => (dropRoom false s).map fun s => ((), s)

def lineBreak : Reader Unit
  | [] => some ((), [])
  | '\n' :: s => some ((), s)
  | '\r' :: '\n' :: s => some ((), s)
  | _ => none

def restOfLine : Reader Unit := do
  skipGap
  match ← get with
  | '#' :: s => set (s.dropWhile isPlain)
  | _ => pure ()
  lineBreak

def hexDigit? (c : Char) : Option Nat :=
  if c.isDigit then some (c.toNat - 48)
  else if 'a' ≤ c ∧ c ≤ 'f' then some (c.toNat - 87)
  else if 'A' ≤ c ∧ c ≤ 'F' then some (c.toNat - 55)
  else none

/-- The character with a number in hexadecimal digits; surrogates are none. -/
def hexChar? (ds : List Char) : Option Char := do
  let n ← ds.foldlM (fun n d => do pure (n * 16 + (← hexDigit? d))) 0
  if 0xD800 ≤ n ∧ n ≤ 0xDFFF ∨ 0x10FFFF < n then none else some (Char.ofNat n)

def escaped? : Char → Option Char
  | 'b' => some '\x08'
  | 't' => some '\t'
  | 'n' => some '\n'
  | 'f' => some '\x0c'
  | 'r' => some '\r'
  | '"' => some '"'
  | '\\' => some '\\'
  | _ => none

def before (c : Char) (rest : Option (List Char × List Char)) : Option (List Char × List Char) :=
  rest.map fun (body, s) => (c :: body, s)

def basicText : List Char → Option (List Char × List Char)
  | [] => none
  | '"' :: s => some ([], s)
  | '\\' :: 'u' :: a :: b :: c :: d :: s => do before (← hexChar? [a, b, c, d]) (basicText s)
  | '\\' :: 'U' :: a :: b :: c :: d :: e :: f :: g :: h :: s => do
    before (← hexChar? [a, b, c, d, e, f, g, h]) (basicText s)
  | '\\' :: e :: s => do before (← escaped? e) (basicText s)
  | c :: s => if isPlain c then before c (basicText s) else none

def literalText : List Char → Option (List Char × List Char)
  | [] => none
  | '\'' :: s => some ([], s)
  | c :: s => if isPlain c then before c (literalText s) else none

/-- Where the reading of a text of several lines stands: in its characters, between a backslash
and the end of its line, or in the gap that such a backslash joins over. -/
inductive LongState
  | inText
  | slash
  | joining
deriving Repr, DecidableEq

/-- A text between three double quotes, from behind its first line break. Up to two quotes before
the closing ones belong to the text. -/
def longBasicText (state : LongState) (s : List Char) : Option (List Char × List Char) :=
  match state, s with
  | .slash, '\n' :: s => longBasicText .joining s
  | .slash, '\r' :: '\n' :: s => longBasicText .joining s
  | .slash, c :: s => if isGap c then longBasicText .slash s else none
  | .joining, '\n' :: s => longBasicText .joining s
  | .joining, '\r' :: '\n' :: s => longBasicText .joining s
  | .joining, c :: s =>
    if isGap c then longBasicText .joining s else longBasicText .inText (c :: s)
  | _, [] => none
  | .inText, '"' :: '"' :: '"' :: '"' :: '"' :: s => some (['"', '"'], s)
  | .inText, '"' :: '"' :: '"' :: '"' :: s => some (['"'], s)
  | .inText, '"' :: '"' :: '"' :: s => some ([], s)
  | .inText, '\n' :: s => before '\n' (longBasicText .inText s)
  | .inText, '\r' :: '\n' :: s => before '\n' (longBasicText .inText s)
  | .inText, '\\' :: 'u' :: a :: b :: c :: d :: s => do
    before (← hexChar? [a, b, c, d]) (longBasicText .inText s)
  | .inText, '\\' :: 'U' :: a :: b :: c :: d :: e :: f :: g :: h :: s => do
    before (← hexChar? [a, b, c, d, e, f, g, h]) (longBasicText .inText s)
  | .inText, '\\' :: e :: s =>
    if isGap e || e == '\n' || e == '\r' then longBasicText .slash (e :: s)
    else do before (← escaped? e) (longBasicText .inText s)
  | .inText, c :: s => if isPlain c then before c (longBasicText .inText s) else none
termination_by 2 * s.length + (if state = .joining then 1 else 0)
decreasing_by all_goals simp_all <;> omega

def longLiteralText : List Char → Option (List Char × List Char)
  | [] => none
  | '\'' :: '\'' :: '\'' :: '\'' :: '\'' :: s => some (['\'', '\''], s)
  | '\'' :: '\'' :: '\'' :: '\'' :: s => some (['\''], s)
  | '\'' :: '\'' :: '\'' :: s => some ([], s)
  | '\n' :: s => before '\n' (longLiteralText s)
  | '\r' :: '\n' :: s => before '\n' (longLiteralText s)
  | c :: s => if isPlain c then before c (longLiteralText s) else none

def dropFirstBreak : List Char → List Char
  | '\n' :: s => s
  | '\r' :: '\n' :: s => s
  | s => s

def readText : Reader String := fun s =>
  let found := match s with
    | '"' :: '"' :: '"' :: s => longBasicText .inText (dropFirstBreak s)
    | '"' :: s => basicText s
    | '\'' :: '\'' :: '\'' :: s => longLiteralText (dropFirstBreak s)
    | '\'' :: s => literalText s
    | _ => none
  found.map fun (body, s) => (String.ofList body, s)

def readName : Reader String := fun s =>
  match s with
  | '"' :: s => (basicText s).map fun (name, s) => (String.ofList name, s)
  | '\'' :: s => (literalText s).map fun (name, s) => (String.ofList name, s)
  | s =>
    if s.takeWhile isBare = [] then none
    else some (String.ofList (s.takeWhile isBare), s.dropWhile isBare)

/-- Reads the names of a key, with points between them; at most as many as counted. -/
def readNames : Nat → Reader (List String)
  | 0 => failure
  | most + 1 => do
    skipGap
    let name ← readName
    skipGap
    match ← get with
    | '.' :: s =>
      set s
      pure (name :: (← readNames most))
    | _ => pure [name]

def deepest : Nat := 79

def readKey : Reader (List String) := readNames deepest

def readDigits (isOne : Char → Bool) : Reader (List Char) := fun s =>
  let rec loop : List Char → Option (List Char × List Char)
    | '_' :: c :: s => if isOne c then before c (loop s) else none
    | '_' :: [] => none
    | c :: s => if isOne c then before c (loop s) else some ([], c :: s)
    | [] => some ([], [])
  match s with
  | c :: s => if isOne c then before c (loop s) else none
  | [] => none

def valueTo (base : Nat) (ds : List Char) : Nat :=
  ds.foldl (fun n d => n * base + (hexDigit? d).getD 0) 0

def wholeNumber? (negative : Bool) (n : Nat) : Option Int :=
  if negative then (if n ≤ 2 ^ 63 then some (-(n : Int)) else none)
  else if n < 2 ^ 63 then some n else none

def readWhole : Reader (List Char) := fun s =>
  match s with
  | '0' :: s => some (['0'], s)
  | s => readDigits Char.isDigit s

def readPower : Reader Int := do
  let (negative, s) := Double.takeSign (← get)
  set s
  let ds ← readDigits Char.isDigit
  pure (if negative then -(Double.digitsValue ds : Int) else Double.digitsValue ds)

def realNumber (value : Double) : Reader Toml :=
  if value = .infinite false then failure else pure (.real value)

def readNumber : Reader Toml := do
  match ← get with
  | '0' :: 'x' :: s => do
    set s
    let ds ← readDigits fun c => (hexDigit? c).isSome
    .integer <$> (wholeNumber? false (valueTo 16 ds) : Option Int)
  | '0' :: 'o' :: s => do
    set s
    let ds ← readDigits fun c => '0' ≤ c && c ≤ '7'
    .integer <$> (wholeNumber? false (valueTo 8 ds) : Option Int)
  | '0' :: 'b' :: s => do
    set s
    let ds ← readDigits fun c => c == '0' || c == '1'
    .integer <$> (wholeNumber? false (valueTo 2 ds) : Option Int)
  | s =>
    let (negative, s) := Double.takeSign s
    set s
    match s with
    | 'i' :: _ => do expectWord "inf"; pure (.real (.infinite negative))
    | 'n' :: _ => do expectWord "nan"; pure (.real .nan)
    | _ =>
      let whole ← readWhole
      match ← get with
      | '.' :: s => do
        set s
        let fraction ← readDigits Char.isDigit
        let power ← match ← get with
          | c :: s =>
            if c = 'e' ∨ c = 'E' then do set s; readPower else pure 0
          | [] => pure 0
        realNumber (Double.ofPieces negative whole fraction power)
      | c :: s =>
        if c = 'e' ∨ c = 'E' then
          set s
          let power ← readPower
          realNumber (Double.ofPieces negative whole [] power)
        else .integer <$> (wholeNumber? negative (Double.digitsValue whole) : Option Int)
      | [] => .integer <$> (wholeNumber? negative (Double.digitsValue whole) : Option Int)

def readField (width low high : Nat) : Reader Nat := fun s =>
  let ds := s.take width
  let n := Double.digitsValue ds
  if ds.length = width ∧ ds.all Char.isDigit ∧ low ≤ n ∧ n ≤ high then some (n, s.drop width)
  else none

def padded (width n : Nat) : String :=
  let ds := Nat.toDigits 10 n
  String.ofList (List.replicate (width - ds.length) '0' ++ ds)

def daysIn (year month : Nat) : Nat :=
  if month = 2 then
    if year % 4 = 0 ∧ (year % 100 ≠ 0 ∨ year % 400 = 0) then 29 else 28
  else if month = 4 ∨ month = 6 ∨ month = 9 ∨ month = 11 then 30
  else 31

def readDate : Reader String := do
  let year ← readField 4 0 9999
  expect '-'
  let month ← readField 2 1 12
  expect '-'
  let day ← readField 2 1 (daysIn year month)
  pure s!"{padded 4 year}-{padded 2 month}-{padded 2 day}"

/-- The digits behind the point of a second: nine at most, without zeros at the end. -/
def fractionText (ds : List Char) : String :=
  let kept := ((ds.take 9).reverse.dropWhile (· == '0')).reverse
  if kept = [] then "" else String.ofList ('.' :: kept)

def readClock (lastHour : Nat) : Reader String := do
  let hour ← readField 2 0 lastHour
  expect ':'
  let minute ← readField 2 0 59
  expect ':'
  let second ← readField 2 0 60
  pure s!"{padded 2 hour}:{padded 2 minute}:{padded 2 second}"

def readTime : Reader String := do
  let clock ← readClock 23
  match ← get with
  | '.' :: c :: s =>
    if c.isDigit then do
      set ((c :: s).dropWhile Char.isDigit)
      pure (clock ++ fractionText ((c :: s).takeWhile Char.isDigit))
    else pure clock
  | _ => pure clock

def readOffset : Reader String := do
  match ← get with
  | c :: s =>
    if c = 'Z' ∨ c = 'z' then do set s; pure "Z"
    else if c = '+' ∨ c = '-' then do
      set s
      let hour ← readField 2 0 23
      expect ':'
      let minute ← readField 2 0 59
      let sign := if c = '-' ∧ 0 < hour * 60 + minute then "-" else "+"
      pure s!"{sign}{padded 2 hour}:{padded 2 minute}"
    else pure ""
  | [] => pure ""

def startsTime : List Char → Bool
  | a :: b :: ':' :: _ => a.isDigit && b.isDigit
  | _ => false

def startsDate (s : List Char) : Bool :=
  (s.take 4).length == 4 && (s.take 4).all Char.isDigit && (s.drop 4).head? == some '-'

def readDateTime : Reader Toml := do
  let date ← readDate
  match ← get with
  | c :: s =>
    if (c = 'T' ∨ c = 't' ∨ c = ' ') ∧ startsTime s then
      set s
      let time ← readTime
      let offset ← readOffset
      pure (.moment s!"{date}T{time}{offset}")
    else pure (.moment date)
  | [] => pure (.moment date)

end LayeredTree.Toml
