import LayeredTree.Bytes
import LayeredTree.Json.Fault

set_option autoImplicit false

namespace LayeredTree.Json

abbrev Reader := StateT Bytes (Except Fault)

def isGap (b : UInt8) : Bool := b == 32 || b == 10 || b == 9 || b == 13

def isDigit (b : UInt8) : Bool := 48 ≤ b && b ≤ 57

def peek : Reader (Option UInt8) := fun s =>
  let s := s.dropWhile isGap
  .ok (s.head?, s)

def skipByte : Reader Unit := modify (List.drop 1)

def readWord : Bytes → Reader Unit
  | [], s => .ok ((), s)
  | _ :: _, [] => .error .endInValue
  | w :: word, b :: s => if b = w then readWord word s else .error .badWord

def nullTail : Bytes := [117, 108, 108]
def trueTail : Bytes := [114, 117, 101]
def falseTail : Bytes := [97, 108, 115, 101]

def hexValue? (b : UInt8) : Option Nat :=
  if 48 ≤ b ∧ b ≤ 57 then some (b.toNat - 48)
  else if 97 ≤ b ∧ b ≤ 102 then some (b.toNat - 87)
  else if 65 ≤ b ∧ b ≤ 70 then some (b.toNat - 55)
  else none

def hexRow? (ds : List UInt8) : Option Nat :=
  ds.foldl (fun acc d => do let n ← acc; let v ← hexValue? d; pure (n * 16 + v)) (some 0)

def escaped? (b : UInt8) : Option UInt8 :=
  if b = 34 ∨ b = 92 ∨ b = 47 then some b
  else if b = 98 then some 8
  else if b = 102 then some 12
  else if b = 110 then some 10
  else if b = 114 then some 13
  else if b = 116 then some 9
  else none

/-- Where the reading of a text stands: between characters, after a backslash, in the digits of a
number escape (after a leading surrogate or not), or between the two halves of a pair. -/
inductive TextState
  | plain
  | escape
  | unit (lead : Option Nat) (digits : List UInt8)
  | afterLead (lead : Nat)
  | afterLeadEscape (lead : Nat)
deriving Repr, DecidableEq

/-- What a finished number escape means: its bytes, or a leading half that waits for the other. -/
def closeUnit (lead : Option Nat) (digits : List UInt8) : Except Fault (Bytes × TextState) :=
  match hexRow? digits with
  | none => .error .badEscape
  | some n =>
    match lead with
    | none =>
      if 0xDC00 ≤ n ∧ n ≤ 0xDFFF then .error .loneSurrogate
      else if 0xD800 ≤ n ∧ n ≤ 0xDBFF then .ok ([], .afterLead n)
      else .ok (String.utf8EncodeChar (Char.ofNat n), .plain)
    | some first =>
      if 0xDC00 ≤ n ∧ n ≤ 0xDFFF then
        .ok (String.utf8EncodeChar
          (Char.ofNat ((first - 0xD800) * 0x400 + (n - 0xDC00) + 0x10000)), .plain)
      else .error .loneSurrogate

def TextState.next (state : TextState) (b : UInt8) : Except Fault (Bytes × TextState) :=
  match state with
  | .plain =>
    if b = 92 then .ok ([], .escape)
    else if b < 32 then .error .controlInText
    else .ok ([b], .plain)
  | .escape =>
    if b = 117 then .ok ([], .unit none [])
    else match escaped? b with
      | some c => .ok ([c], .plain)
      | none => .error .badEscape
  | .unit lead digits =>
    if digits.length < 3 then .ok ([], .unit lead (digits ++ [b]))
    else closeUnit lead (digits ++ [b])
  | .afterLead lead => if b = 92 then .ok ([], .afterLeadEscape lead) else .error .endOfEscape
  | .afterLeadEscape lead =>
    if b = 117 then .ok ([], .unit (some lead) []) else .error .endOfEscape

def readTextBytes (state : TextState) : Reader Bytes
  | [] => .error .endInText
  | b :: s =>
    if state = .plain ∧ b = 34 then .ok ([], s)
    else
      match state.next b with
      | .error fault => .error fault
      | .ok (out, state) => (readTextBytes state s).map fun (rest, s) => (out ++ rest, s)

def readText : Reader String := do
  let bytes ← readTextBytes .plain
  match Bytes.toString? bytes with
  | some s => pure s
  | none => throw .notUnicode

def skipText (state : TextState) : Reader Unit
  | [] => .error .endInText
  | b :: s =>
    match state with
    | .plain =>
      if b = 34 then .ok ((), s)
      else if b = 92 then skipText .escape s
      else if b < 32 then .error .controlInText
      else skipText .plain s
    | .escape =>
      if b = 117 then skipText (.unit none []) s
      else if (escaped? b).isSome then skipText .plain s
      else .error .badEscape
    | .unit lead digits =>
      if digits.length < 3 then skipText (.unit lead (digits ++ [b])) s
      else if (hexRow? (digits ++ [b])).isSome then skipText .plain s
      else .error .badEscape
    | .afterLead _ | .afterLeadEscape _ => skipText .plain s

structure Numeral where
  negative : Bool
  whole : Bytes
  fraction : Option Bytes
  /-- The sign and the digits of a power of ten. -/
  power : Option (Bool × Bytes)
deriving Repr, DecidableEq

def readDigits : Reader Bytes := fun s => .ok (s.takeWhile isDigit, s.dropWhile isDigit)

/-- The digits at the front, of which there must be one. The fault for the end of the text is given,
since it depends on what the number is read for. -/
def readSomeDigits (ended : Fault) : Reader Bytes := do
  let ds ← readDigits
  if ds = [] then
    if (← get) = [] then throw ended else throw .badNumber
  pure ds

/-- Reads the digits before the point. A leading zero stands alone. -/
def readWhole (ended : Fault) : Reader Bytes := do
  match ← get with
  | 48 :: s =>
    set s
    match s with
    | b :: _ => if isDigit b then throw .badNumber else pure [48]
    | [] => pure [48]
  | _ => readSomeDigits ended

def readFraction (ended : Fault) : Reader (Option Bytes) := do
  match ← get with
  | 46 :: s =>
    set s
    some <$> readSomeDigits ended
  | _ => pure none

def readPower (ended : Fault) : Reader (Option (Bool × Bytes)) := do
  match ← get with
  | b :: s =>
    if b = 101 ∨ b = 69 then
      set s
      let negative ← match s with
        | 45 :: s => do set s; pure true
        | 43 :: s => do set s; pure false
        | _ => pure false
      let ds ← readSomeDigits ended
      pure (some (negative, ds))
    else pure none
  | [] => pure none

def readNumeral (ended : Fault) : Reader Numeral := do
  let negative ← match ← get with
    | 45 :: s => do set s; pure true
    | _ => pure false
  let whole ← readWhole ended
  let fraction ← readFraction ended
  let power ← readPower ended
  pure ⟨negative, whole, fraction, power⟩

def digitsValue (ds : Bytes) : Nat := ds.foldl (fun n d => n * 10 + (d.toNat - 48)) 0

def maxWord : Nat := 2 ^ 64 - 1

/-- Digits gathered while they fit into a word, and the number of digits that did not. -/
def gatherWhole (ds : Bytes) : Nat × Nat :=
  ds.foldl (fun (n, dropped) d =>
    let more := n * 10 + (d.toNat - 48)
    if dropped = 0 ∧ more ≤ maxWord then (more, 0) else (n, dropped + 1)) (0, 0)

def gatherFraction (start : Nat) (ds : Bytes) : Nat × Nat :=
  let (n, used, _) := ds.foldl (fun (n, used, full) d =>
    let more := n * 10 + (d.toNat - 48)
    if !full && decide (more ≤ maxWord) then (more, used + 1, false) else (n, used, true))
    (start, 0, false)
  (n, used)

/-- A number times a power of ten in double precision, in steps of at most 308. -/
def scaleByTen : Nat → Double → Int → Except Fault Double
  | 0, value, _ => .ok value
  | steps + 1, value, power =>
    if power.natAbs ≤ 308 then
      let ten := Double.ofDecimal false 1 power.natAbs
      if 0 ≤ power then
        match Double.product value ten with
        | .infinite _ => .error .numberTooGreat
        | product => .ok product
      else .ok (Double.quotient value ten)
    else if value = .finite false 0 Double.leastExponent then .ok value
    else if 0 ≤ power then .error .numberTooGreat
    else scaleByTen steps (Double.quotient value (Double.ofDecimal false 1 308)) (power + 308)

def withSign (negative : Bool) : Double → Double
  | .finite _ m e => .finite negative m e
  | .infinite _ => .infinite negative
  | .nan => .nan

/-- The value of a number as written. Whole numbers that fit into 64 bits stay whole, but for a
negative zero; all others are rounded to double precision. -/
def Numeral.value (n : Numeral) : Except Fault Number := do
  let (whole, dropped) := gatherWhole n.whole
  if n.fraction = none ∧ n.power = none ∧ dropped = 0 then
    if !n.negative then return .natural whole
    if whole = 0 ∨ 2 ^ 63 < whole then
      return .real (withSign true (Double.ofFraction false whole 1))
    return .negative whole
  let (digits, used) := gatherFraction whole (n.fraction.getD [])
  let power : Int := match n.power with
    | none => 0
    | some (true, ds) => -(digitsValue ds : Int)
    | some (false, ds) => digitsValue ds
  let value ← scaleByTen 8 (Double.ofFraction false digits 1) (power + dropped - used)
  pure (.real (withSign n.negative value))

def readNumber : Reader Number := do
  let numeral ← readNumeral .endInValue
  match numeral.value with
  | .ok n => pure n
  | .error fault => throw fault

/-- Looks for a further item of a list; the first one has no comma before it. -/
def nextItem (first : Bool) : Reader Bool := do
  match ← peek with
  | none => throw .endInList
  | some b =>
    if b = 93 then pure false
    else if first then pure true
    else if b = 44 then
      skipByte
      match ← peek with
      | none => throw .endInValue
      | some c => if c = 93 then throw .trailingComma else pure true
    else throw .missingListComma

/-- Looks for a further key of an object; the first one has no comma before it. -/
def nextKey (first : Bool) : Reader (Option String) := do
  match ← peek with
  | none => throw .endInObject
  | some b =>
    if b = 125 then return none
    if first then
      if b ≠ 34 then throw .keyNotText
    else if b = 44 then
      skipByte
      match ← peek with
      | none => throw .endInValue
      | some c =>
        if c = 125 then throw .trailingComma
        if c ≠ 34 then throw .keyNotText
    else throw .missingObjectComma
    skipByte
    some <$> readText

def readColon : Reader Unit := do
  match ← peek with
  | none => throw .endInObject
  | some b => if b = 58 then skipByte else throw .missingColon

def closeList : Reader Unit := do
  match ← peek with
  | none => throw .endInList
  | some b =>
    skipByte
    if b = 93 then return ()
    if b = 44 ∧ (← peek) = some 93 then throw .trailingComma
    throw .trailingText

def closeObject : Reader Unit := do
  match ← peek with
  | none => throw .endInObject
  | some b =>
    if b = 125 then skipByte
    else if b = 44 then throw .trailingComma
    else throw .trailingText

def readEnd : Reader Unit := do
  match ← peek with
  | none => pure ()
  | some _ => throw .trailingText

/-- Refuses the value that stands here. A word, number or text is read before it is refused. -/
def refuseKind {α : Type} (wanted : String) : Reader α := do
  let found : Found ← match ← peek with
    | some 110 => do skipByte; readWord nullTail; pure .null
    | some 116 => do skipByte; readWord trueTail; pure (.bool true)
    | some 102 => do skipByte; readWord falseTail; pure (.bool false)
    | some 34 => do skipByte; pure (.text (← readText))
    | some 91 => pure .list
    | some 123 => pure .object
    | some b => if b = 45 ∨ isDigit b then pure (.number (← readNumber)) else throw .missingValue
    | none => throw .missingValue
  throw (.wrongKind found wanted)

def peekValue : Reader UInt8 := do
  match ← peek with
  | some b => pure b
  | none => throw .endInValue

mutual

/-- Passes over a value. The list holds the brackets that are open around it: true for an object.
The count bounds the steps. -/
def skipValue : Nat → List Bool → Reader Unit
  | 0, _ => throw .endInValue
  | steps + 1, around => do
    let b ← peekValue
    if b = 91 then do
      skipByte
      match ← peek with
      | none => throw .endInList
      | some c => if c = 93 then do skipByte; skipAfter steps around else skipValue steps (false :: around)
    else if b = 123 then do
      skipByte
      match ← peek with
      | none => throw .endInObject
      | some c => if c = 125 then do skipByte; skipAfter steps around else skipKey steps (true :: around)
    else do
      if b = 110 then do skipByte; readWord nullTail
      else if b = 116 then do skipByte; readWord trueTail
      else if b = 102 then do skipByte; readWord falseTail
      else if b = 34 then do skipByte; skipText .plain
      else if b = 45 ∨ isDigit b then discard (readNumeral .badNumber)
      else throw .missingValue
      skipAfter steps around

def skipKey : Nat → List Bool → Reader Unit
  | 0, _ => throw .endInObject
  | steps + 1, around => do
    match ← peek with
    | none => throw .endInObject
    | some b => if b = 34 then skipByte else throw .keyNotText
    skipText .plain
    readColon
    skipValue steps around

def skipAfter : Nat → List Bool → Reader Unit
  | _, [] => pure ()
  | 0, _ :: _ => throw .endInValue
  | steps + 1, inObject :: around => do
    match ← peek with
    | none => throw (if inObject then .endInObject else .endInList)
    | some b =>
      if b = 44 then do
        skipByte
        if inObject then skipKey steps (inObject :: around) else skipValue steps (inObject :: around)
      else if b = (if inObject then 125 else 93) then do
        skipByte
        skipAfter steps around
      else throw (if inObject then .missingObjectComma else .missingListComma)

end

/-- Passes over one value of any kind. -/
def skipAny : Reader Unit := fun s => skipValue (2 * s.length + 2) [] s

end LayeredTree.Json
