import LayeredTree.Bytes

set_option autoImplicit false

namespace LayeredTree

/-- A number of double precision. Finite ones are `mantissa * 2 ^ exponent`, where the mantissa has
53 bits unless the exponent is the least one. -/
inductive Double
  | finite (negative : Bool) (mantissa : Nat) (exponent : Int)
  | infinite (negative : Bool)
  | nan
deriving Repr, DecidableEq

namespace Double

def leastExponent : Int := -1074

def greatestExponent : Int := 971

def precision : Nat := 53

def scaled (num den : Nat) (power : Int) : Nat × Nat :=
  if 0 ≤ power then (num * 2 ^ power.toNat, den) else (num, den * 2 ^ (-power).toNat)

/-- A quotient rounded to the nearest number, a half to the even one. -/
def roundHalfEven (num den : Nat) : Nat :=
  let q := num / den
  let r := num % den
  if 2 * r < den then q
  else if den < 2 * r then q + 1
  else if q % 2 = 0 then q else q + 1

def fullExponent (num den : Nat) : Int :=
  let guess : Int := (num.log2 : Int) - (den.log2 : Int) - 52
  let (n, d) := scaled num den (-guess)
  if n < 2 ^ 52 * d then guess - 1 else guess

/-- The number nearest to a fraction, a half to the even mantissa. -/
def ofFraction (negative : Bool) (num den : Nat) : Double :=
  if num = 0 then .finite negative 0 leastExponent
  else
    let exponent := max (fullExponent num den) leastExponent
    let (n, d) := scaled num den (-exponent)
    let mantissa := roundHalfEven n d
    let (mantissa, exponent) :=
      if mantissa = 2 ^ precision then (2 ^ 52, exponent + 1) else (mantissa, exponent)
    if greatestExponent < exponent then .infinite negative
    else .finite negative mantissa exponent

/-- The number nearest to a decimal, `digits * 10 ^ power`. Powers beyond all numbers of this kind
are settled without writing them out. -/
def ofDecimal (negative : Bool) (digits : Nat) (power : Int) : Double :=
  if digits = 0 then .finite negative 0 leastExponent
  else if 400 < power then .infinite negative
  else if 0 ≤ power then ofFraction negative (digits * 10 ^ power.toNat) 1
  else if power < -((digits.log2 : Int) + 400) then .finite negative 0 leastExponent
  else ofFraction negative digits (10 ^ (-power).toNat)

def digitsValue (ds : List Char) : Nat := ds.foldl (fun n c => n * 10 + (c.toNat - 48)) 0

/-- The number of a decimal in pieces: the digits before and after the point and the power of ten. -/
def ofPieces (negative : Bool) (whole fraction : List Char) (power : Int) : Double :=
  ofDecimal negative (digitsValue (whole ++ fraction)) (power - fraction.length)

def takeSign : List Char → Bool × List Char
  | '-' :: s => (true, s)
  | '+' :: s => (false, s)
  | s => (false, s)

/-- A power of ten after its letter: a sign and at least one digit, and nothing else. -/
def power? (s : List Char) : Option Int :=
  let (negative, digits) := takeSign s
  if digits = [] ∨ !digits.all Char.isDigit then none
  else if negative then some (-(digitsValue digits : Int))
  else some (digitsValue digits)

/-- The number that a text gives: digits with or without a point and a power of ten, or the words
for no number and the infinite ones in letters of either case. -/
def ofText? (text : String) : Option Double :=
  let (negative, s) := takeSign text.toList
  let word := String.ofList (s.map Char.toLower)
  if word = "inf" ∨ word = "infinity" then some (.infinite negative)
  else if word = "nan" then some .nan
  else
    let whole := s.takeWhile Char.isDigit
    let rest := s.dropWhile Char.isDigit
    let (fraction, rest) := match rest with
      | '.' :: rest => (rest.takeWhile Char.isDigit, rest.dropWhile Char.isDigit)
      | _ => ([], rest)
    if whole = [] ∧ fraction = [] then none
    else
      match rest with
      | [] => some (ofPieces negative whole fraction 0)
      | c :: rest =>
        if c = 'e' ∨ c = 'E' then (power? rest).map (ofPieces negative whole fraction) else none

def fraction (mantissa : Nat) (exponent : Int) : Nat × Nat := scaled mantissa 1 exponent

def product : Double → Double → Double
  | .finite _ m e, .finite _ n f => let (a, b) := scaled (m * n) 1 (e + f); ofFraction false a b
  | .nan, _ => .nan
  | _, .nan => .nan
  | _, _ => .infinite false

def quotient : Double → Double → Double
  | .finite _ m e, .finite _ n f =>
    let (a, b) := scaled m n (e - f)
    ofFraction false a b
  | .infinite _, .finite .. => .infinite false
  | .finite .., .infinite _ => .finite false 0 leastExponent
  | _, _ => .nan

/-- A decimal with the given count of digits and place next below a fraction: the digits and the
power of ten of the last one. -/
def gridBelow (num den : Nat) (power : Int) : Nat :=
  if 0 ≤ power then num / (den * 10 ^ power.toNat) else num * 10 ^ (-power).toNat / den

def atLeast (digits : Nat) (power : Int) (num den : Nat) : Bool :=
  if 0 ≤ power then num ≤ digits * 10 ^ power.toNat * den
  else num * 10 ^ (-power).toNat ≤ digits * den

def atMost (digits : Nat) (power : Int) (num den : Nat) : Bool :=
  if 0 ≤ power then digits * 10 ^ power.toNat * den ≤ num
  else digits * den ≤ num * 10 ^ (-power).toNat

/-- The decimals between which a number is the nearest: numerators over the given denominator, and
whether the ends belong to them. -/
structure Basin where
  low : Nat
  value : Nat
  high : Nat
  den : Nat
  closed : Bool

/-- The basin of a finite number that is not zero. Below a power of two the gap is half as wide. -/
def basin (mantissa : Nat) (exponent : Int) : Basin :=
  let narrow := mantissa = 2 ^ 52 ∧ leastExponent < exponent
  let at' (quarters : Nat) : Nat × Nat := scaled quarters 1 (exponent - 2)
  ⟨(at' (if narrow then 4 * mantissa - 1 else 4 * mantissa - 2)).1, (at' (4 * mantissa)).1,
    (at' (4 * mantissa + 2)).1, (at' 1).2, mantissa % 2 = 0⟩

def Basin.holds (b : Basin) (digits : Nat) (power : Int) : Bool :=
  if b.closed then atLeast digits power b.low b.den && atMost digits power b.high b.den
  else !atMost digits power b.low b.den && !atLeast digits power b.high b.den

/-- The nearer of the two neighbours of a number on the grid of a power of ten, if it reads back. -/
def Basin.onGrid (b : Basin) (power : Int) : Option Nat :=
  let below := gridBelow b.value b.den power
  let above := below + 1
  match b.holds below power && below != 0, b.holds above power with
  | true, true =>
    -- Twice the number lies above or below the sum of its neighbours.
    if atMost (below + above) power (2 * b.value) b.den &&
        !(atLeast (below + above) power (2 * b.value) b.den && below % 2 = 0) then some above
    else some below
  | true, false => some below
  | false, true => some above
  | false, false => none

/-- The first grid, from coarse to fine, on which a number has a neighbour that reads back. -/
def Basin.search (b : Basin) : Nat → Int → Nat × Int
  | 0, power => (gridBelow b.value b.den power, power)
  | n + 1, power =>
    match b.onGrid power with
    | some digits => (digits, power)
    | none => search b n (power - 1)

def leadingPower (num den : Nat) : Nat → Int → Int
  | 0, power => power
  | n + 1, power =>
    if atMost 1 power num den then leadingPower num den n (power + 1) else power

def cutZeros : Nat → Nat × Int → Nat × Int
  | 0, p => p
  | n + 1, (digits, power) =>
    if digits % 10 = 0 ∧ digits ≠ 0 then cutZeros n (digits / 10, power + 1) else (digits, power)

/-- The fewest decimal digits that read back, with the power of ten of the last one. -/
def shortest (mantissa : Nat) (exponent : Int) : Nat × Int :=
  if mantissa = 0 then (0, 0)
  else
    let b := basin mantissa exponent
    let top := leadingPower b.value b.den 700 (-350)
    cutZeros 20 (b.search 18 top)

def layout (mantissa : Nat) (exponent : Int) : List Char × Int :=
  let (digits, power) := shortest mantissa exponent
  let text := Nat.toDigits 10 digits
  (text, text.length + power)

/-- The number without any power of ten; a whole number has no point. -/
def plainDigits (digits : List Char) (point : Int) : List Char :=
  if point ≤ 0 then '0' :: '.' :: List.replicate (-point).toNat '0' ++ digits
  else if digits.length ≤ point.toNat then
    digits ++ List.replicate (point.toNat - digits.length) '0'
  else digits.take point.toNat ++ '.' :: digits.drop point.toNat

def plain : Double → String
  | .nan => "NaN"
  | .infinite negative => if negative then "-inf" else "inf"
  | .finite negative m e =>
    let body := if m = 0 then ['0'] else let (digits, point) := layout m e; plainDigits digits point
    String.ofList ((if negative then ['-'] else []) ++ body)

/-- The text of a number in which very great and very small ones have a power of ten, and whole
ones a zero after the point. A power has two digits at least. -/
def compact : Double → String
  | .nan => "NaN"
  | .infinite negative => if negative then "-inf" else "inf"
  | .finite negative m e =>
    let (digits, point) := if m = 0 then (['0'], 1) else layout m e
    let body :=
      if point ≤ -5 ∨ 16 < point then
        let power := point - 1
        let powerDigits := Nat.toDigits 10 power.natAbs
        digits.take 1 ++ (if digits.length = 1 then [] else '.' :: digits.drop 1) ++
          'e' :: (if power < 0 then '-' else '+') ::
            (if powerDigits.length < 2 then '0' :: powerDigits else powerDigits)
      else if digits.length ≤ point.toNat ∧ 0 < point then plainDigits digits point ++ ['.', '0']
      else plainDigits digits point
    String.ofList ((if negative then ['-'] else []) ++ body)

end Double
end LayeredTree
