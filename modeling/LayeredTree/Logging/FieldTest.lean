import LayeredTree.Double
import LayeredTree.Event
import LayeredTree.Pattern.Machine
import LayeredTree.Pattern.Read

set_option autoImplicit false

namespace LayeredTree

inductive FieldTest
  | flag (b : Bool)
  | natural (n : Nat)
  | integer (n : Int)
  | real (value : Double)
  | fitting (text : String) (pattern : Pattern)
deriving Repr, DecidableEq

namespace FieldTest

/-- The whole number of 64 bits that a text gives; one with a minus sign is an integer. -/
def wholeNumber? (s : String) : Option FieldTest :=
  let (negative, ds) := Double.takeSign s.toList
  let n := Double.digitsValue ds
  if ds = [] ∨ !ds.all Char.isDigit then none
  else if negative then (if n ≤ 2 ^ 63 then some (integer (-(n : Int))) else none)
  else if n < 2 ^ 64 then some (natural n) else none

def withPlainZero : Double → Double
  | .finite _ 0 exponent => .finite false 0 exponent
  | value => value

/-- Reads what is asked of a value; a text that gives no truth value and no number is a pattern. -/
def parse (s : String) : Except PatternFault FieldTest :=
  if s = "true" then .ok (flag true)
  else if s = "false" then .ok (flag false)
  else
    match wholeNumber? s, Double.ofText? s with
    | some test, _ => .ok test
    | none, some value => .ok (real (withPlainZero value))
    | none, none => do pure (fitting s (← Pattern.parse s))

def fits : FieldTest → FieldValue → Bool
  | flag b, .flag c => b == c
  | natural n, .count m => n == m
  | fitting _ p, .shown s | fitting _ p, .text s => p.fits s
  | fitting _ p, .wide n => p.fits (toString n)
  | _, _ => false

end FieldTest
end LayeredTree
