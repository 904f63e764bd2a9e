import LayeredTree.Bytes
import LayeredTree.Text.Quoted

set_option autoImplicit false

namespace LayeredTree.Hex

inductive Fault
  | oddLength
  | badDigit (byte : UInt8) (position : Nat)
deriving Repr, DecidableEq

/-- The wording of a fault; a byte beyond ASCII is shown as the character of that number. -/
def Fault.message : Fault → String
  | .oddLength => "Odd number of digits"
  | .badDigit byte position =>
    s!"Invalid character {Text.quotedSingle (Char.ofNat byte.toNat)} at position {position}"

def digit (n : UInt8) : UInt8 := if n < 10 then 48 + n else 87 + n

def value? (b : UInt8) : Option UInt8 :=
  if 48 ≤ b ∧ b ≤ 57 then some (b - 48)
  else if 97 ≤ b ∧ b ≤ 102 then some (b - 87)
  else if 65 ≤ b ∧ b ≤ 70 then some (b - 55)
  else none

def encode : Bytes → Bytes
  | [] => []
  | b :: rest => digit (b / 16) :: digit (b % 16) :: encode rest

def decodePairs (position : Nat) : Bytes → Except Fault Bytes
  | high :: low :: rest =>
    match value? high with
    | none => .error (.badDigit high position)
    | some h =>
      match value? low with
      | none => .error (.badDigit low (position + 1))
      | some l => (decodePairs (position + 2) rest).map ((h * 16 + l) :: ·)
  | _ => .ok []

/-- An odd length is refused before any digit is looked at. -/
def decode (text : Bytes) : Except Fault Bytes :=
  if text.length % 2 = 1 then .error .oddLength else decodePairs 0 text

def text (b : Bytes) : String :=
  String.ofList ((encode b).map fun d => Char.ofNat d.toNat)

end LayeredTree.Hex
