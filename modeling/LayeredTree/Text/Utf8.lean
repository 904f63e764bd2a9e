import LayeredTree.Bytes
import LayeredTree.Text.Quoted

/-!
Reading bytes as UTF-8. A byte string is cut into characters and broken stretches; a broken
stretch is as long as it could still have become a character. Shown text has one replacement
character for each broken stretch, and quoted text the bytes of it.
-/

set_option autoImplicit false

namespace LayeredTree.Text

inductive Utf8State
  | start
  | inside (missing : Nat) (low high : UInt8) (code : Nat) (seen : Bytes)
deriving Repr, DecidableEq

inductive Utf8Piece
  | char (c : Char)
  | broken (bytes : Bytes)
deriving Repr, DecidableEq

def Utf8State.lead (b : UInt8) : List Utf8Piece × Utf8State :=
  if b < 0x80 then ([.char (Char.ofNat b.toNat)], .start)
  else if 0xC2 ≤ b ∧ b ≤ 0xDF then ([], .inside 1 0x80 0xBF (b.toNat - 0xC0) [b])
  else if b = 0xE0 then ([], .inside 2 0xA0 0xBF 0 [b])
  else if b = 0xED then ([], .inside 2 0x80 0x9F 0xD [b])
  else if 0xE1 ≤ b ∧ b ≤ 0xEF then ([], .inside 2 0x80 0xBF (b.toNat - 0xE0) [b])
  else if b = 0xF0 then ([], .inside 3 0x90 0xBF 0 [b])
  else if b = 0xF4 then ([], .inside 3 0x80 0x8F 4 [b])
  else if 0xF1 ≤ b ∧ b ≤ 0xF3 then ([], .inside 3 0x80 0xBF (b.toNat - 0xF0) [b])
  else ([.broken [b]], .start)

def Utf8State.next (s : Utf8State) (b : UInt8) : List Utf8Piece × Utf8State :=
  match s with
  | .start => lead b
  | .inside missing low high code seen =>
    if low ≤ b ∧ b ≤ high then
      let code := code * 64 + (b.toNat - 0x80)
      match missing with
      | 0 | 1 => ([.char (Char.ofNat code)], .start)
      | n + 2 => ([], .inside (n + 1) 0x80 0xBF code (seen ++ [b]))
    else
      let (pieces, s) := lead b
      (.broken seen :: pieces, s)

/-- The pieces of a byte string from a given state on. -/
def utf8Pieces (s : Utf8State) : Bytes → List Utf8Piece
  | [] => match s with
    | .start => []
    | .inside _ _ _ _ seen => [.broken seen]
  | b :: rest =>
    let (pieces, s) := s.next b
    pieces ++ utf8Pieces s rest

def shown (b : Bytes) : String :=
  String.ofList ((utf8Pieces .start b).map fun
    | .char c => c
    | .broken _ => '\ufffd')

def byteEscape (b : UInt8) : List Char :=
  let digit (n : Nat) : Char := (Nat.digitChar n).toUpper
  ['\\', 'x', digit (b.toNat / 16), digit (b.toNat % 16)]

/-- A byte string between double quotes, its characters as they are to be written there; broken
stretches are written byte by byte. -/
def quotedBytesBy (write : Char → List Char) (b : Bytes) : String :=
  String.ofList ('"' :: ((utf8Pieces .start b).flatMap fun
    | .char c => write c
    | .broken bytes => bytes.flatMap byteEscape) ++ ['"'])

def quotedBytes (b : Bytes) : String := quotedBytesBy (quotedChar '"') b

example : shown [0x61, 0xC3, 0xA9, 0xFF, 0xE2, 0x82] = "aé\ufffd\ufffd" := by decide
example : quotedBytes [0x61, 0xFF] = "\"a\\xFF\"" := by decide

end LayeredTree.Text
