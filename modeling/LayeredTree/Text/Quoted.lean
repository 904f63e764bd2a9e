import LayeredTree.Text.Category

set_option autoImplicit false

namespace LayeredTree.Text

def hexDigits (n : Nat) : List Char := Nat.toDigits 16 n

def quotedChar (mark : Char) (c : Char) : List Char :=
  if c = '\x00' then ['\\', '0']
  else if c = '\t' then ['\\', 't']
  else if c = '\r' then ['\\', 'r']
  else if c = '\n' then ['\\', 'n']
  else if c = '\\' ∨ c = mark then ['\\', c]
  else if (c.toNat < 32 ∨ 126 < c.toNat) ∧ isInvisible c then
    ['\\', 'u', '\x7b'] ++ hexDigits c.toNat ++ ['\x7d']
  else [c]

def quoted (s : String) : String :=
  String.ofList ('"' :: s.toList.flatMap (quotedChar '"') ++ ['"'])

def quotedSingle (c : Char) : String :=
  String.ofList ('\'' :: quotedChar '\'' c ++ ['\''])

example : quoted "a\"b\n" = "\"a\\\"b\\n\"" := by decide

end LayeredTree.Text
