import LayeredTree.Double

set_option autoImplicit false

namespace LayeredTree

/-- A TOML value. A date or time is held as its text. -/
inductive Toml
  | text (s : String)
  | integer (n : Int)
  | real (value : Double)
  | bool (b : Bool)
  | moment (text : String)
  | list (items : List Toml)
  | table (members : List (String × Toml))
deriving Repr, Inhabited

namespace Toml

def isBare (c : Char) : Bool := c.isAlphanum || c == '_' || c == '-'

def isControl (c : Char) : Bool := (c.toNat < 32 && c != '\t') || c.toNat == 127

/-- The longest row of one character in a text. -/
def longestRow (c : Char) (s : List Char) : Nat :=
  (s.foldl (fun (longest, here) d =>
    let here := if d = c then here + 1 else 0
    (max longest here, here)) ((0 : Nat), (0 : Nat))).1

def fourDigits (n : Nat) : List Char :=
  [n / 4096, n / 256, n / 16, n].map fun d => (Nat.digitChar (d % 16)).toUpper

/-- One character in double quotes. A line break stands as it is in a text of several lines. -/
def escapedIn (long : Bool) (c : Char) : List Char :=
  if c = '\x08' then ['\\', 'b']
  else if c = '\t' then ['\\', 't']
  else if c = '\n' then (if long then ['\n'] else ['\\', 'n'])
  else if c = '\x0c' then ['\\', 'f']
  else if c = '\r' then ['\\', 'r']
  else if c = '\\' then ['\\', '\\']
  else if isControl c then '\\' :: 'u' :: fourDigits c.toNat
  else [c]

/-- The inside of double quotes, where at most a given number of quotes may stand in a row. -/
def escapedFrom (long : Bool) (most row : Nat) : List Char → List Char
  | [] => []
  | c :: rest =>
    if c = '"' then
      if row < most then '"' :: escapedFrom long most (row + 1) rest
      else '\\' :: '"' :: escapedFrom long most 0 rest
    else escapedIn long c ++ escapedFrom long most 0 rest

def basicForm (s : List Char) : List Char := '"' :: escapedFrom false 0 0 s ++ ['"']

/-- The written form of a text: in plain double quotes if nothing in it needs an escape, else in
single quotes, else in three quotes of either kind, else with escapes. Three quotes are followed by
a line break if the text has any. -/
def textForm (text : String) : String :=
  let s := text.toList
  let controls := s.any fun c => isControl c && c != '\n'
  let breaks := s.contains '\n'
  let slashes := s.contains '\\'
  let doubles := longestRow '"' s
  let singles := longestRow '\'' s
  let tripleDouble := ['"', '"', '"']
  let tripleSingle := ['\'', '\'', '\'']
  let start := if breaks then ['\n'] else []
  let longBasic := tripleDouble ++ start ++ escapedFrom true 2 0 s ++ tripleDouble
  String.ofList <|
    if !controls && !slashes && doubles == 0 && !breaks then basicForm s
    else if !controls && singles == 0 && !breaks then '\'' :: s ++ ['\'']
    else if !controls && !slashes && doubles ≤ 2 then longBasic
    else if !controls && singles ≤ 2 then tripleSingle ++ start ++ s ++ tripleSingle
    else if breaks then longBasic
    else basicForm s

/-- The written form of a key: bare if it can be, else in the quotes that need no escape. -/
def keyForm (key : String) : String :=
  let s := key.toList
  let controls := s.any isControl
  String.ofList <|
    if s ≠ [] ∧ s.all isBare then s
    else if !controls && !s.contains '\\' && !s.contains '"' then basicForm s
    else if !controls && !s.contains '\'' then '\'' :: s ++ ['\'']
    else basicForm s

end Toml
end LayeredTree
