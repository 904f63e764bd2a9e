import LayeredTree.Json.Scan

set_option autoImplicit false

namespace LayeredTree

inductive Json
  | null
  | bool (b : Bool)
  | number (n : Json.Number)
  | text (s : String)
  | list (items : List Json)
  | object (members : List (String × Json))
deriving Repr, Inhabited

namespace Json

def found : Json → Found
  | null => .null
  | bool b => .bool b
  | number n => .number n
  | text s => .text s
  | list _ => .list
  | object _ => .object

def ofNat (n : Nat) : Json := number (.natural n)

def ofText? : Option String → Json
  | some s => text s
  | none => null

def setMember (name : String) (value : Json) : List (String × Json) → List (String × Json)
  | [] => [(name, value)]
  | (k, v) :: rest =>
    if name = k then (name, value) :: rest
    else if name < k then (name, value) :: (k, v) :: rest
    else (k, v) :: setMember name value rest

/-- The object of some members; of two with one name the later counts. -/
def ofMembers (members : List (String × Json)) : Json :=
  object (members.foldl (fun acc m => setMember m.1 m.2 acc) [])

def member? (name : String) : Json → Option Json
  | object members => members.lookup name
  | _ => none

mutual

def readValue : Nat → Reader Json
  | 0 => throw .endInValue
  | steps + 1 => do
    let b ← peekValue
    if b = 110 then do skipByte; readWord nullTail; pure null
    else if b = 116 then do skipByte; readWord trueTail; pure (bool true)
    else if b = 102 then do skipByte; readWord falseTail; pure (bool false)
    else if b = 34 then do skipByte; text <$> readText
    else if b = 45 ∨ isDigit b then number <$> readNumber
    else if b = 91 then do
      skipByte
      let items ← readItems steps true
      closeList
      pure (list items)
    else if b = 123 then do
      skipByte
      let members ← readMembers steps true
      closeObject
      pure (ofMembers members)
    else throw .missingValue

def readItems : Nat → Bool → Reader (List Json)
  | 0, _ => throw .endInList
  | steps + 1, first => do
    if ← nextItem first then
      let item ← readValue steps
      let items ← readItems steps false
      pure (item :: items)
    else pure []

def readMembers : Nat → Bool → Reader (List (String × Json))
  | 0, _ => throw .endInObject
  | steps + 1, first => do
    match ← nextKey first with
    | none => pure []
    | some key =>
      readColon
      let value ← readValue steps
      let members ← readMembers steps false
      pure ((key, value) :: members)

end

def parse (b : Bytes) : Except Fault Json := do
  let (value, _) ← (do let v ← readValue (2 * b.length + 2); readEnd; pure v : Reader Json).run b
  pure value

def escapedChar (c : Char) : List Char :=
  if c = '"' then ['\\', '"']
  else if c = '\\' then ['\\', '\\']
  else if c = '\x08' then ['\\', 'b']
  else if c = '\x0c' then ['\\', 'f']
  else if c = '\n' then ['\\', 'n']
  else if c = '\r' then ['\\', 'r']
  else if c = '\t' then ['\\', 't']
  else if c.toNat < 32 then
    ['\\', 'u', '0', '0', Nat.digitChar (c.toNat / 16), Nat.digitChar (c.toNat % 16)]
  else [c]

def textForm (s : String) : String :=
  String.ofList ('"' :: s.toList.flatMap escapedChar ++ ['"'])

def numberForm : Number → String
  | .natural n => toString n
  | .negative n => s!"-{n}"
  | .real value =>
    match value with
    | .finite .. => value.compact
    | _ => "null"

def indent (depth : Nat) : String := String.ofList (List.replicate (2 * depth) ' ')

mutual

def compact : Json → String
  | null => "null"
  | bool b => if b then "true" else "false"
  | number n => numberForm n
  | text s => textForm s
  | list items => "[" ++ compactItems items ++ "]"
  | object members => "\x7b" ++ compactMembers members ++ "\x7d"

def compactItems : List Json → String
  | [] => ""
  | [v] => compact v
  | v :: rest => compact v ++ "," ++ compactItems rest

def compactMembers : List (String × Json) → String
  | [] => ""
  | [(k, v)] => textForm k ++ ":" ++ compact v
  | (k, v) :: rest => textForm k ++ ":" ++ compact v ++ "," ++ compactMembers rest

end

mutual

def pretty (depth : Nat) : Json → String
  | null => "null"
  | bool b => if b then "true" else "false"
  | number n => numberForm n
  | text s => textForm s
  | list [] => "[]"
  | list (v :: rest) =>
    "[\n" ++ prettyItems (depth + 1) (v :: rest) ++ "\n" ++ indent depth ++ "]"
  | object [] => "\x7b\x7d"
  | object (m :: rest) =>
    "\x7b\n" ++ prettyMembers (depth + 1) (m :: rest) ++ "\n" ++ indent depth ++ "\x7d"

def prettyItems (depth : Nat) : List Json → String
  | [] => ""
  | [v] => indent depth ++ pretty depth v
  | v :: rest => indent depth ++ pretty depth v ++ ",\n" ++ prettyItems depth rest

def prettyMembers (depth : Nat) : List (String × Json) → String
  | [] => ""
  | [(k, v)] => indent depth ++ textForm k ++ ": " ++ pretty depth v
  | (k, v) :: rest =>
    indent depth ++ textForm k ++ ": " ++ pretty depth v ++ ",\n" ++ prettyMembers depth rest

end

end Json
end LayeredTree
