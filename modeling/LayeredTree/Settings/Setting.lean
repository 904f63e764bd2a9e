import LayeredTree.Settings.Basic
import LayeredTree.Text.Lowercase
import LayeredTree.Toml.Value

set_option autoImplicit false

namespace LayeredTree

inductive Setting
  | absent
  | bool (b : Bool)
  | integer (n : Int)
  | real (value : Double)
  | text (s : String)
  | list (items : List Setting)
  | table (entries : List (String × Setting))
deriving Repr, Inhabited

namespace Setting

mutual

/-- Equality, for lack of a derived one where lists are nested. -/
def same : Setting → Setting → Bool
  | .absent, .absent => true
  | .bool a, .bool b => a == b
  | .integer a, .integer b => a == b
  | .real a, .real b => a == b
  | .text a, .text b => a == b
  | .list as, .list bs => sameItems as bs
  | .table as, .table bs => sameEntries as bs
  | _, _ => false

def sameItems : List Setting → List Setting → Bool
  | [], [] => true
  | a :: as, b :: bs => same a b && sameItems as bs
  | _, _ => false

def sameEntries : List (String × Setting) → List (String × Setting) → Bool
  | [], [] => true
  | (k, a) :: as, (k', b) :: bs => k == k' && same a b && sameEntries as bs
  | _, _ => false

end

mutual

theorem same_iff : (a b : Setting) → (same a b = true ↔ a = b)
  | .list as, b => by cases b <;> simp [same, sameItems_iff as]
  | .table as, b => by cases b <;> simp [same, sameEntries_iff as]
  | .absent, b | .bool _, b | .integer _, b | .real _, b | .text _, b => by
    cases b <;> simp [same]

theorem sameItems_iff : (as bs : List Setting) → (sameItems as bs = true ↔ as = bs)
  | [], bs => by cases bs <;> simp [sameItems]
  | a :: as, bs => by cases bs <;> simp [sameItems, same_iff a, sameItems_iff as]

theorem sameEntries_iff :
    (as bs : List (String × Setting)) → (sameEntries as bs = true ↔ as = bs)
  | [], bs => by cases bs <;> simp [sameEntries]
  | (k, a) :: as, bs => by
    cases bs <;> simp [sameEntries, same_iff a, sameEntries_iff as, Prod.ext_iff]

end

instance : DecidableEq Setting := fun a b => decidable_of_iff _ (same_iff a b)

/-- The entries of a table; other values have none. -/
def entries : Setting → List (String × Setting)
  | table entries => entries
  | _ => []

def items : Setting → List Setting
  | list items => items
  | _ => []

def entry (name : String) (s : Setting) : Setting := (s.entries.lookup name).getD absent

def place (name : String) (value : Setting) : List (String × Setting) → List (String × Setting)
  | [] => [(name, value)]
  | (k, v) :: rest =>
    if k = name then (name, value) :: rest else (k, v) :: place name value rest

def withEntry (s : Setting) (name : String) (value : Setting) : Setting :=
  table (place name value s.entries)

mutual

/-- The value that is seen when one lies over another. -/
def overlay (low : Setting) : Setting → Setting
  | table upper =>
    overlayEntries (match low with | absent => table [] | low => low) upper
  | value => value

def overlayEntries (low : Setting) : List (String × Setting) → Setting
  | [] => low
  | (name, value) :: rest =>
    let name := Text.lowercase name
    overlayEntries (low.withEntry name (overlay (low.entry name) value)) rest

end

/-- One step of a key: into a table or into a list. A negative index counts from the end. -/
inductive Step
  | name (name : String)
  | index (i : Int)
deriving Repr, DecidableEq

def isNameChar (c : Char) : Bool := c.isAlphanum || c == ' ' || c == '_' || c == '-'

def index? (s : List Char) : Option Int :=
  let isGap := fun c => c == ' ' || c == '\t'
  let s := s.dropWhile isGap
  let (negative, s) := match s with
    | '-' :: s => (true, s)
    | s => (false, s)
  let ds := s.takeWhile Char.isDigit
  let n := Double.digitsValue ds
  let most := if negative then 2 ^ 63 else 2 ^ 63 - 1
  if ds = [] ∨ (s.dropWhile Char.isDigit).dropWhile isGap ≠ [] ∨ most < n then none
  else some (if negative then -(n : Int) else n)

def stepsAfter : Nat → List Char → Option (List Step)
  | _, [] => some []
  | 0, _ :: _ => none
  | most + 1, '.' :: s =>
    let name := s.takeWhile isNameChar
    if name = [] then none
    else do
      pure (.name (String.ofList name) :: (← stepsAfter most (s.dropWhile isNameChar)))
  | most + 1, '[' :: s =>
    match s.dropWhile (· != ']') with
    | [] => none
    | _ :: rest => do
      pure (.index (← index? (s.takeWhile (· != ']'))) :: (← stepsAfter most rest))
  | _ + 1, _ :: _ => none

/-- The steps of a key: names with points between them and indices in brackets. A text of any other
form is one name. -/
def stepsOf (key : String) : List Step :=
  let s := key.toList
  let first := s.takeWhile isNameChar
  let steps := if first = [] then none
    else do
      pure (.name (String.ofList first) :: (← stepsAfter s.length (s.dropWhile isNameChar)))
  steps.getD [.name key]

/-- The number of items that no list goes beyond. -/
def longest : Nat := 2 ^ 32

/-- Changes the value at a place of a list, which grows as far as needed; there is no place before
its start. -/
def withItem (i : Int) (change : Setting → Option Setting) (s : Setting) : Option Setting :=
  let items := s.items
  match if 0 ≤ i then i else items.length + i with
  | .negSucc _ => none
  | .ofNat place =>
    if longest ≤ place then none
    else do
      let item ← change (items.getD place absent)
      pure (list ((items ++ List.replicate (place + 1 - items.length) absent).set place item))

/-- Lays a value over what the steps of a key lead to. What is in the way of a step gives way. -/
def put (value : Setting) : List Step → Setting → Option Setting
  | [], s => some (overlay s value)
  | .name name :: rest, s => do
    let name := Text.lowercase name
    pure (s.withEntry name (← put value rest (s.entry name)))
  | [.index i], s => s.withItem i fun _ => some value
  | .index i :: rest, s => s.withItem i (put value rest)

def layer (s : Setting) (source : List (String × Setting)) : Option Setting :=
  source.foldlM (fun s (key, value) => put value (stepsOf key) s) s

mutual

def ofToml : Toml → Setting
  | .text s => text s
  | .integer n => integer n
  | .real value => real value
  | .bool b => bool b
  | .moment s => text s
  | .list items => list (ofTomlItems items)
  | .table members => table (ofTomlMembers members)

def ofTomlItems : List Toml → List Setting
  | [] => []
  | v :: rest => ofToml v :: ofTomlItems rest

def ofTomlMembers : List (String × Toml) → List (String × Setting)
  | [] => []
  | (k, v) :: rest => (k, ofToml v) :: ofTomlMembers rest

end

def wholeNumber? (s : String) : Option Int :=
  let (negative, ds) := Double.takeSign s.toList
  let n := Double.digitsValue ds
  if ds = [] ∨ !ds.all Char.isDigit then none
  else if negative then (if n ≤ 2 ^ 63 then some (-(n : Int)) else none)
  else if n < 2 ^ 63 then some n else none

/-- The setting that a bare text gives: a truth value or a number if it reads as one. -/
def ofText (s : String) : Setting :=
  let small := Text.lowercase s
  if small = "true" then bool true
  else if small = "false" then bool false
  else
    match wholeNumber? s, Double.ofText? s with
    | some n, _ => integer n
    | none, some value => real value
    | none, none => text s

def asText : Setting → Option String
  | text s => some s
  | bool b => some (toString b)
  | integer n => some (toString n)
  | real value => some value.plain
  | absent | list _ | table _ => none

/-- The truth value of a scalar: a number that is not zero counts as true, and so do some words. -/
def asBool : Setting → Option Bool
  | bool b => some b
  | integer n => some (n != 0)
  | real (.finite _ mantissa _) => some (mantissa != 0)
  | real _ => some true
  | text s =>
    let small := Text.lowercase s
    if ["1", "true", "on", "yes"].contains small then some true
    else if ["0", "false", "off", "no"].contains small then some false
    else none
  | absent | list _ | table _ => none

/-- A record: a table whose entries are taken one by one into a draft, or a list whose items stand
for the fields in order. Names without a field are passed over. -/
def asRecord {α : Type} (fields : List (String × (α → Setting → Option α))) (draft : α) :
    Setting → Option α
  | table entries =>
    entries.foldlM (fun draft (name, value) =>
      match fields.lookup name with
      | some take => take draft value
      | none => some draft) draft
  | list items => (fields.zip items).foldlM (fun draft (field, value) => field.2 draft value) draft
  | _ => none

def asPath (s : Setting) : Option Path := Path.ofString <$> s.asText

def asTexts : Setting → Option (List (String × String))
  | table entries => do
    let texts ← entries.mapM fun (name, value) => do pure (name, ← value.asText)
    pure (texts.mergeSort fun a b => !decide (b.1 < a.1))
  | _ => none

def asStorage : Setting → Option StorageSettings :=
  asRecord
    [("data_path", fun s v => do pure { s with dataPath := ← v.asPath }),
      ("temp_data_path", fun s v => do pure { s with tempDataPath := ← v.asPath })]
    .standard

def asFile : Setting → Option (Option Path)
  | absent => some none
  | s => some <$> s.asPath

def asLogging : Setting → Option LoggingSettings :=
  asRecord
    [("level", fun s v => do pure { s with level := ← v.asText }),
      ("format", fun s v => do pure { s with format := ← v.asText }),
      ("output", fun s v => do pure { s with output := ← v.asText }),
      ("file", fun s v => do pure { s with file := ← v.asFile }),
      ("color", fun s v => do pure { s with color := ← v.asBool }),
      ("modules", fun s v => do pure { s with modules := ← v.asTexts })]
    .standard

def asNode : Setting → Option NodeSettings :=
  asRecord
    [("storage", fun s v => do pure { s with storage := ← v.asStorage }),
      ("logging", fun s v => do pure { s with logging := ← v.asLogging })]
    .standard

end Setting
end LayeredTree
