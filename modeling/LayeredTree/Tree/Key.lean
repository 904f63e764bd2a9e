import LayeredTree.Tree.Error

/-!
Relative keys: the address of a file inside a tree is its path below the root, written with single
slashes and ordinary names only. Keys are what digests cover, what delete markers name and what a
merge writes.
-/

set_option autoImplicit false

namespace LayeredTree

/-- The address of a file inside a tree. -/
abbrev Key := Bytes

inductive MarkerFault
  | empty
  | illegalCharacter (raw : String)
  | absolute (raw : String)
  | emptySegment (raw : String)
  | escapes (raw : String)
deriving Repr, DecidableEq

def MarkerFault.message : MarkerFault → String
  | empty => "empty path"
  | illegalCharacter raw => s!"illegal character in path {Text.quoted raw}"
  | absolute raw => s!"absolute path {Text.quoted raw}"
  | emptySegment raw => s!"empty segment in path {Text.quoted raw}"
  | escapes raw => s!"path {Text.quoted raw} escapes the tree root"

namespace Key

/-- The first segment that an address cannot have decides. -/
def checkSegments (raw : String) : List Bytes → Except MarkerFault Unit
  | [] => .ok ()
  | segment :: rest =>
    if segment = [] then .error (.emptySegment raw)
    else if segment = Path.dot ∨ segment = Path.dotDot then .error (.escapes raw)
    else checkSegments raw rest

/-- The address that an untrusted text names. Anything that could lead out of the tree is refused,
not repaired. -/
def ofMarker (raw : String) : Except MarkerFault Key := do
  let bytes := Bytes.ofString raw
  if bytes = [] then throw .empty
  if (92 : UInt8) ∈ bytes ∨ (0 : UInt8) ∈ bytes then throw (.illegalCharacter raw)
  if bytes.head? = some slash then throw (.absolute raw)
  checkSegments raw (Bytes.splitOn slash bytes)
  pure bytes

def ofNames (names : List Bytes) : Key := Bytes.joinWith slash names

def path (root : Path) (key : Key) : Path := (Bytes.splitOn slash key).foldl Path.child root

/-- The addresses of the directories around a file, shallowest first. -/
def ancestors : Key → List Key
  | [] => []
  | b :: rest => (if b = slash then [[]] else []) ++ (ancestors rest).map (b :: ·)

/-- The names of a path below a root, if all its steps there are names in UTF-8. -/
def namesOf (root p : Path) : List Component → Except PathFault (List Bytes)
  | [] => .ok []
  | .normal name :: rest =>
    if (Bytes.toString? name).isSome then (namesOf root p rest).map (name :: ·)
    else .error (.notUtf8 root p)
  | _ :: _ => .error (.unexpectedStep p)

def ofPath (root p : Path) : Except PathFault Key := do
  match root.below? p with
  | none => throw (.outside p root)
  | some steps =>
    let names ← namesOf root p steps
    if names = [] then throw (.noKey p)
    pure (ofNames names)

example : ancestors (Bytes.ofString "a/b/c") = [Bytes.ofString "a", Bytes.ofString "a/b"] := by
  decide

end Key
end LayeredTree
