import LayeredTree.Signature
import LayeredTree.Path
import LayeredTree.Json.Decode

set_option autoImplicit false

namespace LayeredTree

structure ResourceId where
  name : String
  service : String
  identifier : Option String
deriving Repr, DecidableEq

def ResourceId.text (r : ResourceId) : String :=
  match r.identifier with
  | some identifier => s!"{r.service}/{r.name}/{identifier}"
  | none => s!"{r.service}/{r.name}"

inductive LayerKind
  | snapshot
  | patch
deriving Repr, DecidableEq

/-- The kind that a JSON value names: a text, or an object with one member whose value is null. -/
def LayerKind.decode (v : Json) : Except Json.Fault LayerKind :=
  let named (name : String) : Except Json.Fault LayerKind :=
    if name = "Snapshot" then .ok .snapshot
    else if name = "Patch" then .ok .patch
    else .error (.unknownVariant name "`Snapshot` or `Patch`")
  match v with
  | .text name => named name
  | .object [(name, value)] => do
    let kind ← named name
    match value with
    | .null => pure kind
    | value => Json.refuse "unit" value
  | .object _ => .error (.wrongValue .object "map with a single key")
  | v => Json.refuse "string or map" v

/-- One version of a resource: its tree or the patch that leads to it, on disk. -/
structure Layer where
  kind : LayerKind
  signature : Signature
  path : Path
deriving DecidableEq

end LayeredTree
