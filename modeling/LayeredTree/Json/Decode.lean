import LayeredTree.Json.Value

set_option autoImplicit false

namespace LayeredTree.Json

/-- A typed reading of a value. -/
abbrev Decoder (α : Type) := Json → Except Fault α

def refuse {α : Type} (wanted : String) (v : Json) : Except Fault α :=
  .error (.wrongKind v.found wanted)

def asText (wanted : String) : Decoder String
  | text s => .ok s
  | v => refuse wanted v

def asBool : Decoder Bool
  | bool b => .ok b
  | v => refuse "a boolean" v

def wordOf (n : Number) : Except Fault UInt32 :=
  match n with
  | .natural m =>
    if m < 2 ^ 32 then .ok (UInt32.ofNat m) else .error (.wrongValue (.number n) "u32")
  | .negative _ => .error (.wrongValue (.number n) "u32")
  | .real _ => .error (.wrongKind (.number n) "u32")

def asWord : Decoder UInt32
  | number n => wordOf n
  | v => refuse "u32" v

def asOptional {α : Type} (inner : Decoder α) : Decoder (Option α)
  | null => .ok none
  | v => some <$> inner v

def asList {α : Type} (inner : Decoder α) : Decoder (List α)
  | list items => items.mapM inner
  | v => refuse "a sequence" v

def asMap {α : Type} (inner : Decoder α) : Decoder (List (String × α))
  | object members => members.mapM fun (k, v) => (fun x => (k, x)) <$> inner v
  | v => refuse "a map" v

/-- A record: an object whose members are taken one by one into a draft, or a list whose items
stand for the fields in order. Names without a field are passed over. -/
def asRecord {α : Type} (wanted : String) (fields : List (String × (α → Json → Except Fault α)))
    (draft : α) : Decoder α
  | object members =>
    members.foldlM (fun draft (k, v) =>
      match fields.lookup k with
      | some take => take draft v
      | none => .ok draft) draft
  | list items => do
    let draft ← (fields.zip items).foldlM (fun draft (field, v) => field.2 draft v) draft
    if fields.length < items.length then
      throw (.wrongLength items.length "fewer elements in array")
    pure draft
  | v => refuse wanted v

end LayeredTree.Json
