set_option autoImplicit false

namespace LayeredTree

/-- How much an event matters, the most telling level first. -/
inductive Level
  | trace
  | debug
  | info
  | warn
  | error
deriving Repr, DecidableEq

inductive FieldValue
  /-- A value shown as its text. -/
  | shown (text : String)
  /-- A text that is quoted where values are written one after another. -/
  | text (text : String)
  | count (n : Nat)
  /-- A number too wide for the number type of structured output. -/
  | wide (n : Nat)
  | flag (b : Bool)
deriving Repr, DecidableEq

structure Span where
  origin : String
  name : String
  fields : List (String × FieldValue)
deriving Repr, DecidableEq

/-- One event; the outermost span comes first. -/
structure Event where
  level : Level
  origin : String
  message : String
  fields : List (String × FieldValue)
  spans : List Span
deriving Repr, DecidableEq

end LayeredTree
