import LayeredTree.Text.Quoted
import LayeredTree.Double

set_option autoImplicit false

namespace LayeredTree.Json

inductive Number
  | natural (n : Nat)
  | negative (n : Nat)
  | real (value : Double)
deriving Repr, DecidableEq

inductive Found
  | null
  | bool (b : Bool)
  | number (n : Number)
  | text (s : String)
  | list
  | object
deriving Repr, DecidableEq

def Found.message : Found → String
  | null => "null"
  | bool b => s!"boolean `{b}`"
  | number (.natural n) => s!"integer `{n}`"
  | number (.negative n) => s!"integer `-{n}`"
  | number (.real value) => s!"floating point `{value.compact}`"
  | text s => s!"string {Text.quoted s}"
  | list => "sequence"
  | object => "map"

inductive Fault
  | endInList
  | endInObject
  | endInText
  | endInValue
  | missingColon
  | missingListComma
  | missingObjectComma
  | badWord
  | missingValue
  | badEscape
  | badNumber
  | numberTooGreat
  | notUnicode
  | controlInText
  | keyNotText
  | loneSurrogate
  | trailingComma
  | trailingText
  | endOfEscape
  /-- A value of another kind than wanted. -/
  | wrongKind (found : Found) (wanted : String)
  /-- A value of the right kind that is out of bounds. -/
  | wrongValue (found : Found) (wanted : String)
  | wrongLength (length : Nat) (wanted : String)
  | repeated (field : String)
  | missing (field : String)
  | unknownVariant (variant wanted : String)
  /-- A text that its own reader refuses, in that reader's words. -/
  | refused (reason : String)
deriving Repr, DecidableEq

def Fault.message : Fault → String
  | endInList => "EOF while parsing a list"
  | endInObject => "EOF while parsing an object"
  | endInText => "EOF while parsing a string"
  | endInValue => "EOF while parsing a value"
  | missingColon => "expected `:`"
  | missingListComma => "expected `,` or `]`"
  | missingObjectComma => "expected `,` or `\x7d`"
  | badWord => "expected ident"
  | missingValue => "expected value"
  | badEscape => "invalid escape"
  | badNumber => "invalid number"
  | numberTooGreat => "number out of range"
  | notUnicode => "invalid unicode code point"
  | controlInText => "control character (\\u0000-\\u001F) found while parsing a string"
  | keyNotText => "key must be a string"
  | loneSurrogate => "lone leading surrogate in hex escape"
  | trailingComma => "trailing comma"
  | trailingText => "trailing characters"
  | endOfEscape => "unexpected end of hex escape"
  | wrongKind found wanted => s!"invalid type: {found.message}, expected {wanted}"
  | wrongValue found wanted => s!"invalid value: {found.message}, expected {wanted}"
  | wrongLength length wanted => s!"invalid length {length}, expected {wanted}"
  | repeated field => s!"duplicate field `{field}`"
  | missing field => s!"missing field `{field}`"
  | unknownVariant variant wanted => s!"unknown variant `{variant}`, expected {wanted}"
  | refused reason => reason

end LayeredTree.Json
