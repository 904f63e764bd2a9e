import LayeredTree.Instant.Rfc3339
import LayeredTree.Json.Value
import LayeredTree.Logging.Setup

set_option autoImplicit false

namespace LayeredTree

inductive Paint
  | bold
  | dimmed
  | italic
  | red
  | green
  | yellow
  | blue
  | purple
deriving Repr, DecidableEq

namespace Paint

def code : Paint → Nat
  | bold => 1
  | dimmed => 2
  | italic => 3
  | red => 31
  | green => 32
  | yellow => 33
  | blue => 34
  | purple => 35

def apply (colored : Bool) (paint : Paint) (s : String) : String :=
  if colored then s!"\x1b[{paint.code}m{s}\x1b[0m" else s

end Paint

namespace Level

def name : Level → String
  | trace => "TRACE"
  | debug => "DEBUG"
  | info => "INFO"
  | warn => "WARN"
  | error => "ERROR"

def column : Level → String
  | info => " INFO"
  | warn => " WARN"
  | level => level.name

def paint : Level → Paint
  | trace => .purple
  | debug => .blue
  | info => .green
  | warn => .yellow
  | error => .red

end Level

namespace FieldValue

def plain : FieldValue → String
  | shown s => s
  | text s => Text.quoted s
  | count n | wide n => toString n
  | flag b => if b then "true" else "false"

def json : FieldValue → Json
  | shown s | text s => .text s
  | count n => .ofNat n
  | wide n => .text (toString n)
  | flag b => .bool b

end FieldValue

namespace LogLine

/-- A character of a message. One that could command a terminal is written as an escape. -/
def harmless (c : Char) : List Char :=
  if c = '\x1b' ∨ c = '\x07' ∨ c = '\x08' ∨ c = '\x0c' ∨ c = '\x7f' then
    ['\\', 'x', Nat.digitChar (c.toNat / 16), Nat.digitChar (c.toNat % 16)]
  else if 0x80 ≤ c.toNat ∧ c.toNat ≤ 0x9f then
    ['\\', 'u', '\x7b'] ++ Text.hexDigits c.toNat ++ ['\x7d']
  else [c]

def messageForm (message : String) : String :=
  String.ofList (message.toList.flatMap harmless)

def fieldForms (colored : Bool) (fields : List (String × FieldValue)) : List String :=
  fields.map fun (name, value) =>
    Paint.italic.apply colored name ++ Paint.dimmed.apply colored "=" ++ value.plain

def spanForm (colored : Bool) (span : Span) : String :=
  let fields := String.intercalate " " (fieldForms colored span.fields)
  Paint.bold.apply colored span.name ++
    (if fields = "" then ""
      else Paint.bold.apply colored "\x7b" ++ fields ++ Paint.bold.apply colored "\x7d") ++
    Paint.dimmed.apply colored ":"

def spanForms (colored : Bool) (spans : List Span) : String :=
  if spans = [] then "" else String.join (spans.map (spanForm colored)) ++ " "

def textLine (colored : Bool) (time : String) (e : Event) : String :=
  Paint.dimmed.apply colored time ++ " " ++
    e.level.paint.apply colored e.level.column ++ " " ++
    spanForms colored e.spans ++
    Paint.dimmed.apply colored e.origin ++ Paint.dimmed.apply colored ":" ++ " " ++
    String.intercalate " " (messageForm e.message :: fieldForms colored e.fields)

/-- An open span: its fields in the order of their names, and its own name at the end. -/
def spanObject (span : Span) : Json :=
  let fields := span.fields.foldl (fun fields (name, value) =>
    Json.setMember name value.json fields) []
  .object (fields ++ [("name", .text span.name)])

def jsonLine (time : String) (e : Event) : String :=
  let fields := ("message", Json.text e.message) :: e.fields.map fun (name, value) =>
    (name, value.json)
  let spans := match e.spans.getLast? with
    | some innermost =>
      [("span", spanObject innermost), ("spans", Json.list (e.spans.map spanObject))]
    | none => []
  (Json.object ([("timestamp", .text time), ("level", .text e.level.name),
    ("fields", .object fields), ("target", .text e.origin)] ++ spans)).compact

end LogLine

def LogSetup.lines (setup : LogSetup) (time : Instant) (journal : List Event) : List String :=
  (setup.filter.keep journal).map fun e =>
    match setup.format with
    | .text => LogLine.textLine setup.colored time.textWithOffset e
    | .json => LogLine.jsonLine time.textWithOffset e

end LayeredTree
