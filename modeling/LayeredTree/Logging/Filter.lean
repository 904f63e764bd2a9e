import LayeredTree.Logging.FieldTest
import LayeredTree.Text.Alphanumeric
import LayeredTree.Text.Category

set_option autoImplicit false

namespace LayeredTree

def Level.depth : Level → Nat
  | error => 1
  | warn => 2
  | info => 3
  | debug => 4
  | trace => 5

/-- The most talkative level that is let through; none lets nothing through. -/
abbrev LevelLimit := Option Level

namespace LevelLimit

def depth : LevelLimit → Nat
  | none => 0
  | some level => level.depth

def lets (limit : LevelLimit) (level : Level) : Bool := level.depth ≤ limit.depth

def names : List (String × LevelLimit) :=
  [("error", some .error), ("warn", some .warn), ("info", some .info), ("debug", some .debug),
    ("trace", some .trace), ("off", none)]

/-- The depth that a text of digits gives. -/
def depthOf? (s : List Char) : Option Nat :=
  let ds := match s with
    | '+' :: ds => ds
    | ds => ds
  if ds = [] ∨ !ds.all Char.isDigit then none
  else some (ds.foldl (fun n c => n * 10 + (c.toNat - 48)) 0)

/-- The limit of a text: its depth in digits, or its name in letters of either case. -/
def ofText? (s : String) : Option LevelLimit :=
  let named := if s = "" then some (some Level.error) else names.lookup (s.map Char.toLower)
  match depthOf? s.toList with
  | some 0 => some none
  | some n =>
    match names.find? fun p => p.2.depth == n with
    | some p => some p.2
    | none => named
  | none => named

end LevelLimit

inductive DirectiveFault
  | badForm
  | badLevel
  | badField (fault : PatternFault)
  /-- A piece begins or ends inside a character; such a directive ends the run at once. -/
  | torn
deriving Repr, DecidableEq

def DirectiveFault.message : DirectiveFault → String
  | badForm => "invalid filter directive"
  | badLevel =>
    "error parsing level filter: expected one of \"off\", \"error\", \"warn\", \"info\", " ++
      "\"debug\", \"trace\", or a number 0-5"
  | badField fault => s!"invalid field filter: {fault.message}"
  | torn => "a piece of a directive begins or ends inside a character"

/-- One rule of a filter: how much is let through of a part of the program, or inside a span. -/
structure Directive where
  limit : LevelLimit
  /-- What the origin of an event begins with. -/
  target : Option String
  span : Option String
  /-- Fields that have to be there, and the values asked of some. -/
  fields : List (String × Option FieldTest)
deriving Repr, DecidableEq

namespace Directive

def everything : Directive := ⟨some .trace, none, none, []⟩

inductive ReadState
  | start
  | levelOrTarget (begun : Nat)
  | span (begun : Nat)
  | field (begun : Nat)
  | fields
  | target
  | level (begun : Nat)
  | complete
deriving Repr, DecidableEq

/-- The characters behind a number of bytes, unless it ends inside a character. -/
def behind? : Nat → List Char → Option (List Char)
  | 0, text => some text
  | _ + 1, [] => none
  | n + 1, c :: text => if c.utf8Size ≤ n + 1 then behind? (n + 1 - c.utf8Size) text else none

def front? : Nat → List Char → Option (List Char)
  | 0, _ => some []
  | _ + 1, [] => none
  | n + 1, c :: text =>
    if c.utf8Size ≤ n + 1 then (front? (n + 1 - c.utf8Size) text).map (c :: ·) else none

def piece (text : List Char) (begun ended : Nat) : Except DirectiveFault String :=
  match (behind? begun text).bind (front? (ended - begun)) with
  | some cs => .ok (String.ofList cs)
  | none => .error .torn

def remainder (text : List Char) (begun : Nat) : Except DirectiveFault String :=
  match behind? begun text with
  | some cs => .ok (String.ofList cs)
  | none => .error .torn

def limitOf (s : String) : Except DirectiveFault LevelLimit :=
  if s = "" then .ok (some .trace)
  else
    match LevelLimit.ofText? s with
    | some limit => .ok limit
    | none => .error .badLevel

/-- Takes a piece that stands alone: the name of a limit, or a part of which all is let through. -/
def withLevelOrTarget (d : Directive) (s : String) : Directive :=
  if s = "" then { d with limit := some .trace, target := none }
  else
    match LevelLimit.ofText? s with
    | some limit => { d with limit := limit, target := none }
    | none => { d with limit := some .trace, target := some s }

def withField (d : Directive) (s : String) : Except DirectiveFault Directive :=
  match s.splitOn "=" with
  | name :: value :: _ => do
    let test ← (FieldTest.parse value).mapError .badField
    pure { d with fields := d.fields ++ [(name, some test)] }
  | [name] =>
    if name = "" then .error .badForm else .ok { d with fields := d.fields ++ [(name, none)] }
  | [] => .error .badForm

/-- Takes one character, which stands at place `i` of what is read. Places are those of the text
without the blanks around it, but pieces are cut out of the text as it was given. -/
def step (text : List Char) (i : Nat) (c : Char) :
    ReadState → Directive → Except DirectiveFault (ReadState × Directive)
  | .start, d =>
    if c = '[' then .ok (.span (i + 1), d)
    else if c = '-' ∨ c = ':' ∨ c = '_' ∨ Text.isAlphanumeric c then .ok (.levelOrTarget i, d)
    else .error .badForm
  | .levelOrTarget begun, d => do
    if c = '=' then pure (.level (i + 1), { d with target := some (← piece text begun i) })
    else if c = '[' then pure (.span (i + 1), { d with target := some (← piece text begun i) })
    else if c = ',' then pure (.complete, d.withLevelOrTarget (← remainder text begun))
    else pure (.levelOrTarget begun, d)
  | .target, d => if c = '=' then .ok (.level (i + 1), d) else .error .badForm
  | .span begun, d => do
    if c = ']' then pure (.target, { d with span := some (← piece text begun i) })
    else if c = '\x7b' then
      let name ← piece text begun i
      pure (.field (i + 1), { d with span := if name = "" then none else some name })
    else pure (.span begun, d)
  | .field begun, d => do
    if c = '\x7d' then pure (.fields, ← d.withField (← piece text begun i))
    else if c = ',' then pure (.field (i + 1), ← d.withField (← piece text begun i))
    else pure (.field begun, d)
  | .fields, d => if c = ']' then .ok (.target, d) else .error .badForm
  | .level begun, d => do
    if c = ',' then pure (.complete, { d with limit := ← limitOf (← piece text begun i) })
    else pure (.level begun, d)
  | .complete, _ => .error .badForm

def steps (text : List Char) : Nat → List Char → ReadState → Directive →
    Except DirectiveFault (ReadState × Directive)
  | _, [], state, d => .ok (state, d)
  | i, c :: rest, state, d => do
    let (state, d) ← step text i c state d
    steps text (i + c.utf8Size) rest state d

def parse (s : String) : Except DirectiveFault Directive := do
  let text := s.toList
  let (state, d) ← steps text 0 (Text.trim text) .start everything
  match state with
  | .levelOrTarget begun => pure (d.withLevelOrTarget (← remainder text begun))
  | .level begun => pure { d with limit := ← limitOf (← remainder text begun) }
  | .target | .complete => pure d
  | .start | .span _ | .field _ | .fields => throw .badForm

def isScoped (d : Directive) : Bool := d.span.isSome || !d.fields.isEmpty

/-- The directive can be judged by an event alone. -/
def isPlain (d : Directive) : Bool := d.span.isNone && d.fields.all fun f => f.2.isNone

def fitsOrigin (d : Directive) (origin : String) : Bool :=
  match d.target with
  | some target => target.toList.isPrefixOf origin.toList
  | none => true

/-- How specific a directive is: the length of its part, then the count of its fields. -/
def weight (d : Directive) : Nat × Nat :=
  (match d.target with | some t => t.utf8ByteSize + 1 | none => 0, d.fields.length)

def sameSubject (a b : Directive) : Bool :=
  a.target == b.target && a.fields.map Prod.fst == b.fields.map Prod.fst

/-- The first directive is asked before the second one. -/
def precedes (a b : Directive) : Bool :=
  let (la, fa) := a.weight
  let (lb, fb) := b.weight
  if la ≠ lb then lb < la else if fa ≠ fb then fb < fa
  else if a.target ≠ b.target then b.target.getD "" < a.target.getD ""
  else b.fields.map Prod.fst < a.fields.map Prod.fst

/-- Puts a directive among others, the most specific one first; it takes the place of one about the
same events. -/
def insert (d : Directive) : List Directive → List Directive
  | [] => [d]
  | e :: rest =>
    if d.sameSubject e then d :: rest
    else if d.precedes e then d :: e :: rest
    else e :: insert d rest

/-- Puts a directive about spans behind others; it takes the place of one that asks for the same. -/
def append (d : Directive) : List Directive → List Directive
  | [] => [d]
  | e :: rest => if { d with limit := e.limit } = e then d :: rest else e :: append d rest

def tests (d : Directive) : List (String × FieldTest) :=
  d.fields.filterMap fun (name, test) => test.map (name, ·)

/-- The fields have the values that are asked of them; of two for one field the last one counts. -/
def isMetBy (d : Directive) (fields : List (String × FieldValue)) : Bool :=
  d.tests.all fun (name, _) =>
    match d.tests.reverse.lookup name, fields.lookup name with
    | some test, some value => test.fits value
    | _, _ => false

end Directive

/-- A filter: rules for events by their origin, the most specific first, and rules for what happens
inside spans. -/
structure LogFilter where
  byOrigin : List Directive
  bySpan : List Directive
  /-- The most that any rule lets through, or any that was replaced by another. -/
  ceiling : Nat
deriving Repr, DecidableEq

namespace LogFilter

def empty : LogFilter := ⟨[], [], 0⟩

def addByOrigin (f : LogFilter) (d : Directive) : LogFilter :=
  { f with byOrigin := d.insert f.byOrigin, ceiling := max f.ceiling d.limit.depth }

def addBySpan (f : LogFilter) (d : Directive) : LogFilter :=
  { f with bySpan := d.append f.bySpan, ceiling := max f.ceiling d.limit.depth }

def add (f : LogFilter) (d : Directive) : LogFilter :=
  if d.isPlain then f.addByOrigin d else f.addBySpan d

/-- The filter of some directives, or of a standard one if there are none. Directives about fields
without values are rules of both kinds. -/
def ofDirectives (standard : Directive) (ds : List Directive) : LogFilter :=
  if ds = [] then empty.add standard
  else
    let scopedOnes := ds.filter Directive.isScoped
    let plainOnes := ds.filter (fun d => !d.isScoped) ++ scopedOnes.filter Directive.isPlain
    scopedOnes.foldl addBySpan (plainOnes.foldl addByOrigin empty)

def pieces (s : String) : List String := (s.splitOn ",").filter fun p => p != ""

/-- The filter of a text, if all its directives can be read. An empty text lets nothing through. -/
def parse (s : String) : Except DirectiveFault LogFilter := do
  let ds ← (pieces s).mapM Directive.parse
  pure (ofDirectives { Directive.everything with limit := none } ds)

/-- The filter of the directives in a text that can be read, and the complaints about the others.
Without any, errors are let through. -/
def parseAny (s : String) : Except DirectiveFault (LogFilter × List String) := do
  let (ds, complaints) ← (pieces s).foldlM (fun (ds, complaints) p =>
    match Directive.parse p with
    | .ok d => pure (ds ++ [d], complaints)
    | .error .torn => throw .torn
    | .error fault => pure (ds, complaints ++ [s!"ignoring `{p}`: {fault.message}"]))
    (([] : List Directive), ([] : List String))
  pure (ofDirectives { Directive.everything with limit := some .error } ds, complaints)

def off : LogFilter := empty.add { Directive.everything with limit := none }

def spanLevel : Level := .info

/-- The most that could be let through. Rules that ask for values may let everything through. -/
def mostDepth (f : LogFilter) : Nat :=
  if f.bySpan.any fun d => !d.tests.isEmpty then 5 else f.ceiling

def letsByOrigin (f : LogFilter) (level : Level) (origin : String) (fields : Option (List String)) :
    Bool :=
  let fits (d : Directive) : Bool :=
    d.fitsOrigin origin &&
      match fields with
      | some names => d.fields.all fun p => names.contains p.1
      | none => true
  match f.byOrigin.find? fits with
  | some d => d.limit.lets level
  | none => false

def rulesFor (f : LogFilter) (span : Span) : List Directive :=
  f.bySpan.filter fun d =>
    d.fitsOrigin span.origin && (match d.span with | some name => name == span.name | none => true) &&
      d.fields.all fun p => (span.fields.lookup p.1).isSome

/-- What the rules about a span let through inside it. -/
def limitInside (f : LogFilter) (span : Span) : LevelLimit :=
  ((f.rulesFor span).filter fun d => d.isMetBy span.fields).foldl
    (fun m d => if m.depth < d.limit.depth then d.limit else m) none

/-- The open spans that the filter lets through. A rule about a span lets it through itself. -/
def keptSpans (f : LogFilter) (spans : List Span) : List Span :=
  (spans.foldl (fun (kept, inside) span =>
    let lets := spanLevel.depth ≤ f.mostDepth &&
      (!(f.rulesFor span).isEmpty || LevelLimit.lets inside spanLevel ||
        f.letsByOrigin spanLevel span.origin none)
    let limit := f.limitInside span
    (if lets then kept ++ [span] else kept,
      if lets && decide (LevelLimit.depth inside < limit.depth) then limit else inside))
    (([] : List Span), (none : LevelLimit))).1

def limitWithin (f : LogFilter) (spans : List Span) : LevelLimit :=
  (f.keptSpans spans).foldl (fun m span =>
    if m.depth < (f.limitInside span).depth then f.limitInside span else m) none

def lets (f : LogFilter) (e : Event) : Bool :=
  e.level.depth ≤ f.mostDepth &&
    ((f.limitWithin e.spans).lets e.level ||
      f.letsByOrigin e.level e.origin (some ("message" :: e.fields.map Prod.fst)))

def keep (f : LogFilter) (journal : List Event) : List Event :=
  (journal.filter f.lets).map fun e => { e with spans := f.keptSpans e.spans }

end LogFilter
end LayeredTree
