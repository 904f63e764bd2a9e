import LayeredTree.Path
import LayeredTree.Signature

/-!
Grammars of command lines. Words are taken from left to right. A value that has been met waits
until the next argument begins and is only then settled, so that of two faults in a line the one
that is settled first is told.
-/

set_option autoImplicit false

namespace LayeredTree

inductive UsageFault
  /-- Help was asked for, which is no mistake. -/
  | helpWanted
  | nothingGiven
  | noCommand
  | unknownCommand
  | unknownArgument
  | lackingArgument
  | emptyValue
  | badValue
  | needlessValue
  | repeated
deriving Repr, DecidableEq

def UsageFault.exitCode : UsageFault → Nat
  | helpWanted => 0
  | _ => 2

inductive ValueKind
  | path
  | text
  | signature
deriving Repr, DecidableEq

inductive ArgumentValue
  | flag
  | path (p : Path)
  | text (s : String)
  | signature (s : Signature)

/-- Reads the text of a value. A text may be empty and a path may not. -/
def ValueKind.read (kind : ValueKind) (s : String) : Except UsageFault ArgumentValue :=
  match kind with
  | text => .ok (.text s)
  | path => if s = "" then .error .emptyValue else .ok (.path (.ofString s))
  | signature =>
    match Signature.parse s with
    | .ok given => .ok (.signature given)
    | .error _ => .error .badValue

structure Grammar where
  /-- Options with a value. -/
  options : List (String × ValueKind)
  flags : List String
  /-- Arguments that go by their place, in order. -/
  places : List (String × ValueKind)
  /-- Commands, each of which takes over the rest of the line. -/
  commands : List String

inductive Word
  /-- Two dashes alone: all that follows goes by its place. -/
  | divider
  | long (name : String) (value : Option String)
  | short (letter : Char)
  | plain
deriving Repr, DecidableEq

/-- The form of a word by the dashes it begins with. A single dash is plain. -/
def Word.ofString (s : String) : Word :=
  match s.toList with
  | ['-', '-'] => divider
  | '-' :: '-' :: rest =>
    let value := match rest.dropWhile (· ≠ '=') with
      | _ :: value => some (String.ofList value)
      | [] => none
    long (String.ofList (rest.takeWhile (· ≠ '='))) value
  | '-' :: letter :: _ => short letter
  | _ => plain

structure LineReading where
  given : List (String × ArgumentValue)
  /-- The argument that is not settled yet, with its value once that is met. -/
  waiting : Option (String × ValueKind × Option String)
  /-- The places that are left. -/
  places : List (String × ValueKind)
  /-- The divider has been met. -/
  divided : Bool

namespace LineReading

def start (g : Grammar) : LineReading := ⟨[], none, g.places, false⟩

def lacksValue (r : LineReading) : Bool :=
  match r.waiting with
  | some (_, _, none) => true
  | _ => false

def give (r : LineReading) (name : String) (value : Except UsageFault ArgumentValue) :
    Except UsageFault LineReading :=
  if (r.given.lookup name).isSome then .error .repeated
  else value.map fun v => { r with given := r.given ++ [(name, v)] }

def settle (r : LineReading) : Except UsageFault LineReading :=
  match r.waiting with
  | none => .ok r
  | some (_, _, none) => .error .emptyValue
  | some (name, kind, some s) => { r with waiting := none }.give name (kind.read s)

/-- Takes a flag. Wanted help ends the reading. -/
def takeFlag (r : LineReading) (name : String) : Except UsageFault LineReading := do
  let r ← r.settle
  if name = "help" then throw .helpWanted
  r.give name (.ok .flag)

/-- Takes an option, whose value is the next word if it is not joined to it. -/
def takeOption (r : LineReading) (name : String) (kind : ValueKind) (value : Option String) :
    Except UsageFault LineReading := do
  let r ← r.settle
  match value with
  | some s => r.give name (kind.read s)
  | none => pure { r with waiting := some (name, kind, none) }

def takePlace (r : LineReading) (g : Grammar) (s : String) : Except UsageFault LineReading :=
  match r.places with
  | (name, kind) :: rest => do
    let r ← r.settle
    pure { r with waiting := some (name, kind, some s), places := rest }
  | [] =>
    if g.commands = [] ∨ (r.divided ∧ s ∈ g.commands) then .error .unknownArgument
    else .error .unknownCommand

def takeWord (r : LineReading) (g : Grammar) (s : String) : Except UsageFault LineReading :=
  if r.divided then r.takePlace g s
  else
    match Word.ofString s with
    | .divider => .ok { r with divided := true }
    | .long name value =>
      match g.options.lookup name with
      | some kind => r.takeOption name kind value
      | none =>
        if name ∉ "help" :: g.flags then .error .unknownArgument
        else if value.isSome then .error .needlessValue
        else r.takeFlag name
    | .short letter => if letter = 'h' then r.takeFlag "help" else .error .unknownArgument
    | .plain =>
      match r.waiting with
      | some (name, kind, none) => .ok { r with waiting := some (name, kind, some s) }
      | _ => r.takePlace g s

/-- Takes words up to the end or to a command, which is given with the words behind it. -/
def takeWords (g : Grammar) :
    LineReading → List String → Except UsageFault (LineReading × Option (String × List String))
  | r, [] => .ok (r, none)
  | r, s :: rest =>
    if !r.divided && !r.lacksValue && g.commands.contains s then .ok (r, some (s, rest))
    else
      match r.takeWord g s with
      | .ok r => takeWords g r rest
      | .error fault => .error fault

def flag (r : LineReading) (name : String) : Bool := (r.given.lookup name).isSome

def path? (r : LineReading) (name : String) : Option Path :=
  match r.given.lookup name with
  | some (.path p) => some p
  | _ => none

def text? (r : LineReading) (name : String) : Option String :=
  match r.given.lookup name with
  | some (.text s) => some s
  | _ => none

def signature? (r : LineReading) (name : String) : Option Signature :=
  match r.given.lookup name with
  | some (.signature s) => some s
  | _ => none

end LineReading

example : Word.ofString "--output=a=b" = .long "output" (some "a=b") := by decide
example : Word.ofString "-" = .plain ∧ Word.ofString "--" = .divider := by decide

end LayeredTree
