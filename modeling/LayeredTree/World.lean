import LayeredTree.Disk.Request
import LayeredTree.Event
import LayeredTree.Instant.Basic

/-!
The world a run acts on: the disk, the environment, the clock, a source of fresh names and the
journal of events. Actions answer or fail, and what they did before failing stays done.
-/

set_option autoImplicit false

namespace LayeredTree

/-- Everything a run can see and change. -/
structure World where
  disk : Disk
  environment : List (String × String)
  now : Instant
  /-- The number of the next fresh name; numbers are never used twice. -/
  serial : Nat
  /-- The spans that are open, outermost first. -/
  spans : List Span
  /-- The events so far, oldest first. -/
  journal : List Event

abbrev Action (ε : Type) := EStateM ε World

namespace World

def environmentValue (w : World) (name : String) : Option String := w.environment.lookup name

def onDisk {α : Type} (request : DiskRequest α) : Action IoFault α := fun w =>
  match request w.disk with
  | .ok a disk => .ok a { w with disk := disk }
  | .error fault disk => .error fault { w with disk := disk }

def onDiskAsk {ε α : Type} (question : Disk → Except ε α) : Action ε α := fun w =>
  match question w.disk with
  | .ok a => .ok a w
  | .error fault => .error fault w

def note {ε : Type} (level : Level) (origin message : String)
    (fields : List (String × FieldValue)) : Action ε Unit :=
  modify fun w => { w with journal := w.journal ++ [⟨level, origin, message, fields, w.spans⟩] }

/-- Runs an action inside a span, which is closed however the action ends. -/
def inside {ε α : Type} (span : Span) (act : Action ε α) : Action ε α := fun w =>
  match act { w with spans := w.spans ++ [span] } with
  | .ok a w' => .ok a { w' with spans := w.spans }
  | .error fault w' => .error fault { w' with spans := w.spans }

def failingAs {ε ε' α : Type} (widen : ε → ε') (act : Action ε α) : Action ε' α :=
  EStateM.adaptExcept widen act

/-- The outcome of an action as a value; the changes stay. -/
def outcome {ε ε' α : Type} (act : Action ε α) : Action ε' (Except ε α) := fun w =>
  match act w with
  | .ok a w' => .ok (.ok a) w'
  | .error fault w' => .ok (.error fault) w'

def settle {ε α : Type} (result : Except ε α) : Action ε α :=
  match result with
  | .ok a => pure a
  | .error fault => throw fault

def freshAlphabet : List UInt8 :=
  (List.range 26).map (fun i => UInt8.ofNat (97 + i)) ++
    (List.range 26).map (fun i => UInt8.ofNat (65 + i)) ++
    (List.range 10).map (fun i => UInt8.ofNat (48 + i))

def freshWidth : Nat := 6

/-- A number written with the given count of letters and digits. -/
def freshDigits : Nat → Nat → Bytes
  | 0, _ => []
  | width + 1, n => freshDigits width (n / 62) ++ [freshAlphabet.getD (n % 62) 48]

def tryFresh (base : Path) (start : Bytes) : Nat → Action IoFault Path
  | 0 => throw (.atPath (.system .alreadyExists) base)
  | tries + 1 => do
    let serial := (← get).serial
    modify fun w => { w with serial := w.serial + 1 }
    let path := base.child (start ++ freshDigits freshWidth serial)
    match ← outcome (onDisk (Disk.makeDirectory path)) with
    | .ok () => pure path
    | .error fault =>
      if fault = .system .alreadyExists then tryFresh base start tries
      else throw (.atPath fault path)

/-- Makes a new directory inside `base` whose name begins as given. The path is absolute, and as
many names are tried as there are entries that could be in the way, and one more. -/
def freshDirectory (base : Path) (start : Bytes) : Action IoFault Path := do
  let w ← get
  let base := if base.isAbsolute then base else (Location.path w.disk.here).join base
  tryFresh base start (w.disk.nodes.length + 1)

end World
end LayeredTree
