import LayeredTree.Logging.Filter
import LayeredTree.Settings.Basic
import LayeredTree.World

set_option autoImplicit false

namespace LayeredTree

inductive LogSetupFault
  | badDirective (fault : DirectiveFault)
  | badVariableDirective (fault : DirectiveFault)
  | unknownFormat (name : String)
  | unknownOutput (name : String)
  | directory (fault : IoFault)
  | file (path : Path) (fault : IoFault)
deriving Repr, DecidableEq

def LogSetupFault.message : LogSetupFault → String
  | badDirective fault => s!"Invalid log directive: {fault.message}"
  | badVariableDirective fault => s!"Invalid log directive from env: {fault.message}"
  | unknownFormat name => LogFormat.refusal name
  | unknownOutput name => LogOutput.refusal name
  | directory fault => s!"Failed to create log directory: {fault.message}"
  | file path fault => s!"Failed to open log file {path.quoted}: {fault.message}"

def LogSetupFault.endsRun : LogSetupFault → Bool
  | badDirective fault | badVariableDirective fault => fault == .torn
  | _ => false

structure LogSetup where
  filter : LogFilter
  format : LogFormat
  output : LogOutput
  colored : Bool
  file : Option Path
  /-- Directives that were passed over, one complaint each. -/
  complaints : List String
deriving Repr, DecidableEq

namespace Logging

def accountHome : Path := Path.ofString "/root"

def home (w : World) : Path :=
  match w.environmentValue "HOME" with
  | some place => if place ≠ "" then Path.ofString place else accountHome
  | none => accountHome

/-- The directory for the states of programs: the one that the environment names, if it names it
from the root on, or one in the home directory. -/
def stateDirectory (w : World) : Path :=
  let usual := (home w).join (Path.ofString ".local/state")
  match w.environmentValue "XDG_STATE_HOME" with
  | some place => if (Path.ofString place).isAbsolute then Path.ofString place else usual
  | none => usual

def standardFile (w : World) : Path :=
  ((stateDirectory w).child (Bytes.ofString "patchchain")).child (Bytes.ofString "patchchain.log")

def fileOf (settings : LoggingSettings) (w : World) : Path :=
  settings.file.getD (standardFile w)

def openFile (path : Path) : Action LogSetupFault Unit := do
  match path.parent with
  | some parent => World.failingAs .directory (World.onDisk (Disk.makeDirectories parent))
  | none => pure ()
  World.failingAs (.file path) (World.onDisk (Disk.appendFile path []))

def moduleLevels (s : String) : List (String × String) :=
  (s.splitOn ",").filterMap fun pair =>
    match pair.splitOn "=" with
    | name :: level :: more =>
      let trimmed := fun (t : String) => String.ofList (Text.trim t.toList)
      let name := trimmed name
      let level := trimmed (String.intercalate "=" (level :: more))
      if name = "" ∨ level = "" then none else some (name, level)
    | _ => none

def addModules (widen : DirectiveFault → LogSetupFault) (f : LogFilter)
    (levels : List (String × String)) : Except LogSetupFault LogFilter :=
  levels.foldlM (fun f (name, level) => do
    let d ← (Directive.parse s!"{name}={level}").mapError widen
    pure (f.add d)) f

def givenFilter (w : World) : Except LogSetupFault (Option LogFilter) :=
  match (w.environmentValue "PATCHCHAIN_LOG").map LogFilter.parse with
  | some (.ok filter) => .ok (some filter)
  | some (.error .torn) => .error (.badVariableDirective .torn)
  | some (.error _) | none => .ok none

/-- The filter, and complaints about what was passed over on the way to it. A filter in the
environment that can be read goes before everything else. -/
def filterOf (settings : LoggingSettings) (w : World) :
    List String × Except LogSetupFault LogFilter :=
  match givenFilter w with
  | .error fault => ([], .error fault)
  | .ok (some filter) => ([], .ok filter)
  | .ok none =>
    if settings.level = "off" then ([], .ok .off)
    else
      match LogFilter.parseAny settings.level with
      | .error fault => ([], .error (.badDirective fault))
      | .ok (filter, complaints) =>
        let named := (w.environmentValue "PATCHCHAIN_LOG_MODULES").map moduleLevels
        (complaints, do
          let filter ← addModules .badDirective filter settings.modules
          addModules .badVariableDirective filter (named.getD []))

/-- The form of the lines. A name in the environment that no form has is passed over. -/
def formatOf (settings : LoggingSettings) (w : World) : Except LogSetupFault LogFormat :=
  match (w.environmentValue "PATCHCHAIN_LOG_FORMAT").bind LogFormat.ofName? with
  | some format => .ok format
  | none =>
    match LogFormat.ofName? settings.format with
    | some format => .ok format
    | none => .error (.unknownFormat settings.format)

def outputOf (settings : LoggingSettings) (w : World) : Except LogSetupFault LogOutput :=
  let name := (w.environmentValue "PATCHCHAIN_LOG_OUTPUT").getD settings.output
  match LogOutput.ofName? name with
  | some output => .ok output
  | none => .error (.unknownOutput name)

def prepare (settings : LoggingSettings) : Action (List String × LogSetupFault) LogSetup := do
  let w ← get
  let (complaints, filter) := filterOf settings w
  let late := fun e => (complaints, e)
  let filter ← World.settle (filter.mapError late)
  let format ← World.settle ((formatOf settings w).mapError late)
  let output ← World.settle ((outputOf settings w).mapError late)
  let file := if output.hasFile then some (fileOf settings w) else none
  match file with
  | some path => World.failingAs late (openFile path)
  | none => pure ()
  pure ⟨filter, format, output, settings.color && !output.hasFile, file, complaints⟩

end Logging
end LayeredTree
