import LayeredTree.Command.Run
import LayeredTree.Logging.Line

set_option autoImplicit false

namespace LayeredTree

structure Outcome where
  exitCode : Nat
  stdout : String
  stderr : String
deriving Repr, DecidableEq

namespace World

/-- Runs an action and gives the events that it entered into the journal with its value. -/
def recorded {ε α : Type} (act : Action ε α) : Action ε (α × List Event) := do
  let known := (← get).journal.length
  let a ← act
  pure (a, (← get).journal.drop known)

/-- Runs an action whose events are forgotten. -/
def unheard {ε α : Type} (act : Action ε α) : Action ε α := do
  let known := (← get).journal.length
  let a ← act
  modify fun w => { w with journal := w.journal.take known }
  pure a

end World

namespace Program

def origin : String := "patchchain"

def unlines (lines : List String) : String := String.join (lines.map fun s => s ++ "\n")

def usage : List String :=
  ["usage: patchchain [OPTIONS] COMMAND",
    "commands:",
    "  digest PATH",
    "  inspect PATCH [--format text|json]",
    "  diff BEFORE AFTER OUT --previous-signature HEX",
    "  combine BEFORE PATCH --signature HEX --output PATH",
    "  config",
    "  help [COMMAND]",
    "options:",
    "  --workspace PATH  --config PATH  --verbose",
    "  --log-level LEVEL  --log-format FORMAT  --log-output OUTPUT  --log-file PATH"]

def refused (fault : UsageFault) : Outcome :=
  if fault = .helpWanted then ⟨fault.exitCode, unlines usage, ""⟩
  else ⟨fault.exitCode, "", unlines usage⟩

/-- The logging that an invocation asks for: that of the settings with the options of the line in
front of it. Settings that cannot be loaded are told of later, unless they end the run. -/
def loggingOf (i : Invocation) : Action SettingsError LoggingSettings := do
  if !i.verbose then return { LoggingSettings.standard with level := "off" }
  let loading := match i.settingsFile with
    | some file => Settings.loadFile file
    | none => Settings.load i.workspace
  let loaded ← World.unheard (World.outcome loading)
  let settings ← match loaded with
    | .ok settings => pure settings.logging
    | .error e => if e.endsRun then throw e else pure .standard
  pure { settings with
    level := i.logLevel.getD settings.level
    format := i.logFormat.getD settings.format
    output := i.logOutput.getD settings.output
    file := i.logFile.or settings.file }

def serve {ε : Type} (i : Invocation) : Action ε (Except CommandError String) := do
  World.note .info origin "Patchchain CLI starting" [("command", .text i.command.name)]
  match ← World.outcome i.settings with
  | .error e =>
    if !e.endsRun then World.note .error origin s!"Error loading configuration: {e.message}" []
    pure (.error e)
  | .ok settings =>
    match ← World.outcome (i.command.execute settings) with
    | .error e =>
      World.note .error origin s!"Command failed: {e.message}" []
      pure (.error e)
    | .ok text => pure (.ok text)

def writeLog {ε : Type} (setup : LogSetup) (lines : String) : Action ε Unit :=
  match setup.file with
  | some file => do
    discard <| World.outcome (World.onDisk (Disk.appendFile file (Bytes.ofString lines)))
  | none => pure ()

/-- The outcome of a served invocation: log lines come before the result. -/
def concluded (setup : LogSetup) (lines : String) (result : Except CommandError String) :
    Outcome :=
  let toStdout := if setup.output = .stdout then lines else ""
  let toStderr := if setup.output = .stderr ∨ setup.output = .both then lines else ""
  let complaints := unlines setup.complaints
  match result with
  | .ok text => ⟨0, toStdout ++ unlines [text], complaints ++ toStderr⟩
  | .error e => ⟨e.exitCode, toStdout, complaints ++ toStderr ++ unlines [e.report]⟩

def broken (message : String) : Outcome := ⟨CommandError.abruptExitCode, "", unlines [message]⟩

def unlogged (complaints : List String) (fault : LogSetupFault) : Outcome :=
  if fault.endsRun then broken fault.message
  else
    ⟨1, "", unlines (complaints ++
      [s!"Failed to initialize logging: Configuration error: {fault.message}"])⟩

def serveLogging {ε : Type} (i : Invocation) (logging : LoggingSettings) : Action ε Outcome := do
  match ← World.outcome (Logging.prepare logging) with
  | .error (complaints, fault) => pure (unlogged complaints fault)
  | .ok setup =>
    let (result, events) ← World.recorded (serve i)
    let lines := unlines (setup.lines (← get).now events)
    writeLog setup lines
    pure (concluded setup lines result)

def run {ε : Type} (words : List String) : Action ε Outcome := do
  match Invocation.parse words with
  | .error fault => pure (refused fault)
  | .ok i =>
    match ← World.outcome (loggingOf i) with
    | .error e => pure (broken e.message)
    | .ok logging => serveLogging i logging

end Program
end LayeredTree
