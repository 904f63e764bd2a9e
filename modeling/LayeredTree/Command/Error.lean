import LayeredTree.Combine.Error
import LayeredTree.Settings.Load

set_option autoImplicit false

namespace LayeredTree

inductive CommandError
  | settings (error : SettingsError)
  | unknownFormat (name : String)
  | outputExists (path : Path)
  | combine (error : CombineError)
  | record (error : RecordError)
  | storage (error : StorageError)
deriving DecidableEq

namespace CommandError

def message : CommandError → String
  | settings error => s!"Configuration error: {error.message}"
  | unknownFormat name =>
    s!"Invalid argument: Unknown format: {name} (must be 'text' or 'json')"
  | outputExists path => s!"Invalid argument: output {path.shown} already exists"
  | combine error => s!"Combine failed: {error.message}"
  | record error => s!"Metadata error: {error.message}"
  | storage error => s!"Storage error: {error.message}"

/-- What the user is told. A patch that cannot be trusted is said to be rejected. -/
def report : CommandError → String
  | combine error =>
    if error.isIntegrityFailure then s!"Patch rejected: {error.message}"
    else (combine error).message
  | error => error.message

def endsRun : CommandError → Bool
  | settings error => error.endsRun
  | _ => false

def abruptExitCode : Nat := 101

/-- The exit code: 2 if the invocation or the settings are at fault, 3 if the patch is, else 1. -/
def exitCode : CommandError → Nat
  | settings error => if error.endsRun then abruptExitCode else 2
  | unknownFormat _ | outputExists _ => 2
  | combine (.mergeConflict _) => 3
  | combine error => if error.isIntegrityFailure then 3 else 1
  | record _ | storage _ => 1

end CommandError
end LayeredTree
