import LayeredTree.WorkArea

/-!
Releasing a working directory: it is deleted, and its parent with it if that is empty then. A
policy is asked about both before anything is touched. Nothing that goes wrong here stops the
caller; what is left over waits for a later sweep.
-/

set_option autoImplicit false

namespace LayeredTree.Release

def origin : String := "patchchain::combine::cleanup"

def dropTree {ε : Type} (path : Path) : Action ε Unit := do
  match ← World.outcome (World.onDisk (Disk.removeTree path)) with
  | .ok () =>
    World.note .debug origin "Removed working directory" [("path", .shown path.shown)]
  | .error fault =>
    if fault.isAbsence then pure ()
    else
      World.note .info origin "Unable to cleanup directory"
        [("path", .shown path.shown), ("error", .shown fault.message)]

def dropIfEmpty {ε : Type} (path : Path) : Action ε Unit := do
  match ← World.outcome (World.onDisk (Disk.removeDirectory path)) with
  | .ok () =>
    World.note .debug origin "Removed empty parent directory" [("path", .shown path.shown)]
  | .error fault =>
    if fault = .system .notEmpty ∨ fault.isAbsence then pure ()
    else
      World.note .warn origin "Unable to cleanup parent directory"
        [("path", .shown path.shown), ("error", .shown fault.message)]

/-- Releases a path as far as a policy lets it. -/
def release {ε : Type} (policy : PathPolicy) (path : Path) : Action ε Unit := do
  let disk := (← get).disk
  let parent := path.parent.filter (policy disk)
  if policy disk path then dropTree path
  else World.note .debug origin "Leaving unsanctioned path in place" [("path", .shown path.shown)]
  match parent with
  | some parent => dropIfEmpty parent
  | none => pure ()

end LayeredTree.Release
