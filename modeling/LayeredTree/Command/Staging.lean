import LayeredTree.Release
import LayeredTree.Patch.Author

set_option autoImplicit false

namespace LayeredTree.Staging

def origin : String := "patchchain::cli::route"

/-- Copies the walked entries of a tree below another root. A link is refused where it is met. -/
def copyEntries (source target : Path) : List TreeEntry → Action StorageError Unit
  | [] => pure ()
  | .file key path _ :: rest => do
    World.failingAs .ofIo (World.onDisk (Patch.copyInto target key path))
    copyEntries source target rest
  | .link key _ :: _ => throw (.invalidPath (.linkInStaged key source))

def copyTree (scope : WalkScope) (source target : Path) : Action StorageError Unit := do
  copyEntries source target (← World.onDiskAsk (·.walk scope source))

/-- Copies a tree into a new directory of the work area, which is released if that fails. -/
def stage (area : WorkArea) (start : String) (scope : WalkScope) (source : Path) :
    Action StorageError Path := do
  let staged ← area.allocate (Bytes.ofString start)
  match ← World.outcome (copyTree scope source staged) with
  | .ok () =>
    World.note .debug origin "Staged tree"
      [("source", .shown source.shown), ("staged", .shown staged.shown)]
    pure staged
  | .error e =>
    Release.release area.policy staged
    throw e

/-- Moves a merged tree to where it is wanted, and copies it where it cannot be moved. -/
def relocate (merged output : Path) : Action StorageError Unit := do
  match output.parent.filter fun parent => !parent.isEmpty with
  | some parent => World.failingAs .ofIo (World.onDisk (Disk.makeDirectories parent))
  | none => pure ()
  match ← World.outcome (World.onDisk (Disk.move merged output)) with
  | .ok () => pure ()
  | .error fault =>
    World.note .debug origin "Rename failed, copying merged tree"
      [("error", .shown fault.message)]
    World.failingAs .ofIo (World.onDisk (Disk.makeDirectories output))
    copyTree .content merged output

end LayeredTree.Staging
