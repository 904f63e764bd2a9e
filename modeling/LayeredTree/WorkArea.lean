import LayeredTree.Settings.Basic
import LayeredTree.Tree.Error
import LayeredTree.World

/-!
The work area: the data and the temp hierarchy of a node, the only places it may delete from. An
entry belongs to the area if it lies strictly below one of the two roots and is not one of the
directories that all work shares.
-/

set_option autoImplicit false

namespace LayeredTree

abbrev PathPolicy := Disk → Path → Bool

/-- The two hierarchies, by the canonical paths of their roots. -/
structure WorkArea where
  dataRoot : Path
  tempRoot : Path
deriving Repr, DecidableEq

namespace WorkArea

def mergeName : Bytes := Bytes.ofString "merge"

def mergeRoot (area : WorkArea) : Path := area.tempRoot.child mergeName

def canonicalPath (path : Path) (d : Disk) : Except StorageError Path :=
  (d.canonical path).mapError fun fault => .invalidPath (.notCanonical path fault)

def prepare (dataPath tempPath : Path) : Action StorageError WorkArea := do
  World.failingAs .ofIo (World.onDisk (Disk.makeDirectories dataPath))
  World.failingAs .ofIo (World.onDisk (Disk.makeDirectories tempPath))
  let dataRoot ← World.onDiskAsk (canonicalPath dataPath)
  let tempRoot ← World.onDiskAsk (canonicalPath tempPath)
  World.note .debug "patchchain::sandbox" "Work area ready"
    [("data_root", .shown dataRoot.shown), ("temp_root", .shown tempRoot.shown)]
  pure ⟨dataRoot, tempRoot⟩

def ofSettings (settings : StorageSettings) : Action StorageError WorkArea :=
  prepare settings.dataPath settings.tempDataPath

def allocate (area : WorkArea) (start : Bytes) : Action StorageError Path :=
  World.failingAs .ofIo (World.freshDirectory area.tempRoot start)

/-- The path of an entry where it sits: the canonical path of its directory with its own name. A
link is no entry of its own here. -/
def seat (d : Disk) (path : Path) : Option Path :=
  match d.ownEntryAt path with
  | .error _ | .ok (_, .link _) => none
  | .ok _ =>
    match path.fileName, path.parent with
    | some name, some parent =>
      let parent := if parent.isEmpty then ⟨Path.dot⟩ else parent
      match d.canonical parent with
      | .ok directory => some (directory.child name)
      | .error _ => none
    | _, _ => none

/-- The entry sits strictly below one of the roots. The roots themselves and the directory of
merged trees do not count, as the temp hierarchy may lie within the data hierarchy. -/
def contains (area : WorkArea) (d : Disk) (path : Path) : Bool :=
  match seat d path with
  | none => false
  | some seat =>
    !(seat.same area.dataRoot || seat.same area.tempRoot || seat.same area.mergeRoot) &&
      (seat.isWithin area.dataRoot || seat.isWithin area.tempRoot)

/-- What lies in the area may be deleted. -/
def policy (area : WorkArea) : PathPolicy := area.contains

end WorkArea

namespace PathPolicy

def listed (paths : List Path) : PathPolicy := fun _ path => paths.any path.same

end PathPolicy
end LayeredTree
