import LayeredTree.Disk.Fault

set_option autoImplicit false

namespace LayeredTree

inductive PathFault
  | notCanonical (path : Path) (fault : IoFault)
  | outside (path root : Path)
  | notUtf8 (root path : Path)
  | unexpectedStep (path : Path)
  | noKey (path : Path)
  | linkInPublished (key : Bytes) (root : Path)
  | linkInStaged (key : Bytes) (root : Path)
deriving Repr, DecidableEq

def PathFault.message : PathFault → String
  | notCanonical path fault => s!"Failed to canonicalize path {path.shown}: {fault.message}"
  | outside path root => s!"{path.shown} is not inside {root.shown}"
  | notUtf8 root path => s!"Non UTF-8 file name under {root.shown}: {path.shown}"
  | unexpectedStep path => s!"Unexpected component in {path.shown}"
  | noKey path => s!"{path.shown} has no relative key below its root"
  | linkInPublished key root => s!"cannot publish symlink {Text.quotedBytes key} in {root.shown}"
  | linkInStaged key root => s!"refusing to stage symlink {Text.quotedBytes key} from {root.shown}"

/-- A fault of the disk and the work it interrupted. -/
inductive TreeFault
  | plain (fault : IoFault)
  | opening (path : Path) (fault : IoFault)
  | reading (path : Path) (fault : IoFault)
  | walking (root path : Path) (fault : IoFault)
  | measuring (path : Path) (fault : IoFault)
  | copying (source target : Path) (fault : IoFault)
deriving Repr, DecidableEq

def TreeFault.message : TreeFault → String
  | plain fault => fault.message
  | opening path fault => s!"Failed to open {path.shown}: {fault.message}"
  | reading path fault => s!"Failed to read {path.shown}: {fault.message}"
  | walking root path fault =>
    s!"Failed to walk directory {root.shown}: IO error for operation on {path.shown}: {fault.message}"
  | measuring path fault =>
    s!"Failed to read metadata for {path.shown}: IO error for operation on {path.shown}: {fault.message}"
  | copying source target fault =>
    s!"Failed to copy {source.shown} to {target.shown}: {fault.message}"

inductive StorageError
  | rootNotFound (root : Path)
  | invalidPath (fault : PathFault)
  | changedDuringScan (path : Path)
  | io (fault : TreeFault)
deriving Repr, DecidableEq

def StorageError.message : StorageError → String
  | rootNotFound root => s!"Tree root not found: {root.shown}"
  | invalidPath fault => s!"Invalid path: {fault.message}"
  | changedDuringScan path => s!"File changed during scan: {path.shown}"
  | io fault => s!"Storage I/O error: {fault.message}"

def StorageError.ofIo (fault : IoFault) : StorageError := .io (.plain fault)

end LayeredTree
