import LayeredTree.Tree.KeyMap
import LayeredTree.Disk.Resolve

/-!
Walks: the files and links of a tree in byte order of their addresses. Links are never followed;
directories, sockets and devices are not content. Top-level directories can be left out by name,
which by default is done with the sidecar of a patch.
-/

set_option autoImplicit false

namespace LayeredTree

/-- The name of the directory that carries a patch's own record. It is never content. -/
def sidecarName : Bytes := [46, 112, 97, 116, 99, 104]

inductive TreeEntry
  | file (key : Key) (path : Path) (size : Nat)
  | link (key : Key) (path : Path)
deriving Repr, DecidableEq

def TreeEntry.key : TreeEntry → Key
  | file key _ _ => key
  | link key _ => key

def TreeEntry.isFile : TreeEntry → Bool
  | file .. => true
  | link .. => false

structure WalkScope where
  excluded : List String
  depth : Option Nat

def WalkScope.content : WalkScope := ⟨[".patch"], none⟩

def WalkScope.everything : WalkScope := ⟨[], none⟩

namespace WalkScope

def reaches (scope : WalkScope) (depth : Nat) : Bool :=
  match scope.depth with
  | some limit => depth ≤ limit
  | none => true

/-- The entry is a top-level directory that is left out, or lies below one. -/
def excludes (scope : WalkScope) (names : Location) (node : Node) : Bool :=
  match names with
  | [] => false
  | top :: rest =>
    (!rest.isEmpty || node.isDirectory) && scope.excluded.contains (Text.shown top.bytes)

end WalkScope

namespace Disk

/-- The entries below a location that a walk comes to. -/
def visited (d : Disk) (scope : WalkScope) (loc : Location) : List (Location × Node) :=
  (d.below loc).filter fun (names, node) =>
    scope.reaches names.length && !scope.excludes names node

def pathBelow (root : Path) (names : Location) : Path :=
  names.foldl (fun p name => p.child name.bytes) root

/-- The address of an entry below a root, if all names are UTF-8. -/
def keyBelow (root : Path) (names : Location) : Except StorageError Key :=
  if names.all fun name => (Bytes.toString? name.bytes).isSome then
    .ok (Key.ofNames (names.map Name.bytes))
  else .error (.invalidPath (.notUtf8 root (pathBelow root names)))

/-- What a walk makes of an entry it comes to. Directories are opened under their path, and files
are measured under theirs, so that a path can be too long for either. -/
def report (scope : WalkScope) (root : Path) (names : Location) (node : Node) :
    Except StorageError (Option TreeEntry) :=
  let path := pathBelow root names
  let tooLong := maxPathLength < path.text.length
  match node with
  | .directory =>
    if scope.reaches (names.length + 1) ∧ tooLong then
      .error (.io (.walking root path (.system .nameTooLong)))
    else .ok none
  | .file content => do
    let key ← keyBelow root names
    if tooLong then throw (.io (.measuring path (.system .nameTooLong)))
    pure (some (.file key path content.length))
  | .link _ => do
    let key ← keyBelow root names
    pure (some (.link key path))
  | .other => do
    let _ ← keyBelow root names
    pure none

end Disk

def TreeEntry.place (entry : TreeEntry) : List TreeEntry → List TreeEntry
  | [] => [entry]
  | other :: rest =>
    if Bytes.atMost entry.key other.key then entry :: other :: rest
    else other :: place entry rest

def TreeEntry.sorted (entries : List TreeEntry) : List TreeEntry :=
  entries.foldr TreeEntry.place []

/-- All files and links of a tree within a scope, in byte order of their addresses. -/
def Disk.walk (d : Disk) (scope : WalkScope) (root : Path) :
    Except StorageError (List TreeEntry) :=
  match d.entryAt root with
  | .ok (loc, .directory) => do
    let reported ← (d.visited scope loc).mapM fun (names, node) =>
      Disk.report scope root names node
    pure (TreeEntry.sorted (reported.filterMap id))
  | _ => .error (.rootNotFound root)

def Disk.filesOf (d : Disk) (scope : WalkScope) (root : Path) :
    Except StorageError (List TreeEntry) :=
  (d.walk scope root).map (List.filter TreeEntry.isFile)

end LayeredTree
