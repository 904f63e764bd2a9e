import LayeredTree.Patch.Author

/-!
Merging a patch onto a base. For each address the patch supplies new content, or deletes the file,
or says nothing, in which case the file of the base stays. The inputs are only read; the result is
a new directory.
-/

set_option autoImplicit false

namespace LayeredTree

inductive Source
  | base (path : Path)
  | patch (path : Path)
deriving Repr, DecidableEq

def Source.path : Source → Path
  | base path => path
  | patch path => path

def Source.isBase : Source → Bool
  | base _ => true
  | patch _ => false

/-- The files of a merged tree, checked, with the numbers of files by what happened to them. -/
structure MergePlan where
  files : KeyMap Source
  carried : Nat
  replaced : Nat
  added : Nat
  removed : Nat

namespace MergePlan

/-- The files of the base. Its links are dropped: no digest covers them. -/
def baseFiles (entries : List TreeEntry) : KeyMap Source :=
  entries.foldl (fun files entry =>
    match entry with
    | .file key path _ => files.insert key (.base path)
    | .link .. => files) []

/-- The files of the patch, which must not have links. -/
def patchFiles (entries : List TreeEntry) : Except Conflict (KeyMap Path) :=
  entries.foldlM (fun files entry =>
    match entry with
    | .file key path _ => .ok (files.insert key path)
    | .link key _ => .error (.linkInPatch key)) []

def deletions (supplied : KeyMap Path) (markers : List String) : Except Conflict (KeyMap Unit) :=
  markers.foldlM (fun keys raw =>
    match Key.ofMarker raw with
    | .error fault => .error (.rejectedMarker fault)
    | .ok key =>
      if supplied.contains key then .error (.deletedAndSupplied key)
      else .ok (keys.insert key ())) []

/-- The files that are left once all deletions are made, each of which must find its file. -/
def withoutDeleted (files : KeyMap Source) (keys : KeyMap Unit) :
    Except Conflict (KeyMap Source) :=
  keys.foldlM (fun files (key, ()) =>
    if files.contains key then .ok (files.erase key) else .error (.markerWithoutFile key)) files

/-- The files of the patch in place of those of the base. -/
def overridden (files : KeyMap Source) (supplied : KeyMap Path) : KeyMap Source :=
  supplied.foldl (fun files (key, path) => files.insert key (.patch path)) files

/-- The first address that lies below another one, with that other. -/
def clash? (files : KeyMap Source) : Option Conflict :=
  files.keys.findSome? fun key =>
    ((Key.ancestors key).find? files.contains).map fun parent => .fileAsParent parent key

def build (base patch : List TreeEntry) (markers : List String) : Except Conflict MergePlan := do
  let supplied ← patchFiles patch
  let deleted ← deletions supplied markers
  let kept ← withoutDeleted (baseFiles base) deleted
  let files := overridden kept supplied
  let replaced := (supplied.filter fun p => kept.contains p.1).length
  match clash? files with
  | some conflict => throw conflict
  | none =>
    pure ⟨files, (files.filter fun p => p.2.isBase).length, replaced,
      supplied.length - replaced, deleted.length⟩

end MergePlan

/-- Copies the files of a plan below a root, with the file named at which it failed. -/
def MergePlan.write (root : Path) : KeyMap Source → Action StorageError Unit
  | [] => pure ()
  | (key, source) :: rest => do
    let target := Key.path root key
    match target.parent with
    | some parent => World.failingAs .ofIo (World.onDisk (Disk.makeDirectories parent))
    | none => pure ()
    World.failingAs (fun fault => .io (.copying source.path target fault))
      (World.onDisk (Disk.copyFile source.path target))
    write root rest

namespace Patch

def noteDropped (entries : List TreeEntry) : Action CombineError Unit :=
  entries.forM fun entry =>
    match entry with
    | .link key _ => World.note .debug "patchchain::patch::merge" "Dropping symlink from base tree"
        [("key", .shown (Text.shown key))]
    | .file .. => pure ()

def plan (before after : Path) (markers : List String) : Action CombineError MergePlan := do
  let base ← World.failingAs .storage (World.onDiskAsk (·.walk .content before))
  noteDropped base
  let patch ← World.failingAs .storage (World.onDiskAsk (·.walk .content after))
  World.failingAs .mergeConflict (World.settle (MergePlan.build base patch markers))

def mergedName : Bytes := Bytes.ofString "merge-"

/-- Merges a patch with a record that is already read into a new directory below the merge root,
with a given way to write its files there. On failure that directory is removed again. -/
def mergeBy (write : Path → KeyMap Source → Action StorageError Unit)
    (mergeRoot before after : Path) (record : PatchRecord) : Action CombineError Path :=
  let origin := "patchchain::patch::merge"
  World.inside ⟨origin, "merge_with", [("before", .shown before.shown),
      ("after", .shown after.shown)]⟩ do
    let plan ← plan before after record.removed
    World.failingAs .ofIo (World.onDisk (Disk.makeDirectories mergeRoot))
    let output ← World.failingAs .ofIo (World.freshDirectory mergeRoot mergedName)
    match ← World.outcome (write output plan.files) with
    | .error e =>
      World.note .warn origin "Merge aborted while writing result tree"
        [("error", .shown e.message)]
      let _ ← World.outcome (World.onDisk (Disk.removeTree output))
      throw (.storage e)
    | .ok () =>
      World.note .info origin "Merged patch onto base tree"
        [("path", .shown output.shown), ("carried", .count plan.carried),
          ("replaced", .count plan.replaced), ("added", .count plan.added),
          ("removed", .count plan.removed), ("duration_ms", .wide 0)]
      pure output

def mergeWith (mergeRoot before after : Path) (record : PatchRecord) : Action CombineError Path :=
  mergeBy MergePlan.write mergeRoot before after record

def merge (mergeRoot before after : Path) : Action CombineError Path := do
  let record ← World.failingAs .record (PatchRecord.load after)
  mergeWith mergeRoot before after record

end Patch
end LayeredTree
