import LayeredTree.Combine.Error

set_option autoImplicit false

namespace LayeredTree

structure PatchSummary where
  previousHash : Digest
  changed : List Key
  removed : List Key

def PatchSummary.isEmpty (s : PatchSummary) : Bool := s.changed.isEmpty && s.removed.isEmpty

namespace Patch

def regularFiles (root : Path) : List TreeEntry → Except StorageError (KeyMap Path)
  | entries => entries.foldlM (fun files entry =>
    match entry with
    | .file key path _ => .ok (files.insert key path)
    | .link key _ => .error (.invalidPath (.linkInPublished key root))) []

def publishable (root : Path) (d : Disk) : Except StorageError (KeyMap Path) := do
  regularFiles root (← d.walk .content root)

def differ (old new : Path) (d : Disk) : Except IoFault Bool := do
  let a ← d.hashFile old
  let b ← d.hashFile new
  pure (a ≠ b)

def copyInto (root : Path) (key : Key) (source : Path) : DiskRequest Unit := do
  let target := Key.path root key
  match target.parent with
  | some parent => Disk.makeDirectories parent
  | none => pure ()
  Disk.copyFile source target

def copyChanged (out : Path) (before : KeyMap Path) : KeyMap Path → Action IoFault (List Key)
  | [] => pure []
  | (key, source) :: rest => do
    let differs ← match before.get? key with
      | some old => World.onDiskAsk (differ old source)
      | none => pure true
    if differs then
      World.onDisk (copyInto out key source)
      let keys ← copyChanged out before rest
      pure (key :: keys)
    else copyChanged out before rest

/-- The text of an address. Addresses found on a walk are UTF-8. -/
def markerOf (key : Key) : String := (Bytes.toString? key).getD (Text.shown key)

/-- Nothing may be in the output directory yet. -/
def requireEmpty (out : Path) : Action CombineError Unit := do
  if (← get).disk.hasEntry out then
    let names ← World.failingAs .ofIo (World.onDisk (Disk.readDirectory out))
    if !names.isEmpty then throw (.invalidState (.outputNotEmpty out))

/-- Writes a patch that turns one tree into another. The signature is that of the transaction that
published the earlier tree. -/
def author (before after out : Path) (signature : Signature) : Action CombineError PatchSummary :=
  let origin := "patchchain::patch::diff"
  World.inside ⟨origin, "create_patch", [("before", .shown before.shown),
      ("after", .shown after.shown), ("out", .shown out.shown)]⟩ do
    requireEmpty out
    let previousHash ← World.failingAs .storage (Digest.compute before)
    let beforeFiles ← World.failingAs .storage (World.onDiskAsk (publishable before))
    let afterFiles ← World.failingAs .storage (World.onDiskAsk (publishable after))
    World.failingAs .ofIo (World.onDisk (Disk.makeDirectories out))
    let changed ← World.failingAs .ofIo (copyChanged out beforeFiles afterFiles)
    let removed := beforeFiles.keys.filter fun key => !afterFiles.contains key
    let record : PatchRecord :=
      ⟨PatchRecord.currentVersion, some signature, some previousHash, removed.map markerOf,
        some (← get).now⟩
    World.failingAs .record (PatchRecord.store out record)
    World.note .info origin "Created patch"
      [("changed", .count changed.length), ("removed", .count removed.length),
        ("previous_hash", .shown previousHash.text)]
    pure ⟨previousHash, changed, removed⟩

end Patch
end LayeredTree
