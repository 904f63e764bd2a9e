import LayeredTree.Disk.Resolve

/-!
Requests that change a disk: making, writing, copying, moving and removing entries by path. A
request that fails leaves what it did before it failed.

The entries of a disk do not tell all that a request can meet with. Nobody is refused for want of
permission. A file has one name, and a disk does not fail in the middle of a write; where one of
these matters it is a parameter (`writeFileAmid`, `moveAmong`).
-/

set_option autoImplicit false

namespace LayeredTree

abbrev DiskRequest := EStateM IoFault Disk

namespace Disk

/-- A question on the disk as a request that changes nothing. -/
def ask {α : Type} (question : Disk → Except IoFault α) : DiskRequest α := do
  match question (← get) with
  | .ok a => pure a
  | .error fault => throw fault

def refuse {α : Type} (fault : SystemFault) : DiskRequest α := throw (.system fault)

def create (p : Path) (node : Node) : DiskRequest Unit := do
  match ← ask (·.resolveLast p) with
  | .name directory name closed =>
    match (← get).get? (directory ++ [name]) with
    | some _ => refuse .alreadyExists
    | none =>
      if closed ∧ node ≠ .directory then refuse .noEntry
      modify (·.plant (directory ++ [name]) node)
  | _ => refuse .alreadyExists

def makeDirectory (p : Path) : DiskRequest Unit := create p .directory

end Disk

/-- A path and its parents, innermost first, down to the last one that is not empty. -/
def Path.selfAndParents : Nat → Path → List Path
  | 0, p => [p]
  | fuel + 1, p =>
    match p.parent with
    | some up => if up.isEmpty then [p] else p :: selfAndParents fuel up
    | none => [p]

namespace Disk

/-- Makes the first of the paths, after the others if their lack is in the way. A directory that
is there already is as good as a new one. -/
def makeInside : List Path → DiskRequest Unit
  | [] => pure ()
  | p :: outer => do
    let settle (fault : IoFault) : DiskRequest Unit := do
      if (← get).hasDirectory p then pure () else throw fault
    try makeDirectory p
    catch fault =>
      if fault = .system .noEntry then
        makeInside outer
        try makeDirectory p
        catch fault => settle fault
      else settle fault

def makeDirectories (p : Path) : DiskRequest Unit :=
  if p.isEmpty then pure () else makeInside (p.selfAndParents p.text.length)

/-- The location of a file opened for reading; a directory can be opened but not read. -/
def openToRead (p : Path) : DiskRequest (Location × Node) := ask (·.openAt p)

def fetchFile (p : Path) : DiskRequest Bytes := do
  match ← openToRead p with
  | (_, .file content) => pure content
  | _ => refuse .isDirectory

/-- Opens a file for writing, made if it is missing and emptied if it is not. -/
def openToWrite (p : Path) : DiskRequest Location := do
  match ← ask (·.resolveLast p) with
  | .name _ _ false =>
    match ← ask (·.resolve p true) with
    | .entry loc =>
      match (← get).get? loc with
      | some (.file _) => modify (·.refill loc []); pure loc
      | some .directory => refuse .isDirectory
      | some _ => refuse .noDevice
      | none => refuse .noEntry
    | .free directory name rest =>
      if rest = [] then
        modify (·.plant (directory ++ [name]) (.file []))
        pure (directory ++ [name])
      else if rest.all Path.isIdle then refuse .isDirectory
      else refuse .noEntry
  | _ => refuse .isDirectory

/-- Gives all names of a file the same content. -/
def refillAll (d : Disk) (names : List Location) (content : Bytes) : Disk :=
  names.foldl (fun d loc => d.refill loc content) d

/-- Writes a file, replacing what it held under this name and the others it has. The disk may fail
once the file is open; then so many bytes are in it and no more. -/
def writeFileAmid (others : List Location) (failure : Option (Nat × IoFault)) (p : Path)
    (content : Bytes) : DiskRequest Unit := do
  let loc ← openToWrite p
  match failure with
  | none => modify (·.refillAll (loc :: others) content)
  | some (count, fault) =>
    modify (·.refillAll (loc :: others) (content.take count))
    throw fault

/-- Writes a file that has no other name, on a disk that does not fail. -/
def writeFile (p : Path) (content : Bytes) : DiskRequest Unit := writeFileAmid [] none p content

def appendFile (p : Path) (content : Bytes) : DiskRequest Unit := do
  let old ← try fetchFile p catch _ => pure []
  writeFile p (old ++ content)

/-- Copies a regular file. The source is opened before the target is emptied. -/
def copyFile (source target : Path) : DiskRequest Unit := do
  match ← openToRead source with
  | (loc, .file _) =>
    let goal ← openToWrite target
    match (← get).get? loc with
    | some (.file content) => modify (·.refill goal content)
    | _ => pure ()
  | _ => throw .notRegular

/-- Removes one entry that is not a directory; a link goes and what it points to stays. -/
def removeFile (p : Path) : DiskRequest Unit := do
  match ← ask (·.resolveLast p) with
  | .name directory name closed =>
    match (← get).get? (directory ++ [name]) with
    | none => refuse .noEntry
    | some .directory => refuse .isDirectory
    | some _ =>
      if closed then refuse .notDirectory
      modify (·.uproot (directory ++ [name]))
  | _ => refuse .isDirectory

def removeDirectory (p : Path) : DiskRequest Unit := do
  match ← ask (·.resolveLast p) with
  | .root => refuse .busy
  | .dot => refuse .invalid
  | .dotDot => refuse .notEmpty
  | .name directory name _ =>
    let loc := directory ++ [name]
    match (← get).get? loc with
    | none => refuse .noEntry
    | some .directory =>
      if ((← get).below loc).isEmpty then modify (·.uproot loc) else refuse .notEmpty
    | some _ => refuse .notDirectory

/-- Removes a directory with everything below it. Links inside go without being followed; the
directory itself goes last, under the path as written. -/
def removeTree (p : Path) : DiskRequest Unit := do
  match ← ask (·.ownEntryAt p) with
  | (_, .link _) => removeFile p
  | (loc, .directory) =>
    modify (·.clear loc)
    removeDirectory p
  | _ => refuse .notDirectory

/-- Moves an entry to another place, where it may take the place of a file or an empty directory
of its own kind. Between names of one file nothing moves. -/
def moveAmong (others : List Location) (source target : Path) : DiskRequest Unit := do
  match ← ask (·.resolveLast source), ← ask (·.resolveLast target) with
  | .name sourceDir sourceName sourceClosed, .name targetDir targetName targetClosed =>
    let old := sourceDir ++ [sourceName]
    let new := targetDir ++ [targetName]
    match (← get).get? old with
    | none => refuse .noEntry
    | some node =>
      if !node.isDirectory ∧ (sourceClosed ∨ targetClosed) then refuse .notDirectory
      if old = new ∨ new ∈ others then return ()
      if old.isPrefixOf new then refuse .invalid
      match (← get).get? new with
      | none => modify (·.graft old new)
      | some occupant =>
        if new.isPrefixOf old then refuse .notEmpty
        if node.isDirectory ∧ !occupant.isDirectory then refuse .notDirectory
        if !node.isDirectory ∧ occupant.isDirectory then refuse .isDirectory
        if !((← get).below new).isEmpty then refuse .notEmpty
        modify fun d => (d.uproot new).graft old new
  | _, _ => refuse .busy

/-- Moves an entry that has no other name. -/
def move (source target : Path) : DiskRequest Unit := moveAmong [] source target

def readDirectory (p : Path) : DiskRequest (List Name) := do
  match ← ask (·.entryAt p) with
  | (loc, .directory) => pure (((← get).children loc).map Prod.fst)
  | _ => refuse .notDirectory

end Disk
end LayeredTree
