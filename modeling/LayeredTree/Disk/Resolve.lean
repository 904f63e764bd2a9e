import LayeredTree.Disk.Basic

/-!
From a path to the entry it denotes. Segments are taken one by one from the working directory or
the root; links on the way are replaced by the text they hold, at most forty of them. A path that
is read to its end may still name an entry that is not there yet.
-/

set_option autoImplicit false

namespace LayeredTree

def maxLinks : Nat := 40

/-- Where a walk along segments stops before anything else is needed. -/
inductive Stop
  | entry (loc : Location)
  | free (directory : Location) (name : Name) (rest : List Bytes)
  | link (directory : Location) (target : Bytes) (rest : List Bytes)

/-- What a path denotes: an entry, or a free place in a directory with the segments left over. -/
inductive Spot
  | entry (loc : Location)
  | free (directory : Location) (name : Name) (rest : List Bytes)

namespace Disk

/-- Takes segments until they end, a name is missing, or a link has to be followed. A link under
the last segment is followed only on demand. -/
def advance (d : Disk) (follow : Bool) : Location → List Bytes → Except SystemFault Stop
  | loc, [] => .ok (.entry loc)
  | loc, segment :: rest =>
    match d.get? loc with
    | none => .error .noEntry
    | some .directory =>
      if Path.isIdle segment then advance d follow loc rest
      else if segment = Path.dotDot then advance d follow loc.dropLast rest
      else
        match Name.ofBytes? segment with
        | none => .error .nameTooLong
        | some name =>
          match d.get? (loc ++ [name]) with
          | none => .ok (.free loc name rest)
          | some (.link target) =>
            if rest = [] ∧ follow = false then .ok (.entry (loc ++ [name]))
            else .ok (.link loc target rest)
          | some _ => advance d follow (loc ++ [name]) rest
    | some _ => .error .notDirectory

/-- Where a text starts from: the root if it begins with a slash, the given directory if not. -/
def startOf (directory : Location) (text : Bytes) : Location :=
  if text.head? = some slash then [] else directory

def walkTo (d : Disk) (follow : Bool) : Nat → Location → List Bytes → Except SystemFault Spot
  | budget, loc, segments =>
    match d.advance follow loc segments with
    | .error fault => .error fault
    | .ok (.entry loc) => .ok (.entry loc)
    | .ok (.free directory name rest) => .ok (.free directory name rest)
    | .ok (.link directory target rest) =>
      match budget with
      | 0 => .error .tooManyLinks
      | budget + 1 =>
        d.walkTo follow budget (startOf directory target) (Bytes.splitOn slash target ++ rest)

/-- A text that can spell a path: it has no zero byte and is not empty. -/
def checkSpelling (p : Path) : Except IoFault Unit :=
  if (0 : UInt8) ∈ p.text then .error .zeroByte
  else if p.text = [] then .error (.system .noEntry)
  else .ok ()

/-- A text that the operating system takes as a path in one request. -/
def checkText (p : Path) : Except IoFault Unit := do
  checkSpelling p
  if maxPathLength < p.text.length then throw (.system .nameTooLong)

def spotOf (d : Disk) (follow : Bool) (start : Bytes) (segments : List Bytes) :
    Except IoFault Spot :=
  (d.walkTo follow maxLinks (startOf d.here start) segments).mapError .system

/-- What a path denotes. Without `follow` a link under the last segment is itself the entry. -/
def resolve (d : Disk) (p : Path) (follow : Bool) : Except IoFault Spot := do
  checkText p
  d.spotOf follow p.text (Bytes.splitOn slash p.text)

def locate (d : Disk) (p : Path) (follow : Bool) : Except IoFault Location := do
  match ← d.resolve p follow with
  | .entry loc => pure loc
  | .free .. => throw (.system .noEntry)

def entryAt (d : Disk) (p : Path) : Except IoFault (Location × Node) := do
  let loc ← d.locate p true
  match d.get? loc with
  | some node => pure (loc, node)
  | none => throw (.system .noEntry)

def ownEntryAt (d : Disk) (p : Path) : Except IoFault (Location × Node) := do
  let loc ← d.locate p false
  match d.get? loc with
  | some node => pure (loc, node)
  | none => throw (.system .noEntry)

def openAt (d : Disk) (p : Path) : Except IoFault (Location × Node) := do
  match ← d.entryAt p with
  | (_, .other) => throw (.system .noDevice)
  | found => pure found

def hasEntry (d : Disk) (p : Path) : Bool :=
  match d.entryAt p with
  | .ok _ => true
  | .error _ => false

def hasDirectory (d : Disk) (p : Path) : Bool :=
  match d.entryAt p with
  | .ok (_, .directory) => true
  | _ => false

def hasFile (d : Disk) (p : Path) : Bool :=
  match d.entryAt p with
  | .ok (_, .file _) => true
  | _ => false

def entryIn (d : Disk) (loc : Location) (segment : Bytes) : Except SystemFault (Name × Node) :=
  match d.get? loc with
  | none => .error .noEntry
  | some .directory =>
    match Name.ofBytes? segment with
    | none => .error .nameTooLong
    | some name =>
      match d.get? (loc ++ [name]) with
      | none => .error .noEntry
      | some node => .ok (name, node)
  | some _ => .error .notDirectory

/-- The segments left over ask at once for a directory: they go up, or end behind a slash or dots. -/
def asksDirectory (rest : List Bytes) : Bool :=
  match rest.dropWhile Path.isIdle with
  | [] => !rest.isEmpty
  | next :: _ => next == Path.dotDot

/-- Takes segments until they end or a link has to be followed, whose text comes with what is left.
Each named place is read by its own path from the root, and that path has to be short enough, with
a slash behind it where a directory is asked for. -/
def settleAlong (d : Disk) : Location → List Bytes →
    Except SystemFault (Location × Option (Bytes × List Bytes))
  | loc, [] => .ok (loc, none)
  | loc, segment :: rest =>
    if Path.isIdle segment then settleAlong d loc rest
    else if segment = Path.dotDot then settleAlong d loc.dropLast rest
    else
      let size := ((Location.path loc).child segment).text.length
      if maxPathLength < size then .error .nameTooLong
      else match d.entryIn loc segment with
        | .ok (_, .link target) => .ok (loc, some (target, rest))
        | found =>
          if asksDirectory rest ∧ maxPathLength < size + 1 then .error .nameTooLong
          else match found with
            | .error fault => .error fault
            | .ok (name, node) =>
              if asksDirectory rest ∧ !node.isDirectory then .error .notDirectory
              else settleAlong d (loc ++ [name]) rest

/-- Settles all segments, with a budget of links to follow. -/
def settle (d : Disk) : Nat → Location → List Bytes → Except SystemFault Location
  | budget, loc, segments =>
    match d.settleAlong loc segments with
    | .error fault => .error fault
    | .ok (goal, none) => .ok goal
    | .ok (directory, some (target, rest)) =>
      match budget with
      | 0 => .error .tooManyLinks
      | budget + 1 =>
        d.settle budget (startOf directory target) (Bytes.splitOn slash target ++ rest)

/-- The absolute path without links of the entry that a path leads to. The path is not read in one
request: it is settled place by place, so that it may be of any length, and the working directory
as well. -/
def canonical (d : Disk) (p : Path) : Except IoFault Path := do
  checkSpelling p
  let start := startOf d.here p.text
  if ¬ d.IsDirectory start then throw (.system .noEntry)
  let loc ← (d.settle maxLinks start (Bytes.splitOn slash p.text)).mapError .system
  pure (Location.path loc)

/-- The last step of a path whose directory part is already resolved. -/
inductive LastStep
  | root
  | dot
  | dotDot
  /-- A name in a directory; `closed` says that a slash follows it. -/
  | name (directory : Location) (name : Name) (closed : Bool)

def resolveLast (d : Disk) (p : Path) : Except IoFault LastStep := do
  checkText p
  let segments := Bytes.splitOn slash p.text
  match segments.reverse.dropWhile (· == []) with
  | [] => pure .root
  | last :: outer =>
    match ← d.spotOf true p.text (outer.reverse ++ [[]]) with
    | .free .. => throw (.system .noEntry)
    | .entry directory =>
      if last = Path.dot then pure .dot
      else if last = Path.dotDot then pure .dotDot
      else match Name.ofBytes? last with
        | none => throw (.system .nameTooLong)
        | some name => pure (.name directory name (p.text.getLast? == some slash))

end Disk
end LayeredTree
