import LayeredTree.Program
import Std.Time.DateTime.Timestamp

/-!
The command line program. A run works on a picture of the disk: the working directory, the settings
of the user and what the command line points to. What the run changes in the picture is then changed
on the disk.
-/

set_option autoImplicit false

namespace LayeredTree.Shell

def locationOf (path : String) : Location :=
  (Bytes.splitOn slash (Bytes.ofString path)).filterMap Name.ofBytes?

def entryAt (loc : Location) : IO.FS.DirEntry :=
  ⟨"/", Text.shown ((Location.path loc).text.drop 1)⟩

/-- The picture with the directories around a location. -/
def withWay (d : Disk) (loc : Location) : Disk :=
  (List.range loc.length).foldl (fun d n => d.plant (loc.take n) .directory) d

/-- Adds an entry with all below it. A link is shown as leading where it leads in the end. -/
partial def addEntry (d : Disk) (loc : Location) : IO Disk := do
  let place := (entryAt loc).path
  match (← place.symlinkMetadata).type with
  | .file => return d.plant loc (.file (← IO.FS.readBinFile place).toList)
  | .dir =>
    (← place.readDir).foldlM (fun d e =>
      match Name.ofBytes? (Bytes.ofString e.fileName) with
      | some name => addEntry d (loc ++ [name])
      | none => pure d) (d.plant loc .directory)
  | .symlink =>
    let goal ← try pure (← IO.FS.realPath place).toString catch _ => pure missing
    return d.plant loc (.link (Bytes.ofString goal))
  | .other => return d.plant loc .other
where
  /-- A name for the goal of a link that leads nowhere. -/
  missing : String := "/missing"

def addPlace (d : Disk) (path : String) : IO Disk := do
  try
    let goal := (← IO.FS.realPath path).toString
    let there := locationOf goal
    let here := locationOf path
    let d ← addEntry (withWay d there) there
    return if here = there then d else (withWay d here).plant here (.link (Bytes.ofString goal))
  catch _ => return d

def variableNames : List String :=
  ["HOME", "XDG_CONFIG_HOME", "XDG_STATE_HOME", "PATCHCHAIN_ENV", "PATCHCHAIN_LOG",
    "PATCHCHAIN_LOG_FORMAT", "PATCHCHAIN_LOG_OUTPUT", "PATCHCHAIN_LOG_MODULES",
    "PATCHCHAIN__STORAGE__DATA_PATH", "PATCHCHAIN__STORAGE__TEMP_DATA_PATH",
    "PATCHCHAIN__LOGGING__LEVEL", "PATCHCHAIN__LOGGING__FORMAT", "PATCHCHAIN__LOGGING__OUTPUT",
    "PATCHCHAIN__LOGGING__FILE", "PATCHCHAIN__LOGGING__COLOR"]

def environment : IO (List (String × String)) :=
  variableNames.filterMapM fun name => do return (← IO.getEnv name).map (name, ·)

/-- The world before a run, with the working directory and the absolute paths of the line. -/
def look (words : List String) : IO World := do
  let nanoseconds := (← Std.Time.Timestamp.now).toNanosecondsSinceUnixEpoch.val
  let seconds := nanoseconds / 1000000000
  let now : Instant :=
    ⟨seconds / 86400, (seconds % 86400).toNat, (nanoseconds % 1000000000).toNat⟩
  let here := (← IO.currentDir).toString
  let d ← addPlace .empty here
  let w : World := ⟨{ d with here := locationOf here }, ← environment, now,
    nanoseconds.toNat % 62 ^ World.freshWidth, [], []⟩
  let user := (Settings.userFile w).toList.map Path.shown
  let disk ← (user ++ words).foldlM (fun d (path : String) =>
    if path.startsWith "/" then addPlace d path else pure d) w.disk
  return { w with disk := disk }

/-- Changes the disk as a picture has changed: what is gone is removed from the inside out, and
what is new is made from the outside in. -/
def follow (old new : Disk) : IO Unit := do
  let inward := fun (a b : Location × Node) => decide (a.1.length ≤ b.1.length)
  for (loc, node) in (old.nodes.mergeSort inward).reverse do
    let place := (entryAt loc).path
    match node, new.get? loc with
    | .file _, some (.file _) => pure ()
    | .directory, some .directory => pure ()
    | .directory, _ => IO.FS.removeDir place
    | node, found => if found ≠ some node then IO.FS.removeFile place
  for (loc, node) in new.nodes.mergeSort inward do
    let place := (entryAt loc).path
    if old.get? loc ≠ some node then
      match node with
      | .directory => IO.FS.createDirAll place
      | .file content => IO.FS.writeBinFile place ⟨content.toArray⟩
      | .link _ | .other => pure ()

end LayeredTree.Shell

def main (words : List String) : IO UInt32 := do
  let before ← LayeredTree.Shell.look words
  let run : LayeredTree.Action Empty LayeredTree.Outcome := LayeredTree.Program.run words
  match run before with
  | .ok outcome after =>
    LayeredTree.Shell.follow before.disk after.disk
    (← IO.getStdout).putStr outcome.stdout
    (← IO.getStderr).putStr outcome.stderr
    return UInt32.ofNat outcome.exitCode
  | .error fault _ => nomatch fault
