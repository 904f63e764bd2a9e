import LayeredTree.Combine.Combiner
import LayeredTree.Command.Error
import LayeredTree.Command.Line
import LayeredTree.Command.Staging
import LayeredTree.Toml.Value

/-!
Running a command: each gives the text that it prints. The trees that a user names are only read,
and the result of a combine is made in the work area and moved to its place at the end.
-/

set_option autoImplicit false

namespace LayeredTree

namespace NodeSettings

def tomlLine (name value : String) : String := s!"{name} = {value}\n"

def tomlPath (p : Path) : String := Toml.textForm p.shown

def tomlForm (s : NodeSettings) : String :=
  "[storage]\n" ++
    tomlLine "data_path" (tomlPath s.storage.dataPath) ++
    tomlLine "temp_data_path" (tomlPath s.storage.tempDataPath) ++
  "\n[logging]\n" ++
    tomlLine "level" (Toml.textForm s.logging.level) ++
    tomlLine "format" (Toml.textForm s.logging.format) ++
    tomlLine "output" (Toml.textForm s.logging.output) ++
    (match s.logging.file with
      | some file => tomlLine "file" (tomlPath file)
      | none => "") ++
    tomlLine "color" (if s.logging.color then "true" else "false") ++
  "\n[logging.modules]\n" ++
    String.join (s.logging.modules.map fun (name, level) =>
      tomlLine (Toml.keyForm name) (Toml.textForm level))

end NodeSettings

namespace PatchRecord

def textOrNone (s : Option String) : String := s.getD "<none>"

def overview (r : PatchRecord) (files : List Key) : String :=
  s!"version: {r.version.toNat}\n" ++
  s!"previous signature: {textOrNone (r.previousSignature.map Signature.text)}\n" ++
  s!"previous hash: {textOrNone (r.previousHash.map Digest.text)}\n" ++
  (match r.createdAt with
    | some t => s!"created at: {t.textWithOffset}\n"
    | none => "") ++
  s!"files ({files.length}):\n" ++
  String.join (files.map fun key => s!"  + {Text.shown key}\n") ++
  s!"removed ({r.removed.length}):" ++
  String.join (r.removed.map fun key => s!"\n  - {key}")

def overviewJson (r : PatchRecord) (files : List Key) : String :=
  (Json.ofMembers
    [("metadata", Json.ofMembers r.members),
      ("files", .list (files.map fun key => .text (Text.shown key)))]).pretty 0

end PatchRecord

namespace Command

/-- Shows the record of a patch tree. The form is judged once the tree has been read. -/
def runInspect (patch : Path) (format : String) : Action CommandError String := do
  let record ← World.failingAs .record (PatchRecord.load patch)
  let entries ← World.failingAs .storage (World.onDiskAsk (·.filesOf .content patch))
  let files := entries.map TreeEntry.key
  match format with
  | "json" => pure (record.overviewJson files)
  | "text" => pure (record.overview files)
  | _ => throw (.unknownFormat format)

def runDiff (before after out : Path) (signature : Signature) : Action CommandError String := do
  let summary ← World.failingAs .combine (Patch.author before after out signature)
  if summary.isEmpty then
    pure s!"Trees are identical; empty patch written to {out.shown}"
  else
    pure (s!"Patch written to {out.shown}: {summary.changed.length} changed, " ++
      s!"{summary.removed.length} removed (previous hash {summary.previousHash.text})")

def runCombine (storage : StorageSettings) (before patch : Path) (signature : Signature)
    (output : Path) : Action CommandError String := do
  if (← get).disk.hasEntry output then throw (.outputExists output)
  let area ← World.failingAs .storage (WorkArea.ofSettings storage)
  let base ← World.failingAs .storage (Staging.stage area "base-" .content before)
  let layer ← match ← World.outcome (Staging.stage area "patch-" .everything patch) with
    | .ok layer => pure layer
    | .error e =>
      Release.release area.policy base
      throw (.storage e)
  let (result, _) ← (Combiner.inArea ⟨base, layer, some signature⟩ area).runScoped
  let merged ← World.failingAs .combine (World.settle result)
  let relocated ← World.outcome (Staging.relocate merged output)
  Release.release area.policy merged
  World.failingAs .storage (World.settle relocated)
  let digest ← World.failingAs .storage (Digest.compute output)
  pure s!"Combined tree written to {output.shown} (digest {digest.text})"

def run (settings : NodeSettings) : Command → Action CommandError String
  | digest root => Digest.text <$> World.failingAs .storage (Digest.compute root)
  | inspect patch format => runInspect patch format
  | diff before after out signature => runDiff before after out signature
  | combine before patch signature output =>
    runCombine settings.storage before patch signature output
  | config => pure settings.tomlForm

def execute (settings : NodeSettings) (command : Command) : Action CommandError String := do
  let result ← World.outcome (command.run settings)
  World.note .info Staging.origin "Command finished"
    [("command", .text command.name), ("ok", .flag result.toBool), ("duration_ms", .wide 0)]
  World.settle result

end Command

def Invocation.settings (i : Invocation) : Action CommandError NodeSettings :=
  World.failingAs .settings (Settings.loadFor i.workspace i.settingsFile)

end LayeredTree
