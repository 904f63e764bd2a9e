import LayeredTree.Settings.Setting
import LayeredTree.Toml.Read
import LayeredTree.World

/-!
Loading settings from their sources, the least first: what is built in, the file of the user, the
two files of the workspace, and the environment. A file that is named outright stands in for the
other files.
-/

set_option autoImplicit false

namespace LayeredTree

inductive SettingsError
  | noFile (path : Path)
  | unknownKind (path : Path)
  | unreadable (fault : IoFault)
  /-- The bytes of a file are not a text. -/
  | notText
  | malformed (path : Path)
  /-- A key asks for a place before the start of a list; such a key ends the run at once. -/
  | outOfList
  /-- The values do not fit the settings. -/
  | misfit
  | faulty (faults : List SettingsFault)
deriving Repr, DecidableEq

def SettingsError.message : SettingsError → String
  | noFile path => s!"configuration file \"{path.shown}\" not found"
  | unknownKind path => s!"configuration file \"{path.shown}\" is not of a registered file format"
  | unreadable fault => fault.message
  | notText => "stream did not contain valid UTF-8"
  | outOfList => "a place before the start of a list"
  | malformed path => s!"malformed settings in {path.shown}"
  | misfit => "settings of a wrong kind"
  | faulty faults =>
    "Configuration validation failed:\n" ++
      String.intercalate "\n" (faults.map SettingsFault.message)

def SettingsError.endsRun (e : SettingsError) : Bool := e == .outOfList

namespace Settings

/-- The part of a source of settings that counts: values under keys. -/
abbrev Source := List (String × Setting)

def builtIn : Source :=
  [("storage.data_path", .text "data"), ("storage.temp_data_path", .text "data/_temp"),
    ("logging.level", .text "info"), ("logging.format", .text "text"),
    ("logging.output", .text "stdout")]

def extension : Bytes := Bytes.ofString "toml"

/-- The file that is meant by a path: the one under it, or the one with the extension put on. -/
def findFile (path : Path) (d : Disk) : Except SettingsError Path :=
  let full := if path.isAbsolute then path else (Location.path d.here).join path
  if d.hasFile full then
    if full.extension? = some extension then .ok full else .error (.unknownKind full)
  else
    match full.extended? (46 :: extension) with
    | some file => if d.hasFile file then .ok file else .error (.noFile path)
    | none => .error (.noFile path)

def sourceOf (path : Path) (content : Bytes) : Except SettingsError Source :=
  match Bytes.toString? content with
  | none => .error .notText
  | some text =>
    match Toml.parse? text with
    | some members => .ok (Setting.ofTomlMembers members)
    | none => .error (.malformed path)

def fetchSource (path : Path) : Action SettingsError Source := do
  let file ← World.onDiskAsk (findFile path)
  let content ← World.failingAs .unreadable (World.onDisk (Disk.fetchFile file))
  World.settle (sourceOf path content)

def fetchSourceIfAny (path : Path) : Action SettingsError Source := do
  match ← World.outcome (fetchSource path) with
  | .ok source => pure source
  | .error (.malformed path) => throw (.malformed path)
  | .error _ => pure []

def variableStart : List Char := "patchchain__".toList

/-- A name with a point in the place of each two low lines. -/
def withPoints : List Char → List Char
  | '_' :: '_' :: rest => '.' :: withPoints rest
  | c :: rest => c :: withPoints rest
  | [] => []

def ofVariable (name value : String) : Option (String × Setting) :=
  let name := (Text.lowercase name).toList
  if variableStart.isPrefixOf name then
    some (String.ofList (withPoints (name.drop variableStart.length)), Setting.ofText value)
  else none

def ofEnvironment (environment : List (String × String)) : Source :=
  environment.filterMap fun (name, value) => ofVariable name value

/-- The file of the user: in the directory for settings, or else in the home directory. -/
def userFile (w : World) : Option Path :=
  let directory : Option Path := match w.environmentValue "XDG_CONFIG_HOME" with
    | some place =>
      if place ≠ "" then some (Path.ofString place) else homeDirectory w
    | none => homeDirectory w
  directory.map fun d => (d.child (Bytes.ofString "patchchain")).child (Bytes.ofString "config.toml")
where
  homeDirectory (w : World) : Option Path :=
    (w.environmentValue "HOME").map fun home =>
      (Path.ofString home).child (Bytes.ofString ".config")

def surroundings (w : World) : String :=
  match w.environmentValue "PATCHCHAIN_ENV" with
  | some name => if name ≠ "" then name else "development"
  | none => "development"

def workspaceFiles (workspace : Path) (w : World) : List Path :=
  let directory := workspace.child (Bytes.ofString "config")
  [directory.child (Bytes.ofString "config.toml"),
    directory.join (Path.ofString (surroundings w ++ ".toml"))]

def lay (tree : Setting) (source : Source) : Except SettingsError Setting :=
  match tree.layer source with
  | some tree => .ok tree
  | none => .error .outOfList

def conclude (tree : Setting) : Except SettingsError NodeSettings := do
  let whole ← lay (← lay (.table []) builtIn) tree.entries
  match whole.asNode with
  | some settings => pure settings
  | none => throw .misfit

def userLayers : Action SettingsError (List Path) := do
  let w ← get
  match userFile w with
  | none => pure []
  | some path =>
    if w.disk.hasEntry path then pure [path]
    else do
      World.note .debug "patchchain::config::sources::global_file"
        "No global configuration file, using defaults" [("config_path", .shown path.shown)]
      pure []

def workspaceLayers (workspace : Path) : Action SettingsError (List Path) := do
  let w ← get
  let files := (workspaceFiles workspace w).filter w.disk.hasFile
  files.forM fun path =>
    World.note .debug "patchchain::config::sources::workspace_file"
      "Layering workspace configuration" [("config_path", .shown path.shown)]
  pure files

def load (workspace : Path) : Action SettingsError NodeSettings := do
  let user ← userLayers
  let files ← workspaceLayers workspace
  let tree ← (user ++ files).foldlM (fun tree path => do
    World.settle (lay tree (← fetchSourceIfAny path))) (.table [])
  let tree ← World.settle (lay tree (ofEnvironment (← get).environment))
  World.settle (conclude tree)

def loadFile (path : Path) : Action SettingsError NodeSettings := do
  let tree ← World.settle (lay (.table []) (← fetchSource path))
  let tree ← World.settle (lay tree (ofEnvironment (← get).environment))
  World.settle (conclude tree)

/-- Loads the settings for a run in a workspace, checks them, and takes their places relative to the
workspace. -/
def loadFor (workspace : Path) (file : Option Path) : Action SettingsError NodeSettings := do
  let settings ← match file with
    | some path => loadFile path
    | none => load workspace
  if settings.faults ≠ [] then throw (.faulty settings.faults)
  pure { settings with storage := settings.storage.resolve workspace }

end Settings
end LayeredTree
