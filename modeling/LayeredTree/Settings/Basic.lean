import LayeredTree.Json.Decode
import LayeredTree.Path

set_option autoImplicit false

namespace LayeredTree

structure StorageSettings where
  dataPath : Path
  tempDataPath : Path
deriving Repr, DecidableEq

structure LoggingSettings where
  level : String
  format : String
  output : String
  file : Option Path
  color : Bool
  /-- The levels of single parts of the program, in the order of their names. -/
  modules : List (String × String)
deriving Repr, DecidableEq

structure NodeSettings where
  storage : StorageSettings
  logging : LoggingSettings
deriving Repr, DecidableEq

inductive LogFormat
  | text
  | json
deriving Repr, DecidableEq

def LogFormat.ofName? : String → Option LogFormat
  | "text" => some text
  | "json" => some json
  | _ => none

def LogFormat.refusal (name : String) : String :=
  s!"Invalid log format: {name} (must be 'json' or 'text')"

/-- Where log lines go; both are the error stream and a file. -/
inductive LogOutput
  | stdout
  | stderr
  | file
  | both
deriving Repr, DecidableEq

namespace LogOutput

def ofName? : String → Option LogOutput
  | "stdout" => some stdout
  | "stderr" => some stderr
  | "file" => some file
  | "both" => some both
  | _ => none

def refusal (name : String) : String :=
  s!"Invalid log output: {name} (must be 'stdout', 'stderr', 'file', or 'both')"

def hasFile : LogOutput → Bool
  | file | both => true
  | stdout | stderr => false

end LogOutput

inductive SettingsFault
  | emptyDataPath
  | emptyTempDataPath
  | unknownLevel (level : String)
  | unknownFormat (name : String)
  | unknownOutput (name : String)
  | unknownModuleLevel (name level : String)
deriving Repr, DecidableEq

namespace StorageSettings

def standard : StorageSettings := ⟨Path.ofString "data", Path.ofString "data/_temp"⟩

def resolve (s : StorageSettings) (workspace : Path) : StorageSettings :=
  ⟨workspace.join s.dataPath, workspace.join s.tempDataPath⟩

def fault? (s : StorageSettings) : Option SettingsFault :=
  if s.dataPath.isEmpty then some .emptyDataPath
  else if s.tempDataPath.isEmpty then some .emptyTempDataPath
  else none

def asPath : Json.Decoder Path := fun v => Path.ofString <$> Json.asText "path string" v

def decode : Json.Decoder StorageSettings :=
  Json.asRecord "struct StorageConfig"
    [("data_path", fun s v => do pure { s with dataPath := ← asPath v }),
      ("temp_data_path", fun s v => do pure { s with tempDataPath := ← asPath v })]
    standard

end StorageSettings

namespace LoggingSettings

def standard : LoggingSettings := ⟨"info", "text", "stdout", none, true, []⟩

def levelNames : List String := ["trace", "debug", "info", "warn", "error", "off"]

def fault? (s : LoggingSettings) : Option SettingsFault :=
  if !levelNames.contains s.level then some (.unknownLevel s.level)
  else if (LogFormat.ofName? s.format).isNone then some (.unknownFormat s.format)
  else if (LogOutput.ofName? s.output).isNone then some (.unknownOutput s.output)
  else
    (s.modules.find? fun m => !levelNames.contains m.2).map fun m => .unknownModuleLevel m.1 m.2

def decode : Json.Decoder LoggingSettings :=
  Json.asRecord "struct LoggingConfig"
    [("level", fun s v => do pure { s with level := ← Json.asText "a string" v }),
      ("format", fun s v => do pure { s with format := ← Json.asText "a string" v }),
      ("output", fun s v => do pure { s with output := ← Json.asText "a string" v }),
      ("file", fun s v => do
        pure { s with file := ← Json.asOptional StorageSettings.asPath v }),
      ("color", fun s v => do pure { s with color := ← Json.asBool v }),
      ("modules", fun s v => do
        pure { s with modules := ← Json.asMap (Json.asText "a string") v })]
    standard

end LoggingSettings

def SettingsFault.message : SettingsFault → String
  | emptyDataPath => "Storage: Data path cannot be empty"
  | emptyTempDataPath => "Storage: Temp data path cannot be empty"
  | unknownLevel level =>
    s!"Logging: Invalid log level: {level} (must be one of " ++
      String.intercalate ", " LoggingSettings.levelNames ++ ")"
  | unknownFormat name => "Logging: " ++ LogFormat.refusal name
  | unknownOutput name => "Logging: Configuration error: " ++ LogOutput.refusal name
  | unknownModuleLevel name level => s!"Logging: Invalid log level for {name}: {level}"

namespace NodeSettings

def standard : NodeSettings := ⟨.standard, .standard⟩

/-- What is wrong with the settings: at most one fault of the places and one of the logging. -/
def faults (s : NodeSettings) : List SettingsFault :=
  s.storage.fault?.toList ++ s.logging.fault?.toList

def decode : Json.Decoder NodeSettings :=
  Json.asRecord "struct NodeConfig"
    [("storage", fun s v => do pure { s with storage := ← StorageSettings.decode v }),
      ("logging", fun s v => do pure { s with logging := ← LoggingSettings.decode v })]
    standard

end NodeSettings
end LayeredTree
