import LayeredTree.Command.Grammar

set_option autoImplicit false

namespace LayeredTree

inductive Command
  | digest (root : Path)
  | inspect (patch : Path) (format : String)
  | diff (before after out : Path) (signature : Signature)
  | combine (before patch : Path) (signature : Signature) (output : Path)
  | config

structure Invocation where
  command : Command
  workspace : Path
  settingsFile : Option Path
  verbose : Bool
  logLevel : Option String
  logFormat : Option String
  logOutput : Option String
  logFile : Option Path

namespace Command

def name : Command → String
  | digest _ => "digest"
  | inspect .. => "inspect"
  | diff .. => "diff"
  | combine .. => "combine"
  | config => "config"

def grammars : List (String × Grammar) :=
  [("digest", ⟨[], [], [("path", .path)], []⟩),
    ("inspect", ⟨[("format", .text)], [], [("patch", .path)], []⟩),
    ("diff", ⟨[("previous-signature", .signature)], [],
      [("before", .path), ("after", .path), ("out", .path)], []⟩),
    ("combine", ⟨[("signature", .signature), ("output", .path)], [],
      [("before", .path), ("patch", .path)], []⟩),
    ("config", ⟨[], [], [], []⟩)]

/-- The command of a name and what was given to it, if nothing it needs is lacking. -/
def ofReading? (name : String) (r : LineReading) : Option Command :=
  match name with
  | "digest" => do pure (digest (← r.path? "path"))
  | "inspect" => do pure (inspect (← r.path? "patch") ((r.text? "format").getD "text"))
  | "diff" => do
    pure (diff (← r.path? "before") (← r.path? "after") (← r.path? "out")
      (← r.signature? "previous-signature"))
  | "combine" => do
    pure (combine (← r.path? "before") (← r.path? "patch") (← r.signature? "signature")
      (← r.path? "output"))
  | "config" => some config
  | _ => none

def parse (name : String) (words : List String) : Except UsageFault Command :=
  match grammars.lookup name with
  | none => .error .unknownCommand
  | some g => do
    let (r, _) ← LineReading.takeWords g (.start g) words
    let r ← r.settle
    match ofReading? name r with
    | some command => pure command
    | none => throw .lackingArgument

end Command

namespace Invocation

def helpName : String := "help"

def commandNames : List String := Command.grammars.map Prod.fst ++ [helpName]

def grammar : Grammar :=
  ⟨[("workspace", .path), ("config", .path), ("log-level", .text), ("log-format", .text),
      ("log-output", .text), ("log-file", .path)],
    ["verbose"], [], commandNames⟩

/-- What comes of asking for help on some commands: it is had on all together or on one. -/
def helpOn : List String → UsageFault
  | [] => .helpWanted
  | [name] => if name ∈ commandNames then .helpWanted else .unknownCommand
  | _ => .unknownCommand

def ofReading (r : LineReading) (command : Command) : Invocation :=
  { command := command
    workspace := (r.path? "workspace").getD ⟨Path.dot⟩
    settingsFile := r.path? "config"
    verbose := r.flag "verbose"
    logLevel := r.text? "log-level"
    logFormat := r.text? "log-format"
    logOutput := r.text? "log-output"
    logFile := r.path? "log-file" }

def parse (words : List String) : Except UsageFault Invocation := do
  let (r, found) ← LineReading.takeWords grammar (.start grammar) words
  match found with
  | some (name, rest) =>
    if name = helpName then throw (helpOn rest)
    let command ← Command.parse name rest
    let r ← r.settle
    pure (ofReading r command)
  | none =>
    let r ← r.settle
    throw (if r.given.isEmpty then .nothingGiven else .noCommand)

end Invocation
end LayeredTree
