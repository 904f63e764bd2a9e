import LayeredTree.Json.Decode
import LayeredTree.Tree.Digest
import LayeredTree.Instant.Rfc3339

/-!
The record that a patch carries beside its files: the format's version, the signature and the
digest of the version it extends, the addresses it deletes and the time it was made. A record is
untrusted input; its reader looks at its form only.
-/

set_option autoImplicit false

namespace LayeredTree

structure PatchRecord where
  version : UInt32
  previousSignature : Option Signature
  previousHash : Option Digest
  removed : List String
  createdAt : Option Instant
deriving DecidableEq

inductive RecordError
  | absent (path : Path)
  | malformed (path : Path) (fault : Json.Fault)
  | unsupportedVersion (version : UInt32)
  | io (fault : IoFault)
deriving Repr, DecidableEq

def RecordError.message : RecordError → String
  | absent path => s!"Patch metadata missing: {path.shown}"
  | malformed path fault => s!"Patch metadata malformed in {path.shown}: {fault.message}"
  | unsupportedVersion version => s!"Unsupported patch metadata version {version.toNat}"
  | io fault => s!"Patch metadata I/O error: {fault.message}"

namespace PatchRecord

def currentVersion : UInt32 := 1

def fileName : Bytes := Bytes.ofString "metadata.json"

/-- The name under which a record is written before it takes its place. -/
def draftName : Bytes := Bytes.ofString "metadata.json.tmp"

def sidecarPath (patch : Path) : Path := patch.child sidecarName

def path (patch : Path) : Path := (sidecarPath patch).child fileName

def draftPath (patch : Path) : Path := (sidecarPath patch).child draftName

structure Draft where
  version : Option UInt32
  previousSignature : Option (Option Signature)
  previousHash : Option (Option Digest)
  removed : Option (List String)
  createdAt : Option (Option Instant)

def Draft.empty : Draft := ⟨none, none, none, none, none⟩

/-- The record of a draft. Only the version must be there. -/
def Draft.record (d : Draft) : Except Json.Fault PatchRecord :=
  match d.version with
  | none => .error (.missing "version")
  | some version =>
    .ok ⟨version, d.previousSignature.join, d.previousHash.join, d.removed.getD [],
      d.createdAt.join⟩

def signatureOf (s : String) : Except Json.Fault Signature :=
  (Signature.parse s).mapError fun fault => .refused fault.message

def digestOf (s : String) : Except Json.Fault Digest :=
  (Digest.parse s).mapError fun fault => .refused fault.message

def instantOf (s : String) : Except Json.Fault Instant :=
  (Instant.parse s).mapError fun fault => .refused fault.message

def kind : String := "struct PatchMetadata"

def timestampKind : String := "an RFC 3339 formatted date and time string"

open Json in
def readWord32 : Reader UInt32 := do
  let b ← peekValue
  if b = 45 ∨ isDigit b then
    match wordOf (← readNumber) with
    | .ok w => pure w
    | .error fault => throw fault
  else refuseKind "u32"

open Json in
def readParsed {α : Type} (wanted : String) (parse : String → Except Fault α) : Reader α := do
  let b ← peekValue
  if b = 34 then
    skipByte
    match parse (← readText) with
    | .ok a => pure a
    | .error fault => throw fault
  else refuseKind wanted

open Json in
def readOptional {α : Type} (inner : Reader α) : Reader (Option α) := do
  match ← peek with
  | some 110 =>
    skipByte
    Json.readWord nullTail
    pure none
  | _ => some <$> inner

open Json in
def readTexts : Nat → Bool → Reader (List String)
  | 0, _ => throw .endInList
  | steps + 1, first => do
    if ← nextItem first then
      let item ← readParsed "a string" .ok
      let items ← readTexts steps false
      pure (item :: items)
    else pure []

open Json in
def readMarkers : Reader (List String) := do
  let b ← peekValue
  if b = 91 then
    skipByte
    let items ← readTexts ((← get).length + 1) true
    closeList
    pure items
  else refuseKind "a sequence"

def readSignature : Json.Reader (Option Signature) :=
  readOptional (readParsed "a string" signatureOf)

def readDigest : Json.Reader (Option Digest) := readOptional (readParsed "a string" digestOf)

def readInstant : Json.Reader (Option Instant) := readOptional (readParsed timestampKind instantOf)

def once {α : Type} (name : String) (old : Option α) (read : Json.Reader α) :
    Json.Reader (Option α) := do
  if old.isSome then throw (.repeated name)
  Json.readColon
  some <$> read

def readMember (draft : Draft) (name : String) : Json.Reader Draft := do
  if name = "version" then
    return { draft with version := ← once name draft.version readWord32 }
  if name = "previous_signature" then
    return { draft with previousSignature := ← once name draft.previousSignature readSignature }
  if name = "previous_hash" then
    return { draft with previousHash := ← once name draft.previousHash readDigest }
  if name = "removed" then
    return { draft with removed := ← once name draft.removed readMarkers }
  if name = "created_at" then
    return { draft with createdAt := ← once name draft.createdAt readInstant }
  Json.readColon
  Json.skipAny
  pure draft

def readMembers : Nat → Bool → Draft → Json.Reader Draft
  | 0, _, _ => throw .endInObject
  | steps + 1, first, draft => do
    match ← Json.nextKey first with
    | none => pure draft
    | some name =>
      let draft ← readMember draft name
      readMembers steps false draft

/-- Reads one item of a record written as a list, if there is a further one. -/
def readItem {α : Type} (first : Bool) (read : Json.Reader α) : Json.Reader (Option α) := do
  if ← Json.nextItem first then some <$> read else pure none

def readItems : Json.Reader Draft := do
  let version ← readItem true readWord32
  if version = none then throw (.wrongLength 0 s!"{kind} with 5 elements")
  let previousSignature ← readItem false readSignature
  let previousHash ← readItem false readDigest
  let removed ← readItem false readMarkers
  let createdAt ← readItem false readInstant
  pure ⟨version, previousSignature, previousHash, removed, createdAt⟩

def finish (draft : Draft) : Json.Reader PatchRecord :=
  match draft.record with
  | .ok record => pure record
  | .error fault => throw fault

def readRecord : Json.Reader PatchRecord := do
  let b ← Json.peekValue
  if b = 123 then
    Json.skipByte
    let record ← finish (← readMembers ((← get).length + 1) true .empty)
    Json.closeObject
    pure record
  else if b = 91 then
    Json.skipByte
    let record ← finish (← readItems)
    Json.closeList
    pure record
  else Json.refuseKind kind

def parse (content : Bytes) : Except Json.Fault PatchRecord := do
  let (record, _) ← (do let r ← readRecord; Json.readEnd; pure r : Json.Reader PatchRecord).run content
  pure record

def decode (v : Json) : Except Json.Fault PatchRecord := do
  let parsed {α : Type} (wanted : String) (parse : String → Except Json.Fault α) :
      Json.Decoder (Option α) :=
    Json.asOptional fun v => do parse (← Json.asText wanted v)
  let draft ← Json.asRecord kind
    [("version", fun (d : Draft) v => do pure { d with version := some (← Json.asWord v) }),
      ("previous_signature", fun d v => do
        pure { d with previousSignature := some (← parsed "a string" signatureOf v) }),
      ("previous_hash", fun d v => do
        pure { d with previousHash := some (← parsed "a string" digestOf v) }),
      ("removed", fun d v => do
        pure { d with removed := some (← Json.asList (Json.asText "a string") v) }),
      ("created_at", fun d v => do
        pure { d with createdAt := some (← parsed timestampKind instantOf v) })]
    .empty v
  match v with
  | .list [] => throw (.wrongLength 0 s!"{kind} with 5 elements")
  | _ => draft.record

/-- The fields of a record in their written order. The time is left out if there is none. -/
def members (r : PatchRecord) : List (String × Json) :=
  [("version", .ofNat r.version.toNat),
    ("previous_signature", .ofText? (r.previousSignature.map Signature.text)),
    ("previous_hash", .ofText? (r.previousHash.map Digest.text)),
    ("removed", .list (r.removed.map Json.text))] ++
  match r.createdAt with
  | some t => [("created_at", .text t.text)]
  | none => []

def text (r : PatchRecord) : String := (Json.object r.members).pretty 0

end PatchRecord

namespace Disk

def record (d : Disk) (patch : Path) : Except RecordError PatchRecord :=
  let path := PatchRecord.path patch
  match d.openAt path with
  | .error fault => if fault.isAbsence then .error (.absent path) else .error (.io fault)
  | .ok (_, .file content) =>
    match PatchRecord.parse content with
    | .error fault => .error (.malformed path fault)
    | .ok record =>
      if record.version = PatchRecord.currentVersion then .ok record
      else .error (.unsupportedVersion record.version)
  | .ok _ => .error (.io (.system .isDirectory))

/-- The requests by which a record comes into its place. -/
structure RecordRequests where
  make : Path → DiskRequest Unit
  write : Path → Bytes → DiskRequest Unit
  move : Path → Path → DiskRequest Unit
  remove : Path → DiskRequest Unit

/-- Writes the record of a patch tree in place of the one it had. The text is written under
another name and then moved into place, so that no reader meets half a record. -/
def writeRecordBy (requests : RecordRequests) (patch : Path) (record : PatchRecord) :
    DiskRequest Unit := do
  requests.make (PatchRecord.sidecarPath patch)
  let draft := PatchRecord.draftPath patch
  requests.write draft (Bytes.ofString record.text)
  try requests.move draft (PatchRecord.path patch)
  catch fault =>
    try requests.remove draft catch _ => pure ()
    throw fault

def writeRecord : Path → PatchRecord → DiskRequest Unit :=
  writeRecordBy ⟨makeDirectories, writeFile, move, removeFile⟩

end Disk

namespace PatchRecord

def load (patch : Path) : Action RecordError PatchRecord := do
  let record ← World.onDiskAsk (·.record patch)
  World.note .debug "patchchain::patch::metadata" "Read patch metadata"
    [("path", .shown (path patch).shown), ("removed", .count record.removed.length)]
  pure record

def storeBy (requests : Disk.RecordRequests) (patch : Path) (record : PatchRecord) :
    Action RecordError Unit :=
  World.failingAs .io (World.onDisk (Disk.writeRecordBy requests patch record))

def store (patch : Path) (record : PatchRecord) : Action RecordError Unit :=
  World.failingAs .io (World.onDisk (Disk.writeRecord patch record))

end PatchRecord
end LayeredTree
