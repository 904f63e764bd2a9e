import LayeredTree.Tree.Walk
import LayeredTree.Blake3
import LayeredTree.Signature
import LayeredTree.World

/-!
Digests of trees: the hash of a byte stream made of a domain, for each file in byte order of the
addresses the length of the address, the address, the length of the content and the content, and
at the end the number of files. Lengths and number take eight bytes each, most telling byte first.
-/

set_option autoImplicit false

namespace LayeredTree

structure Digest where
  bytes : Bytes
  length_eq : bytes.length = 32
deriving DecidableEq

namespace Digest

inductive Fault
  | width (actual : Nat)
  | notHex (fault : Hex.Fault)
deriving Repr, DecidableEq

def Fault.message : Fault → String
  | width actual => s!"digest must be 32 bytes, got {actual}"
  | notHex fault => s!"digest is not valid hex: {fault.message}"

def ofBytes (bytes : Bytes) : Except Fault Digest :=
  if h : bytes.length = 32 then .ok ⟨bytes, h⟩ else .error (.width bytes.length)

def parse (s : String) : Except Fault Digest :=
  match Hex.decode (trimmedBytes s) with
  | .error fault => .error (.notHex fault)
  | .ok bytes => ofBytes bytes

def text (d : Digest) : String := Hex.text d.bytes

def diagnostic (d : Digest) : String := s!"Digest({d.text})"

def accepts (d : Digest) (expected : Bytes) : Bool := d.bytes == expected

def ofHash (stream : Bytes) : Digest := ⟨Blake3.hash stream, Blake3.hash_length stream⟩

end Digest

/-- The stream a digest is made of, as far as it has come. -/
structure DigestStream where
  bytes : Bytes
  files : Nat

namespace DigestStream

/-- The text that sets these streams apart from all others. -/
def domain : Bytes := Bytes.ofString "patchchain.tree-digest.v1"

def start : DigestStream := ⟨domain, 0⟩

def lengthBytes (n : Nat) : Bytes := Bytes.bigEndian 8 n

def frame (key : Key) (length : Nat) : Bytes :=
  lengthBytes key.length ++ key ++ lengthBytes length

/-- Adds a file read from disk. The length is the one seen on the walk; if the file has another
one by now the stream is spoilt, and so it is by a file that cannot be read. -/
def add (s : DigestStream) (d : Disk) (key : Key) (path : Path) (length : Nat) :
    Except StorageError Unit × DigestStream :=
  let framed : DigestStream := { s with bytes := s.bytes ++ frame key length }
  match d.openAt path with
  | .error fault => (.error (.io (.opening path fault)), framed)
  | .ok (_, .file content) =>
    let filled : DigestStream := { framed with bytes := framed.bytes ++ content }
    if content.length = length then (.ok (), { filled with files := filled.files + 1 })
    else (.error (.changedDuringScan path), filled)
  | .ok _ => (.error (.io (.reading path (.system .isDirectory))), framed)

def finish (s : DigestStream) : Digest := Digest.ofHash (s.bytes ++ lengthBytes s.files)

end DigestStream

namespace Disk

def streamOf (d : Disk) : DigestStream → List TreeEntry → Except StorageError DigestStream
  | s, [] => .ok s
  | s, .link .. :: rest => streamOf d s rest
  | s, .file key path size :: rest =>
    match s.add d key path size with
    | (.error e, _) => .error e
    | (.ok (), s) => streamOf d s rest

def digest (d : Disk) (root : Path) : Except StorageError (Digest × Nat) := do
  let files ← d.filesOf .content root
  let stream ← d.streamOf .start files
  pure (stream.finish, files.length)

def hashFile (d : Disk) (path : Path) : Except IoFault Digest := do
  match ← d.openAt path with
  | (_, .file content) => pure (Digest.ofHash content)
  | _ => throw (.system .isDirectory)

end Disk

def Digest.compute (root : Path) : Action StorageError Digest :=
  let origin := "patchchain::tree::digest"
  World.inside ⟨origin, "compute", [("root", .shown root.shown)]⟩ do
    let (digest, files) ← World.onDiskAsk (·.digest root)
    World.note .debug origin "Computed tree digest"
      [("files", .count files), ("digest", .shown digest.text), ("duration_ms", .wide 0)]
    pure digest

end LayeredTree
