import LayeredTree.Hex
import LayeredTree.Text.Category

set_option autoImplicit false

namespace LayeredTree

def trimmedBytes (s : String) : Bytes :=
  Bytes.ofString (String.ofList (Text.trim s.toList))

structure Signature where
  bytes : Bytes
  length_eq : bytes.length = 64
deriving DecidableEq

namespace Signature

inductive Fault
  | width (actual : Nat)
  | notHex (fault : Hex.Fault)
deriving Repr, DecidableEq

def Fault.message : Fault → String
  | width actual => s!"signature must be 64 bytes, got {actual}"
  | notHex fault => s!"signature is not valid hex: {fault.message}"

def ofBytes (bytes : Bytes) : Except Fault Signature :=
  if h : bytes.length = 64 then .ok ⟨bytes, h⟩ else .error (.width bytes.length)

def uniform (b : UInt8) : Signature := ⟨List.replicate 64 b, by simp⟩

def parse (s : String) : Except Fault Signature :=
  match Hex.decode (trimmedBytes s) with
  | .error fault => .error (.notHex fault)
  | .ok bytes => ofBytes bytes

def text (s : Signature) : String := Hex.text s.bytes

def diagnostic (s : Signature) : String := s!"Signature({s.text})"

end Signature
end LayeredTree
