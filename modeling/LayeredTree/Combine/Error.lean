import LayeredTree.Patch.Record
import LayeredTree.Resource.Id

set_option autoImplicit false

namespace LayeredTree

inductive CombineStage
  | start
  | precheck
  | validateSignature
  | validateHash
  | merge
  | done
  | failed
deriving Repr, DecidableEq

def CombineStage.name : CombineStage → String
  | start => "Start"
  | precheck => "Precheck"
  | validateSignature => "ValidateSignature"
  | validateHash => "ValidateHash"
  | merge => "Merge"
  | done => "Done"
  | failed => "Failed"

inductive StateFault
  | outputNotEmpty (path : Path)
  | noPaths
  | pathMissing
  | alreadyRan (stage : CombineStage)
  | noLayers (resource : ResourceId)
  | noSnapshotFirst (resource : ResourceId)
  | lateSnapshot (position : Nat) (resource : ResourceId)
deriving Repr, DecidableEq

def StateFault.message : StateFault → String
  | outputNotEmpty path => s!"patch output directory {path.shown} is not empty"
  | noPaths => "No paths available to build patch"
  | pathMissing => "Unable to combine because at least one path doesn't exist"
  | alreadyRan stage => s!"combiner already ran (stage {stage.name})"
  | noLayers resource => s!"no layers to build {resource.text}"
  | noSnapshotFirst resource => s!"layer chain for {resource.text} does not start with a snapshot"
  | lateSnapshot position resource =>
    s!"layer {position} of {resource.text} is a snapshot after the first layer"

inductive SignatureGap
  | notGiven
  | notDeclared
deriving Repr, DecidableEq

def SignatureGap.message : SignatureGap → String
  | notGiven => "No previous signature passed to the combiner"
  | notDeclared => "Unable to extract previous signature from patch metadata"

inductive Conflict
  | linkInPatch (key : Key)
  | rejectedMarker (fault : MarkerFault)
  | deletedAndSupplied (key : Key)
  | markerWithoutFile (key : Key)
  | fileAsParent (parent key : Key)
deriving Repr, DecidableEq

def Conflict.message : Conflict → String
  | linkInPatch key => s!"patch tree contains symlink {Text.quotedBytes key}"
  | rejectedMarker fault => s!"rejected delete marker: {fault.message}"
  | deletedAndSupplied key => s!"{Text.quotedBytes key} is both deleted and supplied by the patch"
  | markerWithoutFile key =>
    s!"delete marker {Text.quotedBytes key} names no file in the base tree"
  | fileAsParent parent key =>
    s!"{Text.quotedBytes parent} is a file in the merged tree but also the parent of {Text.quotedBytes key}"

inductive CombineError
  | invalidState (fault : StateFault)
  | missingSignature (gap : SignatureGap)
  | signatureMismatch (expected declared : Signature)
  | missingHash
  | hashMismatch (declared actual : Digest)
  | mergeConflict (conflict : Conflict)
  | record (error : RecordError)
  | storage (error : StorageError)
deriving DecidableEq

namespace CombineError

def message : CombineError → String
  | invalidState fault => s!"Invalid state: {fault.message}"
  | missingSignature gap => s!"Missing signature: {gap.message}"
  | signatureMismatch expected declared =>
    s!"Previous signatures do not match (expected {expected.text}, patch declares {declared.text})"
  | missingHash => "Unable to extract previous hash from patch metadata"
  | hashMismatch declared actual =>
    s!"Previous state hash mismatch. Patch previous hash: {declared.text}, actual: {actual.text}"
  | mergeConflict conflict => s!"Merge conflict: {conflict.message}"
  | record error => s!"Metadata error: {error.message}"
  | storage error => s!"Storage error: {error.message}"

/-- The error rejects the patch itself and not the state around it. -/
def isIntegrityFailure : CombineError → Bool
  | missingSignature _ => true
  | signatureMismatch .. => true
  | missingHash => true
  | hashMismatch .. => true
  | record (.malformed ..) => true
  | record (.unsupportedVersion _) => true
  | record (.absent _) => true
  | _ => false

def ofIo (fault : IoFault) : CombineError := .storage (.ofIo fault)

end CombineError
end LayeredTree
