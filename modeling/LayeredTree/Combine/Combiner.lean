import LayeredTree.Patch.Merge
import LayeredTree.Release

/-!
Combiners: one base, one patch and the signature that the base is known by. A combiner first checks
that the patch extends exactly this base, then merges. It runs once; its inputs are released once.
-/

set_option autoImplicit false

namespace LayeredTree

structure CombineRequest where
  before : Path
  after : Path
  /-- The signature of the version before, as the caller knows it from the chain. -/
  signature : Option Signature

structure Combiner where
  request : CombineRequest
  policy : PathPolicy
  mergeRoot : Path
  stage : CombineStage
  finalPath : Option Path
  released : Bool

namespace Combiner

def origin : String := "patchchain::combine"

def withPolicy (request : CombineRequest) (mergeRoot : Path) (policy : PathPolicy) : Combiner :=
  ⟨request, policy, mergeRoot, .start, none, false⟩

/-- A combiner that makes its result in a work area and releases its inputs only there. -/
def inArea (request : CombineRequest) (area : WorkArea) : Combiner :=
  withPolicy request area.mergeRoot area.policy

def atStage {α : Type} (stage : CombineStage) (act : Action CombineError α) :
    Action (CombineStage × CombineError) α := do
  World.note .debug origin "Entering combine stage" [("stage", .shown stage.name)]
  World.failingAs (fun e => (stage, e)) act

def checkPaths (request : CombineRequest) : Action CombineError Unit := do
  if request.before.isEmpty || request.after.isEmpty then throw (.invalidState .noPaths)
  let disk := (← get).disk
  if !disk.hasEntry request.before || !disk.hasEntry request.after then
    throw (.invalidState .pathMissing)

/-- The patch's record, once it is seen to declare the expected signature. -/
def checkSignature (request : CombineRequest) : Action CombineError PatchRecord := do
  match request.signature with
  | none => throw (.missingSignature .notGiven)
  | some expected =>
    let record ← World.failingAs .record (PatchRecord.load request.after)
    match record.previousSignature with
    | none => throw (.missingSignature .notDeclared)
    | some declared =>
      if declared = expected then pure record
      else throw (.signatureMismatch expected declared)

def checkHash (request : CombineRequest) (record : PatchRecord) : Action CombineError Unit := do
  match record.previousHash with
  | none => throw .missingHash
  | some declared =>
    let actual ← World.failingAs .storage (Digest.compute request.before)
    if actual.accepts declared.bytes then
      World.note .debug origin "Previous state hash verified" [("digest", .shown actual.text)]
    else throw (.hashMismatch declared actual)

def pipeline (c : Combiner) : Action (CombineStage × CombineError) Path := do
  atStage .precheck (checkPaths c.request)
  let record ← atStage .validateSignature (checkSignature c.request)
  atStage .validateHash (checkHash c.request record)
  atStage .merge (Patch.mergeWith c.mergeRoot c.request.before c.request.after record)

def span (c : Combiner) (name : String) : Span :=
  ⟨origin, name, [("before", .shown c.request.before.shown),
    ("after", .shown c.request.after.shown)]⟩

/-- Checks and merges, if that has not been tried before. -/
def combine {ε : Type} (c : Combiner) : Action ε (Except CombineError Path × Combiner) :=
  World.inside (c.span "combine") do
    if c.stage ≠ .start then
      return (.error (.invalidState (.alreadyRan c.stage)), c)
    match ← World.outcome c.pipeline with
    | .ok path =>
      World.note .info origin "Combine completed"
        [("path", .shown path.shown), ("duration_ms", .wide 0)]
      pure (.ok path, { c with stage := .done, finalPath := some path })
    | .error (stage, e) =>
      World.note .warn origin "Combine failed"
        [("stage", .shown stage.name), ("error", .shown e.message)]
      pure (.error e, { c with stage := .failed })

/-- Releases both inputs, if that has not been done before. -/
def cleanup {ε : Type} (c : Combiner) : Action ε Combiner :=
  World.inside (c.span "cleanup") do
    if c.released then return c
    Release.release c.policy c.request.before
    Release.release c.policy c.request.after
    pure { c with released := true }

/-- Combines and releases the inputs whatever came of it. -/
def runScoped {ε : Type} (c : Combiner) : Action ε (Except CombineError Path × Combiner) := do
  let (result, c) ← c.combine
  let c ← c.cleanup
  let c ← c.cleanup
  pure (result, c)

/-- Gives a combiner up without running it: its inputs are released. -/
def abandon {ε : Type} (c : Combiner) : Action ε Combiner := c.cleanup

end Combiner
end LayeredTree
