import LayeredTree.Combine.Combiner
import LayeredTree.Resource.Locks

/-!
Building the newest version of a resource from its layers: a snapshot, and patches that each extend
the version before. The signature of each layer is the one that the next patch has to name.
-/

set_option autoImplicit false

namespace LayeredTree.Chain

def origin : String := "patchchain::resource::builder"

/-- The position of the first snapshot among later layers, counted from one. -/
def lateSnapshot? : Nat → List Layer → Option Nat
  | _, [] => none
  | position, layer :: rest =>
    if layer.kind = .snapshot then some position else lateSnapshot? (position + 1) rest

/-- The first layer and the patches after it, if the layers have that shape. -/
def shape (resource : ResourceId) : List Layer → Except StateFault (Layer × List Layer)
  | [] => .error (.noLayers resource)
  | first :: rest =>
    if first.kind ≠ .snapshot then .error (.noSnapshotFirst resource)
    else match lateSnapshot? 1 rest with
      | some position => .error (.lateSnapshot position resource)
      | none => .ok (first, rest)

/-- Combines patch after patch onto a tree; each step releases what it consumed. -/
def fold (area : WorkArea) (current : Path) (signature : Signature) :
    List Layer → Action CombineError Path
  | [] => pure current
  | layer :: rest => do
    let combiner := Combiner.inArea ⟨current, layer.path, some signature⟩ area
    let (result, _) ← combiner.runScoped
    let next ← World.settle result
    fold area next layer.signature rest

def assemble (area : WorkArea) (first : Layer) (rest : List Layer) :
    Action CombineError Path := do
  World.note .debug origin "Acquired resource lock" []
  let path ← fold area first.path first.signature rest
  World.note .info origin "Built resource" [("path", .shown path.shown)]
  pure path

/-- Builds the newest version of a resource under its lock. There is no result while another holds
the lock; the caller has to wait then. -/
def build {ε : Type} (area : WorkArea) (resource : ResourceId) (layers : List Layer)
    (locks : ResourceLocks) :
    Action ε (Option (Except CombineError Path) × ResourceLocks) :=
  World.inside ⟨origin, "build", [("resource", .shown resource.text),
      ("layers", .count layers.length)]⟩ do
    match shape resource layers with
    | .error fault => pure (some (.error (.invalidState fault)), locks)
    | .ok (first, rest) =>
      match locks.lock resource with
      | none => pure (none, locks)
      | some (guard, locks) =>
        let result ← World.outcome (assemble area first rest)
        pure (some result, locks.release guard)

end LayeredTree.Chain
