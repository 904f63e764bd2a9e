import LayeredTree.Resource.Id

set_option autoImplicit false

namespace LayeredTree

/-- A lock in the table. Two locks never have the same number. -/
structure ResourceLock where
  number : Nat
  held : Bool
  /-- How many have a share in the lock: the table, and the guard if it is held. -/
  shares : Nat
deriving Repr, DecidableEq

/-- What shows that a lock is held; giving it back frees the lock. -/
structure ResourceGuard where
  resource : ResourceId
  number : Nat
deriving Repr, DecidableEq

structure ResourceLocks where
  entries : List (ResourceId × ResourceLock)
  /-- The number of the next lock. -/
  next : Nat
deriving Repr, DecidableEq

namespace ResourceLocks

def empty : ResourceLocks := ⟨[], 0⟩

def get? (t : ResourceLocks) (r : ResourceId) : Option ResourceLock := t.entries.lookup r

def size (t : ResourceLocks) : Nat := t.entries.length

def isEmpty (t : ResourceLocks) : Bool := t.entries.isEmpty

def ensure (t : ResourceLocks) (r : ResourceId) : ResourceLocks :=
  match t.get? r with
  | some _ => t
  | none => ⟨t.entries ++ [(r, ⟨t.next, false, 1⟩)], t.next + 1⟩

def alter (t : ResourceLocks) (r : ResourceId) (f : ResourceLock → ResourceLock) : ResourceLocks :=
  { t with entries := t.entries.map fun (k, lock) => if k = r then (k, f lock) else (k, lock) }

/-- Takes the lock of a resource if nobody holds it. The guard has a share in it from then on. -/
def tryLock (t : ResourceLocks) (r : ResourceId) : Option ResourceGuard × ResourceLocks :=
  let t := t.ensure r
  match t.get? r with
  | some lock =>
    if lock.held then (none, t)
    else (some ⟨r, lock.number⟩,
      t.alter r fun lock => { lock with held := true, shares := lock.shares + 1 })
  | none => (none, t)

/-- Takes the lock of a resource. There is no result while another holds it; the caller has to wait
then. -/
def lock (t : ResourceLocks) (r : ResourceId) : Option (ResourceGuard × ResourceLocks) :=
  match t.tryLock r with
  | (some guard, t) => some (guard, t)
  | (none, _) => none

def release (t : ResourceLocks) (g : ResourceGuard) : ResourceLocks :=
  match t.get? g.resource with
  | some lock =>
    if lock.number = g.number then
      t.alter g.resource fun lock => { lock with held := false, shares := lock.shares - 1 }
    else t
  | none => t

/-- Clears away the locks that only the table has a share in. -/
def prune (t : ResourceLocks) : ResourceLocks :=
  { t with entries := t.entries.filter fun p => 1 < p.2.shares }

end ResourceLocks
end LayeredTree
