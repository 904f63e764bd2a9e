import LayeredTree.Proofs.Disk.Digging
import LayeredTree.Proofs.Disk.Moving
import LayeredTree.Proofs.Staging.Copying

set_option autoImplicit false

namespace LayeredTree.Staging

open World

variable {w : World} {merged output : Path}

/-- The first step: the directories above the output are made. -/
def makeAbove (output : Path) : Action StorageError Unit :=
  match output.parent.filter fun parent => !parent.isEmpty with
  | some parent => failingAs .ofIo (onDisk (Disk.makeDirectories parent))
  | none => pure ()

/-- The rest: the tree is moved, or else copied. -/
def putInPlace (merged output : Path) : Action StorageError Unit := do
  match ← outcome (onDisk (Disk.move merged output)) with
  | .ok () => pure ()
  | .error fault =>
    note .debug origin "Rename failed, copying merged tree" [("error", .shown fault.message)]
    failingAs .ofIo (onDisk (Disk.makeDirectories output))
    copyTree .content merged output

theorem relocate_eq (merged output : Path) :
    relocate merged output = (makeAbove output >>= fun _ => putInPlace merged output) := by
  unfold relocate makeAbove
  cases output.parent.filter fun parent => !parent.isEmpty with
  | none => rfl
  | some parent => rfl

private theorem makeAbove_run (output : Path) (w : World) :
    (∃ e d, makeAbove output w = .error e { w with disk := d } ∧ w.disk.MadeFor output d) ∨
      ∃ d, makeAbove output w = .ok () { w with disk := d } ∧ w.disk.MadeFor output d := by
  unfold makeAbove
  cases above : output.parent.filter fun parent => !parent.isEmpty with
  | none => exact .inr ⟨w.disk, rfl, .refl _ _⟩
  | some parent =>
    have up := Path.isParent_of_parent (Option.filter_eq_some_iff.mp above).1
    have made := (Disk.madeFor_makeDirectories parent w.disk).of_parent up
    cases run : Disk.makeDirectories parent w.disk with
    | error fault d =>
      rw [after_of_error run] at made
      exact .inl ⟨_, d, failingAs_of_error (onDisk_of_error run), made⟩
    | ok _ d =>
      rw [after_of_ok run] at made
      exact .inr ⟨d, failingAs_of_ok (onDisk_of_ok run), made⟩

/-- How a tree is relocated, by the last step that was taken. -/
inductive Relocated (merged output : Path) (w : World) :
    EStateM.Result StorageError World Unit → Prop
  | stuck {e : StorageError} {v : World} :
      w.disk.MadeFor output v.disk → Relocated merged output w (.error e v)
  | moved {source target : Location} {d : Disk} {v : World} :
      w.disk.MadeFor output d → d.Seats merged source → d.Seats output target →
      Disk.checkText output = .ok () → d.Moved source target v.disk → Relocated merged output w (.ok () v)
  | there {loc : Location} {v : World} :
      w.disk.MadeFor output v.disk → v.disk.Seats merged loc → v.disk.Seats output loc →
      Disk.checkText output = .ok () → v.disk.IsDirectory loc → Relocated merged output w (.ok () v)
  | poured {root : Location} {u : World} {r : EStateM.Result StorageError World Unit} :
      w.disk.MadeFor output u.disk → u.disk.Reaches output root → u.disk.IsDirectory root →
      Disk.Short output → copyTree .content merged output u = r → Relocated merged output w r

theorem relocate_ends (ne : output.text ≠ []) (dirs : ∀ d, w.disk.MadeFor output d →
      ∀ loc, d.Seats merged loc → ∀ node, d.get? loc = some node → node = .directory) :
    Relocated merged output w (relocate merged output w) := by
  rw [relocate_eq]
  rcases makeAbove_run output w with ⟨e, d, failed, made⟩ | ⟨d, run, made⟩
  · rw [bind_of_error failed]
    exact .stuck made
  rw [bind_of_ok run]
  rcases Disk.move_cases merged output d (dirs d made) with
    ⟨source, target, d', seats, seats', spelled, moved, move⟩ | ⟨loc, seats, seats', spelled, isDir, move⟩ |
    ⟨fault, move⟩
  · rw [show putInPlace merged output { w with disk := d } = _ from
      bind_of_ok (outcome_of_ok (onDisk_of_ok move))]
    exact .moved made seats seats' spelled moved
  · rw [show putInPlace merged output { w with disk := d } = _ from
      bind_of_ok (outcome_of_ok (onDisk_of_ok move))]
    exact .there made seats seats' spelled isDir
  · have start : putInPlace merged output { w with disk := d } = _ :=
      (bind_of_ok (outcome_of_error (onDisk_of_error move))).trans (bind_of_ok rfl)
    have made' := made.trans (Disk.madeFor_makeDirectories output d)
    rw [start]
    cases filled : Disk.makeDirectories output d with
    | error fault' d' =>
      rw [after_of_error filled] at made'
      rw [bind_of_error (failingAs_of_error (onDisk_of_error filled))]
      exact .stuck made'
    | ok _ d' =>
      rw [after_of_ok filled] at made'
      rw [bind_of_ok (failingAs_of_ok (onDisk_of_ok filled))]
      obtain ⟨root, reach, short, isDir⟩ :=
        Disk.hasDirectory_iff.mp (Disk.hasDirectory_of_makeDirectories ne filled)
      exact .poured made' reach isDir short rfl

end LayeredTree.Staging
