import Mathlib.Tactic.Common
import LayeredTree.World

set_option autoImplicit false

namespace LayeredTree

variable {ε ε' σ α β : Type}

/-- The state that a run leaves, whether it answers or fails. -/
def after (act : EStateM ε σ α) (s : σ) : σ :=
  match act s with
  | .ok _ s' => s'
  | .error _ s' => s'

theorem after_of_ok {act : EStateM ε σ α} {s s' : σ} {a : α} (h : act s = .ok a s') :
    after act s = s' := by
  simp [after, h]

theorem after_of_error {act : EStateM ε σ α} {s s' : σ} {e : ε} (h : act s = .error e s') :
    after act s = s' := by
  simp [after, h]

theorem run'_of_ok {act : EStateM ε σ α} {s s' : σ} {a : α} (h : act s = .ok a s') :
    act.run' s = some a := by
  have run : act.run' s = (fun result => EStateM.run' (fun _ => result) s) (act s) := rfl
  rw [run, h]
  rfl

theorem run'_of_error {act : EStateM ε σ α} {s s' : σ} {e : ε} (h : act s = .error e s') :
    act.run' s = none := by
  have run : act.run' s = (fun result => EStateM.run' (fun _ => result) s) (act s) := rfl
  rw [run, h]
  rfl

theorem bind_of_ok {x : EStateM ε σ α} {f : α → EStateM ε σ β} {s s' : σ} {a : α}
    (h : x s = .ok a s') : (x >>= f) s = f a s' := by
  change EStateM.bind x f s = _
  rw [EStateM.bind, h]

theorem bind_of_error {x : EStateM ε σ α} {f : α → EStateM ε σ β} {s s' : σ} {e : ε}
    (h : x s = .error e s') : (x >>= f) s = .error e s' := by
  change EStateM.bind x f s = _
  rw [EStateM.bind, h]

theorem after_bind_of_ok {x : EStateM ε σ α} {f : α → EStateM ε σ β} {s s' : σ} {a : α}
    (h : x s = .ok a s') : after (x >>= f) s = after (f a) s' := by
  unfold after
  rw [bind_of_ok h]

theorem bind_eq_ok_iff {x : EStateM ε σ α} {f : α → EStateM ε σ β} {s s'' : σ} {b : β} :
    (x >>= f) s = .ok b s'' ↔ ∃ a s', x s = .ok a s' ∧ f a s' = .ok b s'' := by
  cases h : x s with
  | ok a s' => simp [bind_of_ok h]
  | error e s' => simp [bind_of_error h]

namespace Disk

variable {d d' : Disk}

theorem ask_of_ok {question : Disk → Except IoFault α} {a : α} (h : question d = .ok a) :
    ask question d = .ok a d := by
  unfold ask
  rw [bind_of_ok (show (get : DiskRequest Disk) d = .ok d d from rfl), h]
  rfl

theorem ask_of_error {question : Disk → Except IoFault α} {fault : IoFault}
    (h : question d = .error fault) : ask question d = .error fault d := by
  unfold ask
  rw [bind_of_ok (show (get : DiskRequest Disk) d = .ok d d from rfl), h]
  rfl

theorem ask_eq_ok_iff {question : Disk → Except IoFault α} {a : α} :
    ask question d = .ok a d' ↔ question d = .ok a ∧ d' = d := by
  cases h : question d with
  | ok b =>
    rw [ask_of_ok h]
    simp [eq_comm]
  | error fault =>
    rw [ask_of_error h]
    simp

end Disk

namespace World

variable {w w' : World}

theorem onDisk_of_ok {request : DiskRequest α} {a : α} {d : Disk}
    (h : request w.disk = .ok a d) : onDisk request w = .ok a { w with disk := d } := by
  simp [onDisk, h]

theorem onDisk_of_error {request : DiskRequest α} {fault : IoFault} {d : Disk}
    (h : request w.disk = .error fault d) :
    onDisk request w = .error fault { w with disk := d } := by
  simp [onDisk, h]

theorem onDisk_eq_ok_iff {request : DiskRequest α} {a : α} : onDisk request w = .ok a w' ↔
    ∃ d, request w.disk = .ok a d ∧ w' = { w with disk := d } := by
  cases h : request w.disk with
  | ok b d =>
    rw [onDisk_of_ok h]
    simp only [EStateM.Result.ok.injEq]
    exact ⟨fun ⟨e, e'⟩ => ⟨d, ⟨e, rfl⟩, e'.symm⟩, fun ⟨d', ⟨e, e'⟩, h⟩ => ⟨e, by rw [h, e']⟩⟩
  | error fault d =>
    rw [onDisk_of_error h]
    simp

@[simp] theorem after_onDisk (request : DiskRequest α) :
    after (onDisk request) w = { w with disk := after request w.disk } := by
  unfold after onDisk
  cases request w.disk <;> rfl

theorem onDiskAsk_of_ok {question : Disk → Except ε α} {a : α} (h : question w.disk = .ok a) :
    onDiskAsk question w = .ok a w := by
  simp [onDiskAsk, h]

theorem onDiskAsk_of_error {question : Disk → Except ε α} {e : ε}
    (h : question w.disk = .error e) : onDiskAsk question w = .error e w := by
  simp [onDiskAsk, h]

theorem onDiskAsk_eq_ok_iff {question : Disk → Except ε α} {a : α} :
    onDiskAsk question w = .ok a w' ↔ question w.disk = .ok a ∧ w' = w := by
  cases h : question w.disk with
  | ok b =>
    rw [onDiskAsk_of_ok h]
    simp [eq_comm]
  | error e =>
    rw [onDiskAsk_of_error h]
    simp

theorem outcome_of_ok {act : Action ε α} {a : α} (h : act w = .ok a w') :
    (outcome act : Action ε' _) w = .ok (.ok a) w' := by
  simp [outcome, h]

theorem outcome_of_error {act : Action ε α} {e : ε} (h : act w = .error e w') :
    (outcome act : Action ε' _) w = .ok (.error e) w' := by
  simp [outcome, h]

theorem outcome_eq (act : Action ε α) : ∃ result : Except ε α,
    (outcome act : Action ε' _) w = .ok result (after act w) := by
  cases h : act w with
  | ok a w' => exact ⟨.ok a, by rw [outcome_of_ok h, after_of_ok h]⟩
  | error e w' => exact ⟨.error e, by rw [outcome_of_error h, after_of_error h]⟩

theorem note_eq (level : Level) (origin message : String) (fields : List (String × FieldValue)) :
    (note level origin message fields : Action ε Unit) w =
      .ok () { w with journal := w.journal ++ [⟨level, origin, message, fields, w.spans⟩] } := rfl

@[simp] theorem disk_after_note (level : Level) (origin message : String)
    (fields : List (String × FieldValue)) :
    (after (note level origin message fields : Action ε Unit) w).disk = w.disk := rfl

@[simp] theorem disk_after_pure (a : α) : (after (pure a : Action ε α) w).disk = w.disk := rfl

theorem failingAs_of_ok {widen : ε → ε'} {act : Action ε α} {a : α} (h : act w = .ok a w') :
    failingAs widen act w = .ok a w' := by
  simp [failingAs, EStateM.adaptExcept, h]

theorem failingAs_of_error {widen : ε → ε'} {act : Action ε α} {e : ε}
    (h : act w = .error e w') : failingAs widen act w = .error (widen e) w' := by
  simp [failingAs, EStateM.adaptExcept, h]

theorem failingAs_eq_ok_iff {widen : ε → ε'} {act : Action ε α} {a : α} :
    failingAs widen act w = .ok a w' ↔ act w = .ok a w' := by
  cases h : act w with
  | ok b w'' => simp [failingAs_of_ok h]
  | error e w'' => simp [failingAs_of_error h]

@[simp] theorem after_failingAs (widen : ε → ε') (act : Action ε α) :
    after (failingAs widen act) w = after act w := by
  cases h : act w with
  | ok a w' => rw [after_of_ok h, after_of_ok (failingAs_of_ok h)]
  | error e w' => rw [after_of_error h, after_of_error (failingAs_of_error h)]

@[simp] theorem after_onDiskAsk (question : Disk → Except ε α) :
    after (onDiskAsk question) w = w := by
  cases h : question w.disk with
  | ok a => rw [after_of_ok (onDiskAsk_of_ok h)]
  | error e => rw [after_of_error (onDiskAsk_of_error h)]

/-- A world with nothing but these entries on its disk. Their places are spelled as paths. -/
def holding (entries : List (Bytes × Node)) : World where
  disk := entries.foldl
    (fun d entry => d.plant ((Bytes.splitOn slash entry.1).filterMap Name.ofBytes?) entry.2)
    Disk.empty
  environment := []
  now := default
  serial := 0
  spans := []
  journal := []

end World
end LayeredTree
