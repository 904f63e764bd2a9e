import LayeredTree.Patch.Merge
import LayeredTree.Proofs.Runs

set_option autoImplicit false

namespace LayeredTree.World

variable {ε ε' α β : Type} {w w' v v' : World}

/-- Two worlds that differ at most in what was told. -/
structure Alike (w w' : World) : Prop where
  disk : w.disk = w'.disk
  environment : w.environment = w'.environment
  now : w.now = w'.now
  serial : w.serial = w'.serial

theorem Alike.refl (w : World) : Alike w w := ⟨rfl, rfl, rfl, rfl⟩

theorem Alike.symm (h : Alike w w') : Alike w' w :=
  ⟨h.disk.symm, h.environment.symm, h.now.symm, h.serial.symm⟩

theorem Alike.trans (h : Alike w w') (h' : Alike w' v) : Alike w v :=
  ⟨h.disk.trans h'.disk, h.environment.trans h'.environment, h.now.trans h'.now,
    h.serial.trans h'.serial⟩

inductive SameEnd : EStateM.Result ε World α → EStateM.Result ε World α → Prop
  | ok (a : α) {w w' : World} : Alike w w' → SameEnd (.ok a w) (.ok a w')
  | error (e : ε) {w w' : World} : Alike w w' → SameEnd (.error e w) (.error e w')

/-- The action does not see what was told. -/
def Blind (act : Action ε α) : Prop := ∀ w w', Alike w w' → SameEnd (act w) (act w')

theorem SameEnd.of_ok {a : α} {r : EStateM.Result ε World α} (h : SameEnd (.ok a v) r) :
    ∃ v', r = .ok a v' ∧ Alike v v' := by
  cases h with
  | ok _ like => exact ⟨_, rfl, like⟩

theorem SameEnd.of_error {e : ε} {r : EStateM.Result ε World α} (h : SameEnd (.error e v) r) :
    ∃ v', r = .error e v' ∧ Alike v v' := by
  cases h with
  | error _ like => exact ⟨_, rfl, like⟩

theorem Blind.of_ok {act : Action ε α} {a : α} (blind : Blind act) (like : Alike w w')
    (h : act w = .ok a v) : ∃ v', act w' = .ok a v' ∧ Alike v v' := by
  have same := blind w w' like
  rw [h] at same
  exact same.of_ok

theorem Blind.of_error {act : Action ε α} {e : ε} (blind : Blind act) (like : Alike w w')
    (h : act w = .error e v) : ∃ v', act w' = .error e v' ∧ Alike v v' := by
  have same := blind w w' like
  rw [h] at same
  exact same.of_error

theorem blind_pure (a : α) : Blind (pure a : Action ε α) := fun _ _ like => .ok a like

theorem blind_throw (e : ε) : Blind (throw e : Action ε α) := fun _ _ like => .error e like

theorem Blind.bind {act : Action ε α} {next : α → Action ε β} (h : Blind act)
    (h' : ∀ a, Blind (next a)) : Blind (act >>= next) := by
  intro w w' like
  cases e : act w with
  | ok a v =>
    obtain ⟨v', e', like'⟩ := h.of_ok like e
    rw [bind_of_ok e, bind_of_ok e']
    exact h' a _ _ like'
  | error fault v =>
    obtain ⟨v', e', like'⟩ := h.of_error like e
    rw [bind_of_error e, bind_of_error e']
    exact .error fault like'

theorem Blind.failingAs {widen : ε → ε'} {act : Action ε α} (h : Blind act) :
    Blind (failingAs widen act) := by
  intro w w' like
  cases e : act w with
  | ok a v =>
    obtain ⟨v', e', like'⟩ := h.of_ok like e
    rw [failingAs_of_ok e, failingAs_of_ok e']
    exact .ok a like'
  | error fault v =>
    obtain ⟨v', e', like'⟩ := h.of_error like e
    rw [failingAs_of_error e, failingAs_of_error e']
    exact .error _ like'

theorem Blind.outcome {act : Action ε α} (h : Blind act) :
    Blind (outcome act : Action ε' (Except ε α)) := by
  intro w w' like
  cases e : act w with
  | ok a v =>
    obtain ⟨v', e', like'⟩ := h.of_ok like e
    rw [outcome_of_ok e, outcome_of_ok e']
    exact .ok _ like'
  | error fault v =>
    obtain ⟨v', e', like'⟩ := h.of_error like e
    rw [outcome_of_error e, outcome_of_error e']
    exact .ok _ like'

theorem inside_of_ok {span : Span} {act : Action ε α} {a : α}
    (h : act { w with spans := w.spans ++ [span] } = .ok a v) :
    inside span act w = .ok a { v with spans := w.spans } := by
  simp [inside, h]

theorem inside_of_error {span : Span} {act : Action ε α} {e : ε}
    (h : act { w with spans := w.spans ++ [span] } = .error e v) :
    inside span act w = .error e { v with spans := w.spans } := by
  simp [inside, h]

theorem of_inside_ok {span : Span} {act : Action ε α} {a : α} (h : inside span act w = .ok a w') :
    ∃ v, act { w with spans := w.spans ++ [span] } = .ok a v ∧ w' = { v with spans := w.spans } := by
  unfold inside at h
  split at h
  · rename_i b v run
    cases h
    exact ⟨v, run, rfl⟩
  · cases h

theorem Alike.retold (h : Alike w w') (spans spans' : List Span) (journal journal' : List Event) :
    Alike { w with spans := spans, journal := journal }
      { w' with spans := spans', journal := journal' } :=
  ⟨h.disk, h.environment, h.now, h.serial⟩

theorem exists_inside_of_ok {span : Span} {act : Action ε α} {a : α} {goal : World}
    (h : ∃ v, act { w with spans := w.spans ++ [span] } = .ok a v ∧ Alike goal v) :
    ∃ v, inside span act w = .ok a v ∧ Alike goal v := by
  obtain ⟨v, run, like⟩ := h
  exact ⟨_, inside_of_ok run, like.trans ⟨rfl, rfl, rfl, rfl⟩⟩

theorem exists_inside_of_error {span : Span} {act : Action ε α} {e : ε} {goal : World}
    (h : ∃ v, act { w with spans := w.spans ++ [span] } = .error e v ∧ Alike goal v) :
    ∃ v, inside span act w = .error e v ∧ Alike goal v := by
  obtain ⟨v, run, like⟩ := h
  exact ⟨_, inside_of_error run, like.trans ⟨rfl, rfl, rfl, rfl⟩⟩

theorem Blind.inside {act : Action ε α} (h : Blind act) (span : Span) :
    Blind (inside span act) := by
  intro w w' like
  have entered := like.retold (w.spans ++ [span]) (w'.spans ++ [span]) w.journal w'.journal
  cases e : act { w with spans := w.spans ++ [span] } with
  | ok a v =>
    obtain ⟨v', e', like'⟩ := h.of_ok entered e
    rw [inside_of_ok e, inside_of_ok e']
    exact .ok a (like'.retold ..)
  | error fault v =>
    obtain ⟨v', e', like'⟩ := h.of_error entered e
    rw [inside_of_error e, inside_of_error e']
    exact .error fault (like'.retold ..)

theorem blind_note (level : Level) (origin message : String)
    (fields : List (String × FieldValue)) :
    Blind (note level origin message fields : Action ε Unit) := fun _ _ like =>
  .ok () (like.retold ..)

theorem blind_onDisk (request : DiskRequest α) : Blind (onDisk request) := by
  intro w w' like
  have after : ∀ d, Alike { w with disk := d } { w' with disk := d } := fun d =>
    ⟨rfl, like.environment, like.now, like.serial⟩
  cases e : request w.disk with
  | ok a d =>
    rw [onDisk_of_ok e, onDisk_of_ok (like.disk ▸ e)]
    exact .ok a (after d)
  | error fault d =>
    rw [onDisk_of_error e, onDisk_of_error (like.disk ▸ e)]
    exact .error fault (after d)

theorem blind_onDiskAsk (question : Disk → Except ε α) : Blind (onDiskAsk question) := by
  intro w w' like
  cases e : question w.disk with
  | ok a =>
    rw [onDiskAsk_of_ok e, onDiskAsk_of_ok (like.disk ▸ e)]
    exact .ok a like
  | error fault =>
    rw [onDiskAsk_of_error e, onDiskAsk_of_error (like.disk ▸ e)]
    exact .error fault like

theorem blind_settle (result : Except ε α) : Blind (settle result) := by
  cases result with
  | ok a => exact blind_pure a
  | error fault => exact blind_throw fault

theorem blind_get {next : World → Action ε α} (h : ∀ w, Blind (next w))
    (same : ∀ {w w'}, Alike w w' → next w = next w') :
    Blind ((get : Action ε World) >>= next) := by
  intro w w' like
  rw [bind_of_ok (show (get : Action ε World) w = .ok w w from rfl),
    bind_of_ok (show (get : Action ε World) w' = .ok w' w' from rfl), ← same like]
  exact h w _ _ like

theorem blind_tryFresh (base : Path) (start : Bytes) (tries : Nat) :
    Blind (tryFresh base start tries) := by
  induction tries with
  | zero => exact blind_throw _
  | succ tries ih =>
    unfold tryFresh
    refine blind_get (fun w => Blind.bind ?_ fun _ => (blind_onDisk _).outcome.bind
      fun result => ?_) ?_
    · exact fun _ _ like => .ok () ⟨like.disk, like.environment, like.now, congrArg (· + 1) like.serial⟩
    · cases result with
      | ok => exact blind_pure _
      | error fault =>
        dsimp only
        split
        · exact ih
        · exact blind_throw _
    · intro w w' like
      rw [like.serial]

theorem blind_freshDirectory (base : Path) (start : Bytes) :
    Blind (freshDirectory base start) := by
  refine blind_get (fun w => blind_tryFresh _ _ _) ?_
  intro w w' like
  rw [like.disk]

end LayeredTree.World

namespace LayeredTree

open World

variable {w : World}

theorem Digest.compute_of_ok {root : Path} {digest : Digest} {files : Nat}
    (h : w.disk.digest root = .ok (digest, files)) :
    ∃ v, Digest.compute root w = .ok digest v ∧ Alike w v := by
  apply exists_inside_of_ok
  rw [bind_of_ok (onDiskAsk_of_ok h)]
  exact ⟨_, rfl, ⟨rfl, rfl, rfl, rfl⟩⟩

theorem Digest.compute_of_error {root : Path} {e : StorageError}
    (h : w.disk.digest root = .error e) :
    ∃ v, Digest.compute root w = .error e v ∧ Alike w v := by
  apply exists_inside_of_error
  exact ⟨_, bind_of_error (onDiskAsk_of_error h),
    ⟨rfl, rfl, rfl, rfl⟩⟩

theorem Digest.of_compute {root : Path} {digest : Digest} {v : World}
    (h : Digest.compute root w = .ok digest v) :
    (∃ files, w.disk.digest root = .ok (digest, files)) ∧ v.disk = w.disk := by
  obtain ⟨u, body, rfl⟩ := of_inside_ok h
  obtain ⟨⟨digest', files⟩, w₁, asked, told⟩ := bind_eq_ok_iff.mp body
  obtain ⟨found, rfl⟩ := onDiskAsk_eq_ok_iff.mp asked
  cases told
  exact ⟨⟨files, found⟩, rfl⟩

theorem PatchRecord.load_of_ok {patch : Path} {record : PatchRecord}
    (h : w.disk.record patch = .ok record) :
    ∃ v, PatchRecord.load patch w = .ok record v ∧ Alike w v :=
  ⟨_, bind_of_ok (onDiskAsk_of_ok h), ⟨rfl, rfl, rfl, rfl⟩⟩

theorem PatchRecord.load_of_error {patch : Path} {e : RecordError}
    (h : w.disk.record patch = .error e) : PatchRecord.load patch w = .error e w :=
  bind_of_error (onDiskAsk_of_error h)

theorem MergePlan.blind_write (root : Path) (files : KeyMap Source) :
    Blind (MergePlan.write root files) := by
  induction files with
  | nil => exact blind_pure ()
  | cons file rest ih =>
    obtain ⟨key, source⟩ := file
    unfold MergePlan.write
    have copied : Blind (failingAs (fun fault => StorageError.io
        (.copying source.path (Key.path root key) fault))
        (onDisk (Disk.copyFile source.path (Key.path root key)))) := (blind_onDisk _).failingAs
    dsimp only
    cases (Key.path root key).parent with
    | none => exact copied.bind fun _ => ih
    | some parent =>
      exact ((blind_onDisk (Disk.makeDirectories parent)).failingAs).bind fun _ =>
        copied.bind fun _ => ih

theorem Patch.blind_noteDropped (entries : List TreeEntry) : Blind (noteDropped entries) := by
  unfold noteDropped
  induction entries with
  | nil => exact blind_pure _
  | cons entry rest ih =>
    rw [List.forM_eq_forM, List.forM_cons]
    refine Blind.bind ?_ fun _ => ih
    cases entry with
    | file => exact blind_pure _
    | link => exact blind_note _ _ _ _

theorem Patch.blind_plan (before after : Path) (markers : List String) :
    Blind (plan before after markers) :=
  (blind_onDiskAsk _).failingAs.bind fun base => (blind_noteDropped base).bind fun _ =>
    (blind_onDiskAsk _).failingAs.bind fun _ => (blind_settle _).failingAs

theorem Patch.blind_mergeWith (mergeRoot before after : Path) (record : PatchRecord) :
    Blind (mergeWith mergeRoot before after record) := by
  refine ((blind_plan before after record.removed).bind fun plan =>
    ((blind_onDisk (Disk.makeDirectories mergeRoot)).failingAs).bind fun _ =>
      ((blind_freshDirectory mergeRoot mergedName).failingAs).bind fun output =>
        (MergePlan.blind_write output plan.files).outcome.bind fun result => ?_).inside _
  cases result with
  | ok => exact (blind_note _ _ _ _).bind fun _ => blind_pure output
  | error fault =>
    exact (blind_note _ _ _ _).bind fun _ => ((blind_onDisk _).outcome).bind fun _ => blind_throw _

end LayeredTree
