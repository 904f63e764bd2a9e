import LayeredTree.Combine.Combiner
import LayeredTree.Proofs.Blindness

set_option autoImplicit false

namespace LayeredTree

open World

variable {ε α : Type} {w v : World} {request : CombineRequest} {record record' : PatchRecord}
variable {declared : Digest} {fault : StorageError}

/-- The record of the patch, on this disk, is admitted to be merged onto the base. -/
structure CombineRequest.Admits (request : CombineRequest) (d : Disk) (record : PatchRecord) :
    Prop where
  given : request.before.isEmpty = false ∧ request.after.isEmpty = false
  present : d.hasEntry request.before = true ∧ d.hasEntry request.after = true
  recorded : d.record request.after = .ok record
  anchored : ∃ s, request.signature = some s ∧ record.previousSignature = some s
  extended : ∃ digest files, d.digest request.before = .ok (digest, files) ∧
    record.previousHash = some digest

theorem CombineRequest.Admits.unique {d : Disk} (h : request.Admits d record)
    (h' : request.Admits d record') : record = record' := by
  have same := h.recorded.symm.trans h'.recorded
  rw [Except.ok.injEq] at same
  exact same

/-- The action finds what is good, or fails where nothing is; it changes only what was told. -/
def Finds (w : World) (act : Action ε α) (good : α → Prop) : Prop :=
  (∃ a v, act w = .ok a v ∧ Alike w v ∧ good a) ∨
    ∃ e v, act w = .error e v ∧ Alike w v ∧ ∀ a, ¬ good a

namespace Combiner

theorem finds_checkPaths (request : CombineRequest) (w : World) :
    Finds w (checkPaths request) fun _ =>
      (request.before.isEmpty = false ∧ request.after.isEmpty = false) ∧
        w.disk.hasEntry request.before = true ∧ w.disk.hasEntry request.after = true := by
  have start : checkPaths request w =
      if request.before.isEmpty || request.after.isEmpty then
        .error (.invalidState .noPaths) w
      else if !w.disk.hasEntry request.before || !w.disk.hasEntry request.after then
        .error (.invalidState .pathMissing) w
      else .ok () w := by
    unfold checkPaths
    by_cases empty : (request.before.isEmpty || request.after.isEmpty) = true
    · rw [if_pos empty, if_pos empty]
      rfl
    · rw [if_neg empty, if_neg empty]
      dsimp only
      rw [bind_of_ok (show (get : Action CombineError World) w = .ok w w from rfl)]
      split
      · rfl
      · rfl
  rw [Finds, start]
  by_cases empty : (request.before.isEmpty || request.after.isEmpty) = true
  · right
    refine ⟨_, w, if_pos empty, .refl w, ?_⟩
    rintro - ⟨⟨before, after⟩, -⟩
    simp [before, after] at empty
  · rw [if_neg empty]
    simp only [Bool.or_eq_true, not_or, Bool.not_eq_true] at empty
    by_cases missing : (!w.disk.hasEntry request.before || !w.disk.hasEntry request.after) = true
    · right
      refine ⟨_, w, if_pos missing, .refl w, ?_⟩
      rintro - ⟨-, before, after⟩
      simp [before, after] at missing
    · left
      refine ⟨(), w, if_neg missing, .refl w, empty, ?_⟩
      simpa using missing

theorem finds_checkSignature (request : CombineRequest) (w : World) :
    Finds w (checkSignature request) fun record => w.disk.record request.after = .ok record ∧
      ∃ s, request.signature = some s ∧ record.previousSignature = some s := by
  unfold checkSignature
  cases hs : request.signature with
  | none =>
    right
    refine ⟨_, w, rfl, .refl w, ?_⟩
    rintro record ⟨-, s, h, -⟩
    cases h
  | some expected =>
    dsimp only
    cases hr : w.disk.record request.after with
    | error e =>
      right
      refine ⟨_, w, bind_of_error (failingAs_of_error (PatchRecord.load_of_error hr)), .refl w, ?_⟩
      rintro record ⟨h, -⟩
      cases h
    | ok record =>
      obtain ⟨v, load, like⟩ := PatchRecord.load_of_ok hr
      unfold Finds
      rw [bind_of_ok (failingAs_of_ok load)]
      cases hd : record.previousSignature with
      | none =>
        right
        refine ⟨_, v, rfl, like, ?_⟩
        rintro record' ⟨h, s, -, h'⟩
        cases h
        rw [hd] at h'
        cases h'
      | some declared =>
        dsimp only
        by_cases same : declared = expected
        · left
          subst same
          exact ⟨record, v, if_pos rfl ▸ rfl, like, rfl, declared, rfl, hd⟩
        · right
          rw [if_neg same]
          refine ⟨_, v, rfl, like, ?_⟩
          rintro record' ⟨h, s, h', h''⟩
          cases h
          cases h'
          rw [hd] at h''
          cases h''
          exact same rfl

theorem checkHash_of_error (some : record.previousHash = some declared)
    (failed : w.disk.digest request.before = .error fault) :
    ∃ v, checkHash request record w = .error (.storage fault) v ∧ Alike w v := by
  obtain ⟨v, computed, like⟩ := Digest.compute_of_error failed
  refine ⟨v, ?_, like⟩
  unfold checkHash
  rw [some]
  exact bind_of_error (failingAs_of_error computed)

theorem finds_checkHash (request : CombineRequest) (record : PatchRecord) (w : World) :
    Finds w (checkHash request record) fun _ => ∃ digest files,
      w.disk.digest request.before = .ok (digest, files) ∧ record.previousHash = some digest := by
  cases hh : record.previousHash with
  | none =>
    right
    unfold checkHash
    rw [hh]
    refine ⟨_, w, rfl, .refl w, ?_⟩
    rintro - ⟨digest, files, -, h⟩
    cases h
  | some declared =>
    cases hc : w.disk.digest request.before with
    | error e =>
      right
      obtain ⟨v, failed, like⟩ := checkHash_of_error hh hc
      refine ⟨_, v, failed, like, ?_⟩
      rintro - ⟨digest, files, h, -⟩
      cases h
    | ok found =>
      obtain ⟨actual, files⟩ := found
      obtain ⟨v, computed, like⟩ := Digest.compute_of_ok hc
      unfold Finds checkHash
      rw [hh]
      dsimp only
      rw [bind_of_ok (failingAs_of_ok computed)]
      by_cases same : actual.accepts declared.bytes = true
      · left
        rw [if_pos same]
        obtain rfl : declared = actual := by
          have bytes : actual.bytes = declared.bytes := by simpa [Digest.accepts] using same
          cases declared
          cases actual
          cases bytes
          rfl
        exact ⟨(), _, note_eq .., like.trans ⟨rfl, rfl, rfl, rfl⟩, _, _, rfl, rfl⟩
      · right
        rw [if_neg same]
        refine ⟨_, v, rfl, like, ?_⟩
        rintro - ⟨digest, files', h, h'⟩
        cases h
        cases h'
        simp [Digest.accepts] at same

theorem exists_atStage_eq (stage : CombineStage) (act : Action CombineError α) (w : World) :
    ∃ w', atStage stage act w = failingAs (fun e => (stage, e)) act w' ∧ Alike w w' :=
  ⟨_, bind_of_ok (note_eq ..), ⟨rfl, rfl, rfl, rfl⟩⟩

theorem finds_atStage {act : Action CombineError α} (good : Disk → α → Prop)
    (stage : CombineStage) (h : ∀ w', Finds w' act (good w'.disk)) (w : World) :
    (∃ a v, atStage stage act w = .ok a v ∧ Alike w v ∧ good w.disk a) ∨
      ∃ e v, atStage stage act w = .error (stage, e) v ∧ Alike w v ∧ ∀ a, ¬ good w.disk a := by
  obtain ⟨w', start, told⟩ := exists_atStage_eq stage act w
  rw [start, told.disk]
  rcases h w' with ⟨a, v, run, like, found⟩ | ⟨e, v, run, like, none⟩
  · exact .inl ⟨a, v, failingAs_of_ok run, told.trans like, found⟩
  · exact .inr ⟨e, v, failingAs_of_error run, told.trans like, none⟩

private theorem precheck_cases (request : CombineRequest) (w : World) :
    (∃ v, atStage .precheck (checkPaths request) w = .ok () v ∧ Alike w v ∧
      (request.before.isEmpty = false ∧ request.after.isEmpty = false) ∧
        w.disk.hasEntry request.before = true ∧ w.disk.hasEntry request.after = true) ∨
      ∃ e v, atStage .precheck (checkPaths request) w = .error (.precheck, e) v ∧ Alike w v ∧
        ¬ ((request.before.isEmpty = false ∧ request.after.isEmpty = false) ∧
          w.disk.hasEntry request.before = true ∧ w.disk.hasEntry request.after = true) := by
  rcases finds_atStage (fun d _ => (request.before.isEmpty = false ∧
      request.after.isEmpty = false) ∧ d.hasEntry request.before = true ∧
        d.hasEntry request.after = true) .precheck (finds_checkPaths request) w with
    ⟨⟨⟩, v, run, like, found⟩ | ⟨e, v, failed, like, none⟩
  · exact .inl ⟨v, run, like, found⟩
  · exact .inr ⟨e, v, failed, like, none ()⟩

private theorem validateSignature_cases (request : CombineRequest) (w : World) :
    (∃ record v, atStage .validateSignature (checkSignature request) w = .ok record v ∧
      Alike w v ∧ w.disk.record request.after = .ok record ∧
        ∃ s, request.signature = some s ∧ record.previousSignature = some s) ∨
      ∃ e v, atStage .validateSignature (checkSignature request) w =
          .error (.validateSignature, e) v ∧ Alike w v ∧
        ∀ record, ¬ (w.disk.record request.after = .ok record ∧
          ∃ s, request.signature = some s ∧ record.previousSignature = some s) :=
  finds_atStage (fun d record => d.record request.after = .ok record ∧
    ∃ s, request.signature = some s ∧ record.previousSignature = some s) .validateSignature
      (finds_checkSignature request) w

theorem pipeline_cases (c : Combiner) (w : World) :
    (∃ record v, c.request.Admits w.disk record ∧ Alike w v ∧
      c.pipeline w = failingAs (fun e => (.merge, e))
        (Patch.mergeWith c.mergeRoot c.request.before c.request.after record) v) ∨
    ((∀ record, ¬ c.request.Admits w.disk record) ∧
      ∃ stage e v, c.pipeline w = .error (stage, e) v ∧ Alike w v ∧ stage ≠ .merge) := by
  unfold pipeline
  rcases precheck_cases c.request w with
    ⟨w₁, paths, like₁, given, present⟩ | ⟨e, v, fault, like, none⟩
  · rw [bind_of_ok paths]
    rcases validateSignature_cases c.request w₁ with
      ⟨record, w₂, signed, like₂, recorded, anchored⟩ | ⟨e, v, fault, like, none⟩
    · rw [bind_of_ok signed]
      rcases finds_atStage (fun d _ => ∃ digest files,
          d.digest c.request.before = .ok (digest, files) ∧ record.previousHash = some digest)
            .validateHash (finds_checkHash c.request record) w₂ with
        ⟨⟨⟩, w₃, hashed, like₃, extended⟩ | ⟨e, v, fault, like, none⟩
      · left
        rw [← (like₁.trans like₂).disk] at extended
        rw [← like₁.disk] at recorded
        obtain ⟨w₄, merge, told⟩ := exists_atStage_eq .merge
          (Patch.mergeWith c.mergeRoot c.request.before c.request.after record) w₃
        refine ⟨record, w₄, ⟨given, present, recorded, anchored, extended⟩, ?_, ?_⟩
        · exact ((like₁.trans like₂).trans like₃).trans told
        · rw [bind_of_ok hashed, merge]
      · right
        refine ⟨fun record' admits => ?_, _, e, v, bind_of_error fault, ?_, nofun⟩
        · have same := recorded
          rw [← like₁.disk, admits.recorded] at same
          cases same
          exact none () ((like₁.trans like₂).disk ▸ admits.extended)
        · exact (like₁.trans like₂).trans like
    · right
      refine ⟨fun record admits => ?_, _, e, v, bind_of_error fault, like₁.trans like, nofun⟩
      exact none record ⟨like₁.disk ▸ admits.recorded, admits.anchored⟩
  · right
    refine ⟨fun record admits => none ⟨admits.given, admits.present⟩, ?_⟩
    exact ⟨_, e, v, bind_of_error fault, like, nofun⟩

theorem pipeline_of_undigested (c : Combiner)
    (given : c.request.before.isEmpty = false ∧ c.request.after.isEmpty = false)
    (present : w.disk.hasEntry c.request.before = true ∧ w.disk.hasEntry c.request.after = true)
    (recorded : w.disk.record c.request.after = .ok record)
    (anchored : ∃ s, c.request.signature = some s ∧ record.previousSignature = some s)
    (some : record.previousHash = some declared)
    (failed : w.disk.digest c.request.before = .error fault) :
    ∃ v, c.pipeline w = .error (.validateHash, .storage fault) v := by
  unfold pipeline
  rcases precheck_cases c.request w with ⟨w₁, paths, like₁, -⟩ | ⟨e, v, -, -, none⟩
  swap
  · exact absurd ⟨given, present⟩ none
  rw [bind_of_ok paths]
  rcases validateSignature_cases c.request w₁ with
    ⟨record', w₂, signed, like₂, recorded', -⟩ | ⟨e, v, -, -, none⟩
  swap
  · exact absurd ⟨like₁.disk ▸ recorded, anchored⟩ (none record)
  rw [← like₁.disk, recorded] at recorded'
  cases recorded'
  rw [bind_of_ok signed]
  obtain ⟨w₃, start, told⟩ :=
    exists_atStage_eq .validateHash (checkHash c.request record) w₂
  have same := ((like₁.trans like₂).trans told).disk
  obtain ⟨v, refused, -⟩ := checkHash_of_error some (same ▸ failed)
  exact ⟨v, bind_of_error (start.trans (failingAs_of_error refused))⟩

private theorem exists_combine_eq (c : Combiner) (first : c.stage = .start) (w : World) :
    ∃ w', Alike w w' ∧ match c.pipeline w' with
      | .ok p v => ∃ v', (c.combine : Action ε _) w =
          .ok (.ok p, { c with stage := .done, finalPath := some p }) v' ∧ Alike v v'
      | .error (_, e) v => ∃ v', (c.combine : Action ε _) w =
          .ok (.error e, { c with stage := .failed }) v' ∧ Alike v v' := by
  refine ⟨{ w with spans := w.spans ++ [c.span "combine"] }, ⟨rfl, rfl, rfl, rfl⟩, ?_⟩
  cases run : c.pipeline { w with spans := w.spans ++ [c.span "combine"] } with
  | ok p v =>
    apply exists_inside_of_ok
    rw [if_neg (not_not_intro first), bind_of_ok (outcome_of_ok run)]
    exact ⟨_, bind_of_ok (note_eq ..), ⟨rfl, rfl, rfl, rfl⟩⟩
  | error fault v =>
    obtain ⟨stage, e⟩ := fault
    apply exists_inside_of_ok
    rw [if_neg (not_not_intro first), bind_of_ok (outcome_of_error run)]
    exact ⟨_, bind_of_ok (note_eq ..), ⟨rfl, rfl, rfl, rfl⟩⟩

theorem combine_again {c : Combiner} (ran : c.stage ≠ .start) (w : World) :
    (c.combine : Action ε _) w = .ok (.error (.invalidState (.alreadyRan c.stage)), c) w := by
  refine inside_of_ok (v := { w with spans := w.spans ++ [c.span "combine"] }) ?_
  rw [if_pos ran]
  rfl

/-- A first combine merges what is admitted, on the disk as it was; if nothing is admitted the disk
stays as it was. -/
theorem combine_cases (c : Combiner) (first : c.stage = .start) (w : World) :
    ∃ result c' v, (c.combine : Action ε _) w = .ok (result, c') v ∧
      ((∃ record p v', c.request.Admits w.disk record ∧
          Patch.mergeWith c.mergeRoot c.request.before c.request.after record w = .ok p v' ∧
          result = .ok p ∧ c' = { c with stage := .done, finalPath := some p } ∧ Alike v' v) ∨
        (∃ record e v', c.request.Admits w.disk record ∧
          Patch.mergeWith c.mergeRoot c.request.before c.request.after record w = .error e v' ∧
          result = .error e ∧ c' = { c with stage := .failed } ∧ Alike v' v) ∨
        ((∀ record, ¬ c.request.Admits w.disk record) ∧
          ∃ e, result = .error e ∧ c' = { c with stage := .failed } ∧ Alike w v)) := by
  obtain ⟨w', like, run⟩ := exists_combine_eq (ε := ε) c first w
  rcases pipeline_cases c w' with ⟨record, w'', admits, like', merge⟩ | ⟨none, stage, e, v, fault,
    like', -⟩
  · rw [← like.disk] at admits
    have same := (Patch.blind_mergeWith c.mergeRoot c.request.before c.request.after record)
      w'' w (like.trans like').symm
    rw [merge] at run
    cases ends : Patch.mergeWith c.mergeRoot c.request.before c.request.after record w'' with
    | ok p v =>
      rw [failingAs_of_ok ends] at run
      obtain ⟨v', run, told⟩ := run
      rw [ends] at same
      obtain ⟨v'', merge', left⟩ := same.of_ok
      exact ⟨_, _, v', run, .inl ⟨record, p, v'', admits, merge', rfl, rfl, left.symm.trans told⟩⟩
    | error e v =>
      rw [failingAs_of_error ends] at run
      obtain ⟨v', run, told⟩ := run
      rw [ends] at same
      obtain ⟨v'', merge', left⟩ := same.of_error
      exact ⟨_, _, v', run, .inr (.inl
        ⟨record, e, v'', admits, merge', rfl, rfl, left.symm.trans told⟩)⟩
  · rw [← like.disk] at none
    rw [fault] at run
    obtain ⟨v', run, told⟩ := run
    exact ⟨_, _, v', run, .inr (.inr ⟨none, e, rfl, rfl, (like.trans like').trans told⟩)⟩

theorem combine_of_undigested (c : Combiner) (first : c.stage = .start)
    (given : c.request.before.isEmpty = false ∧ c.request.after.isEmpty = false)
    (present : w.disk.hasEntry c.request.before = true ∧ w.disk.hasEntry c.request.after = true)
    (recorded : w.disk.record c.request.after = .ok record)
    (anchored : ∃ s, c.request.signature = some s ∧ record.previousSignature = some s)
    (some : record.previousHash = some declared)
    (failed : w.disk.digest c.request.before = .error fault) : ∃ v,
      (c.combine : Action ε _) w =
        .ok (.error (.storage fault), { c with stage := .failed }) v := by
  obtain ⟨w', like, run⟩ := exists_combine_eq (ε := ε) c first w
  rw [like.disk] at present recorded failed
  obtain ⟨v, refused⟩ := pipeline_of_undigested c given present recorded anchored some failed
  rw [refused] at run
  obtain ⟨v', run, -⟩ := run
  exact ⟨v', run⟩

theorem combine_of_merged (c : Combiner) (first : c.stage = .start) {p : Path} {merged : World}
    (admits : c.request.Admits w.disk record)
    (merge : Patch.mergeWith c.mergeRoot c.request.before c.request.after record w = .ok p merged) :
    ∃ c' v, (c.combine : Action ε _) w = .ok (.ok p, c') v ∧ Alike merged v := by
  obtain ⟨result, c', v, run, cases⟩ := combine_cases (ε := ε) c first w
  rcases cases with ⟨record', p', v', admits', merge', rfl, -, like⟩ |
    ⟨record', e, v', admits', merge', -⟩ | ⟨none, -⟩
  · cases CombineRequest.Admits.unique admits' admits
    cases merge'.symm.trans merge
    exact ⟨c', v, run, like⟩
  · cases CombineRequest.Admits.unique admits' admits
    cases merge'.symm.trans merge
  · exact absurd admits (none record)

/-- The first run of a combiner answers with a path exactly where a record is admitted and its
merge onto the base, on the disk as it was, answers with that path. It leaves what the merge
leaves. If nothing is admitted the disk is as it was, and after an error there is no result. -/
theorem combine_enforces_ancestry (request : CombineRequest) (mergeRoot : Path)
    (policy : PathPolicy) (w : World) : ∃ result c v,
      ((withPolicy request mergeRoot policy).combine : Action ε _) w = .ok (result, c) v ∧
      (∀ p, result = .ok p ↔ ∃ record v', request.Admits w.disk record ∧
        Patch.mergeWith mergeRoot request.before request.after record w = .ok p v' ∧
          v.disk = v'.disk) ∧
      match result with
      | .ok p => c.stage = .done ∧ c.finalPath = some p
      | .error e => c.stage = .failed ∧ c.finalPath = none ∧
        ((∀ record, ¬ request.Admits w.disk record) ∧ v.disk = w.disk ∨
          ∃ record v', request.Admits w.disk record ∧
            Patch.mergeWith mergeRoot request.before request.after record w = .error e v' ∧
              v.disk = v'.disk) := by
  obtain ⟨result, c, v, run, cases⟩ :=
    combine_cases (ε := ε) (withPolicy request mergeRoot policy) rfl w
  refine ⟨result, c, v, run, ?_⟩
  rcases cases with ⟨record, p, v', admits, merge, rfl, rfl, like⟩ |
    ⟨record, e, v', admits, merge, rfl, rfl, like⟩ | ⟨none, e, rfl, rfl, like⟩
  · refine ⟨fun q => ⟨?_, ?_⟩, rfl, rfl⟩
    · intro h
      cases h
      exact ⟨record, v', admits, merge, like.disk.symm⟩
    · rintro ⟨record', v'', admits', merge', -⟩
      rw [CombineRequest.Admits.unique admits' admits] at merge'
      cases merge.symm.trans merge'
      rfl
  · refine ⟨fun q => ⟨nofun, ?_⟩, rfl, rfl, .inr ⟨record, v', admits, merge, like.disk.symm⟩⟩
    rintro ⟨record', v'', admits', merge', -⟩
    rw [CombineRequest.Admits.unique admits' admits] at merge'
    cases merge.symm.trans merge'
  · refine ⟨fun q => ⟨nofun, ?_⟩, rfl, rfl, .inl ⟨none, like.disk.symm⟩⟩
    rintro ⟨record, -, admits, -⟩
    exact absurd admits (none record)

end Combiner
end LayeredTree
