import LayeredTree.Proofs.Chain.Links
import LayeredTree.Proofs.Resource.Locking

/-!
Whole chains. However many patches follow a snapshot, each authored against the version before, what
is built from them has the content of the last version.
-/

set_option autoImplicit false

namespace LayeredTree

open World

variable {ε : Type} {w : World}

namespace Chain

variable {area : WorkArea} {temp top base loc : Location} {taken : List Name} {d d' : Disk}
variable {old new last : KeyMap Bytes} {signature : Signature}
variable {patches : List (Location × Signature)}

/-- Patch after patch leads from one content to the last. Each extends the version before under the
signature that this one was published with. -/
inductive Follows (link : Location → Signature → KeyMap Bytes → KeyMap Bytes → Prop) :
    KeyMap Bytes → Signature → List (Location × Signature) → KeyMap Bytes → Prop
  | nil (content : KeyMap Bytes) (signature : Signature) : Follows link content signature [] content
  | cons {loc : Location} {signature own : Signature} {old new last : KeyMap Bytes}
      {patches : List (Location × Signature)} : link loc signature old new →
      Follows link new own patches last → Follows link old signature ((loc, own) :: patches) last

theorem Follows.imp {link link' : Location → Signature → KeyMap Bytes → KeyMap Bytes → Prop}
    (h : Follows link old signature patches last)
    (step : ∀ patch ∈ patches, ∀ s m m', link patch.1 s m m' → link' patch.1 s m m') :
    Follows link' old signature patches last := by
  induction h with
  | nil content signature => exact .nil content signature
  | cons first rest ih =>
    refine .cons (step _ List.mem_cons_self _ _ _ first) (ih fun patch hm => ?_)
    exact step patch (List.mem_cons_of_mem _ hm)

theorem Follows.linked {link : Location → Signature → KeyMap Bytes → KeyMap Bytes → Prop}
    (h : Follows link old signature patches last) :
    ∀ patch ∈ patches, ∃ s m m', link patch.1 s m m' := by
  induction h with
  | nil content signature => nofun
  | cons first rest ih =>
    intro patch hm
    rcases List.mem_cons.mp hm with rfl | hm
    · exact ⟨_, _, _, first⟩
    · exact ih patch hm

/-- A patch, by its place and the signature it was published with. -/
def patchAt (patch : Location × Signature) : Layer := ⟨.patch, patch.2, Location.path patch.1⟩

/-- A patch there links the old content to the new one. -/
def Linked (d : Disk) (area : WorkArea) (loc : Location) (signature : Signature)
    (old new : KeyMap Bytes) : Prop :=
  ∃ removed time, Extends d area loc signature old new removed time

theorem Linked.congr (h : Linked d area loc signature old new)
    (same : ∀ names, d'.get? (loc ++ names) = d.get? (loc ++ names)) :
    Linked d' area loc signature old new := by
  obtain ⟨removed, time, link⟩ := h
  exact ⟨removed, time, { link with lies := link.lies.congr same }⟩

theorem Follows.isDirectory (h : Follows (Linked d area) old signature patches last) :
    ∀ layer ∈ patches.map Prod.fst, d.IsDirectory layer := by
  intro layer hm
  obtain ⟨patch, listed, rfl⟩ := List.mem_map.mp hm
  obtain ⟨_, _, _, _, _, link⟩ := h.linked patch listed
  exact link.lies.hosts.isDirectory

theorem Follows.congr (h : Follows (Linked d area) old signature patches last)
    (same : ∀ layer ∈ patches.map Prod.fst, ∀ names,
      d'.get? (layer ++ names) = d.get? (layer ++ names)) :
    Follows (Linked d' area) old signature patches last :=
  h.imp fun _ hm _ _ _ link => link.congr (same _ (List.mem_map_of_mem hm))

theorem fold_of_ok {current next : Path} {own : Signature} {c : Combiner} {v : World}
    (run : ((Combiner.inArea ⟨current, Location.path loc, some signature⟩ area).runScoped :
      Action CombineError _) w = .ok (.ok next, c) v) (rest : List Layer) :
    fold area current signature (patchAt (loc, own) :: rest) w = fold area next own rest v := by
  rw [fold]
  exact bind_of_ok run

theorem fold_of_error {current : Path} {own : Signature} {c : Combiner} {v : World}
    {e : CombineError}
    (run : ((Combiner.inArea ⟨current, Location.path loc, some signature⟩ area).runScoped :
      Action CombineError _) w = .ok (.error e, c) v) (rest : List Layer) :
    fold area current signature (patchAt (loc, own) :: rest) w = .error e v := by
  rw [fold]
  exact (bind_of_ok run).trans rfl

theorem fold_of_undigested (area : WorkArea) {current : Path} {record : PatchRecord}
    {declared : Digest} {fault : StorageError}
    (given : current.isEmpty = false ∧ (Location.path loc).isEmpty = false)
    (present : w.disk.hasEntry current = true ∧ w.disk.hasEntry (Location.path loc) = true)
    (recorded : w.disk.record (Location.path loc) = .ok record)
    (anchored : record.previousSignature = some signature)
    (some : record.previousHash = some declared)
    (failed : w.disk.digest current = .error fault) (own : Signature) (rest : List Layer) :
    ∃ v, fold area current signature (patchAt (loc, own) :: rest) w =
      .error (.storage fault) v := by
  obtain ⟨u, run⟩ := Combiner.combine_of_undigested (ε := CombineError)
    (Combiner.inArea ⟨current, Location.path loc, Option.some signature⟩ area) rfl given present
      recorded ⟨signature, rfl, anchored⟩ some failed
  obtain ⟨u', v, ended, -⟩ := Combiner.runScoped_of_combine _ run rfl
  exact ⟨v, fold_of_error ended rest⟩

theorem fold_run {d₀ : Disk} {lost : Location → Prop} {current : Path}
    (stage : Stage d₀ lost w.disk area temp top taken current base old)
    (follows : Follows (Linked w.disk area) old signature patches last)
    (apart : (base :: patches.map Prod.fst).Pairwise Location.Disjoint)
    (off : ∀ patch ∈ patches, ¬ patch.1 <+: top)
    (spent : ∀ patch ∈ patches, ∀ other,
      patch.1 <+: other ∨ other = patch.1.dropLast → lost other)
    (few : taken.length + patches.length ≤ 62 ^ World.freshWidth) : ∃ p v,
      fold area current signature (patches.map patchAt) w = .ok p v ∧
        v.disk.contents p = .ok last := by
  induction patches generalizing w taken current base old signature with
  | nil =>
    cases follows
    exact ⟨current, w, rfl, stage.contents⟩
  | cons patch patches ih =>
    obtain ⟨loc, own⟩ := patch
    cases follows with
    | @cons _ _ _ _ new _ _ first rest =>
    rw [List.map_cons, List.pairwise_cons, List.pairwise_cons] at apart
    obtain ⟨fromBase, fromLoc, others⟩ := apart
    obtain ⟨removed, time, link⟩ := first
    have few' : taken.length < 62 ^ World.freshWidth := by
      rw [List.length_cons] at few
      omega
    obtain ⟨n, c, v, run, stage', kept⟩ := stage.link_run (ε := CombineError) few'
      (off _ List.mem_cons_self) (spent _ List.mem_cons_self)
      (fromBase loc List.mem_cons_self) link
    have off' : ∀ patch ∈ patches, ¬ patch.1 <+: top :=
      fun patch hm => off patch (List.mem_cons_of_mem _ hm)
    have later : ∀ layer ∈ patches.map Prod.fst, (top ++ [Patch.mergedChild n]).Disjoint layer ∧
        ∀ names, v.disk.get? (layer ++ names) = w.disk.get? (layer ++ names) := by
      intro layer hm
      obtain ⟨patch, listed, rfl⟩ := List.mem_map.mp hm
      exact kept _ (rest.isDirectory _ hm) (off' patch listed)
        (fromBase _ (List.mem_cons_of_mem _ hm)) (fromLoc _ hm)
    have rest' : Follows (Linked v.disk area) new own patches last :=
      rest.congr fun layer hm => (later layer hm).2
    have apart' : ((top ++ [Patch.mergedChild n]) ::
        patches.map Prod.fst).Pairwise Location.Disjoint :=
      List.pairwise_cons.mpr ⟨fun layer hm => (later layer hm).1, others⟩
    have few'' : (Patch.mergedChild n :: taken).length + patches.length ≤
        62 ^ World.freshWidth := by
      rw [List.length_cons] at few ⊢
      omega
    obtain ⟨p, v', run', content⟩ := ih stage' rest' apart' off'
      (fun patch hm => spent patch (List.mem_cons_of_mem _ hm)) few''
    refine ⟨p, v', ?_, content⟩
    rw [List.map_cons, fold_of_ok run, run']

/-- One snapshot with patches after it. -/
def IsChain (layers : List Layer) : Prop :=
  ∃ first rest, layers = first :: rest ∧ first.kind = .snapshot ∧ ∀ layer ∈ rest, layer.kind = .patch

theorem lateSnapshot?_eq_none_iff {position : Nat} {layers : List Layer} :
    lateSnapshot? position layers = none ↔ ∀ layer ∈ layers, layer.kind = .patch := by
  induction layers generalizing position with
  | nil => exact ⟨fun _ => nofun, fun _ => rfl⟩
  | cons layer rest ih =>
    rw [lateSnapshot?, List.forall_mem_cons, ← @ih (position + 1)]
    cases layer.kind with
    | snapshot => simp
    | patch => simp

theorem shape_cases (resource : ResourceId) (layers : List Layer) :
    (∃ first rest, shape resource layers = .ok (first, rest) ∧ layers = first :: rest ∧
      first.kind = .snapshot ∧ ∀ layer ∈ rest, layer.kind = .patch) ∨
    ¬ IsChain layers ∧ ∃ fault, shape resource layers = .error fault := by
  cases layers with
  | nil =>
    refine .inr ⟨?_, _, rfl⟩
    rintro ⟨first, rest, e, -⟩
    cases e
  | cons first rest =>
    by_cases top : first.kind = .snapshot
    · cases late : lateSnapshot? 1 rest with
      | none =>
        refine .inl ⟨first, rest, ?_, rfl, top, lateSnapshot?_eq_none_iff.mp late⟩
        rw [shape, if_neg (not_not_intro top), late]
      | some position =>
        refine .inr ⟨?_, .lateSnapshot position resource, ?_⟩
        · rintro ⟨first', rest', e, -, all⟩
          cases e
          rw [lateSnapshot?_eq_none_iff.mpr all] at late
          cases late
        · rw [shape, if_neg (not_not_intro top), late]
    · refine .inr ⟨?_, .noSnapshotFirst resource, if_pos top⟩
      rintro ⟨first', rest', e, top', -⟩
      cases e
      exact top top'

theorem assemble_cases (area : WorkArea) (first : Layer) (rest : List Layer) (w : World) :
    ∃ u, u.disk = w.disk ∧
      ((∃ p u' v, fold area first.path first.signature rest u = .ok p u' ∧
          assemble area first rest w = .ok p v ∧ v.disk = u'.disk) ∨
        ∃ e u', fold area first.path first.signature rest u = .error e u' ∧
          assemble area first rest w = .error e u') := by
  let told : World := { w with journal := w.journal ++
    [⟨.debug, origin, "Acquired resource lock", [], w.spans⟩] }
  have noted : (World.note .debug origin "Acquired resource lock" [] : Action CombineError Unit) w =
      .ok () told := rfl
  refine ⟨told, rfl, ?_⟩
  unfold assemble
  rw [bind_of_ok noted]
  cases run : fold area first.path first.signature rest told with
  | ok p u' => exact .inl ⟨p, u', _, rfl, bind_of_ok run, rfl⟩
  | error e u' => exact .inr ⟨e, u', rfl, bind_of_error run⟩

/-- A build is a fold, unless the layers are no chain or the lock is held. It gives back the lock
that it took. -/
theorem build_cases (area : WorkArea) (resource : ResourceId) (layers : List Layer)
    (locks : ResourceLocks) (w : World) : ∃ answer locks' v,
      (build area resource layers locks : Action ε _) w = .ok (answer, locks') v ∧
      ((∃ fault, shape resource layers = .error fault ∧
          answer = some (.error (.invalidState fault)) ∧ locks' = locks ∧ v.disk = w.disk) ∨
        ((∃ parts, shape resource layers = .ok parts) ∧
          (∃ lock, locks.get? resource = some lock ∧ lock.held = true) ∧ answer = none ∧
            locks' = locks ∧ v.disk = w.disk) ∨
        ∃ first rest u u', shape resource layers = .ok (first, rest) ∧ u.disk = w.disk ∧
          v.disk = u'.disk ∧
          (∃ guard taken, locks.lock resource = some (guard, taken) ∧
            locks' = taken.release guard) ∧
          ((∃ p, fold area first.path first.signature rest u = .ok p u' ∧ answer = some (.ok p)) ∨
            ∃ e, fold area first.path first.signature rest u = .error e u' ∧
              answer = some (.error e))) := by
  let opened : World := { w with spans := w.spans ++ [⟨origin, "build",
    [("resource", .shown resource.text), ("layers", .count layers.length)]⟩] }
  cases hs : shape resource layers with
  | error fault =>
    refine ⟨_, locks, _, inside_of_ok (v := opened) ?_, .inl ⟨fault, rfl, rfl, rfl, rfl⟩⟩
    rw [hs]
    rfl
  | ok parts =>
    obtain ⟨first, rest⟩ := parts
    cases locked : locks.lock resource with
    | none =>
      refine ⟨none, locks, _, inside_of_ok (v := opened) ?_,
        .inr (.inl ⟨⟨_, rfl⟩, ResourceLocks.lock_eq_none_iff.mp locked, rfl, rfl, rfl⟩)⟩
      rw [hs]
      dsimp only
      rw [locked]
      rfl
    | some held =>
      obtain ⟨guard, taken⟩ := held
      obtain ⟨u, same, ⟨p, u', v, run, assembled, same'⟩ | ⟨e, u', run, assembled⟩⟩ :=
        assemble_cases area first rest opened
      · refine ⟨some (.ok p), taken.release guard, _, inside_of_ok (v := v) ?_,
          .inr (.inr ⟨first, rest, u, u', rfl, same, same', ⟨_, _, rfl, rfl⟩,
            .inl ⟨p, run, rfl⟩⟩)⟩
        rw [hs]
        dsimp only
        rw [locked]
        dsimp only
        exact bind_of_ok (outcome_of_ok assembled)
      · refine ⟨some (.error e), taken.release guard, _, inside_of_ok (v := u') ?_,
          .inr (.inr ⟨first, rest, u, u', rfl, same, rfl, ⟨_, _, rfl, rfl⟩,
            .inr ⟨e, run, rfl⟩⟩)⟩
        rw [hs]
        dsimp only
        rw [locked]
        dsimp only
        exact bind_of_ok (outcome_of_error assembled)

theorem build_run {d₀ : Disk} {lost : Location → Prop}
    (stage : Stage d₀ lost w.disk area temp top taken (Location.path base) base old)
    (follows : Follows (Linked w.disk area) old signature patches last)
    (apart : (base :: patches.map Prod.fst).Pairwise Location.Disjoint)
    (off : ∀ patch ∈ patches, ¬ patch.1 <+: top)
    (spent : ∀ patch ∈ patches, ∀ other,
      patch.1 <+: other ∨ other = patch.1.dropLast → lost other)
    (few : taken.length + patches.length ≤ 62 ^ World.freshWidth)
    (resource : ResourceId) {locks : ResourceLocks}
    (free : ∀ lock, locks.get? resource = some lock → lock.held = false) : ∃ p locks' v,
      (build area resource (⟨.snapshot, signature, Location.path base⟩ :: patches.map patchAt)
        locks : Action ε _) w = .ok (some (.ok p), locks') v ∧ v.disk.contents p = .ok last := by
  have shaped : shape resource (⟨.snapshot, signature, Location.path base⟩ ::
      patches.map patchAt) = .ok (⟨.snapshot, signature, Location.path base⟩,
        patches.map patchAt) := by
    have late : lateSnapshot? 1 (patches.map patchAt) = none := by
      refine lateSnapshot?_eq_none_iff.mpr fun layer hm => ?_
      obtain ⟨patch, -, rfl⟩ := List.mem_map.mp hm
      rfl
    rw [shape, if_neg (by simp), late]
  obtain ⟨answer, locks', v, run, ends⟩ := build_cases (ε := ε) area resource
    (⟨.snapshot, signature, Location.path base⟩ :: patches.map patchAt) locks w
  rcases ends with ⟨fault, refused, -⟩ | ⟨-, ⟨lock, found, held⟩, -⟩ |
    ⟨first, rest, u, u', taken, same, same', -, folded⟩
  · cases shaped.symm.trans refused
  · rw [free lock found] at held
    cases held
  · cases shaped.symm.trans taken
    rw [← same] at stage follows
    obtain ⟨goal, v', run', content⟩ := fold_run stage follows apart off spent few
    rcases folded with ⟨p, folded, rfl⟩ | ⟨e, folded, -⟩
    · cases run'.symm.trans folded
      exact ⟨_, locks', v, run, same' ▸ content⟩
    · cases run'.symm.trans folded

end Chain
end LayeredTree
