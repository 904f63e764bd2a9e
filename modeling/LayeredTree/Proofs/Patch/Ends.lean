import LayeredTree.Proofs.Disk.Digging
import LayeredTree.Proofs.Patch.Exactness
import LayeredTree.Proofs.Patch.Naming
import LayeredTree.Proofs.Releasing

set_option autoImplicit false

namespace LayeredTree.Patch

open World

variable {w u v : World} {d : Disk} {entries patch : List TreeEntry} {markers : List String}
variable {mergeRoot before after out : Path} {record : PatchRecord} {plan : MergePlan}

/-- How a merge ends, by the request that failed. -/
inductive Ends (mergeRoot before after : Path) (record : PatchRecord) (w : World) :
    EStateM.Result CombineError World Path → Prop
  | unplanned {e : CombineError} {u v : World} :
      Patch.plan before after record.removed w = .error e u → v.disk = w.disk →
      Ends mergeRoot before after record w (.error e v)
  | rootless {plan : MergePlan} {fault : IoFault} {d : Disk} {u v : World} :
      Patch.plan before after record.removed w = .ok plan u →
      Disk.makeDirectories mergeRoot w.disk = .error fault d → v.disk = d →
      Ends mergeRoot before after record w (.error (.ofIo fault) v)
  | unopened {plan : MergePlan} {fault : IoFault} {d : Disk} {u u' v : World} :
      Patch.plan before after record.removed w = .ok plan u →
      Disk.makeDirectories mergeRoot w.disk = .ok () d →
      freshDirectory mergeRoot mergedName { w with disk := d } = .error fault u' →
      v.disk = u'.disk → Ends mergeRoot before after record w (.error (.ofIo fault) v)
  | unwritten {plan : MergePlan} {e : StorageError} {out : Path} {d : Disk} {u u' u'' v : World} :
      Patch.plan before after record.removed w = .ok plan u →
      Disk.makeDirectories mergeRoot w.disk = .ok () d →
      freshDirectory mergeRoot mergedName { w with disk := d } = .ok out u' →
      MergePlan.write out plan.files u' = .error e u'' →
      v.disk = LayeredTree.after (Disk.removeTree out) u''.disk →
      Ends mergeRoot before after record w (.error (.storage e) v)
  | merged {plan : MergePlan} {out : Path} {d : Disk} {u u' u'' v : World} :
      Patch.plan before after record.removed w = .ok plan u →
      Disk.makeDirectories mergeRoot w.disk = .ok () d →
      freshDirectory mergeRoot mergedName { w with disk := d } = .ok out u' →
      MergePlan.write out plan.files u' = .ok () u'' → Alike u'' v →
      Ends mergeRoot before after record w (.ok out v)

theorem alike_after_plan (before after : Path) (markers : List String) (w : World) :
    Alike w (LayeredTree.after (Patch.plan before after markers) w) := by
  unfold Patch.plan
  cases hb : w.disk.walk .content before with
  | error e =>
    rw [after_of_error (bind_of_error (failingAs_of_error (onDiskAsk_of_error hb)))]
    exact .refl w
  | ok base =>
    rw [after_bind_of_ok (failingAs_of_ok (onDiskAsk_of_ok hb))]
    obtain ⟨v, told, like⟩ := noteDropped_run base w
    rw [after_bind_of_ok told]
    cases hp : v.disk.walk .content after with
    | error e =>
      rw [after_of_error (bind_of_error (failingAs_of_error (onDiskAsk_of_error hp)))]
      exact like
    | ok patch =>
      rw [after_bind_of_ok (failingAs_of_ok (onDiskAsk_of_ok hp))]
      cases MergePlan.build base patch markers with
      | ok plan => exact like
      | error conflict => exact like

theorem abandon_run (out : Path) (e : StorageError) (w : World) : ∃ v, (do
      note .warn "patchchain::patch::merge" "Merge aborted while writing result tree"
        [("error", .shown e.message)]
      let _ ← outcome (onDisk (Disk.removeTree out))
      throw (.storage e) : Action CombineError Path) w = .error (.storage e) v ∧
    v.disk = LayeredTree.after (Disk.removeTree out) w.disk := by
  obtain ⟨result, removed⟩ : ∃ result, (outcome (onDisk (Disk.removeTree out)) :
      Action CombineError _) { w with journal := w.journal ++ [⟨.warn, "patchchain::patch::merge",
        "Merge aborted while writing result tree", [("error", .shown e.message)], w.spans⟩] } =
          .ok result _ := outcome_eq _
  refine ⟨_, (bind_of_ok (note_eq ..)).trans (bind_of_ok removed), ?_⟩
  rw [after_onDisk]

theorem mergeWith_ends (mergeRoot before after : Path) (record : PatchRecord) (w : World) :
    Ends mergeRoot before after record w (mergeWith mergeRoot before after record w) := by
  have like := alike_merging before after w
  have blind := blind_plan before after record.removed
  have kept := alike_after_plan before after record.removed (merging before after w)
  cases planned : Patch.plan before after record.removed w with
  | error e u =>
    obtain ⟨u', planned', -⟩ := blind.of_error like planned
    rw [after_of_error planned'] at kept
    rw [show mergeWith mergeRoot before after record w = _ from
      inside_of_error (bind_of_error planned')]
    exact .unplanned planned (like.trans kept).disk.symm
  | ok plan u =>
    obtain ⟨u', planned', -⟩ := blind.of_ok like planned
    rw [after_of_ok planned'] at kept
    have same := (like.trans kept).disk
    cases made : Disk.makeDirectories mergeRoot w.disk with
    | error fault d =>
      have made' := made
      rw [same] at made'
      rw [show mergeWith mergeRoot before after record w = _ from inside_of_error ((bind_of_ok
        planned').trans (bind_of_error (failingAs_of_error (onDisk_of_error made'))))]
      exact .rootless planned made rfl
    | ok _ d =>
      have made' := made
      rw [same] at made'
      have rooted : Alike { w with disk := d } { u' with disk := d } :=
        ⟨rfl, (like.trans kept).environment, (like.trans kept).now, (like.trans kept).serial⟩
      have opening := blind_freshDirectory mergeRoot mergedName
      cases fresh : freshDirectory mergeRoot mergedName { w with disk := d } with
      | error fault u₁ =>
        obtain ⟨u₂, fresh', like₂⟩ := opening.of_error rooted fresh
        rw [show mergeWith mergeRoot before after record w = _ from inside_of_error ((bind_of_ok
          planned').trans ((bind_of_ok (failingAs_of_ok (onDisk_of_ok made'))).trans
            (bind_of_error (failingAs_of_error fresh'))))]
        exact .unopened planned made fresh like₂.disk.symm
      | ok out u₁ =>
        obtain ⟨u₂, fresh', like₂⟩ := opening.of_ok rooted fresh
        have writing := MergePlan.blind_write out plan.files
        cases written : MergePlan.write out plan.files u₁ with
        | error e u₃ =>
          obtain ⟨u₄, written', like₄⟩ := writing.of_error like₂ written
          obtain ⟨v, abandoned, gone⟩ := abandon_run out e u₄
          rw [show mergeWith mergeRoot before after record w = _ from
            inside_of_error ((opening_run planned' made' fresh').trans
              ((bind_of_ok (outcome_of_error written')).trans abandoned))]
          exact .unwritten planned made fresh written (by rw [like₄.disk]; exact gone)
        | ok _ u₃ =>
          obtain ⟨u₄, written', like₄⟩ := writing.of_ok like₂ written
          rw [show mergeWith mergeRoot before after record w = _ from
            inside_of_ok ((opening_run planned' made' fresh').trans
              (bind_of_ok (outcome_of_ok written')))]
          exact .merged planned made fresh written
            ⟨like₄.disk, like₄.environment, like₄.now, like₄.serial⟩

theorem mergeWith_conflicts_iff (hb : w.disk.walk .content before = .ok entries)
    (hp : w.disk.walk .content after = .ok patch) :
    (∃ conflict v, mergeWith mergeRoot before after record w = .error (.mergeConflict conflict) v) ↔
      ¬ Mergeable (w.disk.contentsOf entries) (w.disk.contentsOf patch) patch record.removed := by
  constructor
  · rintro ⟨conflict, v, run⟩ mergeable
    obtain ⟨v', -, planned⟩ := plan_run hb hp record.removed
    obtain ⟨plan, build⟩ := exists_plan hb hp mergeable
    rw [build] at planned
    have ends := mergeWith_ends mergeRoot before after record w
    rw [run] at ends
    cases ends with
    | unplanned failed => cases planned.symm.trans failed
  · intro refused
    obtain ⟨conflict, v, run, -⟩ := exists_conflict mergeRoot hb hp refused
    exact ⟨conflict, v, run⟩

theorem of_plan (h : Patch.plan before after markers w = .ok plan u) : ∃ base patch,
    w.disk.walk .content before = .ok base ∧ w.disk.walk .content after = .ok patch ∧
      MergePlan.build base patch markers = .ok plan := by
  cases hb : w.disk.walk .content before with
  | error e =>
    unfold Patch.plan at h
    rw [bind_of_error (failingAs_of_error (onDiskAsk_of_error hb))] at h
    cases h
  | ok base =>
    cases hp : w.disk.walk .content after with
    | error e =>
      obtain ⟨v, told, like⟩ := noteDropped_run base w
      unfold Patch.plan at h
      rw [bind_of_ok (failingAs_of_ok (onDiskAsk_of_ok hb)), bind_of_ok told,
        bind_of_error (failingAs_of_error (onDiskAsk_of_error (like.disk ▸ hp)))] at h
      cases h
    | ok patch =>
      obtain ⟨v, -, run⟩ := plan_run hb hp markers
      rw [run] at h
      cases build : MergePlan.build base patch markers with
      | error conflict =>
        rw [build] at h
        cases h
      | ok plan' =>
        rw [build] at h
        cases h
        exact ⟨base, patch, rfl, rfl, build⟩

theorem shows_of_mergeWith (h : mergeWith mergeRoot before after record w = .ok out v) :
    ∃ old new goal, w.disk.contents before = .ok old ∧ w.disk.contents after = .ok new ∧
      v.disk.Shows out goal (merged old new record.removed) := by
  have ends := mergeWith_ends mergeRoot before after record w
  rw [h] at ends
  cases ends with
  | merged planned made fresh written like =>
    obtain ⟨base, patch, hb, hp, build⟩ := of_plan planned
    have grown := Disk.grows_makeDirectories mergeRoot w.disk
    rw [after_of_ok made] at grown
    obtain ⟨goal, tidy, opened⟩ := of_freshDirectory (by decide) fresh
    obtain ⟨d', -, -, ⟨-, written', shows⟩ | ⟨-, e, failed⟩⟩ :=
      write_plan hb hp build grown tidy opened
    · cases written.symm.trans written'
      have same : d' = v.disk := like.disk
      subst same
      exact ⟨_, _, goal, Disk.contents_eq_ok_iff.mpr ⟨base, hb, rfl⟩,
        Disk.contents_eq_ok_iff.mpr ⟨patch, hp, rfl⟩, shows⟩
    · cases written.symm.trans failed

/-- The action fails with what a request to the disk was refused for, if at all. -/
def FailsOnDisk {α : Type} (act : Action StorageError α) : Prop :=
  ∀ w e v, act w = .error e v → ∃ fault, e = .io fault

section Failing

variable {α β : Type}

theorem failsOnDisk_failingAs {widen : IoFault → StorageError} (act : Action IoFault α)
    (io : ∀ fault, ∃ told, widen fault = .io told) : FailsOnDisk (failingAs widen act) := by
  intro w e v h
  cases run : act w with
  | ok a u =>
    rw [failingAs_of_ok run] at h
    cases h
  | error fault u =>
    rw [failingAs_of_error run] at h
    cases h
    exact io fault

theorem FailsOnDisk.bind {act : Action StorageError α} {next : α → Action StorageError β}
    (h : FailsOnDisk act) (h' : ∀ a, FailsOnDisk (next a)) : FailsOnDisk (act >>= next) := by
  intro w e v fails
  cases run : act w with
  | ok a u =>
    rw [bind_of_ok run] at fails
    exact h' a u e v fails
  | error fault u =>
    rw [bind_of_error run] at fails
    cases fails
    exact h w _ _ run

theorem failsOnDisk_write (root : Path) (files : KeyMap Source) :
    FailsOnDisk (MergePlan.write root files) := by
  induction files with
  | nil => exact nofun
  | cons file rest ih =>
    obtain ⟨key, source⟩ := file
    unfold MergePlan.write
    have copied : FailsOnDisk (failingAs (fun fault => StorageError.io
        (.copying source.path (Key.path root key) fault))
        (onDisk (Disk.copyFile source.path (Key.path root key)))) :=
      failsOnDisk_failingAs _ fun fault => ⟨_, rfl⟩
    dsimp only
    cases (Key.path root key).parent with
    | none => exact copied.bind fun _ => ih
    | some parent =>
      exact (failsOnDisk_failingAs (onDisk (Disk.makeDirectories parent)) fun fault =>
        ⟨_, rfl⟩).bind fun _ => copied.bind fun _ => ih

end Failing

theorem io_of_mergeWith {e : CombineError} (hb : w.disk.walk .content before = .ok entries)
    (hp : w.disk.walk .content after = .ok patch)
    (mergeable : Mergeable (w.disk.contentsOf entries) (w.disk.contentsOf patch) patch record.removed)
    (h : mergeWith mergeRoot before after record w = .error e v) :
    ∃ fault, e = .storage (.io fault) := by
  have ends := mergeWith_ends mergeRoot before after record w
  rw [h] at ends
  cases ends with
  | unplanned failed =>
    obtain ⟨u, -, planned⟩ := plan_run hb hp record.removed
    obtain ⟨plan, build⟩ := exists_plan hb hp mergeable
    rw [build] at planned
    cases planned.symm.trans failed
  | rootless => exact ⟨_, rfl⟩
  | unopened => exact ⟨_, rfl⟩
  | unwritten _ _ _ failed =>
    obtain ⟨fault, rfl⟩ := failsOnDisk_write _ _ _ _ _ failed
    exact ⟨fault, rfl⟩

/-- The directory of merged trees at a place, made if it was missing. The path of the place leads
to it, through a link if there is one at the place; nothing else is new. -/
structure Rooted (d : Disk) (place top : Location) (d' : Disk) : Prop where
  reaches : d'.Reaches (Location.path place) top
  isDirectory : d'.IsDirectory top
  dug : d.Dug d'
  same : ∀ other ≠ place, d'.get? other = d.get? other
  direct : (∀ text, d.get? place ≠ some (.link text)) → top = place

section Frame

variable {root : Location} {name : Name} (isDir : w.disk.IsDirectory root)

include isDir

theorem rooted_of_makeDirectories
    (made : Disk.makeDirectories (Location.path (root ++ [name])) w.disk = .ok () d) :
    ∃ top, Rooted w.disk (root ++ [name]) top d := by
  have reach := Disk.reaches_path isDir rfl
  rw [← Location.child_path] at made
  rcases reach.makeDirectories_child_run isDir name with
    ⟨free, made'⟩ | ⟨there, made'⟩ | ⟨fault, failed⟩
  · cases made.symm.trans made'
    have get := Disk.get?_plant (by simp) free (by rwa [List.dropLast_concat]) Node.directory
    have there : (w.disk.plant (root ++ [name]) .directory).IsDirectory (root ++ [name]) := by
      rw [Disk.IsDirectory, get, if_pos rfl]
    refine ⟨_, Disk.reaches_path there rfl, there, Disk.dug_plant isDir free, fun other ne => ?_,
      fun _ => rfl⟩
    rw [get, if_neg ne]
  · cases made.symm.trans made'
    obtain ⟨top, way, -, isTop⟩ := Disk.hasDirectory_iff.mp there
    refine ⟨top, Location.child_path root name ▸ way, isTop, .refl _, fun _ _ => rfl,
      fun plain => ?_⟩
    have direct := reach.child (reach.isDirectory_of_hasDirectory isDir plain there) rfl
    exact way.unique direct
  · cases made.symm.trans failed

theorem of_makeDirectories_error {fault : IoFault}
    (made : Disk.makeDirectories (Location.path (root ++ [name])) w.disk = .error fault d) :
    d = w.disk := by
  rw [← Location.child_path] at made
  rcases (Disk.reaches_path isDir rfl).makeDirectories_child_run isDir name with
    ⟨-, made'⟩ | ⟨-, made'⟩ | ⟨fault, failed⟩
  · cases made.symm.trans made'
  · cases made.symm.trans made'
  · cases made.symm.trans failed
    rfl

/-- Once a directory is made for the output, the files are written into it or not. Nothing else
changes but the directory of merged trees. -/
theorem of_opened {u' : World}
    (planned : Patch.plan before after record.removed w = .ok plan u)
    (made : Disk.makeDirectories (Location.path (root ++ [name])) w.disk = .ok () d)
    (fresh : freshDirectory (Location.path (root ++ [name])) mergedName { w with disk := d } =
      .ok out u') : ∃ top n base patch d', Rooted w.disk (root ++ [name]) top d ∧
      out = Location.path (root ++ [name] ++ [mergedChild n]) ∧
      d.NewAt (top ++ [mergedChild n]) d' ∧ d'.Hosts out (top ++ [mergedChild n]) ∧
      w.disk.walk .content before = .ok base ∧ w.disk.walk .content after = .ok patch ∧
      Mergeable (w.disk.contentsOf base) (w.disk.contentsOf patch) patch record.removed ∧
      (MergePlan.write out plan.files u' = .ok () { u' with disk := d' } ∧
        d'.Shows out (top ++ [mergedChild n])
          (merged (w.disk.contentsOf base) (w.disk.contentsOf patch) record.removed) ∨
        ∃ e, MergePlan.write out plan.files u' = .error e { u' with disk := d' }) := by
  obtain ⟨top, rooted⟩ := rooted_of_makeDirectories isDir made
  obtain ⟨n, rfl, opened⟩ := of_freshMerged (w := { w with disk := d }) rooted.reaches fresh
  obtain ⟨base, patch, hb, hp, build⟩ := of_plan planned
  obtain ⟨baseLoc, wb⟩ := Disk.walked_of_walk hb
  obtain ⟨patchLoc, wp⟩ := Disk.walked_of_walk hp
  obtain ⟨d', sub, outside, ends⟩ :=
    write_plan hb hp build rooted.dug.within (Location.isTidy_path _) opened
  exact ⟨top, n, base, patch, d', rooted, rfl, outside.newAt opened.newAt, opened.hosts.mono sub,
    hb, hp, (of_build wb wp build).1, ends.imp (fun h => h.2) fun h => h.2⟩

theorem of_mergeWith_error {e : CombineError}
    (h : mergeWith (Location.path (root ++ [name])) before after record w = .error e v) :
    w.disk.Dug v.disk ∧ ∀ other ≠ root ++ [name], v.disk.get? other = w.disk.get? other := by
  have ends := mergeWith_ends (Location.path (root ++ [name])) before after record w
  rw [h] at ends
  cases ends with
  | unplanned _ same =>
    rw [same]
    exact ⟨.refl _, fun _ _ => rfl⟩
  | rootless _ made same =>
    rw [same, of_makeDirectories_error isDir made]
    exact ⟨.refl _, fun _ _ => rfl⟩
  | unopened _ made fresh same =>
    obtain ⟨top, rooted⟩ := rooted_of_makeDirectories isDir made
    rw [same, World.after_freshDirectory_of_error fresh]
    exact ⟨rooted.dug, rooted.same⟩
  | @unwritten plan e out d u u' u'' v planned made fresh written same =>
    obtain ⟨top, n, -, -, d', rooted, rfl, new, host, -, -, -, ⟨written', -⟩ | ⟨e', written'⟩⟩ :=
      of_opened isDir planned made fresh
    · cases written.symm.trans written'
    · cases written.symm.trans written'
      have short := host.short
      rw [← Location.child_path] at same short
      have pruned := rooted.reaches.after_removeTree_child new.within new.free host.isDirectory short
      rw [← same] at pruned
      have kept := new.pruned pruned
      exact ⟨rooted.dug.congr kept,
        fun other ne => (kept.get? other).trans (rooted.same other ne)⟩

/-- A merge that succeeds makes one new directory, and leaves all else as it was. Its inputs could
be merged, and it has the merged content. -/
theorem of_mergeWith_ok
    (h : mergeWith (Location.path (root ++ [name])) before after record w = .ok out v) :
    ∃ d top n base patch, Rooted w.disk (root ++ [name]) top d ∧
      out = Location.path (root ++ [name] ++ [mergedChild n]) ∧ Disk.Short out ∧
      d.NewAt (top ++ [mergedChild n]) v.disk ∧
      w.disk.walk .content before = .ok base ∧ w.disk.walk .content after = .ok patch ∧
      Mergeable (w.disk.contentsOf base) (w.disk.contentsOf patch) patch record.removed ∧
      v.disk.Shows out (top ++ [mergedChild n])
        (merged (w.disk.contentsOf base) (w.disk.contentsOf patch) record.removed) := by
  have ends := mergeWith_ends (Location.path (root ++ [name])) before after record w
  rw [h] at ends
  cases ends with
  | @merged plan out d u u' u'' v planned made fresh written like =>
    obtain ⟨top, n, base, patch, d', rooted, rfl, new, host, hb, hp, mergeable,
      ⟨written', shows⟩ | ⟨e', written'⟩⟩ := of_opened isDir planned made fresh
    · cases written.symm.trans written'
      have same : d' = v.disk := like.disk
      subst same
      exact ⟨d, top, n, base, patch, rooted, rfl, host.short, new, hb, hp, mergeable, shows⟩
    · cases written.symm.trans written'

theorem of_mergeWith (plain : ∀ text, w.disk.get? (root ++ [name]) ≠ some (.link text))
    (h : mergeWith (Location.path (root ++ [name])) before after record w = .ok out v) :
    ∃ n base patch, out = Location.path (root ++ [name] ++ [mergedChild n]) ∧ Disk.Short out ∧
      w.disk.get? (root ++ [name] ++ [mergedChild n]) = none ∧
      (∀ other ≠ root ++ [name], ¬ root ++ [name] ++ [mergedChild n] <+: other →
        v.disk.get? other = w.disk.get? other) ∧
      w.disk.walk .content before = .ok base ∧ w.disk.walk .content after = .ok patch ∧
      Mergeable (w.disk.contentsOf base) (w.disk.contentsOf patch) patch record.removed ∧
      v.disk.Shows out (root ++ [name] ++ [mergedChild n])
        (merged (w.disk.contentsOf base) (w.disk.contentsOf patch) record.removed) := by
  obtain ⟨d, top, n, base, patch, rooted, e, short, new, hb, hp, mergeable, shows⟩ :=
    of_mergeWith_ok isDir h
  cases rooted.direct plain
  have free := new.free
  rw [rooted.same _ (by simp)] at free
  exact ⟨n, base, patch, e, short, free,
    fun other ne away => (new.get? other away).trans (rooted.same other ne), hb, hp, mergeable,
    shows⟩

end Frame

end LayeredTree.Patch
