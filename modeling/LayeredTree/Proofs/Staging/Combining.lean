import LayeredTree.Proofs.Staging.Delivering

/-!
A combine that is run as a command, from its start to its end. It refuses an output that has an
entry, makes the work area, and then runs both halves there. If the output is steady, all that was
on the disk is there still, and the output is a new directory with the merged files.
-/

set_option autoImplicit false

namespace LayeredTree.Command

open World Chain

variable {w v : World} {area : WorkArea} {data temp : Location} {output : Path} {text : String}
variable (storage : StorageSettings) (settings : NodeSettings) (before patch : Path)
variable (signature : Signature)

theorem disk_after_execute (command : Command) :
    (after (execute settings command) w).disk = (after (command.run settings) w).disk := by
  obtain ⟨result, run⟩ : ∃ result, (outcome (command.run settings) : Action CommandError _) w =
      .ok result (after (command.run settings) w) := outcome_eq _
  have whole : execute settings command w = _ := (bind_of_ok run).trans (bind_of_ok rfl)
  cases result with
  | ok text => rw [after_of_ok (whole.trans rfl)]
  | error e => rw [after_of_error (whole.trans rfl)]

theorem of_execute {command : Command} (h : execute settings command w = .ok text v) :
    ∃ u, command.run settings w = .ok text u ∧ v.disk = u.disk := by
  cases run : command.run settings w with
  | ok told u =>
    rw [show execute settings command w = _ from
      (bind_of_ok (outcome_of_ok run)).trans (bind_of_ok rfl)] at h
    cases h
    exact ⟨u, rfl, rfl⟩
  | error e u =>
    rw [show execute settings command w = _ from
      (bind_of_ok (outcome_of_error run)).trans (bind_of_ok rfl)] at h
    cases h

/-- A combine that refuses its output, or has no work area, ends with directories added at most.
Otherwise it runs both halves in an area that stands. -/
theorem runCombine_cases (output : Path) (w : World) :
    (∃ e v, runCombine storage before patch signature output w = .error e v ∧
      w.disk.Dug v.disk ∧ (w.disk.hasEntry output = true ∨
        ∃ e u, WorkArea.ofSettings storage w = .error e u)) ∨
    w.disk.hasEntry output = false ∧ ∃ area data temp, ∃ u : World,
      WorkArea.Founded storage w area data temp u ∧
        runCombine storage before patch signature output w =
          (gather area before patch signature >>= fun merged => deliver area merged output) u := by
  cases found : w.disk.hasEntry output with
  | true =>
    refine .inl ⟨.outputExists output, w, ?_, .refl _, .inl rfl⟩
    rw [runCombine_eq, bind_of_ok (show (get : Action CommandError World) w = .ok w w from rfl),
      found]
    rfl
  | false =>
    have start : runCombine storage before patch signature output w =
        (failingAs CommandError.storage (WorkArea.ofSettings storage) >>= fun area =>
          gather area before patch signature >>= fun merged => deliver area merged output) w := by
      rw [runCombine_eq, bind_of_ok (show (get : Action CommandError World) w = .ok w w from rfl),
        found]
      rfl
    rw [start]
    cases run : WorkArea.ofSettings storage w with
    | error e v =>
      have made : w.disk.Dug (after (WorkArea.ofSettings storage) w).disk :=
        WorkArea.dug_prepare storage.dataPath storage.tempDataPath w
      rw [after_of_error run] at made
      exact .inl ⟨_, v, bind_of_error (failingAs_of_error run), made, .inr ⟨e, v, rfl⟩⟩
    | ok area u =>
      obtain ⟨data, temp, founded⟩ := WorkArea.exists_founded run
      exact .inr ⟨rfl, area, data, temp, u, founded, bind_of_ok (failingAs_of_ok run)⟩

/-- What was on the disk is there still after a combine, however that ends, and nothing was added to
a directory of it but directories, as long as the output is steady. If the combine succeeds, the
output is a directory where there was nothing. Its files are those of the merged tree, unless one
lies within the other. -/
theorem combine_spares (ne : output.text ≠ []) (steady : w.disk.Steady output) :
    w.disk.Spares
        (after (execute settings (.combine before patch signature output)) w).disk ∧
      ∀ text v, execute settings (.combine before patch signature output) w = .ok text v →
        ∃ area merged goal, ∃ u u' : World,
          WorkArea.ofSettings settings.storage w = .ok area u ∧
          gather area before patch signature u = .ok merged u' ∧
          v.disk.Reaches output goal ∧ v.disk.IsDirectory goal ∧ w.disk.get? goal = none ∧
          (∀ place, u'.disk.Reaches merged place → goal.Disjoint place → ∃ m,
            u'.disk.contents merged = .ok m ∧ v.disk.contents output = .ok m ∧
              ∀ names ≠ [], ∀ content, v.disk.get? (goal ++ names) = some (.file content) ↔
                m.get? (Location.key names) = some content) ∧
          ((∀ loc text, area.mergeRoot = Location.path loc →
              u.disk.get? loc ≠ some (.link text)) →
            ∃ place, u'.disk.Reaches merged place) := by
  have whole : ∀ {d : Disk},
      (after (runCombine settings.storage before patch signature output) w).disk = d →
        (after (execute settings (.combine before patch signature output)) w).disk = d :=
    fun e => (disk_after_execute settings _).trans e
  rcases runCombine_cases settings.storage before patch signature output w with
    ⟨e, v, failed, dug, -⟩ | ⟨absent, area, data, temp, u, ⟨made, hasRoots, dug, -⟩, run⟩
  · rw [whole (by rw [after_of_error failed])]
    refine ⟨.of_dug dug, fun text v' ended => ?_⟩
    obtain ⟨u, ended', -⟩ := of_execute settings ended
    cases failed.symm.trans ended'
  rcases gather_ends hasRoots before patch signature with
    ⟨e, v, failed, dug', -⟩ | ⟨b, l, top, n, record, base, layer, u₁, u₂, u₃, u', copy, copy', merges,
      unstaged, gathered⟩
  · have ended := run.trans (bind_of_error failed)
    rw [whole (by rw [after_of_error ended])]
    refine ⟨.of_dug (dug.trans dug'), fun text v' ended' => ?_⟩
    obtain ⟨u, ended'', -⟩ := of_execute settings ended'
    cases ended.symm.trans ended''
  have adds := addsTree_of_gathered copy copy' merges unstaged
  have run' := run.trans (bind_of_ok gathered)
  have off : ¬ top ++ [Patch.mergedChild n] <+: temp :=
    adds.names.off (by rw [show u.disk.get? temp = _ from hasRoots.isTemp]; nofun)
  have adds' := adds.of_dug dug
  have avoids := Disk.avoids_of_steady steady absent adds'.spares
  obtain ⟨spares, ends⟩ := deliver_ends hasRoots.protects_merge
    (adds.spares.within.isDirectory hasRoots.isTemp) off adds' ne avoids
  rw [whole (congrArg World.disk (by unfold after; rw [run']))]
  refine ⟨spares, fun text v ended => ?_⟩
  obtain ⟨v', ended', same⟩ := of_execute settings ended
  obtain ⟨goal, m, reach, puts, held, -, files⟩ := ends text v' (run'.symm.trans ended')
  obtain ⟨entries, walk, -⟩ := Disk.contents_eq_ok_iff.mp held
  obtain ⟨goal', walked⟩ := Disk.walked_of_walk walk
  cases walked.reaches.unique reach
  rw [same]
  refine ⟨area, _, goal, u, u', made, gathered, reach, walked.isDirectory, avoids goal puts,
    fun place reach' apart => ?_, fun plain => ?_⟩
  · cases adds.names.reached adds.spares reach'
    obtain ⟨node, there⟩ := reach'.exists
    have shows := merges.shows.congr reach'
      (same_of_gathered copy copy' merges unstaged (by rw [there]; nofun))
    obtain ⟨m', held', -⟩ := shows.exists_contents
    have files' := files apart
    cases Disk.contents_eq_of_files reach reach' held held' fun names proper content _ =>
      files' names proper content
    exact ⟨m, held', held, fun names proper content =>
      (files' names proper content).trans (shows.file_iff held' proper)⟩
  · obtain ⟨rfl, isDir⟩ := direct_of_gathered copy copy' merges unstaged
      (plain _ · (mergeRoot_eq_path hasRoots.tempRoot))
    exact ⟨_, Disk.reaches_path isDir rfl⟩

/-- A tree `/a` with the file `x`, a patch `/p` of it with the file `y`, and a directory `/k` that
has a file `y` as well. -/
def bystander : World := .holding [
  ([47, 97], .directory), ([47, 97, 47, 120], .file [1]),
  ([47, 107], .directory), ([47, 107, 47, 121], .file [7]),
  ([47, 112], .directory), ([47, 112, 47, 46, 112, 97, 116, 99, 104], .directory),
  ([47, 112, 47, 46, 112, 97, 116, 99, 104, 47, 109, 101, 116, 97, 100, 97, 116, 97, 46, 106, 115,
    111, 110], .file (Bytes.ofString Combiner.extending.text)),
  ([47, 112, 47, 121], .file [2])]

/-- Settings with the work area in `/d` and `/t`. -/
def atTop : NodeSettings :=
  ⟨⟨⟨[47, 100]⟩, ⟨[47, 116]⟩⟩, ⟨"info", "text", "stdout", none, true, []⟩⟩

theorem exists_combined : ∃ text v,
    execute atTop (.combine ⟨[47, 97]⟩ ⟨[47, 112]⟩ (.uniform 1) ⟨[47, 110, 47, 111]⟩) bystander =
      .ok text v ∧
        v.disk.contents ⟨[47, 110, 47, 111]⟩ = .ok [([120], [1]), ([121], [2])] := by
  have ended : ((execute atTop (.combine ⟨[47, 97]⟩ ⟨[47, 112]⟩ (.uniform 1)
      ⟨[47, 110, 47, 111]⟩)).run' bystander).isSome = true ∧
        (after (execute atTop (.combine ⟨[47, 97]⟩ ⟨[47, 112]⟩ (.uniform 1)
          ⟨[47, 110, 47, 111]⟩)) bystander).disk.contents ⟨[47, 110, 47, 111]⟩ =
            .ok [([120], [1]), ([121], [2])] := by decide +kernel
  cases run : execute atTop (.combine ⟨[47, 97]⟩ ⟨[47, 112]⟩ (.uniform 1)
      ⟨[47, 110, 47, 111]⟩) bystander with
  | ok text v =>
    rw [after_of_ok run] at ended
    exact ⟨text, v, rfl, ended.2⟩
  | error e v =>
    rw [run'_of_error run] at ended
    cases ended.1

theorem combines_in_missing : ∃ text v,
    execute atTop (.combine ⟨[47, 97]⟩ ⟨[47, 112]⟩ (.uniform 1) ⟨[47, 110, 47, 111]⟩) bystander =
      .ok text v ∧ bystander.disk.Spares v.disk ∧
        v.disk.contents ⟨[47, 110, 47, 111]⟩ = .ok [([120], [1]), ([121], [2])] := by
  have steady : bystander.disk.Steady ⟨[47, 110, 47, 111]⟩ := by
    refine Disk.steady_of_down (Disk.isDirectory_nil _) fun dir name rest off => ?_
    have spot : bystander.disk.spotOf true [47, 110, 47, 111] [[], [110], [111]] =
        .ok (.free [] ⟨[110], by decide⟩ [[111]]) := by rfl
    cases spot.symm.trans off
    decide
  have spares := (combine_spares atTop ⟨[47, 97]⟩ ⟨[47, 112]⟩ (.uniform 1) (by decide) steady).1
  obtain ⟨text, v, run, held⟩ := exists_combined
  rw [after_of_ok run] at spares
  exact ⟨text, v, run, spares, held⟩

/-- An output that steps up behind a missing step need not be steady. As long as `/n` is missing
`/n/../k` has no entry; the relocation makes it, and then writes over what is in `/k`. -/
theorem overwrites_behind_missing :
    bystander.disk.hasEntry ⟨[47, 110, 47, 46, 46, 47, 107]⟩ = false ∧
      bystander.disk.get? [⟨[107], by decide⟩, ⟨[121], by decide⟩] = some (.file [7]) ∧
      (after (Staging.relocate ⟨[47, 112]⟩ ⟨[47, 110, 47, 46, 46, 47, 107]⟩)
        bystander).disk.get? [⟨[107], by decide⟩, ⟨[121], by decide⟩] = some (.file [2]) := by
  decide +kernel

end LayeredTree.Command
