import LayeredTree.Proofs.Patch.Merging
import LayeredTree.Proofs.Tree.Showing

set_option autoImplicit false

namespace LayeredTree.Patch

open World

variable {w w₁ v : World} {d₁ : Disk} {base patch : List TreeEntry} {markers : List String}
variable {mergeRoot before after out : Path} {record : PatchRecord} {plan : MergePlan}

theorem noteDropped_run (entries : List TreeEntry) (w : World) :
    ∃ v, noteDropped entries w = .ok () v ∧ Alike w v := by
  unfold noteDropped
  induction entries generalizing w with
  | nil => exact ⟨w, rfl, .refl w⟩
  | cons entry rest ih =>
    rw [List.forM_eq_forM, List.forM_cons]
    cases entry with
    | file =>
      rw [bind_of_ok (show (pure () : Action CombineError Unit) w = .ok () w from rfl)]
      exact ih w
    | link key =>
      rw [bind_of_ok (note_eq ..)]
      obtain ⟨v, run, like⟩ := ih _
      exact ⟨v, run, ((Alike.refl w).retold ..).trans like⟩

theorem plan_run (hb : w.disk.walk .content before = .ok base)
    (hp : w.disk.walk .content after = .ok patch) (markers : List String) :
    ∃ v, Alike w v ∧ Patch.plan before after markers w =
      match MergePlan.build base patch markers with
      | .ok plan => .ok plan v
      | .error conflict => .error (.mergeConflict conflict) v := by
  obtain ⟨v, told, like⟩ := noteDropped_run base w
  rw [like.disk] at hp
  refine ⟨v, like, ?_⟩
  unfold Patch.plan
  rw [bind_of_ok (failingAs_of_ok (onDiskAsk_of_ok hb)), bind_of_ok told,
    bind_of_ok (failingAs_of_ok (onDiskAsk_of_ok hp))]
  cases MergePlan.build base patch markers with
  | ok plan => rfl
  | error conflict => rfl

def merging (before after : Path) (w : World) : World :=
  { w with spans := w.spans ++ [⟨"patchchain::patch::merge", "merge_with",
    [("before", .shown before.shown), ("after", .shown after.shown)]⟩] }

theorem alike_merging (before after : Path) (w : World) : Alike w (merging before after w) :=
  ⟨rfl, rfl, rfl, rfl⟩

theorem opening_run {α : Type} {next : MergePlan → Path → Action CombineError α} {u u' : World}
    {d : Disk} (planned : Patch.plan before after markers w = .ok plan u)
    (made : Disk.makeDirectories mergeRoot u.disk = .ok () d)
    (fresh : freshDirectory mergeRoot mergedName { u with disk := d } = .ok out u') : (do
      let plan ← Patch.plan before after markers
      failingAs .ofIo (onDisk (Disk.makeDirectories mergeRoot))
      let output ← failingAs .ofIo (freshDirectory mergeRoot mergedName)
      next plan output : Action CombineError α) w = next plan out u' := by
  rw [bind_of_ok planned, bind_of_ok (failingAs_of_ok (onDisk_of_ok made)),
    bind_of_ok (failingAs_of_ok fresh)]

theorem mergeWith_of_conflict (hb : w.disk.walk .content before = .ok base)
    (hp : w.disk.walk .content after = .ok patch) {conflict : Conflict}
    (build : MergePlan.build base patch record.removed = .error conflict) :
    ∃ v, mergeWith mergeRoot before after record w = .error (.mergeConflict conflict) v ∧
      Alike w v := by
  apply exists_inside_of_error
  have entered := alike_merging before after w
  obtain ⟨v, like, run⟩ := plan_run (entered.disk ▸ hb) (entered.disk ▸ hp) record.removed
  rw [build] at run
  exact ⟨v, bind_of_error run, entered.trans like⟩

theorem mergeWith_of_written (hb : w.disk.walk .content before = .ok base)
    (hp : w.disk.walk .content after = .ok patch)
    (build : MergePlan.build base patch record.removed = .ok plan)
    (made : Disk.makeDirectories mergeRoot w.disk = .ok () d₁)
    (fresh : freshDirectory mergeRoot mergedName { w with disk := d₁ } = .ok out w₁)
    {d' : Disk} (written : MergePlan.write out plan.files w₁ = .ok () { w₁ with disk := d' }) :
    ∃ v, mergeWith mergeRoot before after record w = .ok out v ∧
      Alike { w₁ with disk := d' } v := by
  apply exists_inside_of_ok
  have entered := alike_merging before after w
  obtain ⟨v, like, run⟩ := plan_run (entered.disk ▸ hb) (entered.disk ▸ hp) record.removed
  rw [build] at run
  replace like := entered.trans like
  rw [like.disk] at made
  have rooted : Alike { w with disk := d₁ } { v with disk := d₁ } :=
    ⟨rfl, like.environment, like.now, like.serial⟩
  obtain ⟨v₁, fresh', like₁⟩ := (blind_freshDirectory mergeRoot mergedName).of_ok rooted fresh
  obtain ⟨v₂, written', like₂⟩ := (MergePlan.blind_write out plan.files).of_ok like₁ written
  exact ⟨_, (opening_run run made fresh').trans (bind_of_ok (outcome_of_ok written')),
    like₂.trans ⟨rfl, rfl, rfl, rfl⟩⟩

variable {d d' : Disk} {baseLoc patchLoc goal : Location} {files : Key → Option Bytes}

theorem Mergeable.apart_names (hb : d.Walked .content before baseLoc base)
    (hp : d.Walked .content after patchLoc patch)
    (h : Mergeable (d.contentsOf base) (d.contentsOf patch) patch markers) :
    Disk.Apart fun names =>
      merged (d.contentsOf base) (d.contentsOf patch) markers (Location.key names) := by
  intro names rest ne there
  by_contra below
  obtain ⟨content, e⟩ := Option.ne_none_iff_exists'.mp there
  obtain ⟨names', ne', e', -⟩ := of_merged hb hp e
  obtain rfl := Location.key_injective e'
  have around : Location.key names ∈ Key.ancestors (Location.key (names ++ rest)) :=
    Location.mem_ancestors_key_iff.mpr ⟨names, rest, ne', ne, rfl, rfl⟩
  exact there (h.apart _ _ below around)

theorem writable_of_sources (hb : d.Walked .content before baseLoc base)
    (hp : d.Walked .content after patchLoc patch) (sub : d.Within d')
    {sources : KeyMap Source} (sorted : sources.Sorted)
    (get : ∀ key, sources.get? key = MergePlan.sourceOf base patch markers key) :
    MergePlan.Writable d' (fun names =>
      merged (d.contentsOf base) (d.contentsOf patch) markers (Location.key names)) sources := by
  rintro ⟨key, source⟩ hm
  have from_ : MergePlan.sourceOf base patch markers key = some source := by
    rw [← get]
    exact (KeyMap.get?_eq_some_iff sorted).mpr hm
  have there : merged (d.contentsOf base) (d.contentsOf patch) markers key ≠ none := by
    rw [ne_eq, ← sourceOf_eq_none_iff hb hp, from_]
    nofun
  obtain ⟨content, e⟩ := Option.ne_none_iff_exists'.mp there
  have held := bind_sourceOf hb hp markers key
  rw [from_, e, Option.bind_some] at held
  obtain ⟨names, ne, rfl, -⟩ := of_merged hb hp e
  exact ⟨names, content, ne, rfl, e, Disk.contentAt?_mono sub held⟩

theorem shortTargets_sources_iff (hb : d.Walked .content before baseLoc base)
    (hp : d.Walked .content after patchLoc patch) {sources : KeyMap Source}
    (get : ∀ key, sources.get? key = MergePlan.sourceOf base patch markers key) :
    MergePlan.ShortTargets out sources ↔
      ∀ key, merged (d.contentsOf base) (d.contentsOf patch) markers key ≠ none →
        Disk.Short (Key.path out key) := by
  have listed : ∀ key, key ∈ sources.keys ↔
      merged (d.contentsOf base) (d.contentsOf patch) markers key ≠ none := by
    intro key
    rw [KeyMap.mem_keys_iff, get, ne_eq, ne_eq, sourceOf_eq_none_iff hb hp]
  constructor
  · intro fits key there
    obtain ⟨file, hm, rfl⟩ := List.mem_map.mp ((listed key).mpr there)
    exact fits file hm
  · intro short file hm
    exact short file.1 ((listed file.1).mp (List.mem_map_of_mem hm))

theorem of_build (hb : d.Walked .content before baseLoc base)
    (hp : d.Walked .content after patchLoc patch)
    (build : MergePlan.build base patch markers = .ok plan) :
    Mergeable (d.contentsOf base) (d.contentsOf patch) patch markers ∧ plan.files.Sorted ∧
      ∀ key, plan.files.get? key = MergePlan.sourceOf base patch markers key := by
  rcases MergePlan.build_cases hb.inOrder hp.inOrder markers with
    ⟨sound, plan', build', sorted, get⟩ | ⟨-, conflict, refused⟩
  · cases build.symm.trans build'
    exact ⟨(isPlannable_iff_mergeable hb hp markers).mp sound, sorted, get⟩
  · cases build.symm.trans refused

theorem exists_plan (hb : w.disk.walk .content before = .ok base)
    (hp : w.disk.walk .content after = .ok patch)
    (h : Mergeable (w.disk.contentsOf base) (w.disk.contentsOf patch) patch markers) :
    ∃ plan, MergePlan.build base patch markers = .ok plan := by
  obtain ⟨baseLoc, wb⟩ := Disk.walked_of_walk hb
  obtain ⟨patchLoc, wp⟩ := Disk.walked_of_walk hp
  have sound := (isPlannable_iff_mergeable wb wp markers).mpr h
  rcases MergePlan.build_cases wb.inOrder wp.inOrder markers with
    ⟨-, plan, build, -⟩ | ⟨unsound, -⟩
  · exact ⟨plan, build⟩
  · exact absurd sound unsound

/-- A plan is written into a new directory, which shows the merged content then, if all paths are
short enough. Otherwise the run fails, and what it did lies below that directory. -/
theorem write_plan (hb : w.disk.walk .content before = .ok base)
    (hp : w.disk.walk .content after = .ok patch)
    (build : MergePlan.build base patch markers = .ok plan) (grown : w.disk.Within d₁)
    (tidy : out.IsTidy) (opened : d₁.Opened out goal w₁.disk) :
    ∃ d', w₁.disk.Within d' ∧ Disk.SameOutside goal w₁.disk d' ∧
      ((∀ key, merged (w.disk.contentsOf base) (w.disk.contentsOf patch) markers key ≠ none →
          Disk.Short (Key.path out key)) ∧
        MergePlan.write out plan.files w₁ = .ok () { w₁ with disk := d' } ∧
          d'.Shows out goal (merged (w.disk.contentsOf base) (w.disk.contentsOf patch) markers) ∨
        ¬ (∀ key, merged (w.disk.contentsOf base) (w.disk.contentsOf patch) markers key ≠ none →
          Disk.Short (Key.path out key)) ∧
        ∃ e, MergePlan.write out plan.files w₁ = .error e { w₁ with disk := d' }) := by
  obtain ⟨baseLoc, wb⟩ := Disk.walked_of_walk hb
  obtain ⟨patchLoc, wp⟩ := Disk.walked_of_walk hp
  obtain ⟨mergeable, sorted, get⟩ := of_build wb wp build
  have writable := writable_of_sources wb wp (grown.trans opened.within) sorted get
  have all : ∀ names : Location, merged (w.disk.contentsOf base) (w.disk.contentsOf patch)
      markers names.key ≠ none → names.key ∈ plan.files.keys := by
    intro names there
    rw [KeyMap.mem_keys_iff, get, ne_eq, sourceOf_eq_none_iff wb wp]
    exact there
  obtain ⟨d', sub, same, ends⟩ := MergePlan.write_cases (mergeable.apart_names wb wp) tidy sorted
    opened.hosts opened.bare writable all
  rw [shortTargets_sources_iff wb wp get] at ends
  refine ⟨d', sub, same, ends.imp_left ?_⟩
  rintro ⟨fits, written, holdsTree⟩
  refine ⟨fits, written, ?_⟩
  refine Disk.shows_of_holdsTree (opened.hosts.mono sub) holdsTree fun key content there => ?_
  obtain ⟨names, ne, rfl, spelled, covers⟩ := of_merged wb wp there
  have short := fits (Location.key names) (by simp [there])
  rw [Location.path_key ne] at short
  exact ⟨names, ne, rfl, spelled, covers, short⟩

/-- The merge root can be made, a new directory is found in it, and each of the files has a path
below that directory that can be opened. -/
structure Room (w : World) (mergeRoot : Path) (files : Key → Option Bytes) (d₁ : Disk)
    (out : Path) (w₁ : World) : Prop where
  made : Disk.makeDirectories mergeRoot w.disk = .ok () d₁
  fresh : freshDirectory mergeRoot mergedName { w with disk := d₁ } = .ok out w₁
  short : ∀ key, files key ≠ none → Disk.Short (Key.path out key)

theorem exists_mergeWith (hb : w.disk.walk .content before = .ok base)
    (hp : w.disk.walk .content after = .ok patch)
    (h : Mergeable (w.disk.contentsOf base) (w.disk.contentsOf patch) patch record.removed)
    (room : Room w mergeRoot (merged (w.disk.contentsOf base) (w.disk.contentsOf patch)
      record.removed) d₁ out w₁) :
    ∃ goal d' v, mergeWith mergeRoot before after record w = .ok out v ∧
      Alike { w₁ with disk := d' } v ∧ d₁.Opened out goal w₁.disk ∧
        Disk.SameOutside goal w₁.disk d' ∧ d'.Shows out goal
          (merged (w.disk.contentsOf base) (w.disk.contentsOf patch) record.removed) := by
  obtain ⟨plan, build⟩ := exists_plan hb hp h
  obtain ⟨goal, tidy, opened⟩ := of_freshDirectory (by decide) room.fresh
  have grown : w.disk.Within d₁ := by
    have grows := Disk.grows_makeDirectories mergeRoot w.disk
    rwa [after_of_ok room.made] at grows
  obtain ⟨d', -, same, ⟨-, written, shows⟩ | ⟨long, -⟩⟩ :=
    write_plan hb hp build grown tidy opened
  · obtain ⟨v, run, like⟩ := mergeWith_of_written hb hp build room.made room.fresh written
    exact ⟨goal, d', v, run, like, opened, same, shows⟩
  · exact absurd room.short long

theorem exists_conflict (mergeRoot : Path) (hb : w.disk.walk .content before = .ok base)
    (hp : w.disk.walk .content after = .ok patch)
    (h : ¬ Mergeable (w.disk.contentsOf base) (w.disk.contentsOf patch) patch record.removed) :
    ∃ conflict v, mergeWith mergeRoot before after record w = .error (.mergeConflict conflict) v ∧
      Alike w v := by
  obtain ⟨baseLoc, wb⟩ := Disk.walked_of_walk hb
  obtain ⟨patchLoc, wp⟩ := Disk.walked_of_walk hp
  rcases MergePlan.build_cases wb.inOrder wp.inOrder record.removed with ⟨sound, -⟩ | ⟨-, conflict, e⟩
  · exact absurd ((isPlannable_iff_mergeable wb wp record.removed).mp sound) h
  · exact ⟨conflict, mergeWith_of_conflict hb hp e⟩

/-- A merge is exactly what it is said to be. It succeeds just where base, patch and markers can
be merged and fails as a conflict otherwise; its result shows the merged content. -/
theorem mergeWith_exact (record : PatchRecord)
    (hb : w.disk.walk .content before = .ok base)
    (hp : w.disk.walk .content after = .ok patch)
    (room : Room w mergeRoot (merged (w.disk.contentsOf base) (w.disk.contentsOf patch)
      record.removed) d₁ out w₁) :
    ((∃ p v, mergeWith mergeRoot before after record w = .ok p v) ↔
      Mergeable (w.disk.contentsOf base) (w.disk.contentsOf patch) patch record.removed) ∧
    (¬ Mergeable (w.disk.contentsOf base) (w.disk.contentsOf patch) patch record.removed →
      ∃ conflict v, mergeWith mergeRoot before after record w =
        .error (.mergeConflict conflict) v ∧ Alike w v) ∧
    ∀ p v, mergeWith mergeRoot before after record w = .ok p v → p = out ∧
      ∃ goal, v.disk.Shows p goal (merged (w.disk.contentsOf base) (w.disk.contentsOf patch)
        record.removed) := by
  have accepted : ∀ p v, mergeWith mergeRoot before after record w = .ok p v →
      Mergeable (w.disk.contentsOf base) (w.disk.contentsOf patch) patch record.removed := by
    intro p v run
    by_contra refused
    obtain ⟨conflict, v', run', -⟩ := exists_conflict mergeRoot hb hp refused
    rw [run] at run'
    cases run'
  refine ⟨⟨fun ⟨p, v, run⟩ => accepted p v run, fun h => ?_⟩, exists_conflict mergeRoot hb hp,
    fun p v run => ?_⟩
  · obtain ⟨-, -, v, run, -⟩ := exists_mergeWith hb hp h room
    exact ⟨out, v, run⟩
  · obtain ⟨goal, d', v', run', like, -, -, shows⟩ :=
      exists_mergeWith hb hp (accepted p v run) room
    rw [run] at run'
    cases run'
    have held : d' = v.disk := like.disk
    rw [held] at shows
    exact ⟨rfl, goal, shows⟩

/-- A base with one file, and a patch with a file in a directory of the same name. -/
def nesting : World := .holding [
  ([47, 98], .directory), ([47, 98, 47, 107], .file [1]), ([47, 112], .directory),
  ([47, 112, 47, 107], .directory), ([47, 112, 47, 107, 47, 110], .file [2])]

/-- With the old file deleted, a directory takes its place. -/
theorem merges_nesting : Mergeable [([107], [1])] [([107, 47, 110], [2])]
    [.file [107, 47, 110] ⟨[47, 112, 47, 107, 47, 110]⟩ 1] ["k"] ∧
      ∃ p v, mergeWith ⟨[47]⟩ ⟨[47, 98]⟩ ⟨[47, 112]⟩ ⟨1, none, none, ["k"], none⟩ nesting =
        .ok p v := by
  have only : ∀ key, merged [([107], [1])] [([107, 47, 110], [2])] ["k"] key ≠ none →
      key = [107, 47, 110] := by
    intro key there
    by_contra ne
    apply there
    have marker : ["k"].map Bytes.ofString = [[107]] := by decide
    rw [merged, KeyMap.get?_cons, KeyMap.get?_cons, marker, if_neg ne]
    by_cases old : key = [107]
    · simp [old, KeyMap.get?]
    · simp [old, KeyMap.get?]
  have mergeable : Mergeable [([107], [1])] [([107, 47, 110], [2])]
      [.file [107, 47, 110] ⟨[47, 112, 47, 107, 47, 110]⟩ 1] ["k"] := by
    refine ⟨by simp, fun raw h => ?_, by decide, by decide, fun key parent there around => ?_⟩
    · rw [List.mem_singleton.mp h]
      exact ⟨[107], by decide⟩
    · obtain rfl := only key there
      by_contra clash
      obtain rfl := only parent clash
      exact absurd around (by decide)
  have hb : nesting.disk.walk .content ⟨[47, 98]⟩ =
      .ok [.file [107] ⟨[47, 98, 47, 107]⟩ 1] := by rfl
  have hp : nesting.disk.walk .content ⟨[47, 112]⟩ =
      .ok [.file [107, 47, 110] ⟨[47, 112, 47, 107, 47, 110]⟩ 1] := by rfl
  have room : Room nesting ⟨[47]⟩ (merged [([107], [1])] [([107, 47, 110], [2])] ["k"])
      nesting.disk ⟨[47] ++ mergedName ++ freshDigits freshWidth 0⟩
        { nesting with
          disk := nesting.disk.plant [⟨mergedName ++ freshDigits freshWidth 0, by decide⟩] .directory
          serial := 1 } := by
    refine ⟨rfl, rfl, fun key there => ?_⟩
    rw [only key there]
    decide
  exact ⟨mergeable,
    (mergeWith_exact ⟨1, none, none, ["k"], none⟩ hb hp room).1.mpr mergeable⟩

end LayeredTree.Patch
