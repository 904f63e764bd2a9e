import LayeredTree.Proofs.Chain.Links
import LayeredTree.Proofs.Staging.Copying
import LayeredTree.Proofs.Surviving

set_option autoImplicit false

namespace LayeredTree

open World Chain

variable {ε : Type} {w w' : World} {d d' : Disk} {area : WorkArea} {data temp : Location}
variable {names : Location} {dataPath tempPath source : Path} {scope : WalkScope}

namespace WorkArea

/-- The roots of an area are directories, under the paths of these places. -/
structure HasRoots (area : WorkArea) (d : Disk) (data temp : Location) : Prop where
  dataRoot : area.dataRoot = Location.path data
  tempRoot : area.tempRoot = Location.path temp
  isData : d.IsDirectory data
  isTemp : d.IsDirectory temp

theorem dug_prepare (dataPath tempPath : Path) (w : World) :
    w.disk.Dug (after (prepare dataPath tempPath) w).disk := by
  have making : ∀ (p : Path) (v : World),
      v.disk.Dug (after (failingAs StorageError.ofIo (onDisk (Disk.makeDirectories p))) v).disk := by
    intro p v
    rw [after_failingAs, after_onDisk]
    exact Disk.dug_makeDirectories p v.disk
  have asking : ∀ (p : Path) (v : World),
      v.disk.Dug (after (onDiskAsk (canonicalPath p)) v).disk := by
    intro p v
    rw [after_onDiskAsk]
    exact .refl _
  unfold prepare
  refine Disk.dug_bind (making dataPath w) fun _ w₁ _ => ?_
  refine Disk.dug_bind (making tempPath w₁) fun _ w₂ _ => ?_
  refine Disk.dug_bind (asking dataPath w₂) fun dataRoot w₃ _ => ?_
  exact Disk.dug_bind (asking tempPath w₃) fun tempRoot w₄ _ => .refl _

/-- A work area was made, and its roots stand. Only directories were added for them, and if neither
path steps up each of these is a root or lies above one. -/
structure Founded (storage : StorageSettings) (w : World) (area : WorkArea) (data temp : Location)
    (w' : World) : Prop where
  run : ofSettings storage w = .ok area w'
  hasRoots : area.HasRoots w'.disk data temp
  dug : w.disk.Dug w'.disk
  above : Path.dotDot ∉ storage.dataPath.steps → Path.dotDot ∉ storage.tempDataPath.steps →
    ∀ loc, w'.disk.get? loc ≠ w.disk.get? loc → loc <+: data ∨ loc <+: temp

theorem exists_founded {storage : StorageSettings} (h : ofSettings storage w = .ok area w') :
    ∃ data temp, Founded storage w area data temp w' := by
  obtain ⟨d₁, data, temp, ⟨made, dataRoot, reach, isData⟩, made', tempRoot, reach', isTemp⟩ :=
    of_prepare h
  have first := Disk.dug_makeDirectories storage.dataPath w.disk
  have second := Disk.dug_makeDirectories storage.tempDataPath d₁
  rw [after_of_ok made] at first
  rw [after_of_ok made'] at second
  refine ⟨data, temp, h, ⟨dataRoot, tempRoot, second.within.isDirectory isData, isTemp⟩,
    first.trans second, fun plain plain' loc new => ?_⟩
  by_cases same : w'.disk.get? loc = d₁.get? loc
  · exact .inl (Disk.prefix_of_makeDirectories (Disk.goesDown_of_steps plain) made reach isData
      (same ▸ new))
  · exact .inr (Disk.prefix_of_makeDirectories (Disk.goesDown_of_steps plain') made' reach' isTemp
      same)

namespace HasRoots

theorem mono (h : area.HasRoots d data temp) (sub : d.Within d') : area.HasRoots d' data temp :=
  ⟨h.dataRoot, h.tempRoot, sub.isDirectory h.isData, sub.isDirectory h.isTemp⟩

theorem protects_temp (h : area.HasRoots d data temp) : area.Protects temp :=
  ⟨_, .inr (.inl rfl), by rw [h.tempRoot, Location.same_path_iff]⟩

theorem protects_merge (h : area.HasRoots d data temp) : area.Protects (mergePlace temp) :=
  ⟨_, .inr (.inr rfl), by rw [mergeRoot_eq_path h.tempRoot, Location.same_path_iff]⟩

theorem frees (h : area.HasRoots d data temp) (free : d.get? (temp ++ names) = none)
    (short : Disk.Short (Location.path (temp ++ names))) (off : temp ++ names ≠ mergePlace temp) :
    area.Frees (temp ++ names) := by
  have new : ∀ root, d.IsDirectory root → temp ++ names ≠ root := by
    rintro root isDir rfl
    rw [Disk.IsDirectory, free] at isDir
    cases isDir
  exact frees_of_below h.dataRoot h.tempRoot short (List.prefix_append _ _) (new _ h.isTemp)
    (new _ h.isData) off

end HasRoots
end WorkArea

namespace Staging

/-- The name is one of those that are drawn for staged trees. -/
def IsStagedName (name : Name) : Prop :=
  ∃ start ∈ ["base-", "patch-"], ∃ n, name.bytes = Bytes.ofString start ++ freshDigits freshWidth n

theorem IsStagedName.ne_mergeDir {name : Name} (h : IsStagedName name) : name ≠ mergeDir := by
  rintro rfl
  obtain ⟨start, -, n, named⟩ := h
  have length := congrArg List.length named
  have five : mergeDir.bytes.length = 5 := by decide
  rw [List.length_append, length_freshDigits, five, freshWidth] at length
  omega

/-- A tree was staged under a name in the temp hierarchy. The copy has the files that a walk met
once the new directory was there, and no links. -/
structure Staged (d : Disk) (temp : Location) (scope : WalkScope) (source : Path) (name : Name)
    (d' : Disk) : Prop where
  new : d.NewAt (temp ++ [name]) d'
  isDirectory : d'.IsDirectory (temp ++ [name])
  short : Disk.Short (Location.path (temp ++ [name]))
  drawn : IsStagedName name
  copied : ∃ d₁ entries origin files,
    d.Opened (Location.path (temp ++ [name])) (temp ++ [name]) d₁ ∧
      d₁.walk scope source = .ok entries ∧ d₁.Walked scope source origin entries ∧
        (∀ key path, .link key path ∉ entries) ∧ d'.HoldsFiles (temp ++ [name]) files ∧
          (origin.Disjoint (temp ++ [name]) → ∀ names : Location,
            files names = (d₁.contentsOf entries).get? names.key)

theorem Staged.beside {name : Name} (h : Staged d temp scope source name d') (rest : Location) :
    ¬ temp ++ [name] <+: mergePlace temp ++ rest := by
  intro le
  rw [mergePlace, List.append_assoc, List.prefix_append_right_inj, List.singleton_append,
    List.cons_prefix_cons] at le
  exact h.drawn.ne_mergeDir le.1

theorem Staged.get?_merged {name : Name} (h : Staged d temp scope source name d')
    (rest : Location) : d'.get? (mergePlace temp ++ rest) = d.get? (mergePlace temp ++ rest) :=
  h.new.get? _ (h.beside rest)

theorem Staged.frees {name : Name} (h : Staged d temp scope source name d')
    (hasRoots : area.HasRoots d data temp) : area.Frees (temp ++ [name]) :=
  hasRoots.frees h.new.free h.short fun e => h.drawn.ne_mergeDir (by simpa [mergePlace] using e)

theorem stage_run (hasRoots : area.HasRoots w.disk data temp) (start : String)
    (known : start ∈ ["base-", "patch-"]) (scope : WalkScope) (source : Path) :
    (∃ e v, stage area start scope source w = .error e v ∧ w.disk.Same v.disk) ∨
      ∃ name v, stage area start scope source w = .ok (Location.path (temp ++ [name])) v ∧
        Staged w.disk temp scope source name v.disk := by
  have base : area.allocate (Bytes.ofString start) =
      failingAs .ofIo (freshDirectory (Location.path temp) (Bytes.ofString start)) := by
    rw [WorkArea.allocate, hasRoots.tempRoot]
  cases fresh : freshDirectory (Location.path temp) (Bytes.ofString start) w with
  | error fault w₁ =>
    refine .inl ⟨_, w₁, bind_of_error (base ▸ failingAs_of_error fresh), ?_⟩
    rw [after_freshDirectory_of_error fresh]
    exact .refl _
  | ok out w₁ =>
    have one : ∀ start ∈ ["base-", "patch-"], slash ∉ Bytes.ofString start := by decide
    obtain ⟨n, name, named, rfl, opened⟩ :=
      of_freshDirectory_path (one start known) (Disk.reaches_path hasRoots.isTemp rfl) fresh
    have allocated : area.allocate (Bytes.ofString start) w = .ok _ w₁ :=
      base ▸ failingAs_of_ok fresh
    have drawn : IsStagedName name := ⟨start, known, n, named⟩
    have bare : w₁.disk.HoldsFiles (temp ++ [name]) fun _ => none :=
      ⟨nofun, fun names ne node found => by
        rw [opened.bare names ne] at found
        cases found⟩
    obtain ⟨files, v, same, -, holdsFiles, ends⟩ :=
      copyTree_run scope source w₁ opened.hosts.reaches opened.hosts.isDirectory bare
    have new := same.newAt opened.newAt
    have isDir : v.disk.IsDirectory (temp ++ [name]) := by
      rw [Disk.IsDirectory, same.2 _ fun on => on.2 rfl]
      exact opened.hosts.isDirectory
    have short := opened.hosts.short
    rcases ends with ⟨e, failed⟩ | ⟨run, entries, origin, walk, walked, plain, all⟩
    · left
      have freed := hasRoots.frees opened.free short fun e =>
        drawn.ne_mergeDir (by simpa [mergePlace] using e)
      obtain ⟨u, released, gone⟩ :=
        Release.release_freed (ε := StorageError) hasRoots.protects_temp freed isDir
      exact ⟨e, u, (bind_of_ok allocated).trans ((bind_of_ok (outcome_of_error failed)).trans
        (bind_of_ok released)), new.pruned gone⟩
    · right
      refine ⟨name, _, (bind_of_ok allocated).trans ((bind_of_ok (outcome_of_ok run)).trans
        (bind_of_ok rfl)), ?_⟩
      refine ⟨new, isDir, short, drawn, w₁.disk, entries, origin, files, opened, walk, walked, plain,
        holdsFiles, fun apart names => ?_⟩
      rw [all apart names, Option.or_none]

end Staging
end LayeredTree
