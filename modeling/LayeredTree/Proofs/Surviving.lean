import LayeredTree.Proofs.Releasing

set_option autoImplicit false

namespace LayeredTree

variable {d d' : Disk} {p q dataPath tempPath : Path} {loc above : Location} {area : WorkArea}

namespace Disk

/-- The area takes the path for its own, and it names a directory that the location lies in. -/
def Undermines (d : Disk) (area : WorkArea) (p : Path) (loc : Location) : Prop :=
  area.contains d p = true ∧
    ∃ own, d.ownEntryAt p = .ok (own, .directory) ∧ own <+: loc ∧ loc ≠ own

theorem exists_seat_of_contains (h : area.contains d p = true) (shared : area.Protects loc) :
    ∃ seat, d.Seats p seat ∧ loc ≠ seat := by
  obtain ⟨seat, seats, -, -, free, -⟩ := contains_iff.mp h
  refine ⟨seat, seats, ?_⟩
  rintro rfl
  exact free shared

theorem isDirectory_after_removeTree_iff (h : area.contains d p = true)
    (shared : area.Protects loc) : (after (removeTree p) d).IsDirectory loc ↔
      d.IsDirectory loc ∧ ¬ d.Undermines area p loc := by
  obtain ⟨seat, seats, ne⟩ := exists_seat_of_contains h shared
  obtain ⟨-, -, -, -, -, own, node, found, plain⟩ := contains_iff.mp h
  have under : d.Undermines area p loc ↔ node = .directory ∧ own <+: loc ∧ loc ≠ own := by
    constructor
    · rintro ⟨-, own', found', below⟩
      cases found.symm.trans found'
      exact ⟨rfl, below⟩
    · rintro ⟨rfl, below⟩
      exact ⟨h, own, found, below⟩
  rw [under]
  by_cases isDir : node = .directory
  · subst isDir
    have last := get?_after_removeDirectory_of_ne (clear_within own) seats ne
    rw [after_removeTree_of_directory found, IsDirectory, last, get?_clear]
    by_cases below : own <+: loc ∧ loc ≠ own
    · simp [below]
    · rw [if_neg below]
      exact ⟨fun there => ⟨there, fun under => below under.2⟩, fun both => both.1⟩
  · rw [after_removeTree_of_plain found plain isDir]
    exact ⟨fun there => ⟨there, fun under => isDir under.1⟩, fun both => both.1⟩

end Disk

namespace Release

variable {ε : Type} {w : World}

theorem isDirectory_after_release_iff (p : Path) (w : World) (shared : area.Protects loc) :
    (after (release area.policy p : Action ε Unit) w).disk.IsDirectory loc ↔
      w.disk.IsDirectory loc ∧ ¬ w.disk.Undermines area p loc := by
  obtain ⟨w', run, e⟩ := release_run (ε := ε) area.policy p w
  rw [after_of_ok run, e]
  dsimp only
  generalize hd : (if area.policy w.disk p = true then after (Disk.removeTree p) w.disk
    else w.disk) = d
  have tree : d.Within w.disk ∧
      (d.IsDirectory loc ↔ w.disk.IsDirectory loc ∧ ¬ w.disk.Undermines area p loc) := by
    subst hd
    by_cases own : area.contains w.disk p = true
    · rw [show area.policy w.disk p = true from own, if_pos rfl]
      obtain ⟨-, -, -, -, -, place, node, found, plain⟩ := Disk.contains_iff.mp own
      exact ⟨Disk.after_removeTree_within found plain,
        Disk.isDirectory_after_removeTree_iff own shared⟩
    · rw [if_neg (show ¬ area.policy w.disk p = true from own)]
      exact ⟨.refl _, fun there => ⟨there, fun under => own under.1⟩, fun both => both.1⟩
  rw [← tree.2]
  cases hp : p.parent.filter (area.policy w.disk) with
  | none => rfl
  | some parent =>
    obtain ⟨seat, seats, ne⟩ :=
      Disk.exists_seat_of_contains (Option.filter_eq_some_iff.mp hp).2 shared
    dsimp only
    rw [Disk.IsDirectory, Disk.get?_after_removeDirectory_of_ne tree.1 seats ne]
    rfl

def releaseEach (policy : PathPolicy) : List Path → Action ε Unit
  | [] => pure ()
  | p :: rest => do
    release policy p
    releaseEach policy rest

theorem after_releaseEach_cons (policy : PathPolicy) (p : Path) (rest : List Path) (w : World) :
    after (releaseEach policy (p :: rest) : Action ε Unit) w =
      after (releaseEach policy rest : Action ε Unit) (after (release policy p : Action ε Unit) w) := by
  obtain ⟨w', run, -⟩ := release_run (ε := ε) policy p w
  rw [releaseEach, after_bind_of_ok run, after_of_ok run]

theorem isDirectory_after_releaseEach_iff (paths : List Path) (w : World)
    (shared : area.Protects loc) :
    (after (releaseEach area.policy paths : Action ε Unit) w).disk.IsDirectory loc ↔
      w.disk.IsDirectory loc ∧ ∀ done p rest, paths = done ++ p :: rest →
        ¬ (after (releaseEach area.policy done : Action ε Unit) w).disk.Undermines area p loc := by
  induction paths generalizing w with
  | nil =>
    have none : ∀ done p rest, ([] : List Path) = done ++ p :: rest → False := by
      intro done p rest e
      simp at e
    exact ⟨fun there => ⟨there, fun done p rest e => (none done p rest e).elim⟩, fun h => h.1⟩
  | cons first later ih =>
    rw [after_releaseEach_cons, ih, isDirectory_after_release_iff first w shared]
    constructor
    · rintro ⟨⟨there, spared⟩, others⟩
      refine ⟨there, fun done p rest e => ?_⟩
      cases done with
      | nil =>
        obtain ⟨rfl, -⟩ := List.cons_eq_cons.mp e
        exact spared
      | cons _ done =>
        obtain ⟨rfl, e'⟩ := List.cons_eq_cons.mp e
        rw [after_releaseEach_cons]
        exact others done p rest e'
    · rintro ⟨there, spared⟩
      refine ⟨⟨there, spared [] first later rfl⟩, fun done p rest e => ?_⟩
      have step := spared (first :: done) p rest (by rw [e]; rfl)
      rwa [after_releaseEach_cons] at step

end Release

namespace Disk

/-- A directory of the area that is not shared, and that the location lies in. -/
def Between (area : WorkArea) (above loc : Location) : Prop :=
  above <+: loc ∧ loc ≠ above ∧ area.Holds above ∧ ¬ area.Protects above

theorem undermines_cases (h : d.Undermines area p loc) :
    (∃ target, d.Pierced area p target) ∨ ∃ above, Between area above loc := by
  obtain ⟨sanctioned, own, found, below⟩ := h
  obtain ⟨seat, seats, -, holds, free, -⟩ := contains_iff.mp sanctioned
  obtain ⟨init, name, dir, steps, -⟩ := id seats
  obtain ⟨seat', seats', cases⟩ :=
    own_cases steps name.bytes_ne_dotDot (ownEntryAt_eq_ok_iff.mp found).1
  cases seats.unique seats'
  rcases cases with rfl | ⟨-, -, -, text, link⟩
  · exact .inr ⟨own, below.1, below.2, holds, free⟩
  · exact .inl ⟨own, sanctioned, ⟨seat, text, seats, link⟩, found⟩

theorem undermines_path (isDir : d.IsDirectory loc) (short : Short (Location.path loc))
    (ne : above ≠ []) (between : Between area above loc) :
    d.Undermines area (Location.path above) loc ∧
      ∀ target, ¬ d.Pierced area (Location.path above) target := by
  obtain ⟨le, apart, holds, free⟩ := between
  obtain ⟨dir, name, rfl⟩ : ∃ dir name, above = dir ++ [name] :=
    ⟨_, _, (List.dropLast_concat_getLast ne).symm⟩
  have there : d.IsDirectory (dir ++ [name]) := by
    obtain ⟨rest, rfl⟩ := le
    exact isDirectory_of_append (by rintro rfl; simp at apart) isDir
  have up := isDirectory_of_child there
  have short' := short_path_of_prefix le short
  have own : d.ownEntryAt (Location.path (dir ++ [name])) = .ok (dir ++ [name], .directory) := by
    rw [← Location.child_path] at short' ⊢
    exact (reaches_path up rfl).ownEntryAt_child there short'
  have sanctioned : area.contains d (Location.path (dir ++ [name])) = true :=
    (area.policy_path_iff (by simp) there).mpr ⟨short', holds, free⟩
  refine ⟨⟨sanctioned, _, own, le, apart⟩, fun target pierced => ?_⟩
  obtain ⟨seat, text, seats, link⟩ := pierced.onLink
  cases seats.unique (seats_path up)
  rw [show d.get? (dir ++ [name]) = _ from there] at link
  cases link

end Disk

namespace WorkArea

variable {w w' : World}

theorem of_prepare (h : prepare dataPath tempPath w = .ok area w') : ∃ d₁ data temp,
    (Disk.makeDirectories dataPath w.disk = .ok () d₁ ∧ area.dataRoot = Location.path data ∧
      d₁.Reaches dataPath data ∧ d₁.IsDirectory data) ∧
    Disk.makeDirectories tempPath d₁ = .ok () w'.disk ∧ area.tempRoot = Location.path temp ∧
      w'.disk.Reaches tempPath temp ∧ w'.disk.IsDirectory temp := by
  obtain ⟨⟨⟩, w₁, runData, h⟩ := bind_eq_ok_iff.mp h
  obtain ⟨⟨⟩, w₂, runTemp, h⟩ := bind_eq_ok_iff.mp h
  obtain ⟨dataRoot, w₃, askedData, h⟩ := bind_eq_ok_iff.mp h
  obtain ⟨tempRoot, w₄, askedTemp, h⟩ := bind_eq_ok_iff.mp h
  cases h
  obtain ⟨d₁, madeData, rfl⟩ := World.onDisk_eq_ok_iff.mp (World.failingAs_eq_ok_iff.mp runData)
  obtain ⟨d₂, madeTemp, rfl⟩ := World.onDisk_eq_ok_iff.mp (World.failingAs_eq_ok_iff.mp runTemp)
  obtain ⟨foundData, rfl⟩ := World.onDiskAsk_eq_ok_iff.mp askedData
  obtain ⟨foundTemp, rfl⟩ := World.onDiskAsk_eq_ok_iff.mp askedTemp
  have grown : d₁.Within d₂ := by
    have grows := Disk.grows_makeDirectories tempPath d₁
    rwa [after_of_ok madeTemp] at grows
  have settled : ∀ {path root : Path} {d d' : Disk}, Disk.makeDirectories path d = .ok () d' →
      d'.Within d₂ → canonicalPath path d₂ = .ok root →
        ∃ loc, root = Location.path loc ∧ d'.Reaches path loc ∧ d'.IsDirectory loc := by
    intro path root d d' made sub found
    have canonical : d₂.canonical path = .ok root := by
      unfold canonicalPath at found
      cases e : d₂.canonical path with
      | error fault =>
        rw [e] at found
        cases found
      | ok root' =>
        rw [e] at found
        cases found
        rfl
    obtain ⟨loc, settled, rfl⟩ := Disk.canonical_eq_ok_iff.mp canonical
    have reach := settled.reaches
    obtain ⟨loc', reach', -, isDir⟩ :=
      Disk.hasDirectory_iff.mp (Disk.hasDirectory_of_makeDirectories reach.1 made)
    cases reach.unique (reach'.mono sub)
    exact ⟨loc, rfl, reach', isDir⟩
  obtain ⟨data, rfl, reach, isDir⟩ := settled madeData grown foundData
  obtain ⟨temp, rfl, reach', isDir'⟩ := settled madeTemp (.refl d₂) foundTemp
  exact ⟨d₁, data, temp, ⟨madeData, rfl, reach, isDir⟩, madeTemp, rfl, reach', isDir'⟩

theorem roots_of_prepare (h : prepare dataPath tempPath w = .ok area w') :
    ∀ root, root = area.dataRoot ∨ root = area.tempRoot →
      ∃ loc, root = Location.path loc ∧ w'.disk.IsDirectory loc := by
  obtain ⟨d₁, data, temp, ⟨-, dataRoot, -, isData⟩, madeTemp, tempRoot, -, isTemp⟩ := of_prepare h
  have grows := Disk.grows_makeDirectories tempPath d₁
  rw [after_of_ok madeTemp] at grows
  rintro root (rfl | rfl)
  · exact ⟨data, dataRoot, grows.isDirectory isData⟩
  · exact ⟨temp, tempRoot, isTemp⟩

theorem Holds.ne_nil (h : area.Holds loc) (canonical : ∀ root,
    root = area.dataRoot ∨ root = area.tempRoot → ∃ place, root = Location.path place) :
    loc ≠ [] := by
  rintro rfl
  obtain ⟨root, hr, within, apart⟩ := h
  obtain ⟨place, rfl⟩ := canonical root hr
  rw [List.prefix_nil.mp (Location.isWithin_path_iff.mp within)] at apart
  exact absurd apart (by decide)

end WorkArea

namespace Release

variable {ε : Type} {w w' : World}

/-- The directories that work shares are not indestructible. In each area that was made, whatever is
on the disk then and whatever is released, one of them survives just if no release takes a tree that
it lies in. Without a link being followed there is such a release just where some directory of the
area that is not shared itself lies around it. -/
theorem shared_survives_iff (prepared : WorkArea.prepare dataPath tempPath w = .ok area w') :
    (∀ root, root = area.dataRoot ∨ root = area.tempRoot →
      ∃ loc, root = Location.path loc ∧ w'.disk.IsDirectory loc) ∧
    ∀ loc, (Location.path loc = area.dataRoot ∨ Location.path loc = area.tempRoot ∨
        Location.path loc = area.mergeRoot) → ∀ v : World, v.disk.IsDirectory loc →
      (∀ paths, (after (releaseEach area.policy paths : Action ε Unit) v).disk.IsDirectory loc ↔
        ∀ done p rest, paths = done ++ p :: rest →
          ¬ (after (releaseEach area.policy done : Action ε Unit) v).disk.Undermines area p loc) ∧
      (Disk.Short (Location.path loc) →
        ((∃ p, v.disk.Undermines area p loc ∧ ∀ target, ¬ v.disk.Pierced area p target) ↔
          ∃ above, Disk.Between area above loc)) := by
  have roots := WorkArea.roots_of_prepare prepared
  have canonical : ∀ root, root = area.dataRoot ∨ root = area.tempRoot →
      ∃ place, root = Location.path place := by
    intro root hr
    obtain ⟨place, e, -⟩ := roots root hr
    exact ⟨place, e⟩
  refine ⟨roots, fun loc shared v isDir => ⟨fun paths => ?_, fun short => ⟨?_, ?_⟩⟩⟩
  · have protects : area.Protects loc := ⟨Location.path loc, shared, by simp [Path.same]⟩
    rw [isDirectory_after_releaseEach_iff paths v protects]
    exact ⟨fun h => h.2, fun h => ⟨isDir, h⟩⟩
  · rintro ⟨p, undermines, whole⟩
    rcases Disk.undermines_cases undermines with ⟨target, pierced⟩ | between
    · exact absurd pierced (whole target)
    · exact between
  · rintro ⟨above, between⟩
    exact ⟨_, Disk.undermines_path isDir short (between.2.2.1.ne_nil canonical) between⟩

def bareWorld : World := .holding []

/-- The temp hierarchy two levels below the data hierarchy. -/
def nestedRoots : WorkArea := ⟨⟨[47, 100]⟩, ⟨[47, 100, 47, 120, 47, 116]⟩⟩

/-- The temp root goes with the directory in between. -/
theorem loses_nested_root : ∃ v,
    WorkArea.prepare nestedRoots.dataRoot nestedRoots.tempRoot bareWorld = .ok nestedRoots v ∧
      ∃ loc, Location.path loc = nestedRoots.tempRoot ∧ v.disk.IsDirectory loc ∧
        ¬ (after (releaseEach nestedRoots.policy [⟨[47, 100, 47, 120]⟩] :
          Action Empty Unit) v).disk.IsDirectory loc := by
  have prepared : WorkArea.prepare nestedRoots.dataRoot nestedRoots.tempRoot bareWorld =
      .ok nestedRoots
        (after (WorkArea.prepare nestedRoots.dataRoot nestedRoots.tempRoot) bareWorld) := by rfl
  have there : (after (WorkArea.prepare nestedRoots.dataRoot nestedRoots.tempRoot)
      bareWorld).disk.IsDirectory [⟨[100], by decide⟩, ⟨[120], by decide⟩, ⟨[116], by decide⟩] := by
    rfl
  refine ⟨_, prepared, _, rfl, there, fun survives => ?_⟩
  obtain ⟨survives_iff, -⟩ := (shared_survives_iff (ε := Empty) prepared).2 _ (.inr (.inl rfl)) _
    there
  apply (survives_iff _).mp survives [] _ [] rfl
  exact ⟨by rfl, [⟨[100], by decide⟩, ⟨[120], by decide⟩], by rfl, by decide, by decide⟩

end Release
end LayeredTree
