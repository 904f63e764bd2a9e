import LayeredTree.Release
import LayeredTree.Proofs.Disk.Removing
import LayeredTree.Proofs.Disk.Settling

/-!
What a release can reach. The area judges an entry where it sits, and deletion goes by the path as
it is written. Both mean the same entry unless the path is closed by a slash or a dot and its last
name sits on a link: then the directory behind the link is cleared, wherever that is.
-/

set_option autoImplicit false

namespace LayeredTree

variable {d d' : Disk} {p q s : Path} {loc other own target : Location} {area : WorkArea}

/-- The location lies strictly below one of the roots of the area. -/
def WorkArea.Holds (area : WorkArea) (loc : Location) : Prop :=
  ∃ root, (root = area.dataRoot ∨ root = area.tempRoot) ∧
    (Location.path loc).isWithin root = true ∧ (Location.path loc).same root = false

/-- The location is one of the directories that all work shares. -/
def WorkArea.Protects (area : WorkArea) (loc : Location) : Prop :=
  ∃ root, (root = area.dataRoot ∨ root = area.tempRoot ∨ root = area.mergeRoot) ∧
    (Location.path loc).same root = true

theorem WorkArea.Holds.mono (h : area.Holds loc) (le : loc <+: other) : area.Holds other := by
  obtain ⟨root, hr, within, apart⟩ := h
  have deeper := le.map fun name : Name => Component.normal name.bytes
  simp only [Path.isWithin, Path.same, Location.components_path, List.isPrefixOf_iff_prefix,
    beq_eq_false_iff_ne, ne_eq] at within apart
  refine ⟨root, hr, ?_, ?_⟩
  · rw [Path.isWithin, Location.components_path, List.isPrefixOf_iff_prefix]
    exact within.trans ((List.prefix_cons_inj _).mpr deeper)
  · rw [Path.same, beq_eq_false_iff_ne, Location.components_path]
    intro e
    have long := ((List.prefix_cons_inj (Component.root)).mpr deeper).length_le
    rw [e] at long
    exact apart (within.eq_of_length_le long).symm

namespace Disk

theorem reaches_of_isParent {init : List Bytes} {last : Bytes} {dir : Location}
    (up : Path.IsParent q p) (steps : p.steps = init ++ [last]) (zero : (0 : UInt8) ∉ p.text)
    (isDir : d.IsDirectory dir)
    (way : ∃ links ≤ maxLinks, d.Leads (startOf d.here p.text) init links dir) :
    d.Reaches (if q.isEmpty then ⟨Path.dot⟩ else q) dir := by
  obtain ⟨links, le, w⟩ := way
  have qsteps : q.steps = init := by
    rcases up.steps with ⟨none, -⟩ | ⟨last', -, e⟩
    · simp [none] at steps
    · exact (List.append_inj' (e.symm.trans steps) rfl).1
  by_cases empty : q.text = []
  · rw [if_pos (by simp [Path.isEmpty, empty])]
    have relative : ¬ p.text.head? = some slash := by
      rw [← Path.isAbsolute_iff, up.relative empty]
      simp
    have here : init = [] := by
      rw [← qsteps, Path.steps, Path.segments, empty]
      rfl
    rw [here, startOf, if_neg relative] at w
    cases w
    exact ⟨by decide, by decide, 0, le, .idle isDir rfl (.done _)⟩
  · rw [if_neg (by simp [Path.isEmpty, empty])]
    have start : startOf d.here q.text = startOf d.here p.text := by
      have same := up.isAbsolute empty
      unfold startOf
      simp only [← Path.isAbsolute_iff, same]
    refine ⟨empty, fun h => zero (up.mem 0 h (by decide)), links, le, ?_⟩
    rw [start]
    rw [← qsteps] at w
    exact (leads_filter_iff q.segments isDir []).mp w

private theorem seat_of_found {node : Node} (h : d.ownEntryAt p = .ok (own, node))
    (plain : node.isLink = false) : WorkArea.seat d p = match p.fileName, p.parent with
      | some name, some parent =>
        match d.canonical (if parent.isEmpty then ⟨Path.dot⟩ else parent) with
        | .ok directory => some (directory.child name)
        | .error _ => none
      | _, _ => none := by
  unfold WorkArea.seat
  rw [h]
  cases node with
  | link => cases plain
  | file => rfl
  | directory => rfl
  | other => rfl

theorem seat_eq_some_iff : WorkArea.seat d p = some s ↔
    ∃ loc, d.Seats p loc ∧ d.Resolvable p ∧ s = Location.path loc ∧
      ∃ own node, d.ownEntryAt p = .ok (own, node) ∧ node.isLink = false := by
  cases ho : d.ownEntryAt p with
  | error fault =>
    constructor
    · intro h
      simp [WorkArea.seat, ho] at h
    · rintro ⟨_, _, _, _, _, _, h, _⟩
      cases h
  | ok found =>
    obtain ⟨own, node⟩ := found
    obtain ⟨entry, hn⟩ := ownEntryAt_eq_ok_iff.mp ho
    have zero : (0 : UInt8) ∉ p.text := (of_checkText (resolve_eq_ok_iff.mp entry).1).2.1
    constructor
    · intro h
      have plain : node.isLink = false := by
        cases node with
        | link => simp [WorkArea.seat, ho] at h
        | file => rfl
        | directory => rfl
        | other => rfl
      rw [seat_of_found ho plain] at h
      split at h
      · rename_i last parent hf hp
        obtain ⟨⟨init, steps⟩, up⟩ := Path.fileName_eq_some_iff.mp hf
        obtain ⟨loc, seats, -⟩ := own_cases steps up entry
        obtain ⟨init', name, dir, steps', isDir, way, rfl⟩ := id seats
        obtain ⟨rfl, e⟩ := List.append_inj' (steps.symm.trans steps') rfl
        obtain rfl : last = name.bytes := by simpa using e
        have reach := reaches_of_isParent (Path.isParent_of_parent hp) steps zero isDir way
        split at h
        · rename_i directory hc
          obtain ⟨dir', settled, rfl⟩ := canonical_eq_ok_iff.mp hc
          cases reach.unique settled.reaches
          cases h
          exact ⟨_, seats, ⟨parent, dir, hp, settled⟩, Location.child_path dir name, own, node, rfl,
            plain⟩
        · cases h
      · cases h
    · rintro ⟨loc, ⟨init, name, dir, steps, isDir, way, rfl⟩, ⟨parent, dir', hp, settled⟩, rfl, own',
        node', e, plain⟩
      cases e
      have hf : p.fileName = some name.bytes :=
        Path.fileName_eq_some_iff.mpr ⟨⟨init, steps⟩, name.bytes_ne_dotDot⟩
      have reach := reaches_of_isParent (Path.isParent_of_parent hp) steps zero isDir way
      cases reach.unique settled.reaches
      rw [seat_of_found ho plain, hf, hp]
      dsimp only
      rw [canonical_eq_ok_iff.mpr ⟨dir, settled, rfl⟩]
      exact congrArg some (Location.child_path dir name)

theorem contains_iff : area.contains d p = true ↔
    ∃ loc, d.Seats p loc ∧ d.Resolvable p ∧ area.Holds loc ∧
      ¬ area.Protects loc ∧ ∃ own node, d.ownEntryAt p = .ok (own, node) ∧
        node.isLink = false := by
  have judged : ∀ loc, (!((Location.path loc).same area.dataRoot ||
        (Location.path loc).same area.tempRoot || (Location.path loc).same area.mergeRoot) &&
      ((Location.path loc).isWithin area.dataRoot ||
        (Location.path loc).isWithin area.tempRoot)) = true ↔
      area.Holds loc ∧ ¬ area.Protects loc := by
    intro loc
    unfold WorkArea.Holds WorkArea.Protects
    simp only [Bool.and_eq_true, Bool.not_eq_true', Bool.or_eq_false_iff, Bool.or_eq_true]
    constructor
    · rintro ⟨⟨⟨data, temp⟩, merge⟩, within⟩
      constructor
      · rcases within with within | within
        · exact ⟨_, .inl rfl, within, data⟩
        · exact ⟨_, .inr rfl, within, temp⟩
      · rintro ⟨root, rfl | rfl | rfl, same⟩
        · rw [data] at same
          cases same
        · rw [temp] at same
          cases same
        · rw [merge] at same
          cases same
    · rintro ⟨⟨root, hr, within, -⟩, free⟩
      have apart : ∀ root, (root = area.dataRoot ∨ root = area.tempRoot ∨ root = area.mergeRoot) →
          (Location.path loc).same root = false := fun root hr => by
        rw [Bool.eq_false_iff]
        exact fun same => free ⟨root, hr, same⟩
      refine ⟨⟨⟨apart _ (.inl rfl), apart _ (.inr (.inl rfl))⟩, apart _ (.inr (.inr rfl))⟩, ?_⟩
      rcases hr with rfl | rfl
      · exact .inl within
      · exact .inr within
  unfold WorkArea.contains
  cases hs : WorkArea.seat d p with
  | none =>
    refine ⟨nofun, ?_⟩
    rintro ⟨loc, seats, settles, -, -, found⟩
    rw [seat_eq_some_iff.mpr ⟨loc, seats, settles, rfl, found⟩] at hs
    cases hs
  | some s =>
    obtain ⟨loc, seats, settles, rfl, found⟩ := seat_eq_some_iff.mp hs
    dsimp only
    rw [judged]
    constructor
    · rintro ⟨holds, free⟩
      exact ⟨loc, seats, settles, holds, free, found⟩
    · rintro ⟨loc', seats', -, holds, free, -⟩
      cases seats.unique seats'
      exact ⟨holds, free⟩

/-- A path with its last name on a link is sanctioned just where it is closed and leads through the
link to a directory, and the link itself sits in the area. -/
private theorem contains_link_iff {text : Bytes} (seats : d.Seats p loc)
    (link : d.get? loc = some (.link text)) : area.contains d p = true ↔
      p.IsClosed ∧ d.Resolvable p ∧ area.Holds loc ∧ ¬ area.Protects loc ∧
        ∃ target, d.ownEntryAt p = .ok (target, .directory) := by
  rw [contains_iff]
  constructor
  · rintro ⟨loc', seats', settles, holds, free, own, node, found, plain⟩
    cases seats.unique seats'
    obtain ⟨init, name, dir, steps, -⟩ := id seats
    obtain ⟨entry, hn⟩ := ownEntryAt_eq_ok_iff.mp found
    obtain ⟨loc', seats', rfl | ⟨closed, isDir, -⟩⟩ := own_cases steps name.bytes_ne_dotDot entry
    · cases seats.unique seats'
      rw [link, Option.some.injEq] at hn
      subst hn
      cases plain
    · rw [show d.get? own = _ from isDir, Option.some.injEq] at hn
      subst hn
      exact ⟨closed, settles, holds, free, own, found⟩
  · rintro ⟨-, settles, holds, free, target, found⟩
    exact ⟨loc, seats, settles, holds, free, target, .directory, found, rfl⟩

/-- The area takes the path for its own, and a link under its last name leads to a directory. -/
structure Pierced (d : Disk) (area : WorkArea) (p : Path) (target : Location) : Prop where
  sanctioned : area.contains d p = true
  onLink : ∃ loc text, d.Seats p loc ∧ d.get? loc = some (.link text)
  leads : d.ownEntryAt p = .ok (target, .directory)

theorem Pierced.after_removeTree (h : d.Pierced area p target) :
    after (removeTree p) d = d.clear target := by
  rw [after_removeTree_of_directory h.leads]
  rcases after_removeDirectory_cases (d.clear target) p with ⟨loc, drops, -⟩ | e
  · obtain ⟨dir, name, closed, last, rfl⟩ := drops.named
    obtain ⟨loc, text, seats, link⟩ := h.onLink
    cases seats.unique (seats_of_resolveLast (clear_within target) last)
    have isDir := (clear_within target).isDirectory drops.isDirectory
    rw [show d.get? _ = _ from isDir] at link
    cases link
  · exact e

theorem get?_after_removeDirectory_of_ne (sub : d'.Within d) (seats : d.Seats q loc)
    (ne : other ≠ loc) : (after (removeDirectory q) d').get? other = d'.get? other := by
  rcases after_removeDirectory_cases d' q with ⟨loc', drops, e⟩ | e
  · obtain ⟨dir, name, closed, last, rfl⟩ := drops.named
    cases seats.unique (seats_of_resolveLast sub last)
    rw [e, drops.get?_uproot ne]
  · rw [e]

theorem get?_after_removeDirectory (sub : d'.Within d) (h : area.contains d q = true)
    (out : ¬ area.Holds other) : (after (removeDirectory q) d').get? other = d'.get? other := by
  obtain ⟨loc, seats, -, holds, -⟩ := contains_iff.mp h
  refine get?_after_removeDirectory_of_ne sub seats ?_
  rintro rfl
  exact out holds

theorem get?_after_removeTree (h : area.contains d p = true)
    (whole : ∀ target, ¬ d.Pierced area p target) (out : ¬ area.Holds other) :
    (after (removeTree p) d).get? other = d.get? other := by
  obtain ⟨loc, seats, -, holds, -, own, node, found, plain⟩ := contains_iff.mp h
  obtain ⟨init, name, dir, steps, -⟩ := id seats
  obtain ⟨entry, hn⟩ := ownEntryAt_eq_ok_iff.mp found
  obtain ⟨loc', seats', cases⟩ := own_cases steps name.bytes_ne_dotDot entry
  cases seats.unique seats'
  rcases cases with rfl | ⟨-, isDir, -, text, link⟩
  · by_cases isDir : node = .directory
    · subst isDir
      have cleared : (d.clear own).get? other = d.get? other := by
        rw [get?_clear, if_neg fun le => out (holds.mono le.1)]
      rw [after_removeTree_of_directory found, ← cleared]
      exact get?_after_removeDirectory (clear_within own) h out
    · rw [after_removeTree_of_plain found plain isDir]
  · rw [show d.get? own = _ from isDir, Option.some.injEq] at hn
    subst hn
    exact absurd ⟨h, ⟨_, _, seats, link⟩, found⟩ (whole own)

end Disk

namespace Release

variable {ε : Type} {w : World}

theorem dropTree_run (p : Path) (w : World) : ∃ w',
    (dropTree p : Action ε Unit) w = .ok () w' ∧ w'.disk = after (Disk.removeTree p) w.disk := by
  obtain ⟨result, h⟩ := World.outcome_eq (w := w) (World.onDisk (Disk.removeTree p))
  unfold dropTree
  rw [bind_of_ok h, World.after_onDisk]
  cases result with
  | ok => exact ⟨_, World.note_eq .., rfl⟩
  | error fault =>
    dsimp only
    split
    · exact ⟨_, rfl, rfl⟩
    · exact ⟨_, World.note_eq .., rfl⟩

theorem dropIfEmpty_run (p : Path) (w : World) : ∃ w',
    (dropIfEmpty p : Action ε Unit) w = .ok () w' ∧
      w'.disk = after (Disk.removeDirectory p) w.disk := by
  obtain ⟨result, h⟩ := World.outcome_eq (w := w) (World.onDisk (Disk.removeDirectory p))
  unfold dropIfEmpty
  rw [bind_of_ok h, World.after_onDisk]
  cases result with
  | ok => exact ⟨_, World.note_eq .., rfl⟩
  | error fault =>
    dsimp only
    split
    · exact ⟨_, rfl, rfl⟩
    · exact ⟨_, World.note_eq .., rfl⟩

/-- A release never fails. The tree goes if the policy lets it, then the parent if the policy let
it go before that. -/
theorem release_run (policy : PathPolicy) (p : Path) (w : World) : ∃ w',
    (release policy p : Action ε Unit) w = .ok () w' ∧ w'.disk =
      let d := if policy w.disk p then after (Disk.removeTree p) w.disk else w.disk
      match p.parent.filter (policy w.disk) with
      | some parent => after (Disk.removeDirectory parent) d
      | none => d := by
  have last : ∀ w' : World, ∃ w'', (match p.parent.filter (policy w.disk) with
        | some parent => dropIfEmpty parent
        | none => pure () : Action ε Unit) w' = .ok () w'' ∧
      w''.disk = match p.parent.filter (policy w.disk) with
        | some parent => after (Disk.removeDirectory parent) w'.disk
        | none => w'.disk := by
    intro w'
    cases p.parent.filter (policy w.disk) with
    | none => exact ⟨w', rfl, rfl⟩
    | some parent => exact dropIfEmpty_run parent w'
  unfold release
  rw [bind_of_ok (show (get : Action ε World) w = .ok w w from rfl)]
  by_cases own : policy w.disk p = true
  · obtain ⟨w', h, e⟩ := dropTree_run (ε := ε) p w
    obtain ⟨w'', h', e'⟩ := last w'
    simp only [own, if_true]
    exact ⟨w'', (bind_of_ok h).trans h', by rw [e', e]⟩
  · obtain ⟨w'', h', e'⟩ := last _
    simp only [own]
    exact ⟨w'', (bind_of_ok (World.note_eq ..)).trans h', e'⟩

private theorem get?_after_release_ne_iff (p : Path) (w : World) (out : ¬ area.Holds other) :
    (after (release area.policy p : Action ε Unit) w).disk.get? other ≠ w.disk.get? other ↔
      w.disk.get? other ≠ none ∧
        ∃ target, w.disk.Pierced area p target ∧ target <+: other ∧ other ≠ target := by
  obtain ⟨w', h, e⟩ := release_run (ε := ε) area.policy p w
  rw [after_of_ok h, e]
  have tree : (if area.policy w.disk p then after (Disk.removeTree p) w.disk else w.disk).Within
      w.disk := by
    split
    · rename_i own
      obtain ⟨-, -, -, -, -, own, node, found, plain⟩ := Disk.contains_iff.mp own
      exact Disk.after_removeTree_within found plain
    · exact Disk.Within.refl _
  have parent : ∀ d : Disk, d.Within w.disk → (match p.parent.filter (area.policy w.disk) with
      | some parent => after (Disk.removeDirectory parent) d
      | none => d).get? other = d.get? other := by
    intro d sub
    cases hp : p.parent.filter (area.policy w.disk) with
    | none => rfl
    | some parent =>
      exact Disk.get?_after_removeDirectory sub (Option.filter_eq_some_iff.mp hp).2 out
  dsimp only
  rw [parent _ tree]
  by_cases pierced : ∃ target, w.disk.Pierced area p target
  · obtain ⟨target, h⟩ := pierced
    rw [if_pos (show area.policy w.disk p = true from h.sanctioned), h.after_removeTree, Disk.get?_clear]
    constructor
    · intro ne
      split at ne
      · rename_i below
        exact ⟨ne.symm, target, h, below⟩
      · exact absurd rfl ne
    · rintro ⟨found, target', h', below⟩
      obtain rfl : target = target' := by
        have same := h.leads.symm.trans h'.leads
        cases same
        rfl
      rw [if_pos below]
      exact found.symm
  · rw [not_exists] at pierced
    refine ⟨fun ne => absurd ?_ ne, fun ⟨_, target, h, _⟩ => absurd h (pierced target)⟩
    by_cases own : area.policy w.disk p = true
    · rw [if_pos own]
      exact Disk.get?_after_removeTree own pierced out
    · rw [if_neg own]

/-- What a release changes outside the area: all that lies below a directory behind a link, if the
link is in the area and its path is closed. Such a path is the only kind that is sanctioned with a
link under its last name. -/
theorem changes_outside_iff (area : WorkArea) (p : Path) (w : World) :
    (∀ other, ¬ area.Holds other →
      ((after (release area.policy p : Action ε Unit) w).disk.get? other ≠ w.disk.get? other ↔
        w.disk.get? other ≠ none ∧
          ∃ target, w.disk.Pierced area p target ∧ target <+: other ∧ other ≠ target)) ∧
    ∀ loc text, w.disk.Seats p loc → w.disk.get? loc = some (.link text) →
      (area.contains w.disk p = true ↔
        p.IsClosed ∧ w.disk.Resolvable p ∧ area.Holds loc ∧
          ¬ area.Protects loc ∧ ∃ target, w.disk.ownEntryAt p = .ok (target, .directory)) :=
  ⟨fun _ out => get?_after_release_ne_iff p w out,
    fun _ _ seats link => Disk.contains_link_iff seats link⟩

/-- A link in the temp hierarchy that leads to a directory outside of the area. -/
def strayLink : World := .holding [
  ([47, 116], .directory), ([47, 111], .directory), ([47, 111, 47, 102], .file [1]),
  ([47, 116, 47, 97], .link [47, 111])]

/-- The file behind the link goes with a release of the link. -/
theorem clears_behind_link :
    ¬ WorkArea.Holds ⟨⟨[47, 100]⟩, ⟨[47, 116]⟩⟩ [⟨[111], by decide⟩, ⟨[102], by decide⟩] ∧
      (after (release (WorkArea.policy ⟨⟨[47, 100]⟩, ⟨[47, 116]⟩⟩) ⟨[47, 116, 47, 97, 47]⟩ :
        Action Empty Unit) strayLink).disk.get? [⟨[111], by decide⟩, ⟨[102], by decide⟩] ≠
        strayLink.disk.get? [⟨[111], by decide⟩, ⟨[102], by decide⟩] := by
  have out : ¬ WorkArea.Holds ⟨⟨[47, 100]⟩, ⟨[47, 116]⟩⟩
      [⟨[111], by decide⟩, ⟨[102], by decide⟩] := by
    rintro ⟨root, rfl | rfl, within, -⟩
    · exact absurd within (by decide)
    · exact absurd within (by decide)
  have isDir : strayLink.disk.get? ([] ++ [⟨[116], by decide⟩]) = some .directory := by decide
  have seats : strayLink.disk.Seats ⟨[47, 116, 47, 97, 47]⟩
      [⟨[116], by decide⟩, ⟨[97], by decide⟩] :=
    ⟨[[116]], ⟨[97], by decide⟩, [⟨[116], by decide⟩], by decide, isDir,
      ⟨0, by decide, .name isDir rfl (.done _)⟩, rfl⟩
  refine ⟨out, (((changes_outside_iff ⟨⟨[47, 100]⟩, ⟨[47, 116]⟩⟩ ⟨[47, 116, 47, 97, 47]⟩
    strayLink).1 _ out).mpr ⟨by decide, [⟨[111], by decide⟩], ⟨by decide, ?_, by rfl⟩,
      by decide, by decide⟩)⟩
  exact ⟨_, [47, 111], seats, by decide⟩

end Release
end LayeredTree
