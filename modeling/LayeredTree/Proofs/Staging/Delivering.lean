import LayeredTree.Proofs.Disk.Sparing
import LayeredTree.Proofs.Influence
import LayeredTree.Proofs.Staging.Gathering
import LayeredTree.Proofs.Staging.Relocating

set_option autoImplicit false

namespace LayeredTree

open World Chain

variable {ε : Type} {w v : World} {old d d' : Disk} {area : WorkArea}
variable {data temp dir place loc goal : Location} {name : Name} {p merged output : Path}

namespace Disk

/-- A path names a place where an earlier disk has nothing, on every disk that spares that one. -/
structure NamesNew (old : Disk) (p : Path) (place : Location) : Prop where
  free : old.get? place = none
  sits : ∃ d, old.Spares d ∧ d.Seats p place ∧ d.Reaches p place

namespace NamesNew

theorem seat (h : old.NamesNew p place) (spares : old.Spares d) (seats : d.Seats p loc) :
    loc = place := by
  obtain ⟨d', spares', seats', -⟩ := h.sits
  exact spares.seats_unique spares' seats seats'

theorem off (h : old.NamesNew p place) (there : old.get? loc ≠ none) : ¬ place <+: loc := by
  rintro ⟨names, rfl⟩
  exact there (get?_append_of_none h.free)

theorem reached (h : old.NamesNew p place) (spares : old.Spares d) (reach : d.Reaches p loc) :
    loc = place := by
  obtain ⟨d', spares', -, reach'⟩ := h.sits
  exact spares.unique spares' reach reach'

end NamesNew

/-- A place where something can be put under a path once directories are made for it. -/
def Puts (d : Disk) (p : Path) (goal : Location) : Prop :=
  ∃ d', d.MadeFor p d' ∧ (d'.Seats p goal ∧ d'.get? goal = none ∨
    d'.Reaches p goal ∧ d'.IsDirectory goal ∧ Short p)

theorem puts_of_seats (made : d.MadeFor p d') (seats : d'.Seats p loc)
    (spelled : checkText p = .ok ()) (vacant : d'.get? loc = none ∨ d'.IsDirectory loc) :
    d.Puts p loc :=
  ⟨d', made, vacant.imp (fun free => ⟨seats, free⟩)
    fun isDir => ⟨seats.reaches spelled isDir, isDir, (of_checkText spelled).2.2⟩⟩

/-- Wherever something can be put under the path an earlier disk has nothing. -/
def Avoids (old d : Disk) (p : Path) : Prop := ∀ goal, d.Puts p goal → old.get? goal = none

theorem avoids_of_steady (steady : old.Steady p) (absent : old.hasEntry p = false)
    (spares : old.Spares d) : old.Avoids d p := by
  rintro goal ⟨d', made, ⟨-, free⟩ | ⟨reach, -, short⟩⟩
  · exact (spares.trans (.of_dug made.dug)).none free
  · refine (steady d' goal (spares.trans (.of_dug made.dug)) reach).resolve_left fun there => ?_
    rw [hasEntry_iff.mpr ⟨goal, there, short⟩] at absent
    cases absent

theorem Puts.breaks (h : d.Puts p goal) (plain : Path.dotDot ∉ p.steps)
    (missing : ∀ loc, ¬ d.Reaches p loc) : ∃ brk rest, d.Breaks p brk rest ∧ brk <+: goal := by
  obtain ⟨d', made, ⟨seats, free⟩ | ⟨reach, isDir, -⟩⟩ := h
  · obtain ⟨init, name, dir, steps, isDir, way, e⟩ := seats
    exact (made.only plain).breaks (goesDown_of_steps plain)
      ⟨init, name, dir, steps, isDir, way, e, free⟩
  · obtain ⟨brk, names, breaks, rfl⟩ := ((made.only plain).reaches_cases
      (goesDown_of_steps plain) reach isDir).resolve_left (missing goal)
    exact ⟨brk, _, breaks, List.prefix_append _ _⟩

end Disk

theorem Release.release_new (names : old.NamesNew (Location.path (dir ++ [name])) place)
    (spares : old.Spares w.disk) (shared : area.Protects dir)
    (up : w.disk.IsDirectory dir.dropLast) : ∃ v,
      (release area.policy (Location.path (dir ++ [name])) : Action ε Unit) w = .ok () v ∧
        v.disk.Within w.disk ∧
          ∀ other, ¬ place <+: other → v.disk.get? other = w.disk.get? other := by
  obtain ⟨v, run, e⟩ := release_child (ε := ε) area shared up name
  refine ⟨v, run, ?_⟩
  by_cases sanctioned : area.policy w.disk (Location.path (dir ++ [name])) = true
  · rw [if_pos sanctioned] at e
    obtain ⟨loc, seats, -, -, -, own, node, found, plain⟩ := Disk.contains_iff.mp sanctioned
    cases names.seat spares seats
    have steps : (Location.path (dir ++ [name])).steps = dir.map Name.bytes ++ [name.bytes] := by
      rw [Location.steps_path]
      simp
    obtain ⟨seat, seats', rfl | ⟨-, -, -, target, link⟩⟩ :=
      Disk.own_cases steps name.bytes_ne_dotDot (Disk.ownEntryAt_eq_ok_iff.mp found).1
    · cases seats'.unique seats
      rw [e]
      refine ⟨Disk.after_removeTree_within found plain, fun other away => ?_⟩
      by_cases isDir : node = .directory
      · subst isDir
        rw [Disk.after_removeTree_of_directory found,
          Disk.get?_after_removeDirectory_of_ne (Disk.clear_within _) seats, Disk.get?_clear,
          if_neg fun below => away below.1]
        rintro rfl
        exact away (List.prefix_refl _)
      · rw [Disk.after_removeTree_of_plain found plain isDir]
    · cases seats'.unique seats
      have link' := spares.link link
      rw [names.free] at link'
      cases link'
  · rw [if_neg sanctioned] at e
    rw [e]
    exact ⟨.refl _, fun _ _ => rfl⟩

theorem Staging.Staged.spares {scope : WalkScope} {source : Path}
    (h : Staging.Staged d temp scope source name d') : d.Spares d' := by
  obtain ⟨-, -, -, files, -, -, -, -, holdsFiles, -⟩ := h.copied
  exact .of_newAt h.new h.isDirectory holdsFiles

theorem Disk.Shows.holdsFiles {out : Path} {files : Key → Option Bytes} (h : d.Shows out goal files) :
    d.HoldsFiles goal fun names => files (Location.key names) := by
  refine ⟨fun names ne content held => (h.get?_iff names ne _).mpr (.inl ⟨content, held, rfl⟩),
    fun names ne node found => ?_⟩
  rcases (h.get?_iff names ne node).mp found with ⟨content, held, e⟩ | ⟨e, -⟩
  · exact .inr ⟨content, held, e⟩
  · exact .inl e

namespace Command

/-- A merged tree is ready on a disk that spares an earlier one. It lies where that one has nothing,
and all files that are new since are below. -/
structure AddsTree (old d : Disk) (merged : Path) (place : Location) : Prop where
  spares : old.Spares d
  names : old.NamesNew merged place
  kind : ∀ node, d.get? place = some node → node = .directory
  files : ∀ loc content, d.get? loc = some (.file content) →
    old.get? loc = some (.file content) ∨ place <+: loc
  covered : ∀ names ≠ [], ∀ content, d.get? (place ++ names) = some (.file content) →
    Disk.Covers .content names (.file content)

namespace AddsTree

theorem dug (h : AddsTree old d merged place) (dug : d.Dug d') : AddsTree old d' merged place := by
  refine ⟨h.spares.trans (.of_dug dug), h.names, fun node found => ?_, fun loc content found =>
    h.files loc content (dug.file_iff.mp found), fun names ne content found =>
    h.covered names ne content (dug.file_iff.mp found)⟩
  rcases dug.get? place with same | ⟨-, isDir⟩
  · exact h.kind node (same ▸ found)
  · rw [show d'.get? place = _ from isDir] at found
    cases found
    rfl

theorem of_dug (dug : old.Dug d) (h : AddsTree d d' merged place) : AddsTree old d' merged place := by
  have spares := Disk.Spares.of_dug dug
  obtain ⟨d₁, spares₁, sits⟩ := h.names.sits
  exact ⟨spares.trans h.spares, ⟨dug.none h.names.free, d₁, spares.trans spares₁, sits⟩, h.kind,
    fun loc content found => (h.files loc content found).imp_left dug.file_iff.mp, h.covered⟩

theorem fileAt_eq_none (h : AddsTree old d merged place) (new : old.get? goal = none)
    (apart : goal.Disjoint place) (names : Location) : d.fileAt (goal ++ names) = none := by
  by_contra some
  obtain ⟨content, held⟩ := Option.ne_none_iff_exists'.mp some
  rcases h.files _ content (Disk.fileAt_eq_some_iff.mp held) with there | below
  · rw [Disk.get?_append_of_none new] at there
    cases there
  · exact apart.symm.not_prefix_append names below

end AddsTree

section Gathered

variable {u₁ u u' : Disk} {before patch : Path} {b l : Name} {top : Location} {n : Nat}
variable {request : CombineRequest} {record : PatchRecord} {base layer : List TreeEntry}
variable (copy : Staging.Staged d temp .content before b u₁)
variable (copy' : Staging.Staged u₁ temp .everything patch l u)
variable (merges : Combiner.Merges request temp u u' top n record base layer)
variable (unstaged : Unstaged d u u' d' (temp ++ [b]) (temp ++ [l]))

include copy copy' merges unstaged

theorem addsTree_of_gathered : AddsTree d d' (Location.path (mergePlace temp ++ [Patch.mergedChild n]))
    (top ++ [Patch.mergedChild n]) := by
  obtain ⟨d₁, rooted, new⟩ := merges.rooted
  have spares : d.Spares u' := (copy.spares.trans copy'.spares).trans
    ((Disk.Spares.of_dug rooted.dug).trans (.of_newAt new merges.shows.isDirectory
      merges.shows.holdsFiles))
  have grown := (copy.new.within.trans copy'.new.within).trans rooted.dug.within
  have free : d.get? (top ++ [Patch.mergedChild n]) = none := by
    cases found : d.get? (top ++ [Patch.mergedChild n]) with
    | none => rfl
    | some node =>
      have still := grown.2 _ _ found
      rw [new.free] at still
      cases still
  have seats : u'.Seats (Location.path (mergePlace temp ++ [Patch.mergedChild n]))
      (top ++ [Patch.mergedChild n]) := by
    have short := merges.short
    rw [← Location.child_path] at short ⊢
    exact Disk.seats_of_resolveLast (.refl _) ((rooted.reaches.mono new.within).resolveLast_child
      (new.within.isDirectory rooted.isDirectory) short)
  have kept : ∀ loc, d.get? loc ≠ none → d'.get? loc = u'.get? loc := by
    intro loc there
    have off : ¬ (temp ++ [b] <+: loc ∨ temp ++ [l] <+: loc) := fun inside =>
      there (unstaged.within loc inside).1
    obtain ⟨away, away'⟩ := not_or.mp off
    exact (unstaged.beside loc away away').2
  refine ⟨spares.shrink unstaged.shrunk kept, ⟨free, u', spares, seats, merges.shows.reaches⟩,
    fun node found => ?_, fun loc content found => ?_, fun names ne content found =>
    merges.shows.covers ne (unstaged.shrunk.2 _ _ found)⟩
  · have there := unstaged.shrunk.2 _ _ found
    rw [show u'.get? _ = _ from merges.shows.isDirectory] at there
    cases there
    rfl
  · by_cases below : top ++ [Patch.mergedChild n] <+: loc
    · exact .inr below
    have off : ¬ (temp ++ [b] <+: loc ∨ temp ++ [l] <+: loc) := by
      intro inside
      rw [(unstaged.within loc inside).2] at found
      cases found
    obtain ⟨away, away'⟩ := not_or.mp off
    obtain ⟨before_, after_⟩ := unstaged.beside loc away away'
    rw [after_, new.get? loc below] at found
    rcases rooted.dug.get? loc with same | ⟨-, isDir⟩
    · exact .inl (before_ ▸ same ▸ found)
    · rw [show d₁.get? loc = _ from isDir] at found
      cases found

theorem same_of_gathered (there : d'.get? (top ++ [Patch.mergedChild n]) ≠ none)
    (names : Location) : d'.get? (top ++ [Patch.mergedChild n] ++ names) =
      u'.get? (top ++ [Patch.mergedChild n] ++ names) := by
  obtain ⟨d₁, rooted, new⟩ := merges.rooted
  have off : ∀ root, u.IsDirectory root → root = temp ++ [b] ∨ root = temp ++ [l] →
      ¬ root <+: top ++ [Patch.mergedChild n] ++ names := by
    intro root isDir staged below
    rcases List.prefix_or_prefix_of_prefix below (List.prefix_append _ names) with le | ⟨rest, rfl⟩
    · refine there (unstaged.within _ ?_).2
      rcases staged with rfl | rfl
      · exact .inl le
      · exact .inr le
    · have still := rooted.dug.within.isDirectory isDir
      rw [Disk.IsDirectory, Disk.get?_append_of_none new.free] at still
      cases still
  exact (unstaged.beside _
    (off _ (copy'.new.within.isDirectory copy.isDirectory) (.inl rfl))
    (off _ copy'.isDirectory (.inr rfl))).2

theorem direct_of_gathered (plain : ∀ text, d.get? (mergePlace temp) ≠ some (.link text)) :
    top = mergePlace temp ∧ d'.IsDirectory (top ++ [Patch.mergedChild n]) := by
  obtain ⟨d₁, rooted, new⟩ := merges.rooted
  have same : u.get? (mergePlace temp) = d.get? (mergePlace temp) := by
    simpa using (copy'.get?_merged []).trans (copy.get?_merged [])
  obtain rfl : top = mergePlace temp := rooted.direct (by rwa [same])
  exact ⟨rfl, (unstaged.beside _ (copy.beside _) (copy'.beside _)).2.trans
    merges.shows.isDirectory⟩

end Gathered

section Relocated

open Staging

variable (adds : AddsTree old w.disk merged place) (ne : output.text ≠ [])

include adds ne

private theorem relocate_ends_adding : Relocated merged output w (relocate merged output w) :=
  relocate_ends ne fun d made loc seats node found => by
    have adds' := adds.dug made.dug
    cases adds.names.seat adds'.spares seats
    exact adds'.kind node found

variable (avoids : old.Avoids w.disk output)

include avoids

theorem relocate_spares : old.Spares (after (relocate merged output) w).disk ∧
    ∀ loc, ¬ place <+: loc → w.disk.IsDirectory loc →
      (after (relocate merged output) w).disk.IsDirectory loc := by
  have ends := relocate_ends_adding adds ne
  unfold after
  generalize relocate merged output w = r at ends
  cases ends with
  | stuck made =>
    exact ⟨(adds.dug made.dug).spares, fun loc _ isDir => made.dug.within.isDirectory isDir⟩
  | there made =>
    exact ⟨(adds.dug made.dug).spares, fun loc _ isDir => made.dug.within.isDirectory isDir⟩
  | @moved source target d v made seats seats' spelled moved =>
    have spares := (adds.dug made.dug).spares
    cases adds.names.seat spares seats
    have new := avoids _ (Disk.puts_of_seats made seats' spelled (moved.vacant.imp_right And.left))
    exact ⟨spares.moved adds.names.free new moved, fun loc off isDir =>
      moved.keeps off (made.dug.within.isDirectory isDir)⟩
  | @poured root u r made reach isDir short copied =>
    have spares := (adds.dug made.dug).spares
    have new := avoids _ ⟨_, made, .inr ⟨reach, isDir, short⟩⟩
    obtain ⟨files, v, same, paves, holdsFiles, ends⟩ :=
      copyTree_run .content merged u reach isDir (spares.holdsFiles new)
    have last : ∀ loc, ¬ place <+: loc → w.disk.IsDirectory loc → v.disk.IsDirectory loc :=
      fun loc _ isDir => paves.isDirectory (made.dug.within.isDirectory isDir)
    rcases ends with ⟨e, run⟩ | ⟨run, -⟩
    · cases copied.symm.trans run
      exact ⟨spares.pour new same holdsFiles, last⟩
    · cases copied.symm.trans run
      exact ⟨spares.pour new same holdsFiles, last⟩

/-- Once it is relocated, the output leads to a place where it could be put. The files below are
those of the merged tree, whatever happens where that was. -/
theorem files_of_relocate (run : relocate merged output w = .ok () v) (spares : old.Spares d)
    (off : ∀ other, ¬ place <+: other → d.get? other = v.disk.get? other)
    (reach : d.Reaches output goal) (isDir : d.IsDirectory goal) :
    w.disk.Puts output goal ∧ (goal.Disjoint place → ∀ names ≠ [], ∀ content,
      d.get? (goal ++ names) = some (.file content) ↔
        w.disk.get? (place ++ names) = some (.file content)) := by
  have ends := relocate_ends_adding adds ne
  rw [run] at ends
  cases ends with
  | there made seats seats' spelled isDir' =>
    have spares' := (adds.dug made.dug).spares
    cases adds.names.seat spares' seats
    cases spares'.reached spares seats' reach isDir fun text found => by
      have old := spares.link found
      rw [adds.names.free] at old
      cases old
    exact ⟨Disk.puts_of_seats made seats' spelled (.inr isDir'), fun apart =>
      absurd (List.prefix_refl _) apart.1⟩
  | @moved source target d' _ made seats seats' spelled moved =>
    have adds' := adds.dug made.dug
    cases adds.names.seat adds'.spares seats
    have puts := Disk.puts_of_seats made seats' spelled (moved.vacant.imp_right And.left)
    cases adds'.spares.reached spares seats' reach isDir fun text found => by
      have old := spares.link found
      rw [avoids _ puts] at old
      cases old
    refine ⟨puts, fun apart names _ content => ?_⟩
    rw [off _ (apart.symm.not_prefix_append names), moved.get?_target, made.dug.file_iff]
  | @poured root u _ made reach' isDir' short copied =>
    have adds' := adds.dug made.dug
    cases adds'.spares.unique spares reach' reach
    have puts : w.disk.Puts output goal := ⟨_, made, .inr ⟨reach', isDir', short⟩⟩
    have new := avoids _ puts
    obtain ⟨files, v', same, -, holdsFiles, ends⟩ :=
      copyTree_run .content merged u reach' isDir' (adds'.spares.holdsFiles new)
    rcases ends with ⟨e, run'⟩ | ⟨run', entries, origin, -, walked, -, all⟩
    · cases copied.symm.trans run'
    · cases copied.symm.trans run'
      cases adds.names.reached adds'.spares walked.reaches
      refine ⟨puts, fun apart names proper content => ?_⟩
      have held := all apart.symm names
      rw [adds'.fileAt_eq_none new apart, Option.or_none] at held
      rw [off _ (apart.symm.not_prefix_append names), ← made.dug.file_iff]
      constructor
      · intro found
        rcases holdsFiles.only names proper _ found with e | ⟨content', there, e⟩
        · cases e
        · cases e
          rw [held] at there
          obtain ⟨names', -, found', -, e⟩ := walked.get?_contentsOf.mp there
          cases Location.key_injective e
          exact found'
      · intro found
        refine holdsFiles.held names proper content (held.trans ?_)
        exact walked.get?_contentsOf.mpr
          ⟨names, proper, found, adds'.covered names proper content found, rfl⟩

/-- If the output goes down only and leads nowhere yet, all that is put in its place lies behind the
first missing step. Nothing else changes but the merged tree, and that is a directory or gone. -/
theorem relocate_frame (plain : Path.dotDot ∉ output.steps)
    (missing : ∀ loc, ¬ w.disk.Reaches output loc)
    (apart : ∀ brk rest, w.disk.Breaks output brk rest → brk.Disjoint place) :
    (∀ other, ¬ place <+: other →
      (∀ brk rest, w.disk.Breaks output brk rest → ¬ brk <+: other) →
        (after (relocate merged output) w).disk.get? other = w.disk.get? other) ∧
    ∀ node, (after (relocate merged output) w).disk.get? place = some node →
      node = .directory := by
  have ends := relocate_ends_adding adds ne
  unfold after
  generalize relocate merged output w = r at ends
  cases ends with
  | stuck made =>
    exact ⟨fun other _ off => (made.only plain).get?_eq off, (adds.dug made.dug).kind⟩
  | there made =>
    exact ⟨fun other _ off => (made.only plain).get?_eq off, (adds.dug made.dug).kind⟩
  | @moved source target d v made seats seats' spelled moved =>
    cases adds.names.seat (adds.dug made.dug).spares seats
    obtain ⟨brk, rest, breaks, le⟩ := (Disk.puts_of_seats made seats' spelled
      (moved.vacant.imp_right And.left)).breaks plain missing
    refine ⟨fun other off off' => ?_, fun node found => ?_⟩
    · rw [moved.get?_off off fun below => off' brk rest breaks (le.trans below)]
      exact (made.only plain).get?_eq off'
    · have gone := moved.get?_source []
      rw [List.append_nil, show v.disk.get? _ = _ from found] at gone
      cases gone
  | @poured root u r made reach isDir short copied =>
    have adds' := adds.dug made.dug
    have puts : w.disk.Puts output root := ⟨_, made, .inr ⟨reach, isDir, short⟩⟩
    obtain ⟨brk, rest, breaks, le⟩ := puts.breaks plain missing
    obtain ⟨files, v, same, -, -, ends⟩ := copyTree_run .content merged u reach isDir
      (adds'.spares.holdsFiles (avoids _ puts))
    have frame : ∀ other, ¬ brk <+: other → v.disk.get? other = u.disk.get? other :=
      fun other off => same.2 other fun below => off (le.trans below.1)
    have last : (∀ other, ¬ place <+: other →
        (∀ brk rest, w.disk.Breaks output brk rest → ¬ brk <+: other) →
          v.disk.get? other = w.disk.get? other) ∧
        ∀ node, v.disk.get? place = some node → node = .directory := by
      refine ⟨fun other _ off => ?_, fun node found => adds'.kind node ?_⟩
      · rw [frame other (off brk rest breaks)]
        exact (made.only plain).get?_eq off
      · rw [← frame place (apart brk rest breaks).1]
        exact found
    rcases ends with ⟨e, run⟩ | ⟨run, -⟩
    · cases copied.symm.trans run
      exact last
    · cases copied.symm.trans run
      exact last

end Relocated

/-- The second half spares what was there. If it succeeds, the output was put where that could be
and has the files of the merged tree, unless it lies around or within that. -/
theorem deliver_ends {name : Name} (shared : area.Protects (mergePlace temp))
    (isTemp : w.disk.IsDirectory temp) (off : ¬ place <+: temp)
    (adds : AddsTree old w.disk (Location.path (mergePlace temp ++ [name])) place)
    (ne : output.text ≠ []) (avoids : old.Avoids w.disk output) :
    old.Spares
        (after (deliver area (Location.path (mergePlace temp ++ [name])) output) w).disk ∧
      ∀ text v, deliver area (Location.path (mergePlace temp ++ [name])) output w = .ok text v →
        ∃ goal m, v.disk.Reaches output goal ∧ w.disk.Puts output goal ∧
          v.disk.contents output = .ok m ∧ text = told output (Digest.ofContents m) ∧
            (goal.Disjoint place → ∀ names ≠ [], ∀ content,
              v.disk.get? (goal ++ names) = some (.file content) ↔
                w.disk.get? (place ++ names) = some (.file content)) := by
  obtain ⟨spares, keeps⟩ := relocate_spares adds ne avoids
  have up : (after (Staging.relocate (Location.path (mergePlace temp ++ [name])) output)
      w).disk.IsDirectory (mergePlace temp).dropLast := by
    rw [mergePlace, List.dropLast_concat]
    exact keeps temp off isTemp
  obtain ⟨v, released, shrunk, beside⟩ :=
    Release.release_new (ε := CommandError) adds.names spares shared up
  obtain ⟨whole, ends⟩ := deliver_run rfl released
  have spares' : old.Spares v.disk :=
    spares.shrink shrunk fun loc there => beside loc (adds.names.off there)
  refine ⟨whole ▸ spares', fun text u run => ?_⟩
  obtain ⟨same, relocated, digest, files, found, rfl⟩ := ends text u run
  rw [same]
  rw [Disk.digest_eq_map_contents] at found
  cases held : v.disk.contents output with
  | error e =>
    rw [held] at found
    cases found
  | ok m =>
    rw [held] at found
    cases found
    obtain ⟨entries, walk, -⟩ := Disk.contents_eq_ok_iff.mp held
    obtain ⟨goal, walked⟩ := Disk.walked_of_walk walk
    obtain ⟨puts, files⟩ := files_of_relocate adds ne avoids relocated spares' beside
      walked.reaches walked.isDirectory
    exact ⟨goal, m, walked.reaches, puts, rfl, rfl, files⟩

/-- If the output goes down only and leads nowhere yet, the second half takes the merged tree away
and changes nothing else but what lies behind the first missing step. -/
theorem deliver_frame {name : Name} (shared : area.Protects (mergePlace temp))
    (freed : area.Frees (mergePlace temp ++ [name])) (isTemp : w.disk.IsDirectory temp)
    (adds : AddsTree old w.disk (Location.path (mergePlace temp ++ [name]))
      (mergePlace temp ++ [name]))
    (ne : output.text ≠ []) (avoids : old.Avoids w.disk output)
    (plain : Path.dotDot ∉ output.steps) (missing : ∀ loc, ¬ w.disk.Reaches output loc)
    (apart : ∀ brk rest, w.disk.Breaks output brk rest → brk.Disjoint (mergePlace temp ++ [name]))
    {other : Location} (off : ∀ brk rest, w.disk.Breaks output brk rest → ¬ brk <+: other) :
    (after (deliver area (Location.path (mergePlace temp ++ [name])) output) w).disk.get? other =
      if mergePlace temp ++ [name] <+: other then none else w.disk.get? other := by
  obtain ⟨spares, keeps⟩ := relocate_spares adds ne avoids
  obtain ⟨frame, kind⟩ := relocate_frame adds ne avoids plain missing apart
  by_cases there : (after (Staging.relocate (Location.path (mergePlace temp ++ [name])) output)
      w).disk.IsDirectory (mergePlace temp ++ [name])
  · obtain ⟨v, released, pruned⟩ :=
      Release.release_freed (ε := CommandError) shared freed there
    rw [(deliver_run rfl released).1, pruned.get?]
    split
    · rfl
    · rename_i away
      exact frame other away off
  · have gone : (after (Staging.relocate (Location.path (mergePlace temp ++ [name])) output)
        w).disk.get? (mergePlace temp ++ [name]) = none := by
      by_contra held
      obtain ⟨node, found⟩ := Option.ne_none_iff_exists'.mp held
      exact there (found.trans (congrArg some (kind node found)))
    have up : (after (Staging.relocate (Location.path (mergePlace temp ++ [name])) output)
        w).disk.IsDirectory (mergePlace temp).dropLast := by
      rw [mergePlace, List.dropLast_concat]
      refine keeps temp (fun le => ?_) isTemp
      have longer := le.length_le
      simp [mergePlace] at longer
    obtain ⟨v, released, shrunk, beside⟩ :=
      Release.release_new (ε := CommandError) adds.names spares shared up
    rw [(deliver_run rfl released).1]
    split
    · rename_i below
      obtain ⟨names, rfl⟩ := below
      by_contra held
      obtain ⟨node, found⟩ := Option.ne_none_iff_exists'.mp held
      have still := shrunk.2 _ _ found
      rw [Disk.get?_append_of_none gone] at still
      cases still
    · rename_i away
      rw [beside other away]
      exact frame other away off

end Command
end LayeredTree
