import LayeredTree.Proofs.Disk.Passing
import LayeredTree.Proofs.Judging

/-!
A release under any policy. The policy is asked about the path and its parent before anything is
deleted, and nothing else can go. A directory under a path that ends in a name is gone afterwards,
unless the path leads to it through what is below it: the last step of the removal looks the path up
again, and what it went through is gone by then.
-/

set_option autoImplicit false

namespace LayeredTree

variable {d d' : Disk} {p q : Path} {loc other own dir : Location} {name : Name} {node : Node}
variable {policy : PathPolicy}

namespace Disk

theorem Seats.resolveLast (seats : d.Seats p loc) (ends : p.EndsInName)
    (spelled : checkText p = .ok ()) :
    ∃ dir name closed, d.resolveLast p = .ok (.name dir name closed) ∧ loc = dir ++ [name] := by
  obtain ⟨init, name, dir, steps, isDir, ⟨links, le, way⟩, rfl⟩ := seats
  obtain ⟨ne, zero, short⟩ := of_checkText spelled
  obtain ⟨before, idles, segments, hi, hb⟩ := Path.segments_of_steps steps
  rw [← hb] at way
  have way := (leads_filter_iff before isDir []).mp way
  rcases List.eq_nil_or_concat idles with rfl | ⟨front, idle, rfl⟩
  · exact ⟨dir, name, _, resolveLast_of_leads ne zero short segments (by simp) le way isDir, rfl⟩
  · exact absurd ⟨before ++ name.bytes :: front, idle, by simp [segments], hi idle (by simp)⟩ ends.2

theorem get?_after_removeDirectory_eq_none_iff (ends : p.EndsInName)
    (spelled : checkText p = .ok ()) (isDir : d.IsDirectory loc) :
    (after (removeDirectory p) d).get? loc = none ↔ d.Seats p loc ∧ d.IsBare loc := by
  constructor
  · intro gone
    rcases after_removeDirectory_cases d p with ⟨place, drops, e⟩ | e
    · by_cases same : loc = place
      · subst same
        obtain ⟨dir, name, closed, last, rfl⟩ := drops.named
        exact ⟨seats_of_resolveLast (.refl d) last, drops.isBare⟩
      · rw [e, drops.get?_uproot same, show d.get? loc = _ from isDir] at gone
        cases gone
    · rw [e, show d.get? loc = _ from isDir] at gone
      cases gone
  · rintro ⟨seats, bare⟩
    have drops : d.Drops p loc := ⟨seats.resolveLast ends spelled, isDir, bare⟩
    rw [after_of_ok (removeDirectory_of_drops drops), get?_uproot drops.ne_nil,
      if_pos (List.prefix_refl _)]

theorem after_removeFile_cases (d : Disk) (p : Path) :
    (∃ loc, d.Seats p loc ∧ after (removeFile p) d = d.uproot loc) ∨
      after (removeFile p) d = d := by
  unfold removeFile
  cases hl : d.resolveLast p with
  | error fault => exact .inr (after_of_error (bind_of_error (ask_of_error hl)))
  | ok step =>
    unfold after
    rw [bind_of_ok (ask_of_ok hl)]
    cases step with
    | root => exact .inr rfl
    | dot => exact .inr rfl
    | dotDot => exact .inr rfl
    | name dir name closed =>
      dsimp only
      rw [bind_of_ok (get_eq d)]
      have seats := seats_of_resolveLast (.refl d) hl
      cases d.get? (dir ++ [name]) with
      | none => exact .inr rfl
      | some node =>
        cases closed with
        | true => cases node <;> exact .inr rfl
        | false =>
          cases node with
          | directory => exact .inr rfl
          | file => exact .inl ⟨_, seats, rfl⟩
          | link => exact .inl ⟨_, seats, rfl⟩
          | other => exact .inl ⟨_, seats, rfl⟩

/-- A link goes alone, where the path names it; of a directory all goes that is below it, and then
the directory if it can still be found. Else nothing is removed as a tree. -/
theorem after_removeTree_cases (d : Disk) (p : Path) :
    after (removeTree p) d = d ∨
      (∃ own text, d.ownEntryAt p = .ok (own, .link text) ∧
        after (removeTree p) d = d.uproot own) ∨
      ∃ own, d.ownEntryAt p = .ok (own, .directory) ∧
        after (removeTree p) d = after (removeDirectory p) (d.clear own) := by
  cases found : d.ownEntryAt p with
  | error fault => exact .inl (after_of_error (bind_of_error (ask_of_error found)))
  | ok entry =>
    obtain ⟨own, node⟩ := entry
    cases node with
    | file => exact .inl (after_removeTree_of_plain found rfl (by simp))
    | other => exact .inl (after_removeTree_of_plain found rfl (by simp))
    | directory => exact .inr (.inr ⟨own, rfl, after_removeTree_of_directory found⟩)
    | link text =>
      have same : after (removeTree p) d = after (removeFile p) d := by
        unfold removeTree
        rw [after_bind_of_ok (ask_of_ok found)]
      rw [same]
      rcases after_removeFile_cases d p with ⟨loc, seats, e⟩ | e
      · obtain ⟨init, name, dir, steps, -⟩ := id seats
        obtain ⟨entry, there⟩ := ownEntryAt_eq_ok_iff.mp found
        obtain ⟨seat, seats', rfl | ⟨-, isDir, -⟩⟩ := own_cases steps name.bytes_ne_dotDot entry
        · cases seats.unique seats'
          exact .inr (.inl ⟨_, text, rfl, e⟩)
        · rw [show d.get? own = _ from isDir] at there
          cases there
      · exact .inl e

theorem removeTree_within (d : Disk) (p : Path) : (after (removeTree p) d).Within d := by
  rcases after_removeTree_cases d p with e | ⟨own, text, -, e⟩ | ⟨own, -, e⟩
  · rw [e]
    exact .refl d
  · rw [e]
    exact uproot_within own
  · rw [e]
    exact (after_removeDirectory_within _ p).trans (clear_within own)

theorem eq_own_of_drops (found : d.ownEntryAt p = .ok (own, .directory))
    (drops : (d.clear own).Drops p loc) : loc = own := by
  obtain ⟨dir, name, closed, hl, rfl⟩ := drops.named
  have seats := seats_of_resolveLast (clear_within own) hl
  have isDir := (clear_within own).isDirectory drops.isDirectory
  obtain ⟨init, name', -, steps, -⟩ := id seats
  obtain ⟨seat, seats', cases⟩ :=
    own_cases steps name'.bytes_ne_dotDot (ownEntryAt_eq_ok_iff.mp found).1
  cases seats.unique seats'
  rcases cases with e | ⟨-, -, -, target, link⟩
  · exact e.symm
  · rw [show d.get? _ = _ from isDir] at link
    cases link

theorem exists_own_of_removeTree (changed : (after (removeTree p) d).get? other ≠ d.get? other) :
    ∃ own node, d.ownEntryAt p = .ok (own, node) ∧ own <+: other := by
  rcases after_removeTree_cases d p with e | ⟨own, text, found, e⟩ | ⟨own, found, e⟩
  · rw [e] at changed
    exact absurd rfl changed
  · refine ⟨own, _, found, ?_⟩
    by_contra apart
    have ne : own ≠ [] := by
      rintro rfl
      exact apart List.nil_prefix
    rw [e, get?_uproot ne, if_neg apart] at changed
    exact changed rfl
  · refine ⟨own, _, found, ?_⟩
    by_contra apart
    have kept : (d.clear own).get? other = d.get? other := by
      rw [get?_clear, if_neg fun below => apart below.1]
    rw [e, ← kept] at changed
    rcases after_removeDirectory_cases (d.clear own) p with ⟨loc, drops, e'⟩ | e'
    · rw [e', drops.get?_uproot] at changed
      · exact changed rfl
      · rintro rfl
        cases eq_own_of_drops found drops
        exact apart (List.prefix_refl _)
    · rw [e'] at changed
      exact changed rfl

theorem get?_after_removeTree_of_apart (found : d.ownEntryAt p = .ok (own, node))
    (apart : ¬ own <+: other) : (after (removeTree p) d).get? other = d.get? other := by
  by_contra changed
  obtain ⟨own', node', found', below⟩ := exists_own_of_removeTree changed
  cases found.symm.trans found'
  exact apart below

theorem get?_below_after_removeTree (found : d.ownEntryAt p = .ok (own, .directory))
    {names : Location} (ne : names ≠ []) : (after (removeTree p) d).get? (own ++ names) = none := by
  have bare := isBare_clear (d := d) own names ne
  rw [after_removeTree_of_directory found]
  cases e : (after (removeDirectory p) (d.clear own)).get? (own ++ names) with
  | none => rfl
  | some node =>
    rw [(after_removeDirectory_within _ p).2 _ _ e] at bare
    cases bare

theorem spelled_of_ownEntryAt (found : d.ownEntryAt p = .ok (own, node)) :
    checkText p = .ok () :=
  (resolve_eq_ok_iff.mp (ownEntryAt_eq_ok_iff.mp found).1).1

theorem Seats.found_of_passes (seats : d.Seats p loc)
    (passes : d.Passes (startOf d.here p.text) p.steps.dropLast other) : d.get? other ≠ none := by
  have isDir : d.IsDirectory loc.dropLast := by
    obtain ⟨init, name, dir, -, isDir, -, rfl⟩ := id seats
    rwa [List.dropLast_concat]
  exact (seats.shrunk_iff (.refl d) isDir).mp seats other passes

theorem own_after_removeTree_iff (ends : p.EndsInName)
    (found : d.ownEntryAt p = .ok (own, .directory)) :
    (after (removeTree p) d).get? own = none ↔ ∀ child, ¬ d.LeadsThrough p (own ++ [child]) := by
  have seats := seats_of_ownEntryAt ends found
  have isDir : (d.clear own).IsDirectory own := by
    rw [IsDirectory, get?_clear, if_neg (by simp)]
    exact (ownEntryAt_eq_ok_iff.mp found).2
  have up := isDirectory_dropLast_of_isDirectory isDir
  rw [after_removeTree_of_directory found, get?_after_removeDirectory_eq_none_iff ends
    (spelled_of_ownEntryAt found) isDir, and_iff_left (isBare_clear own),
    seats.shrunk_iff (clear_within own) up]
  constructor
  · rintro there child ⟨other, passes, below⟩
    apply there other passes
    rw [get?_clear, if_pos]
    refine ⟨(List.prefix_append _ _).trans below, ?_⟩
    rintro rfl
    exact Location.not_child_prefix _ child below
  · intro beside other passes
    rw [get?_clear, if_neg]
    · exact seats.found_of_passes passes
    · rintro ⟨⟨rest, rfl⟩, proper⟩
      cases rest with
      | nil => simp at proper
      | cons child rest => exact beside child ⟨_, passes, rest, by simp⟩

theorem Seats.leads (seats : d.Seats p loc) (found : d.get? loc = some node)
    (plain : node.isLink = false) :
    ∃ links ≤ maxLinks, d.Leads (startOf d.here p.text) p.steps links loc := by
  obtain ⟨init, name, dir, steps, -, ⟨links, le, way⟩, rfl⟩ := seats
  rw [steps]
  exact ⟨_, le, way.append (.name found plain (.done _))⟩

theorem Seats.of_parent (seats : d.Seats q dir) (isDir : d.IsDirectory dir)
    (up : Path.IsParent q p) (ne : q.text ≠ []) (steps : p.steps = q.steps ++ [name.bytes]) :
    d.Seats p (dir ++ [name]) := by
  obtain ⟨links, le, way⟩ := seats.leads isDir rfl
  rw [startOf_of_parent up ne] at way
  exact ⟨q.steps, name, dir, steps, isDir, ⟨links, le, way⟩, rfl⟩

theorem Seats.split (seats : d.Seats p own) (up : Path.IsParent q p) (ne : q.text ≠ [])
    (seats' : d.Seats q dir) (found : d.get? dir = some node) (plain : node.isLink = false) :
    ∃ name : Name, p.steps = q.steps ++ [name.bytes] ∧ own = dir ++ [name] ∧ d.IsDirectory dir := by
  obtain ⟨init, name, dir', steps, isDir, ⟨links, -, way⟩, rfl⟩ := seats
  rcases up.steps with ⟨none, -⟩ | ⟨last, -, steps'⟩
  · simp [none] at steps
  · obtain ⟨rfl, -⟩ := List.append_inj' (steps.symm.trans steps') rfl
    obtain ⟨links', -, way'⟩ := seats'.leads found plain
    rw [startOf_of_parent up ne] at way'
    cases way.unique way'
    exact ⟨name, steps, rfl, isDir⟩

theorem own_after_removeTree_of_beside (ends : p.EndsInName) (up : Path.IsParent q p)
    (steps : p.steps = q.steps ++ [name.bytes]) (seats : d.Seats q dir)
    (isDir : d.IsDirectory dir) (ne : q.text ≠ [])
    (found : d.ownEntryAt p = .ok (dir ++ [name], .directory))
    (beside : ¬ d.LeadsThrough q (dir ++ [name])) :
    (after (removeTree p) d).get? (dir ++ [name]) = none := by
  have kept : ∀ other, ¬ dir ++ [name] <+: other →
      (d.clear (dir ++ [name])).get? other = d.get? other := fun other apart => by
    rw [get?_clear, if_neg fun below => apart below.1]
  have isDir' : (d.clear (dir ++ [name])).IsDirectory dir := by
    rw [IsDirectory, kept _ (Location.not_child_prefix dir name)]
    exact isDir
  have still : (d.clear (dir ++ [name])).Seats q dir := by
    refine (seats.shrunk_iff (clear_within _)
      (isDirectory_dropLast_of_isDirectory isDir')).mpr fun other passes => ?_
    rw [kept _ fun below => beside ⟨other, passes, below⟩]
    exact seats.found_of_passes passes
  have own : (d.clear (dir ++ [name])).IsDirectory (dir ++ [name]) := by
    rw [IsDirectory, get?_clear, if_neg (by simp)]
    exact (ownEntryAt_eq_ok_iff.mp found).2
  rw [after_removeTree_of_directory found, get?_after_removeDirectory_eq_none_iff ends
    (spelled_of_ownEntryAt found) own]
  exact ⟨still.of_parent isDir' up ne steps, isBare_clear _⟩

theorem parent_after_removals_iff (ends : p.EndsInName)
    (found : d.ownEntryAt p = .ok (own, .directory)) (up : Path.IsParent q p)
    (ends' : q.EndsInName) (found' : d.ownEntryAt q = .ok (dir, node))
    (plain : node.isLink = false) : ∃ name, own = dir ++ [name] ∧
      ((after (removeDirectory q) (after (removeTree p) d)).get? dir = none ↔
        (∀ other ≠ name, d.get? (dir ++ [other]) = none) ∧ ¬ d.LeadsThrough q own) := by
  have spelled := spelled_of_ownEntryAt found'
  have seats := seats_of_ownEntryAt ends found
  have seats' := seats_of_ownEntryAt ends' found'
  have ne := (of_checkText spelled).1
  obtain ⟨name, steps, rfl, isDir⟩ :=
    seats.split up ne seats' (ownEntryAt_eq_ok_iff.mp found').2 plain
  refine ⟨name, rfl, ?_⟩
  have isDir' : (after (removeTree p) d).IsDirectory dir := by
    rw [IsDirectory, get?_after_removeTree_of_apart found (Location.not_child_prefix dir name)]
    exact isDir
  rw [get?_after_removeDirectory_eq_none_iff ends' spelled isDir',
    seats'.shrunk_iff (removeTree_within d p) (isDirectory_dropLast_of_isDirectory isDir')]
  constructor
  · rintro ⟨there, bare⟩
    refine ⟨fun other ne => ?_, ?_⟩
    · have apart : ¬ dir ++ [name] <+: dir ++ [other] := fun below =>
        ne (Location.child_prefix_child_iff.mp below).symm
      rw [← get?_after_removeTree_of_apart found apart]
      exact bare [other] (by simp)
    · rintro ⟨other, passes, rest, rfl⟩
      apply there _ passes
      rw [List.append_assoc]
      exact bare _ (by simp)
  · rintro ⟨alone, beside⟩
    refine ⟨fun other passes => ?_, fun names busy => ?_⟩
    · rw [get?_after_removeTree_of_apart found fun below => beside ⟨other, passes, below⟩]
      exact seats'.found_of_passes passes
    · obtain ⟨first, rest, rfl⟩ := List.exists_cons_of_ne_nil busy
      rw [List.append_cons]
      by_cases same : first = name
      · subst same
        by_cases last : rest = []
        · subst last
          rw [List.append_nil]
          exact own_after_removeTree_of_beside ends up steps seats' isDir ne found beside
        · exact get?_below_after_removeTree found last
      · have free : d.get? (dir ++ [first] ++ rest) = none :=
          get?_append_of_none (alone first same)
        cases e : (after (removeTree p) d).get? (dir ++ [first] ++ rest) with
        | none => rfl
        | some node =>
          rw [(removeTree_within d p).2 _ _ e] at free
          cases free

theorem seats_of_removeDirectory (sub : d'.Within d)
    (changed : (after (removeDirectory q) d').get? other ≠ d'.get? other) :
    d.Seats q other ∧ d'.IsDirectory other ∧ d'.IsBare other := by
  rcases after_removeDirectory_cases d' q with ⟨loc, drops, e⟩ | e
  · by_cases same : other = loc
    · subst same
      obtain ⟨dir, name, closed, last, rfl⟩ := drops.named
      exact ⟨seats_of_resolveLast sub last, drops.isDirectory, drops.isBare⟩
    · rw [e, drops.get?_uproot same] at changed
      exact absurd rfl changed
  · rw [e] at changed
    exact absurd rfl changed

theorem own_after_removeDirectory (ends : p.EndsInName)
    (found : d.ownEntryAt p = .ok (own, .directory)) (up : Path.IsParent q p)
    (sub : d'.Within d) : (after (removeDirectory q) d').get? own = d'.get? own := by
  by_contra changed
  obtain ⟨seats, isDir, -⟩ := seats_of_removeDirectory sub changed
  have ne : q.text ≠ [] := by
    intro none
    obtain ⟨init, name, -, steps, -⟩ := seats
    rw [Path.steps_of_text_eq_nil none] at steps
    simp at steps
  obtain ⟨name, -, e, -⟩ :=
    (seats_of_ownEntryAt ends found).split up ne seats (sub.2 _ _ isDir) rfl
  simp at e

end Disk

namespace Release

/-- The policy lets a path go, and the location is what the path names or below that. -/
def MayTake (policy : PathPolicy) (d : Disk) (p : Path) (loc : Location) : Prop :=
  policy d p = true ∧ ∃ own node, d.ownEntryAt p = .ok (own, node) ∧ own <+: loc

/-- What a release of a path may change on a disk, and what it has to. -/
structure Bounded (policy : PathPolicy) (p : Path) (d d' : Disk) : Prop where
  /-- Nothing happens if neither the path nor its parent may go. -/
  gated : policy d p = false → (∀ q, p.parent = some q → policy d q = false) → d' = d
  /-- Whatever changes was there and goes: with the path, or as its parent, alone and empty. -/
  framed : ∀ other, d'.get? other ≠ d.get? other → d.get? other ≠ none ∧ d'.get? other = none ∧
    (MayTake policy d p other ∨ ∃ q, p.parent = some q ∧ policy d q = true ∧ d.Seats q other ∧
      d.IsDirectory other ∧ ∀ names ≠ [], d'.get? (other ++ names) = none ∧
        (d.get? (other ++ names) ≠ none → MayTake policy d p (other ++ names)))
  /-- A directory that may go is emptied, whatever is in there. -/
  emptied : policy d p = true → ∀ own, d.ownEntryAt p = .ok (own, .directory) →
    ∀ names ≠ [], d'.get? (own ++ names) = none
  /-- It goes itself, unless the way to it leads through it. -/
  own : p.EndsInName → policy d p = true → ∀ own, d.ownEntryAt p = .ok (own, .directory) →
    (d'.get? own = none ↔ ∀ child, ¬ d.LeadsThrough p (own ++ [child]))
  /-- Its parent stays for another child, or if the way to it leads through what is gone. -/
  parent : p.EndsInName → policy d p = true → ∀ own, d.ownEntryAt p = .ok (own, .directory) →
    ∀ q, p.parent = some q → q.EndsInName → policy d q = true → ∀ dir node,
      d.ownEntryAt q = .ok (dir, node) → node.isLink = false → ∃ name, own = dir ++ [name] ∧
        (d'.get? dir ≠ none ↔
          (∃ other ≠ name, d.get? (dir ++ [other]) ≠ none) ∨ d.LeadsThrough q own)

private theorem of_changed (sub : d'.Within d) (changed : d'.get? other ≠ d.get? other) :
    d.get? other ≠ none ∧ d'.get? other = none := by
  have gone : d'.get? other = none := by
    by_contra there
    obtain ⟨node, found⟩ := Option.ne_none_iff_exists'.mp there
    rw [found, sub.2 _ _ found] at changed
    exact changed rfl
  rw [gone] at changed
  exact ⟨changed.symm, gone⟩

/-- The two halves of a release: the tree, then the parent if it was sanctioned before. -/
structure Halves (policy : PathPolicy) (p : Path) (d tree d' : Disk) : Prop where
  taken : policy d p = true → tree = after (Disk.removeTree p) d
  spared : policy d p = false → tree = d
  last : (∃ q, p.parent = some q ∧ policy d q = true ∧ d' = after (Disk.removeDirectory q) tree) ∨
    (∀ q, p.parent = some q → policy d q = false) ∧ d' = tree

theorem exists_halves {ε : Type} (policy : PathPolicy) (p : Path) (w : World) : ∃ w' tree,
    (release policy p : Action ε Unit) w = .ok () w' ∧ Halves policy p w.disk tree w'.disk := by
  obtain ⟨w', run, e⟩ := release_run (ε := ε) policy p w
  refine ⟨w', if policy w.disk p = true then after (Disk.removeTree p) w.disk else w.disk, run,
    fun sanctioned => if_pos sanctioned, fun refused => if_neg (by simp [refused]), ?_⟩
  cases hp : p.parent.filter (policy w.disk) with
  | none =>
    rw [hp] at e
    refine .inr ⟨fun q parent => ?_, e⟩
    rw [parent, Option.filter_eq_none_iff] at hp
    simpa using hp
  | some q =>
    rw [hp] at e
    obtain ⟨parent, sanctioned⟩ := Option.filter_eq_some_iff.mp hp
    exact .inl ⟨q, parent, sanctioned, e⟩

namespace Halves

variable {tree : Disk}

theorem within (h : Halves policy p d tree d') : tree.Within d := by
  by_cases sanctioned : policy d p = true
  · rw [h.taken sanctioned]
    exact Disk.removeTree_within d p
  · rw [h.spared (by simpa using sanctioned)]
    exact .refl d

theorem takes (h : Halves policy p d tree d') (changed : tree.get? other ≠ d.get? other) :
    MayTake policy d p other := by
  by_cases sanctioned : policy d p = true
  · rw [h.taken sanctioned] at changed
    exact ⟨sanctioned, Disk.exists_own_of_removeTree changed⟩
  · rw [h.spared (by simpa using sanctioned)] at changed
    exact absurd rfl changed

theorem last_within (h : Halves policy p d tree d') : d'.Within tree := by
  rcases h.last with ⟨q, -, -, rfl⟩ | ⟨-, rfl⟩
  · exact Disk.after_removeDirectory_within tree q
  · exact .refl _

theorem of_last (h : Halves policy p d tree d') (changed : d'.get? other ≠ tree.get? other) :
    ∃ q, p.parent = some q ∧ policy d q = true ∧ d.Seats q other ∧ d.IsDirectory other ∧
      tree.IsBare other := by
  rcases h.last with ⟨q, parent, sanctioned, rfl⟩ | ⟨-, rfl⟩
  · obtain ⟨seats, isDir, bare⟩ := Disk.seats_of_removeDirectory h.within changed
    exact ⟨q, parent, sanctioned, seats, h.within.isDirectory isDir, bare⟩
  · exact absurd rfl changed

theorem own_eq (h : Halves policy p d tree d') (ends : p.EndsInName)
    (found : d.ownEntryAt p = .ok (own, .directory)) : d'.get? own = tree.get? own := by
  rcases h.last with ⟨q, parent, -, rfl⟩ | ⟨-, rfl⟩
  · exact Disk.own_after_removeDirectory ends found (Path.isParent_of_parent parent) h.within
  · rfl

theorem none_of_tree (h : Halves policy p d tree d') (free : tree.get? other = none) :
    d'.get? other = none := by
  by_contra there
  obtain ⟨node, found⟩ := Option.ne_none_iff_exists'.mp there
  rw [h.last_within.2 _ _ found] at free
  cases free

theorem bounded (h : Halves policy p d tree d') : Bounded policy p d d' where
  gated refused refused' := by
    rcases h.last with ⟨q, parent, sanctioned, -⟩ | ⟨-, e⟩
    · rw [refused' q parent] at sanctioned
      cases sanctioned
    · rw [e, h.spared refused]
  framed other changed := by
    obtain ⟨there, gone⟩ := of_changed (h.last_within.trans h.within) changed
    refine ⟨there, gone, ?_⟩
    by_cases same : tree.get? other = d.get? other
    · rw [← same] at changed
      obtain ⟨q, parent, sanctioned, seats, isDir, bare⟩ := h.of_last changed
      refine .inr ⟨q, parent, sanctioned, seats, isDir, fun names ne => ?_⟩
      refine ⟨h.none_of_tree (bare names ne), fun before => h.takes ?_⟩
      rw [bare names ne]
      exact before.symm
    · exact .inl (h.takes same)
  emptied sanctioned own found names ne := by
    apply h.none_of_tree
    rw [h.taken sanctioned]
    exact Disk.get?_below_after_removeTree found ne
  own ends sanctioned own found := by
    rw [h.own_eq ends found, h.taken sanctioned]
    exact Disk.own_after_removeTree_iff ends found
  parent ends sanctioned own found q parent ends' sanctioned' dir node found' plain := by
    obtain ⟨name, rfl, gone⟩ := Disk.parent_after_removals_iff ends found
      (Path.isParent_of_parent parent) ends' found' plain
    refine ⟨name, rfl, ?_⟩
    rcases h.last with ⟨q', parent', -, rfl⟩ | ⟨refused, -⟩
    · cases parent.symm.trans parent'
      rw [h.taken sanctioned, ne_eq, gone]
      simp only [not_and_or, not_forall, not_not, exists_prop, ne_eq]
    · rw [refused q parent] at sanctioned'
      cases sanctioned'

end Halves

/-- A release under any policy, of any path on any disk, keeps to its bounds. -/
theorem release_bounded {ε : Type} (policy : PathPolicy) (p : Path) (w : World) : ∃ w',
    (release policy p : Action ε Unit) w = .ok () w' ∧ Bounded policy p w.disk w'.disk := by
  obtain ⟨w', tree, run, halves⟩ := exists_halves (ε := ε) policy p w
  exact ⟨w', run, halves.bounded⟩

def nested : World := .holding [([47, 116], .directory), ([47, 116, 47, 120], .directory)]

/-- Under a path through itself a directory is emptied, and it stays though it may go. -/
theorem keeps_own_directory :
    Path.EndsInName ⟨[47, 116, 47, 120, 47, 46, 46, 47, 46, 46, 47, 116]⟩ ∧
    PathPolicy.listed [⟨[47, 116, 47, 120, 47, 46, 46, 47, 46, 46, 47, 116]⟩] nested.disk
      ⟨[47, 116, 47, 120, 47, 46, 46, 47, 46, 46, 47, 116]⟩ = true ∧
    nested.disk.ownEntryAt ⟨[47, 116, 47, 120, 47, 46, 46, 47, 46, 46, 47, 116]⟩ =
      .ok ([⟨[116], by decide⟩], .directory) ∧
    (after (release (PathPolicy.listed [⟨[47, 116, 47, 120, 47, 46, 46, 47, 46, 46, 47, 116]⟩])
      ⟨[47, 116, 47, 120, 47, 46, 46, 47, 46, 46, 47, 116]⟩ : Action Empty Unit)
        nested).disk.get? [⟨[116], by decide⟩] = some .directory := by
  refine ⟨⟨⟨[116], by decide⟩, ?_⟩, by decide, by rfl, by decide⟩
  exact Path.not_isClosed (show _ = some [116] by decide) (by decide)

end Release

end LayeredTree
