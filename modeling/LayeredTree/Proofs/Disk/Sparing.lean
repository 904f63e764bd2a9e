import LayeredTree.Proofs.Disk.Moving
import LayeredTree.Proofs.Disk.Pouring

set_option autoImplicit false

namespace LayeredTree.Disk

variable {d d' d'' : Disk} {p : Path} {loc goal place root : Location} {name : Name}
variable {segments rest : List Bytes} {links : Nat}

/-- The second disk has all that the first one has. What it has besides are directories, and files
in directories that the first one does not have. -/
structure Spares (d d' : Disk) : Prop where
  within : d.Within d'
  new : ∀ loc node, d.get? loc = none → d'.get? loc = some node →
    node = .directory ∨ ∃ content, node = .file content ∧ d.get? loc.dropLast = none

namespace Spares

theorem none (h : d.Spares d') (free : d'.get? loc = none) : d.get? loc = none := by
  by_contra there
  obtain ⟨node, found⟩ := Option.ne_none_iff_exists'.mp there
  rw [h.within.2 _ _ found] at free
  cases free

theorem trans (h : d.Spares d') (h' : d'.Spares d'') : d.Spares d'' := by
  refine ⟨h.within.trans h'.within, fun loc node none found => ?_⟩
  cases between : d'.get? loc with
  | none =>
    rcases h'.new loc node between found with e | ⟨content, e, up⟩
    · exact .inl e
    · exact .inr ⟨content, e, h.none up⟩
  | some node' =>
    rw [h'.within.2 _ _ between] at found
    cases found
    exact h.new loc node none between

theorem link (h : d.Spares d') {text : Bytes} (found : d'.get? loc = some (.link text)) :
    d.get? loc = some (.link text) := by
  cases old : d.get? loc with
  | none =>
    rcases h.new loc _ old found with e | ⟨content, e, -⟩
    · cases e
    · cases e
  | some node =>
    rw [h.within.2 _ _ old] at found
    exact found

theorem agrees (h : d.Spares d') (h' : d.Spares d'') : d'.Agrees d'' := by
  rintro loc node node' found found' (link | link)
  · cases node with
    | link text =>
      have same := h'.within.2 _ _ (h.link found)
      exact Option.some.inj (same.symm.trans found')
    | _ => cases link
  · cases node' with
    | link text =>
      have same := h.within.2 _ _ (h'.link found')
      exact (Option.some.inj (same.symm.trans found)).symm
    | _ => cases link

theorem unique (h : d.Spares d') (h' : d.Spares d'') (reach : d'.Reaches p loc)
    (reach' : d''.Reaches p goal) : loc = goal := by
  obtain ⟨-, -, links, -, way⟩ := reach
  obtain ⟨-, -, links', -, way'⟩ := reach'
  rw [h.within.1] at way
  rw [h'.within.1] at way'
  exact way.agree (h.agrees h') way'

theorem seats_unique (h : d.Spares d') (h' : d.Spares d'') (seats : d'.Seats p loc)
    (seats' : d''.Seats p goal) : loc = goal := by
  obtain ⟨init, name, dir, steps, -, ⟨links, -, way⟩, rfl⟩ := seats
  obtain ⟨init', name', dir', steps', -, ⟨links', -, way'⟩, rfl⟩ := seats'
  obtain ⟨rfl, e⟩ := List.append_inj' (steps.symm.trans steps') rfl
  cases Name.bytes_injective (List.cons_eq_cons.mp e).1
  rw [h.within.1] at way
  rw [h'.within.1] at way'
  rw [way.agree (h.agrees h') way']

/-- Where the last step of a path is found on one such disk, the path leads there on another, if no
link is in that place. -/
theorem reached (h : d.Spares d') (h' : d.Spares d'') (seats : d'.Seats p loc)
    (reach : d''.Reaches p goal) (isDir : d''.IsDirectory goal)
    (plain : ∀ text, d''.get? loc ≠ some (.link text)) : goal = loc := by
  obtain ⟨init, name, dir, steps, -, ⟨links, -, way⟩, rfl⟩ := seats
  obtain ⟨-, -, links', -, way'⟩ := reach
  have byStep := (leads_filter_iff p.segments isDir []).mpr way'
  rw [List.nil_append, ← Path.steps, steps] at byStep
  obtain ⟨mid, near, far, first, last, -⟩ := byStep.split rfl
  rw [h'.within.1] at first
  rw [h.within.1] at way
  cases way.agree (h.agrees h') first
  obtain ⟨-, ⟨idle, -⟩ | ⟨e, -⟩ | ⟨name', e, ⟨node, -, -, tail⟩ | ⟨target, _, found, -⟩⟩⟩ :=
    last.cons_cases
  · simp at idle
  · exact absurd e name.bytes_ne_dotDot
  · cases Name.bytes_injective e
    cases tail
    rfl
  · cases Name.bytes_injective e
    exact absurd found (plain target)

theorem holdsFiles (h : d.Spares d') (new : d.get? root = Option.none) :
    d'.HoldsFiles root fun names => d'.fileAt (root ++ names) := by
  refine holdsFiles_fileAt fun names _ node found => ?_
  rcases h.new _ node (get?_append_of_none new) found with e | ⟨content, e, -⟩
  · exact .inl e
  · exact .inr ⟨content, e⟩

theorem of_dug (h : d.Dug d') : d.Spares d' := by
  refine ⟨h.within, fun loc node none found => .inl ?_⟩
  rcases h.get? loc with same | ⟨-, isDir⟩
  · rw [same, none] at found
    cases found
  · rw [show d'.get? loc = _ from isDir] at found
    cases found
    rfl

theorem pour {files : Location → Option Bytes} (h : d.Spares d') (new : d.get? root = Option.none)
    (same : SameOutside root d' d'') (holdsFiles : d''.HoldsFiles root files) : d.Spares d'' := by
  refine ⟨⟨same.1.trans h.within.1, fun loc node found => ?_⟩, fun loc node none found => ?_⟩
  · rw [same.2 loc]
    · exact h.within.2 _ _ found
    · rintro ⟨⟨rest, rfl⟩, -⟩
      rw [get?_append_of_none new] at found
      cases found
  · by_cases below : root <+: loc ∧ loc ≠ root
    · obtain ⟨⟨names, rfl⟩, proper⟩ := below
      have ne : names ≠ [] := by
        rintro rfl
        exact proper (List.append_nil root)
      rcases holdsFiles.only names ne node found with e | ⟨content, -, e⟩
      · exact .inl e
      · refine .inr ⟨content, e, ?_⟩
        rw [List.dropLast_append_of_ne_nil ne]
        exact get?_append_of_none new
    · rw [same.2 loc below] at found
      exact h.new loc node none found

theorem of_newAt {files : Location → Option Bytes} (new : d.NewAt root d')
    (isDir : d'.IsDirectory root) (holdsFiles : d'.HoldsFiles root files) : d.Spares d' := by
  refine ⟨new.within, fun loc node none found => ?_⟩
  by_cases below : root <+: loc
  · obtain ⟨names, rfl⟩ := below
    by_cases top : names = []
    · rw [top, List.append_nil, show d'.get? root = _ from isDir] at found
      cases found
      exact .inl rfl
    · rcases holdsFiles.only names top node found with e | ⟨content, -, e⟩
      · exact .inl e
      · refine .inr ⟨content, e, ?_⟩
        rw [List.dropLast_append_of_ne_nil top]
        exact get?_append_of_none new.free
  · rw [new.get? loc below, none] at found
    cases found

theorem shrink (h : d.Spares d') (sub : d''.Within d')
    (kept : ∀ loc, d.get? loc ≠ Option.none → d''.get? loc = d'.get? loc) : d.Spares d'' := by
  refine ⟨⟨sub.1.symm.trans h.within.1, fun loc node found => ?_⟩, fun loc node none found => ?_⟩
  · rw [kept loc (by rw [found]; nofun)]
    exact h.within.2 _ _ found
  · exact h.new loc node none (sub.2 _ _ found)

theorem moved {source target : Location} (h : d.Spares d') (new : d.get? source = Option.none)
    (new' : d.get? target = Option.none) (moved : d'.Moved source target d'') : d.Spares d'' := by
  have off : ∀ loc, d.get? loc ≠ Option.none → ¬ source <+: loc ∧ ¬ target <+: loc := by
    refine fun loc there => ⟨?_, ?_⟩
    · rintro ⟨rest, rfl⟩
      exact there (get?_append_of_none new)
    · rintro ⟨rest, rfl⟩
      exact there (get?_append_of_none new')
  refine ⟨⟨moved.here.trans h.within.1, fun loc node found => ?_⟩, fun loc node none found => ?_⟩
  · obtain ⟨out, out'⟩ := off loc (by rw [found]; nofun)
    rw [moved.get?_off out out']
    exact h.within.2 _ _ found
  · by_cases below : target <+: loc
    · obtain ⟨names, rfl⟩ := below
      rw [moved.get?_target] at found
      rcases h.new _ node (get?_append_of_none new) found with e | ⟨content, rfl, -⟩
      · exact .inl e
      · have ne : names ≠ [] := by
          rintro rfl
          rw [List.append_nil, show d'.get? source = _ from moved.isDirectory] at found
          cases found
        refine .inr ⟨content, rfl, ?_⟩
        rw [List.dropLast_append_of_ne_nil ne]
        exact get?_append_of_none new'
    · by_cases gone : source <+: loc
      · obtain ⟨names, rfl⟩ := gone
        rw [moved.get?_source] at found
        cases found
      · rw [moved.get?_off gone below] at found
        exact h.new loc node none found

end Spares

/-- Whatever is added to the disk, the path leads to no entry that is there, save the one it leads
to already. -/
def Steady (d : Disk) (p : Path) : Prop :=
  ∀ d' goal, d.Spares d' → d'.Reaches p goal → d.Reaches p goal ∨ d.get? goal = none

/-- A way that is complete goes on from where it broke off with less on the disk, and there was
nothing there then. -/
private theorem leads_from_free (sub : d.Within d') {dir : Location}
    (h : d'.Leads loc segments links goal) {budget : Nat}
    (off : d.walkTo true budget loc segments = .ok (.free dir name rest)) :
    d.get? (dir ++ [name]) = none ∧ ∃ links, d'.Leads dir (name.bytes :: rest) links goal := by
  have here : ∀ {loc : Location} {segment : Bytes} {tail : List Bytes} {budget : Nat},
      d.walkTo true budget loc (segment :: tail) = .ok (.free dir name rest) →
        d.IsDirectory loc := by
    intro loc segment tail budget off
    unfold walkTo at off
    split at off
    · cases off
    all_goals
      rename_i on
      exact (advance_cases on).1
  induction h generalizing budget with
  | done =>
    rw [walkTo_nil] at off
    cases off
  | idle _ idle _ ih =>
    rw [walkTo_idle (here off) idle] at off
    exact ih off
  | up _ _ ih =>
    rw [walkTo_up (here off)] at off
    exact ih off
  | @name loc goal name' node tail links found plain way ih =>
    cases old : d.get? (loc ++ [name']) with
    | none =>
      rw [walkTo_free (here off) old] at off
      cases off
      exact ⟨old, _, .name found plain way⟩
    | some node' =>
      cases (sub.2 _ _ old).symm.trans found
      rw [walkTo_name old plain] at off
      exact ih off
  | @link loc goal name' target tail links found way ih =>
    cases old : d.get? (loc ++ [name']) with
    | none =>
      rw [walkTo_free (here off) old] at off
      cases off
      exact ⟨old, _, .link found way⟩
    | some node' =>
      cases (sub.2 _ _ old).symm.trans found
      cases budget with
      | zero =>
        unfold walkTo at off
        rw [advance_link old, if_neg (by simp)] at off
        cases off
      | succ budget =>
        rw [walkTo_link old (.inr rfl)] at off
        exact ih off

theorem steady_of_down (standing : d.IsDirectory d.here)
    (down : ∀ dir name rest, d.spotOf true p.text p.segments = .ok (.free dir name rest) →
      Path.dotDot ∉ rest) : d.Steady p := by
  rintro d' goal spares ⟨ne, zero, links, le, way⟩
  rw [spares.within.1] at way
  have there : d.get? (startOf d.here p.text) ≠ none := by
    unfold startOf
    split
    · rw [d.isDirectory_nil]
      nofun
    · rw [show d.get? _ = _ from standing]
      nofun
  cases spot : d.walkTo true maxLinks (startOf d.here p.text) p.segments with
  | error fault =>
    have same := walkTo_of_within spares.within there fun dir name rest off => by
      cases spot.symm.trans off
    rw [spot, way.walkTo le] at same
    cases same
  | ok spot' =>
    cases spot' with
    | entry loc =>
      obtain ⟨links', le', way'⟩ := walkTo_eq_entry_iff.mp spot
      cases (way'.mono spares.within).unique way
      exact .inl ⟨ne, zero, links', le', way'⟩
    | free dir name rest =>
      obtain ⟨free, links', on⟩ := leads_from_free spares.within way spot
      have bare : d'.Linkless (dir ++ [name]) := fun names text found => by
        have old := spares.link found
        rw [get?_append_of_none free] at old
        cases old
      obtain ⟨-, ⟨idle, -⟩ | ⟨e, -⟩ | ⟨name', e, ⟨node, -, -, tail⟩ | ⟨target, _, found, -⟩⟩⟩ :=
        on.cons_cases
      · simp at idle
      · exact absurd e name.bytes_ne_dotDot
      · cases Name.bytes_injective e
        obtain ⟨names, rfl, -⟩ :=
          tail.downward bare (down dir name rest (spotOf_eq_ok_iff.mpr spot))
        exact .inr (get?_append_of_none free)
      · cases Name.bytes_injective e
        exact absurd (by rwa [List.append_nil]) (bare [] target)

end LayeredTree.Disk
