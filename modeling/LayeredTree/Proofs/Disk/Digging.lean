import LayeredTree.Proofs.Disk.Making
import LayeredTree.Proofs.Disk.Keeping
import LayeredTree.Proofs.Disk.Seats

set_option autoImplicit false

namespace LayeredTree.Disk

variable {d d' d'' : Disk} {p q : Path} {loc goal place : Location} {name : Name}
variable {segment : Bytes} {segments rest : List Bytes} {links : Nat} {follow : Bool}

theorem Leads.cons_cases (h : d.Leads loc (segment :: rest) links goal) :
    d.IsDirectory loc ∧ (Path.isIdle segment = true ∧ d.Leads loc rest links goal ∨
      segment = Path.dotDot ∧ d.Leads loc.dropLast rest links goal ∨
      ∃ name : Name, segment = name.bytes ∧
        ((∃ node, d.get? (loc ++ [name]) = some node ∧ node.isLink = false ∧
            d.Leads (loc ++ [name]) rest links goal) ∨
          ∃ target before, d.get? (loc ++ [name]) = some (.link target) ∧
            d.Leads (startOf loc target) (Bytes.splitOn slash target ++ rest) before goal)) := by
  refine ⟨h.isDirectory (by simp), ?_⟩
  generalize e : segment :: rest = whole at h
  cases h with
  | done => cases e
  | idle _ idle way =>
    cases e
    exact .inl ⟨idle, way⟩
  | up _ way =>
    cases e
    exact .inr (.inl ⟨rfl, way⟩)
  | name found plain way =>
    cases e
    exact .inr (.inr ⟨_, rfl, .inl ⟨_, found, plain, way⟩⟩)
  | link found way =>
    cases e
    exact .inr (.inr ⟨_, rfl, .inr ⟨_, _, found, way⟩⟩)

/-- There is no link at a place or below it. -/
def Linkless (d : Disk) (loc : Location) : Prop :=
  ∀ names text, d.get? (loc ++ names) ≠ some (.link text)

theorem Linkless.append (h : d.Linkless loc) (names : Location) : d.Linkless (loc ++ names) := by
  intro more text
  rw [List.append_assoc]
  exact h _ text

theorem Leads.downward (h : d.Leads loc segments links goal) (bare : d.Linkless loc)
    (plain : Path.dotDot ∉ segments) : ∃ names : Location, goal = loc ++ names ∧
      (segments.filter fun s => !Path.isIdle s) = names.map Name.bytes := by
  induction h with
  | done loc => exact ⟨[], (List.append_nil loc).symm, rfl⟩
  | idle _ idle _ ih =>
    obtain ⟨names, e, same⟩ := ih bare fun hm => plain (List.mem_cons_of_mem _ hm)
    exact ⟨names, e, by rw [List.filter_cons_of_neg (by simp [idle]), same]⟩
  | up => exact absurd List.mem_cons_self plain
  | @name _ _ name _ _ _ _ _ _ ih =>
    obtain ⟨names, e, same⟩ := ih (bare.append [name]) fun hm => plain (List.mem_cons_of_mem _ hm)
    refine ⟨name :: names, by rw [e, List.append_assoc]; rfl, ?_⟩
    rw [List.filter_cons_of_pos (by simp), same, List.map_cons]
  | link found => exact absurd found (bare _ _)

/-- Two disks agree on links wherever both hold something. -/
def Agrees (d d' : Disk) : Prop :=
  ∀ loc node node', d.get? loc = some node → d'.get? loc = some node' →
    node.isLink = true ∨ node'.isLink = true → node = node'

theorem Leads.agree {links' : Nat} {goal' : Location} (h : d.Leads loc segments links goal)
    (agrees : d.Agrees d') (h' : d'.Leads loc segments links' goal') : goal = goal' := by
  induction h generalizing links' goal' with
  | done =>
    cases h'
    rfl
  | idle _ idle _ ih =>
    obtain ⟨-, ⟨-, way⟩ | ⟨rfl, -⟩ | ⟨name, rfl, -⟩⟩ := h'.cons_cases
    · exact ih way
    · simp [isIdle_dotDot] at idle
    · simp at idle
  | up _ _ ih =>
    obtain ⟨-, ⟨idle, -⟩ | ⟨-, way⟩ | ⟨name, e, -⟩⟩ := h'.cons_cases
    · simp [isIdle_dotDot] at idle
    · exact ih way
    · exact absurd e.symm name.bytes_ne_dotDot
  | name found plain _ ih =>
    obtain ⟨-, ⟨idle, -⟩ | ⟨e, -⟩ | ⟨name, e, ⟨node, found', -, way⟩ | ⟨target, _, found', -⟩⟩⟩ :=
      h'.cons_cases
    · simp at idle
    · exact absurd e (Name.bytes_ne_dotDot _)
    · cases Name.bytes_injective e
      exact ih way
    · cases Name.bytes_injective e
      cases agrees _ _ _ found found' (.inr rfl)
      cases plain
  | link found _ ih =>
    obtain ⟨-, ⟨idle, -⟩ | ⟨e, -⟩ | ⟨name, e, ⟨node, found', plain, -⟩ | ⟨target, _, found', way⟩⟩⟩ :=
      h'.cons_cases
    · simp at idle
    · exact absurd e (Name.bytes_ne_dotDot _)
    · cases Name.bytes_injective e
      cases agrees _ _ _ found found' (.inl rfl)
      cases plain
    · cases Name.bytes_injective e
      cases agrees _ _ _ found found' (.inl rfl)
      exact ih way

/-- The second disk has directories in addition, and is the same else. -/
structure Dug (d d' : Disk) : Prop where
  here : d'.here = d.here
  get? : ∀ loc, d'.get? loc = d.get? loc ∨ d.get? loc = none ∧ d'.IsDirectory loc

theorem Dug.refl (d : Disk) : d.Dug d := ⟨rfl, fun _ => .inl rfl⟩

theorem Dug.within (h : d.Dug d') : d.Within d' := by
  refine ⟨h.here, fun loc node hn => ?_⟩
  rcases h.get? loc with same | ⟨none, -⟩
  · rw [same, hn]
  · rw [none] at hn
    cases hn

theorem Dug.trans (h : d.Dug d') (h' : d'.Dug d'') : d.Dug d'' := by
  refine ⟨h'.here.trans h.here, fun loc => ?_⟩
  rcases h.get? loc with same | ⟨none, isDir⟩
  · rw [← same]
    exact h'.get? loc
  · exact .inr ⟨none, h'.within.isDirectory isDir⟩

theorem Dug.congr (h : d.Dug d') (same : d'.Same d'') : d.Dug d'' := by
  refine ⟨same.here.trans h.here, fun loc => ?_⟩
  rw [IsDirectory, same.get?]
  exact h.get? loc

theorem Dug.none (h : d.Dug d') (free : d'.get? loc = none) : d.get? loc = none := by
  rcases h.get? loc with same | ⟨none, -⟩
  · rw [← same, free]
  · exact none

theorem Dug.link (h : d.Dug d') {text : Bytes} (found : d'.get? loc = some (.link text)) :
    d.get? loc = some (.link text) := by
  rcases h.get? loc with same | ⟨-, isDir⟩
  · rw [← same, found]
  · rw [show d'.get? loc = _ from isDir] at found
    cases found

theorem Dug.file_iff (h : d.Dug d') {content : Bytes} :
    d'.get? loc = some (.file content) ↔ d.get? loc = some (.file content) := by
  rcases h.get? loc with same | ⟨none, isDir⟩
  · rw [same]
  · rw [none, show d'.get? loc = _ from isDir]
    simp

theorem dug_plant (isDir : d.IsDirectory loc) (free : d.get? (loc ++ [name]) = none) :
    d.Dug (d.plant (loc ++ [name]) .directory) := by
  have get := get?_plant (by simp) free (by rwa [List.dropLast_concat]) Node.directory
  refine ⟨here_plant _ _, fun other => ?_⟩
  unfold IsDirectory
  rw [get]
  split
  · rename_i e
    exact .inr ⟨e ▸ free, rfl⟩
  · exact .inl rfl

theorem dug_makeDirectories (p : Path) (d : Disk) : d.Dug (after (makeDirectories p) d) :=
  rel_makeDirectories Dug.refl (fun _ _ _ _ h isDir free => h.trans (dug_plant isDir free)) p d

theorem dug_bind {ε α β : Type} {x : Action ε α} {f : α → Action ε β} {w : World}
    (first : w.disk.Dug (after x w).disk)
    (rest : ∀ a v, x w = .ok a v → v.disk.Dug (after (f a) v).disk) :
    w.disk.Dug (after (x >>= f) w).disk := by
  cases run : x w with
  | ok a v =>
    rw [after_bind_of_ok run]
    rw [after_of_ok run] at first
    exact first.trans (rest a v run)
  | error e v =>
    rw [after_of_error (bind_of_error run)]
    rwa [after_of_error run] at first

theorem Reaches.after_makeDirectories (h : d.Reaches p loc) (isDir : d.IsDirectory loc) :
    after (Disk.makeDirectories p) d = d := by
  by_cases short : Short p
  · exact after_of_ok (h.makeDirectories isDir short)
  · obtain ⟨fault, failed⟩ := d.makeDirectories_of_long h.1 short
    exact after_of_error failed

/-- The way along a path breaks off at a place: the steps so far lead to a directory, where the
next name is missing. The rest of the steps lie beyond. -/
def Breaks (d : Disk) (p : Path) (place : Location) (rest : List Bytes) : Prop :=
  ∃ init, ∃ name : Name, ∃ dir, p.steps = init ++ name.bytes :: rest ∧ d.IsDirectory dir ∧
    (∃ links ≤ maxLinks, d.Leads (startOf d.here p.text) init links dir) ∧
      place = dir ++ [name] ∧ d.get? place = none

theorem Breaks.spotOf (h : d.Breaks p place rest) : ∃ dir name beyond,
    d.spotOf true p.text p.segments = .ok (.free dir name beyond) ∧ place = dir ++ [name] ∧
      (beyond.filter fun s => !Path.isIdle s) = rest := by
  obtain ⟨init, name, dir, steps, isDir, ⟨links, le, way⟩, rfl, free⟩ := h
  obtain ⟨before, behind, segments, hb, hr⟩ := Path.segments_of_steps_append steps
  rw [← hb] at way
  have first := (leads_filter_iff before isDir []).mp way
  refine ⟨dir, name, behind, spotOf_eq_ok_iff.mpr ?_, rfl, hr⟩
  rw [segments, List.nil_append] at *
  rw [first.walkTo_append _ (.inl (by simp)) _ le, walkTo_free isDir free]

theorem Breaks.unique {place' : Location} {rest' : List Bytes} (h : d.Breaks p place rest)
    (h' : d.Breaks p place' rest') : place = place' ∧ rest = rest' := by
  obtain ⟨dir, name, beyond, spot, rfl, rfl⟩ := h.spotOf
  obtain ⟨dir', name', beyond', spot', rfl, rfl⟩ := h'.spotOf
  cases spot.symm.trans spot'
  exact ⟨rfl, rfl⟩

theorem Breaks.not_reaches (h : d.Breaks p place rest) (loc : Location) : ¬ d.Reaches p loc := by
  intro reach
  obtain ⟨dir, name, beyond, spot, -⟩ := h.spotOf
  cases spot.symm.trans (reaches_iff_spotOf.mp reach).2.2

/-- No step up lies beyond the place where a path breaks off. -/
def GoesDown (d : Disk) (p : Path) : Prop :=
  ∀ place rest, d.Breaks p place rest → Path.dotDot ∉ rest

theorem goesDown_of_steps (plain : Path.dotDot ∉ p.steps) : d.GoesDown p := by
  rintro place rest ⟨init, name, dir, steps, -⟩ up
  rw [steps] at plain
  exact plain (List.mem_append_right _ (List.mem_cons_of_mem _ up))

theorem startOf_of_parent (up : Path.IsParent q p) (ne : q.text ≠ []) (here : Location) :
    startOf here q.text = startOf here p.text := by
  have same := up.isAbsolute ne
  unfold startOf
  by_cases absolute : p.isAbsolute = true
  · rw [if_pos (Path.isAbsolute_iff.mp absolute),
      if_pos (Path.isAbsolute_iff.mp (same.trans absolute))]
  · rw [if_neg (fun h => absolute (Path.isAbsolute_iff.mpr h)),
      if_neg (fun h => absolute (same.symm.trans (Path.isAbsolute_iff.mpr h)))]

theorem Breaks.of_parent (up : Path.IsParent q p) (h : d.Breaks q place rest) :
    ∃ last, d.Breaks p place (rest ++ [last]) := by
  obtain ⟨init, name, dir, steps, isDir, ⟨links, le, way⟩, e, free⟩ := h
  have ne : q.text ≠ [] := by
    intro none
    rw [Path.steps_of_text_eq_nil none] at steps
    simp at steps
  rcases up.steps with ⟨-, none⟩ | ⟨last, -, whole⟩
  · exact absurd none ne
  · refine ⟨last, init, name, dir, ?_, isDir, ⟨links, le, startOf_of_parent up ne _ ▸ way⟩, e, free⟩
    rw [whole, steps]
    simp

theorem GoesDown.of_parent (up : Path.IsParent q p) (h : d.GoesDown p) : d.GoesDown q := by
  intro place rest breaks inside
  obtain ⟨last, breaks'⟩ := breaks.of_parent up
  exact h _ _ breaks' (List.mem_append_left _ inside)

theorem breaks_of_resolveLast {closed : Bool} (last : d.resolveLast p = .ok (.name loc name closed))
    (free : d.get? (loc ++ [name]) = none) : d.Breaks p (loc ++ [name]) [] := by
  obtain ⟨init, name', dir, steps, isDir, way, e⟩ := seats_of_resolveLast (.refl d) last
  exact ⟨init, name', dir, steps, isDir, way, e, free⟩

/-- Directories were added for a path: nothing changed but the place where it broke off, and what
lies below that. -/
structure DugFor (d : Disk) (p : Path) (d' : Disk) : Prop where
  dug : d.Dug d'
  below : ∀ loc, d'.get? loc ≠ d.get? loc → ∃ place rest, d.Breaks p place rest ∧ place <+: loc

theorem DugFor.refl (d : Disk) (p : Path) : d.DugFor p d := ⟨.refl d, fun _ ne => absurd rfl ne⟩

theorem DugFor.of_parent (up : Path.IsParent q p) (h : d.DugFor q d') : d.DugFor p d' := by
  refine ⟨h.dug, fun loc ne => ?_⟩
  obtain ⟨place, rest, breaks, le⟩ := h.below loc ne
  obtain ⟨last, breaks'⟩ := breaks.of_parent up
  exact ⟨place, _, breaks', le⟩

theorem DugFor.get?_eq (h : d.DugFor p d')
    (off : ∀ place rest, d.Breaks p place rest → ¬ place <+: loc) : d'.get? loc = d.get? loc := by
  by_contra ne
  obtain ⟨place, rest, breaks, le⟩ := h.below loc ne
  exact off place rest breaks le

/-- The first steps of the path lead where they led, and to a directory only if that was one, or
into what was made, down by the names that stand among them after the missing one. -/
theorem DugFor.leads (h : d.DugFor p d') (down : d.GoesDown p) (le : segments <+: p.steps)
    (few : links ≤ maxLinks) (way : d'.Leads (startOf d'.here p.text) segments links goal) :
    ((d'.IsDirectory goal → d.IsDirectory goal) ∧
        ∃ links ≤ maxLinks, d.Leads (startOf d.here p.text) segments links goal) ∨
      ∃ place rest names, d.Breaks p place rest ∧ goal = place ++ names ∧
        names.map Name.bytes ++ p.steps.drop segments.length = rest := by
  rw [h.dug.here] at way
  by_cases same : ∀ loc, d'.get? loc = d.get? loc
  · exact .inl ⟨fun isDir => (same goal).symm.trans isDir, links, few,
      way.mono ⟨h.dug.here.symm, fun loc node hn => (same loc) ▸ hn⟩⟩
  obtain ⟨changed, ne⟩ := not_forall.mp same
  obtain ⟨place, rest, breaks, -⟩ := h.below changed ne
  have beyond := down place rest breaks
  obtain ⟨init, name, dir, steps, isDir, ⟨links', le', first⟩, rfl, free⟩ := id breaks
  -- The steps end before the missing one, or they take it and go on below.
  by_cases early : segments <+: init
  · obtain ⟨more, rfl⟩ := early
    obtain ⟨mid, near, far, hn, hf, sum⟩ := first.split rfl
    cases way.unique (hn.mono h.dug.within)
    refine .inl ⟨fun _ => ?_, near, by omega, hn⟩
    by_cases last : more = []
    · subst last
      cases hf
      exact isDir
    · exact hf.isDirectory last
  · have late : init ++ [name.bytes] <+: segments := by
      have whole : init ++ [name.bytes] <+: p.steps := ⟨rest, by simp [steps]⟩
      rcases List.prefix_or_prefix_of_prefix le whole with le | le
      · rcases List.prefix_concat_iff.mp le with rfl | le
        · exact List.prefix_refl _
        · exact absurd le early
      · exact le
    obtain ⟨more, rfl⟩ := late
    rw [List.append_assoc, List.singleton_append] at way
    obtain ⟨mid, near, far, hn, hf, -⟩ := way.split rfl
    cases hn.unique (first.mono h.dug.within)
    have bare : d'.Linkless (dir ++ [name]) := fun names text found => by
      have old := h.dug.link found
      rw [get?_append_of_none free] at old
      cases old
    have busy : (more.filter fun s => !Path.isIdle s) = more := by
      rw [List.filter_eq_self]
      intro s hs
      exact (List.mem_filter.mp (le.subset (List.mem_append_right _ hs))).2
    obtain ⟨tail, whole⟩ := le
    have end_ : more ++ p.steps.drop (init ++ [name.bytes] ++ more).length = rest := by
      rw [← whole, List.drop_left]
      rw [steps, List.append_assoc, List.append_assoc, List.append_cancel_left_eq,
        List.singleton_append, List.cons_inj_right] at whole
      exact whole
    have plain : Path.dotDot ∉ more := fun up => beyond (end_ ▸ List.mem_append_left _ up)
    obtain ⟨-, ⟨idle, -⟩ | ⟨e, -⟩ | ⟨name', e, ⟨node, -, -, down'⟩ | ⟨target, _, found, -⟩⟩⟩ :=
      hf.cons_cases
    · simp at idle
    · exact absurd e name.bytes_ne_dotDot
    · cases Name.bytes_injective e
      obtain ⟨names, rfl, named⟩ := down'.downward bare plain
      rw [busy] at named
      exact .inr ⟨_, rest, names, breaks, rfl, named ▸ end_⟩
    · cases Name.bytes_injective e
      exact absurd (by rwa [List.append_nil]) (bare [] target)

theorem DugFor.breaks (h : d.DugFor p d') (down : d.GoesDown p) (b : d'.Breaks p place rest) :
    ∃ place' rest', d.Breaks p place' rest' ∧ place' <+: place := by
  obtain ⟨init, name, dir, steps, isDir, ⟨links, le, way⟩, rfl, free⟩ := b
  rcases h.leads down ⟨_, steps.symm⟩ le way with
    ⟨there, old⟩ | ⟨place', rest', names, breaks, rfl, -⟩
  · exact ⟨_, rest, ⟨init, name, dir, steps, there isDir, old, rfl, h.dug.none free⟩,
      List.prefix_refl _⟩
  · refine ⟨place', rest', breaks, ?_⟩
    rw [List.append_assoc]
    exact List.prefix_append _ _

theorem DugFor.reaches_cases (h : d.DugFor p d') (down : d.GoesDown p) (reach : d'.Reaches p goal)
    (isDir : d'.IsDirectory goal) :
    d.Reaches p goal ∨ ∃ place names, d.Breaks p place (names.map Name.bytes) ∧
      goal = place ++ names := by
  obtain ⟨ne, zero, links, le, way⟩ := reach
  have byStep := (leads_filter_iff p.segments isDir []).mpr way
  rw [List.nil_append] at byStep
  rcases h.leads down (List.prefix_refl _) le byStep with
    ⟨there, links', le', way'⟩ | ⟨place, rest, names, breaks, e, rfl⟩
  · exact .inl ⟨ne, zero, links', le', (leads_filter_iff p.segments (there isDir) []).mp way'⟩
  · rw [List.drop_length, List.append_nil] at breaks
    exact .inr ⟨place, names, breaks, e⟩

theorem DugFor.trans (h : d.DugFor p d') (down : d.GoesDown p) (h' : d'.DugFor p d'') :
    d.DugFor p d'' := by
  refine ⟨h.dug.trans h'.dug, fun loc ne => ?_⟩
  by_cases same : d''.get? loc = d'.get? loc
  · exact h.below loc (same ▸ ne)
  · obtain ⟨place, rest, breaks, le⟩ := h'.below loc same
    obtain ⟨place', rest', breaks', le'⟩ := h.breaks down breaks
    exact ⟨place', rest', breaks', le'.trans le⟩

theorem dugFor_plant {closed : Bool} (last : d.resolveLast p = .ok (.name loc name closed))
    (free : d.get? (loc ++ [name]) = none) : d.DugFor p (d.plant (loc ++ [name]) .directory) := by
  obtain ⟨-, -, -, -, -, -, -, isDir, -⟩ := of_resolveLast_name last
  have get := get?_plant (by simp) free (by rwa [List.dropLast_concat]) Node.directory
  refine ⟨dug_plant isDir free, fun other ne => ⟨_, [], breaks_of_resolveLast last free, ?_⟩⟩
  rw [get] at ne
  split at ne
  · rename_i e
    exact e ▸ List.prefix_refl _
  · exact absurd rfl ne

private theorem dugFor_makeInside_cons {outer : List Path} (down : d.GoesDown p)
    (h : d.DugFor p (after (makeInside outer) d)) :
    d.DugFor p (after (makeInside (p :: outer)) d) := by
  rcases after_makeInside_cases p outer d with (e | e) |
    ⟨d₁, dir, name, closed, rfl | rfl, last, free, e⟩
  · rw [e]
    exact .refl d p
  · rw [e]
    exact h
  · rw [e]
    exact dugFor_plant last free
  · rw [e]
    exact h.trans down (dugFor_plant last free)

private theorem dugFor_makeInside (fuel : Nat) (down : d.GoesDown p) :
    d.DugFor p (after (makeInside (p.selfAndParents fuel)) d) := by
  have alone : d.DugFor p (after (makeInside [p]) d) := dugFor_makeInside_cons down (.refl d p)
  induction fuel generalizing p with
  | zero => exact alone
  | succ fuel ih =>
    unfold Path.selfAndParents
    split
    · rename_i up parent
      split
      · exact alone
      · have isParent := Path.isParent_of_parent parent
        have above := down.of_parent isParent
        exact dugFor_makeInside_cons down
          ((ih above (dugFor_makeInside_cons above (.refl d up))).of_parent isParent)
    · exact alone

theorem dugFor_makeDirectories (down : d.GoesDown p) :
    d.DugFor p (after (makeDirectories p) d) := by
  unfold makeDirectories
  split
  · exact .refl d p
  · exact dugFor_makeInside _ down

/-- Directories were added, and only for this path if that never steps up. -/
structure MadeFor (d : Disk) (p : Path) (d' : Disk) : Prop where
  dug : d.Dug d'
  only : Path.dotDot ∉ p.steps → d.DugFor p d'

theorem MadeFor.refl (d : Disk) (p : Path) : d.MadeFor p d := ⟨.refl d, fun _ => .refl d p⟩

theorem MadeFor.trans (h : d.MadeFor p d') (h' : d'.MadeFor p d'') : d.MadeFor p d'' :=
  ⟨h.dug.trans h'.dug, fun plain =>
    (h.only plain).trans (goesDown_of_steps plain) (h'.only plain)⟩

theorem MadeFor.of_parent (up : Path.IsParent q p) (h : d.MadeFor q d') : d.MadeFor p d' := by
  refine ⟨h.dug, fun plain => (h.only fun inside => plain ?_).of_parent up⟩
  rcases up.steps with ⟨-, none⟩ | ⟨last, -, whole⟩
  · rw [Path.steps_of_text_eq_nil none] at inside
    cases inside
  · rw [whole]
    exact List.mem_append_left _ inside

theorem madeFor_makeDirectories (p : Path) (d : Disk) :
    d.MadeFor p (after (makeDirectories p) d) :=
  ⟨dug_makeDirectories p d, fun plain => dugFor_makeDirectories (goesDown_of_steps plain)⟩

/-- Directories were added, each of them where the path or one of its parents leads now. -/
structure Paved (d : Disk) (p : Path) (d' : Disk) : Prop where
  dug : d.Dug d'
  named : ∀ loc, d'.get? loc ≠ d.get? loc →
    ∃ q ∈ p.selfAndParents p.text.length, d'.Reaches q loc

theorem Paved.refl (d : Disk) (p : Path) : d.Paved p d := ⟨.refl d, fun _ ne => absurd rfl ne⟩

theorem Paved.congr (h : d.Paved p d') (same : d'.Same d'') : d.Paved p d'' := by
  refine ⟨h.dug.congr same, fun loc ne => ?_⟩
  rw [same.get?] at ne
  obtain ⟨q, hm, reach⟩ := h.named loc ne
  exact ⟨q, hm, reach.mono ⟨same.here, fun other node found => (same.get? other).trans found⟩⟩

private theorem named_plant {paths : List Path} {d₁ : Disk} {dir : Location} {closed : Bool}
    (last : d₁.resolveLast p = .ok (.name dir name closed)) (free : d₁.get? (dir ++ [name]) = none)
    (before : ∀ loc, d₁.get? loc ≠ d.get? loc → ∃ q ∈ paths, d₁.Reaches q loc) :
    ∀ loc, (d₁.plant (dir ++ [name]) .directory).get? loc ≠ d.get? loc →
      ∃ q ∈ p :: paths, (d₁.plant (dir ++ [name]) .directory).Reaches q loc := by
  intro loc ne
  by_cases here : loc = dir ++ [name]
  · exact ⟨p, List.mem_cons_self, here ▸ reaches_plant last free⟩
  · obtain ⟨-, -, -, -, -, -, -, isDir, -⟩ := of_resolveLast_name last
    rw [get?_plant (by simp) free (by rwa [List.dropLast_concat]), if_neg here] at ne
    obtain ⟨q, hm, reach⟩ := before loc ne
    exact ⟨q, List.mem_cons_of_mem p hm, reach.mono (within_plant _ _)⟩

private theorem named_makeInside (paths : List Path) (d : Disk) :
    ∀ loc, (after (makeInside paths) d).get? loc ≠ d.get? loc →
      ∃ q ∈ paths, (after (makeInside paths) d).Reaches q loc := by
  induction paths with
  | nil => exact fun loc ne => absurd rfl ne
  | cons p outer ih =>
    rcases after_makeInside_cases p outer d with (e | e) |
      ⟨d₁, dir, name, closed, rfl | rfl, last, free, e⟩
    · rw [e]
      exact fun loc ne => absurd rfl ne
    · rw [e]
      intro loc ne
      obtain ⟨q, hm, reach⟩ := ih loc ne
      exact ⟨q, List.mem_cons_of_mem p hm, reach⟩
    · rw [e]
      exact named_plant last free fun loc ne => absurd rfl ne
    · rw [e]
      exact named_plant last free ih

theorem paved_makeDirectories (p : Path) (d : Disk) :
    d.Paved p (after (makeDirectories p) d) := by
  refine ⟨dug_makeDirectories p d, ?_⟩
  unfold makeDirectories
  split
  · exact fun loc ne => absurd rfl ne
  · exact named_makeInside _ d

theorem of_mem_selfAndParents {fuel : Nat} (h : q ∈ p.selfAndParents fuel) (here : Location) :
    q.steps <+: p.steps ∧ startOf here q.text = startOf here p.text := by
  induction fuel generalizing p with
  | zero =>
    obtain rfl := List.mem_singleton.mp h
    exact ⟨List.prefix_refl _, rfl⟩
  | succ fuel ih =>
    unfold Path.selfAndParents at h
    split at h
    · rename_i above parent
      have up := Path.isParent_of_parent parent
      split at h
      · obtain rfl := List.mem_singleton.mp h
        exact ⟨List.prefix_refl _, rfl⟩
      · rename_i busy
        rcases List.mem_cons.mp h with rfl | h
        · exact ⟨List.prefix_refl _, rfl⟩
        · obtain ⟨le, start⟩ := ih h
          have ne : above.text ≠ [] := by simpa [Path.isEmpty] using busy
          refine ⟨le.trans ?_, start.trans (startOf_of_parent up ne here)⟩
          rcases up.steps with ⟨-, none⟩ | ⟨last, -, whole⟩
          · exact absurd none ne
          · exact whole ▸ List.prefix_append _ _
    · obtain rfl := List.mem_singleton.mp h
      exact ⟨List.prefix_refl _, rfl⟩

theorem prefix_of_makeDirectories (down : d.GoesDown p)
    (made : makeDirectories p d = .ok () d') (reach : d'.Reaches p goal)
    (isDir : d'.IsDirectory goal) (new : d'.get? loc ≠ d.get? loc) : loc <+: goal := by
  have dug := dugFor_makeDirectories (d := d) down
  have paved := paved_makeDirectories p d
  rw [after_of_ok made] at dug paved
  obtain ⟨place, rest, breaks, below⟩ := dug.below loc new
  obtain ⟨place', names, breaks', rfl⟩ :=
    (dug.reaches_cases down reach isDir).resolve_left (breaks.not_reaches goal)
  obtain ⟨rfl, rfl⟩ := breaks.unique breaks'
  -- It was made for the path or one of its parents, which have the first of its steps.
  obtain ⟨q, hm, -, -, links, few, way⟩ := paved.named _ new
  obtain ⟨le, start⟩ := of_mem_selfAndParents hm d'.here
  have there : d'.IsDirectory loc :=
    (paved.dug.get? _).elim (fun same => absurd same new) fun added => added.2
  have byStep := (leads_filter_iff q.segments there []).mpr way
  rw [List.nil_append, start] at byStep
  rcases dug.leads down le few byStep with ⟨old, -⟩ | ⟨place', rest', names', breaks', rfl, e⟩
  · exact absurd ((show d'.get? loc = _ from there).trans (old there).symm) new
  · obtain ⟨rfl, rfl⟩ := breaks.unique breaks'
    obtain ⟨first, more, rfl, same, -⟩ := List.append_eq_map_iff.mp e
    obtain rfl := List.map_injective_iff.mpr (fun _ _ => Name.bytes_injective) same
    exact (List.prefix_append_right_inj place).mpr (List.prefix_append first more)

private theorem isDirectory_of_advance {target : Bytes}
    (h : d.advance follow loc segments = .ok (.link goal target rest)) : d.IsDirectory goal := by
  induction segments generalizing loc with
  | nil => cases h
  | cons segment tail ih =>
    obtain ⟨isDir, ⟨-, on⟩ | ⟨-, on⟩ | ⟨name, -, ⟨-, e⟩ | ⟨text, -, ⟨-, -, e⟩ | ⟨-, e⟩⟩ |
      ⟨-, -, -, on⟩⟩⟩ := advance_cases h
    · exact ih on
    · exact ih on
    · cases e
    · cases e
    · cases e
      exact isDir
    · exact ih on

private theorem advance_of_within (sub : d.Within d') (there : d.get? loc ≠ none)
    (stays : ∀ dir name rest, d.advance follow loc segments = .ok (.free dir name rest) →
      d'.get? (dir ++ [name]) = none) :
    d'.advance follow loc segments = d.advance follow loc segments := by
  induction segments generalizing loc with
  | nil => rfl
  | cons segment tail ih =>
    obtain ⟨node, found⟩ := Option.ne_none_iff_exists'.mp there
    unfold advance at stays ⊢
    rw [found] at stays
    rw [sub.2 _ _ found, found]
    cases node with
    | directory =>
      dsimp only at stays ⊢
      by_cases idle : Path.isIdle segment = true
      · rw [if_pos idle] at stays ⊢
        rw [if_pos idle]
        exact ih there stays
      rw [if_neg idle] at stays ⊢
      rw [if_neg idle]
      by_cases up : segment = Path.dotDot
      · rw [if_pos up] at stays ⊢
        rw [if_pos up]
        refine ih ?_ stays
        by_cases top : loc = []
        · simp [top, get?_nil]
        · have above : d.get? loc.dropLast = some .directory :=
            isDirectory_dropLast_of_get? top found
          simp [above]
      rw [if_neg up] at stays ⊢
      rw [if_neg up]
      cases named : Name.ofBytes? segment with
      | none => rfl
      | some name =>
        rw [named] at stays
        dsimp only at stays ⊢
        cases next : d.get? (loc ++ [name]) with
        | none =>
          rw [next] at stays
          rw [stays loc name tail rfl]
        | some node =>
          rw [next] at stays
          rw [sub.2 _ _ next]
          have there' : d.get? (loc ++ [name]) ≠ none := by simp [next]
          cases node with
          | link target => rfl
          | file content => exact ih there' stays
          | directory => exact ih there' stays
          | other => exact ih there' stays
    | file content => rfl
    | link target => rfl
    | other => rfl

theorem walkTo_of_within (sub : d.Within d') (there : d.get? loc ≠ none) {budget : Nat}
    (stays : ∀ dir name rest, d.walkTo follow budget loc segments = .ok (.free dir name rest) →
      d'.get? (dir ++ [name]) = none) :
    d'.walkTo follow budget loc segments = d.walkTo follow budget loc segments := by
  induction budget generalizing loc segments with
  | zero =>
    unfold walkTo at stays ⊢
    rw [advance_of_within sub there]
    intro dir name rest free
    rw [free] at stays
    exact stays dir name rest rfl
  | succ budget ih =>
    unfold walkTo at stays ⊢
    rw [advance_of_within sub there]
    · cases stop : d.advance follow loc segments with
      | error fault => rfl
      | ok stop' =>
        rw [stop] at stays
        cases stop' with
        | entry goal => rfl
        | free dir name rest => rfl
        | link dir target rest =>
          refine ih ?_ stays
          have isDir : d.get? dir = some .directory := isDirectory_of_advance stop
          unfold startOf
          split
          · simp [get?_nil]
          · simp [isDir]
    · intro dir name rest free
      rw [free] at stays
      exact stays dir name rest rfl

private theorem free_of_advance
    (h : d.advance follow loc segments = .ok (.free goal name rest)) :
    d.IsDirectory goal ∧ d.get? (goal ++ [name]) = none := by
  induction segments generalizing loc with
  | nil => cases h
  | cons segment tail ih =>
    obtain ⟨isDir, ⟨-, on⟩ | ⟨-, on⟩ | ⟨name', -, ⟨free, e⟩ | ⟨text, -, ⟨-, -, e⟩ | ⟨-, e⟩⟩ |
      ⟨-, -, -, on⟩⟩⟩ := advance_cases h
    · exact ih on
    · exact ih on
    · cases e
      exact ⟨isDir, free⟩
    · cases e
    · cases e
    · exact ih on

theorem free_of_spotOf {start : Bytes}
    (h : d.spotOf follow start segments = .ok (.free goal name rest)) :
    d.IsDirectory goal ∧ d.get? (goal ++ [name]) = none := by
  have on : ∀ (budget : Nat) (loc : Location) (segments : List Bytes),
      d.walkTo follow budget loc segments = .ok (.free goal name rest) →
        d.IsDirectory goal ∧ d.get? (goal ++ [name]) = none := by
    intro budget
    induction budget using Nat.strong_induction_on with
    | h budget ih =>
      intro loc segments h
      unfold walkTo at h
      cases stop : d.advance follow loc segments with
      | error fault =>
        rw [stop] at h
        cases h
      | ok stop' =>
        rw [stop] at h
        cases stop' with
        | free dir name rest =>
          cases h
          exact free_of_advance stop
        | entry => cases h
        | link dir target rest =>
          cases budget with
          | zero => cases h
          | succ budget => exact ih budget (Nat.lt_succ_self budget) _ _ h
  exact on _ _ _ (spotOf_eq_ok_iff.mp h)

/-- What a path misses on the first disk is missing on the second one too. -/
def Misses (d d' : Disk) (p : Path) : Prop :=
  ∀ dir name rest, d.spotOf true p.text p.segments = .ok (.free dir name rest) →
    d'.get? (dir ++ [name]) = none

theorem spotOf_of_misses (sub : d.Within d') (standing : d.IsDirectory d.here)
    (misses : d.Misses d' p) :
    d'.spotOf true p.text p.segments = d.spotOf true p.text p.segments := by
  have there : d.get? (startOf d.here p.text) ≠ none := by
    unfold startOf
    split
    · simp [get?_nil]
    · simp [show d.get? d.here = _ from standing]
  unfold spotOf
  rw [sub.1, walkTo_of_within sub there]
  intro dir name rest free
  exact misses dir name rest (spotOf_eq_ok_iff.mpr free)

theorem reaches_iff_of_misses (sub : d.Within d') (standing : d.IsDirectory d.here)
    (misses : d.Misses d' p) : d'.Reaches p goal ↔ d.Reaches p goal := by
  rw [reaches_iff_spotOf, reaches_iff_spotOf, spotOf_of_misses sub standing misses]

end LayeredTree.Disk
