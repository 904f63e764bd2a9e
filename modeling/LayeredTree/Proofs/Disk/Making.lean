import LayeredTree.Proofs.Runs
import LayeredTree.Proofs.Tree.Contents

set_option autoImplicit false

namespace LayeredTree

section Recovery

variable {ε σ α : Type}

theorem tryCatch_of_ok {act : EStateM ε σ α} {handle : ε → EStateM ε σ α} {s s' : σ} {a : α}
    (h : act s = .ok a s') : (tryCatch act handle) s = .ok a s' := by
  change EStateM.tryCatch act handle s = _
  rw [EStateM.tryCatch, h]

theorem tryCatch_of_error {act : EStateM ε σ α} {handle : ε → EStateM ε σ α} {s s' : σ} {e : ε}
    (h : act s = .error e s') : (tryCatch act handle) s = handle e s' := by
  change EStateM.tryCatch act handle s = _
  rw [EStateM.tryCatch, h]
  rfl

end Recovery

namespace Disk

variable {d d' : Disk} {p q : Path} {loc dir names other : Location} {name : Name} {node : Node}
variable {closed : Bool} {content : Bytes}

theorem get_eq (d : Disk) : (get : DiskRequest Disk) d = .ok d d := rfl

theorem create_of_free (hl : d.resolveLast p = .ok (.name dir name closed))
    (free : d.get? (dir ++ [name]) = none) (open_ : closed = false ∨ node = .directory) :
    create p node d = .ok () (d.plant (dir ++ [name]) node) := by
  have go : ¬ (closed = true ∧ node ≠ .directory) := by
    rintro ⟨rfl, ne⟩
    rcases open_ with e | e
    · cases e
    · exact ne e
  unfold create
  rw [bind_of_ok (ask_of_ok hl)]
  dsimp only
  rw [bind_of_ok (get_eq d), free]
  dsimp only
  rw [if_neg go]
  rfl

theorem create_of_taken (hl : d.resolveLast p = .ok (.name dir name closed))
    (taken : d.get? (dir ++ [name]) ≠ none) :
    create p node d = .error (.system .alreadyExists) d := by
  obtain ⟨found, hg⟩ := Option.ne_none_iff_exists'.mp taken
  unfold create
  rw [bind_of_ok (ask_of_ok hl)]
  dsimp only
  rw [bind_of_ok (get_eq d), hg]
  rfl

theorem create_of_error {fault : IoFault} (hl : d.resolveLast p = .error fault) :
    create p node d = .error fault d := bind_of_error (ask_of_error hl)

theorem makeDirectory_cases (d : Disk) (p : Path) :
    (∃ dir name closed, d.resolveLast p = .ok (.name dir name closed) ∧
      d.get? (dir ++ [name]) = none ∧
        makeDirectory p d = .ok () (d.plant (dir ++ [name]) .directory)) ∨
      ∃ fault, makeDirectory p d = .error fault d := by
  cases hl : d.resolveLast p with
  | error fault => exact .inr ⟨fault, create_of_error hl⟩
  | ok step =>
    cases step with
    | name dir name closed =>
      by_cases free : d.get? (dir ++ [name]) = none
      · exact .inl ⟨dir, name, closed, rfl, free, create_of_free hl free (.inr rfl)⟩
      · exact .inr ⟨_, create_of_taken hl free⟩
    | root =>
      right
      rw [makeDirectory, create, bind_of_ok (ask_of_ok hl)]
      exact ⟨_, rfl⟩
    | dot =>
      right
      rw [makeDirectory, create, bind_of_ok (ask_of_ok hl)]
      exact ⟨_, rfl⟩
    | dotDot =>
      right
      rw [makeDirectory, create, bind_of_ok (ask_of_ok hl)]
      exact ⟨_, rfl⟩

structure Raised (d : Disk) (loc names : Location) (d' : Disk) : Prop where
  here : d'.here = d.here
  get? : ∀ other, d'.get? other =
    if loc <+: other ∧ other ≠ loc ∧ other <+: loc ++ names then some .directory
    else d.get? other

/-- Each step of the way is a directory or free. -/
def Passable (d : Disk) (loc names : Location) : Prop :=
  ∀ init, init <+: names → d.get? (loc ++ init) = none ∨ d.IsDirectory (loc ++ init)

theorem Passable.of_concat (h : d.Passable loc (names ++ [name])) : d.Passable loc names :=
  fun init le => h init (le.trans (List.prefix_append _ _))

theorem passable_singleton (isDir : d.IsDirectory loc)
    (free : d.get? (loc ++ [name]) = none ∨ d.IsDirectory (loc ++ [name])) :
    d.Passable loc [name] := by
  intro init le
  rcases List.prefix_cons_iff.mp le with rfl | ⟨rest, rfl, tail⟩
  · rw [List.append_nil]
    exact .inr isDir
  · rw [List.prefix_nil.mp tail]
    exact free

theorem Reaches.stem_below (h : d.Reaches p loc) : ∃ stem, ∃ links ≤ maxLinks,
    d.Leads (startOf d.here p.text) stem links loc ∧
      ∀ names : Location, names ≠ [] → (pathBelow p names).text ≠ [] ∧
        (0 : UInt8) ∉ (pathBelow p names).text ∧
        startOf d.here (pathBelow p names).text = startOf d.here p.text ∧
          (pathBelow p names).segments = stem ++ names.map Name.bytes := by
  obtain ⟨stem, links, le, w, child⟩ := h.stem
  refine ⟨stem, links, le, w, fun names ne => ?_⟩
  induction names using List.reverseRecOn with
  | nil => exact absurd rfl ne
  | append_singleton names name ih =>
    rw [pathBelow_concat]
    by_cases first : names = []
    · subst first
      exact ⟨(h.child_text name).1, (h.child_text name).2, h.startOf_child name, child name⟩
    · obtain ⟨ne, zero, start, segments⟩ := ih first
      have rel := Path.head?_ne_slash_of_notMem name.slash_notMem
      refine ⟨Path.child_ne_nil ne rel, ?_, ?_, ?_⟩
      · exact Path.notMem_child ne (by decide) rel zero name.zero_notMem
      · rw [startOf, Path.head?_child ne rel]
        exact start
      · obtain ⟨stem', hs, child'⟩ := Path.exists_stem ne
        have plain : (pathBelow p names).segments = stem' := by
          rcases hs with e | e
          · exact e
          · rw [segments] at e
            obtain ⟨init, last, rfl⟩ : ∃ init last, names = init ++ [last] :=
              ⟨_, _, (List.dropLast_concat_getLast first).symm⟩
            rw [List.map_append, ← List.append_assoc] at e
            have last := (List.append_inj' e rfl).2
            simp at last
        rw [child' _ name.slash_notMem, ← plain, segments]
        simp

theorem leads_names (hn : d.get? (loc ++ names) = some node) (plain : node.isLink = false) :
    d.Leads loc (names.map Name.bytes) 0 (loc ++ names) := by
  induction names using List.reverseRecOn generalizing node with
  | nil =>
    rw [List.append_nil]
    exact .done loc
  | append_singleton names name ih =>
    rw [← List.append_assoc] at hn ⊢
    rw [List.map_append]
    exact (ih (isDirectory_of_child hn) rfl).append (.name hn plain (.done _))

theorem reaches_link {dir top : Location} {name : Name} (isDir : d.IsDirectory top)
    (link : d.get? (dir ++ [name]) = some (.link (Location.path top).text)) :
    d.Reaches (Location.path (dir ++ [name])) top := by
  have down : d.Leads [] (Location.path top).steps 0 top := by
    rw [Location.steps_path]
    exact leads_names isDir rfl
  have across : d.Leads dir [name.bytes] 1 top := by
    refine .link link ?_
    rw [startOf, if_pos (Location.head?_text_path _), List.append_nil]
    exact (leads_filter_iff _ isDir []).mp down
  have way : d.Leads [] (Location.path (dir ++ [name])).steps 1 top := by
    have up : d.Leads [] (dir.map Name.bytes) 0 ([] ++ dir) :=
      leads_names (isDirectory_of_child link) rfl
    rw [Location.steps_path, List.map_append]
    exact up.append across
  refine ⟨Location.text_path_ne_nil _, Location.zero_notMem_path _, 1, by decide, ?_⟩
  rw [startOf, if_pos (Location.head?_text_path _)]
  exact (leads_filter_iff _ isDir []).mp way

private theorem exists_first_free (isDir : d.IsDirectory loc) (way : d.Passable loc names)
    (free : d.get? (loc ++ names) = none) : ∃ init next rest, names = init ++ next :: rest ∧
      d.IsDirectory (loc ++ init) ∧ d.get? (loc ++ init ++ [next]) = none := by
  induction names using List.reverseRecOn with
  | nil =>
    rw [List.append_nil, show d.get? loc = _ from isDir] at free
    cases free
  | append_singleton names name ih =>
    rcases way names (List.prefix_append _ _) with none | there
    · obtain ⟨init, next, rest, rfl, isDir', free'⟩ := ih way.of_concat none
      exact ⟨init, next, rest ++ [name], by simp, isDir', free'⟩
    · exact ⟨names, name, [], rfl, there, by rwa [List.append_assoc]⟩

theorem Reaches.resolveLast_of_missing (h : d.Reaches p loc) (isDir : d.IsDirectory loc)
    (way : d.Passable loc names) (free : d.get? (loc ++ names) = none)
    (short : Short (pathBelow p (names ++ [name]))) :
    d.resolveLast (pathBelow p (names ++ [name])) = .error (.system .noEntry) := by
  obtain ⟨stem, links, le, w, below⟩ := h.stem_below
  obtain ⟨ne, zero, start, segments⟩ := below (names ++ [name]) (by simp)
  obtain ⟨init, next, rest, rfl, isDir', free'⟩ := exists_first_free isDir way free
  have way' := w.append (leads_names isDir' rfl)
  have whole : (pathBelow p (init ++ next :: rest ++ [name])).segments =
      (stem ++ (init ++ next :: rest).map Name.bytes) ++ name.bytes :: [] := by
    rw [segments]
    simp
  have split : stem ++ (init ++ next :: rest).map Name.bytes ++ [[]] =
      (stem ++ init.map Name.bytes) ++ (next.bytes :: (rest.map Name.bytes ++ [[]])) := by
    simp
  have stuck : d.spotOf true (pathBelow p (init ++ next :: rest ++ [name])).text
      (stem ++ (init ++ next :: rest).map Name.bytes ++ [[]]) =
        .ok (.free (loc ++ init) next (rest.map Name.bytes ++ [[]])) := by
    rw [spotOf_eq_ok_iff, start, split, way'.walkTo_append _ (.inr rfl) _ (by omega),
      walkTo_free isDir' free']
  exact resolveLast_of_free ne zero short whole (by simp) stuck

private theorem selfAndParents_eq (fuel : Nat) (p : Path) :
    ∃ outer, p.selfAndParents fuel = p :: outer := by
  cases fuel with
  | zero => exact ⟨[], rfl⟩
  | succ fuel =>
    unfold Path.selfAndParents
    split
    · split
      · exact ⟨[], rfl⟩
      · exact ⟨_, rfl⟩
    · exact ⟨[], rfl⟩

theorem Reaches.makeDirectory (h : d.Reaches p loc) (short : Short p) :
    makeDirectory p d = .error (.system .alreadyExists) d := by
  obtain ⟨step, hl, taken⟩ := h.exists_lastStep short
  cases step with
  | name dir name closed => exact create_of_taken hl (taken dir name closed rfl)
  | root | dot | dotDot =>
    rw [Disk.makeDirectory, create, bind_of_ok (ask_of_ok hl)]
    rfl

theorem makeInside_of_taken {outer : List Path}
    (fault : makeDirectory p d = .error (.system .alreadyExists) d)
    (there : d.hasDirectory p = true) : makeInside (p :: outer) d = .ok () d := by
  unfold makeInside
  dsimp only
  rw [tryCatch_of_error fault, if_neg (by decide), bind_of_ok (get_eq d), if_pos there]
  rfl

theorem makeInside_of_free {outer : List Path} (hl : d.resolveLast p = .ok (.name dir name closed))
    (free : d.get? (dir ++ [name]) = none) :
    makeInside (p :: outer) d = .ok () (d.plant (dir ++ [name]) .directory) := by
  unfold makeInside
  exact tryCatch_of_ok (create_of_free hl free (.inr rfl))

theorem makeInside_of_missing {outer : List Path}
    (hl : d.resolveLast p = .error (.system .noEntry)) (ho : makeInside outer d = .ok () d')
    (hl' : d'.resolveLast p = .ok (.name dir name closed))
    (free : d'.get? (dir ++ [name]) = none) :
    makeInside (p :: outer) d = .ok () (d'.plant (dir ++ [name]) .directory) := by
  have fault : makeDirectory p d = .error (.system .noEntry) d := create_of_error hl
  unfold makeInside
  dsimp only
  rw [tryCatch_of_error fault, if_pos rfl, bind_of_ok ho]
  exact tryCatch_of_ok (create_of_free hl' free (.inr rfl))

theorem makeInside_of_refused {outer : List Path} {fault : IoFault}
    (refused : makeDirectory p d = .error fault d) (other : fault ≠ .system .noEntry)
    (none : ¬ d.hasDirectory p = true) : makeInside (p :: outer) d = .error fault d := by
  unfold makeInside
  dsimp only
  rw [tryCatch_of_error refused, if_neg other, bind_of_ok (get_eq d), if_neg none]
  rfl

theorem raised_of_isDirectory (there : d.IsDirectory (loc ++ names)) : d.Raised loc names d := by
  refine ⟨rfl, fun other => ?_⟩
  split
  · rename_i on
    obtain ⟨rest, e⟩ := on.2.2
    by_cases last : rest = []
    · subst last
      rw [List.append_nil] at e
      rw [e]
      exact there
    · rw [← e] at there
      exact isDirectory_of_append last there
  · rfl

theorem Raised.within (h : d.Raised loc names d') (way : d.Passable loc names) :
    d.Within d' := by
  refine ⟨h.here, fun other node hn => ?_⟩
  rw [h.get?]
  split
  · rename_i on
    obtain ⟨init, rfl⟩ := on.1
    rcases way init ((List.prefix_append_right_inj loc).mp on.2.2) with none | there
    · rw [none] at hn
      cases hn
    · rw [← hn]
      exact there.symm
  · exact hn

theorem Raised.isDirectory (h : d.Raised loc names d') (isDir : d.IsDirectory loc) :
    d'.IsDirectory (loc ++ names) := by
  rw [IsDirectory, h.get?]
  split
  · rfl
  · rename_i off
    have same : loc ++ names = loc := by
      by_contra ne
      exact off ⟨List.prefix_append _ _, ne, List.prefix_rfl⟩
    rw [same]
    exact isDir

private theorem Raised.concat (h : d.Raised loc names d') (isDir : d.IsDirectory loc)
    (free : d'.get? (loc ++ names ++ [name]) = none) :
    d.Raised loc (names ++ [name]) (d'.plant (loc ++ names ++ [name]) .directory) := by
  refine ⟨(here_plant _ _).trans h.here, fun other => ?_⟩
  have up : d'.IsDirectory (loc ++ names ++ [name]).dropLast := by
    rw [List.dropLast_concat]
    exact h.isDirectory isDir
  rw [get?_plant (by simp) free up]
  by_cases e : other = loc ++ names ++ [name]
  · subst e
    rw [if_pos rfl, if_pos]
    exact ⟨by simp [List.append_assoc], by simp, by simp⟩
  · rw [if_neg e, h.get?]
    congr 1
    refine propext (and_congr_right fun _ => and_congr_right fun _ => ⟨fun le => ?_, fun le => ?_⟩)
    · exact le.trans (by simp [← List.append_assoc])
    · rw [← List.append_assoc] at le
      rcases List.prefix_concat_iff.mp le with same | le
      · exact absurd same e
      · exact le

theorem pathBelow_ne_nil (ne : p.text ≠ []) (names : Location) : (pathBelow p names).text ≠ [] := by
  induction names using List.reverseRecOn with
  | nil => exact ne
  | append_singleton names name ih =>
    rw [pathBelow_concat]
    exact Path.child_ne_nil ih (Path.head?_ne_slash_of_notMem name.slash_notMem)

theorem isTidy_pathBelow (ne : p.text ≠ []) (more : names ≠ []) : (pathBelow p names).IsTidy := by
  obtain ⟨init, last, rfl⟩ : ∃ init last, names = init ++ [last] :=
    ⟨_, _, (List.dropLast_concat_getLast more).symm⟩
  rw [pathBelow_concat]
  exact Path.isTidy_child (pathBelow_ne_nil ne init) last

theorem short_of_append {rest : Location} (ne : p.text ≠ [])
    (short : Short (pathBelow p (names ++ rest))) : Short (pathBelow p names) := by
  induction rest using List.reverseRecOn with
  | nil => rwa [List.append_nil] at short
  | append_singleton rest name ih =>
    have rel := Path.head?_ne_slash_of_notMem name.slash_notMem
    rw [← List.append_assoc, pathBelow_concat] at short
    have longer := Path.length_lt_child (pathBelow_ne_nil ne (names ++ rest)) rel name.bytes_ne_nil
    exact ih (Nat.le_trans (Nat.le_of_lt longer) short)

theorem short_path_of_prefix (le : loc <+: other) (short : Short (Location.path other)) :
    Short (Location.path loc) := by
  obtain ⟨rest, rfl⟩ := le
  have whole : Short (pathBelow (Location.path []) (loc ++ rest)) := by
    rwa [pathBelow_path, List.nil_append]
  have first := short_of_append (Location.text_path_ne_nil []) whole
  rwa [pathBelow_path, List.nil_append] at first

private theorem makeInside_below (h : d.Reaches p loc) (isDir : d.IsDirectory loc)
    (way : d.Passable loc names) (short : Short (pathBelow p names)) (fuel : Nat)
    (enough : names.length ≤ fuel) :
    ∃ d', makeInside ((pathBelow p names).selfAndParents fuel) d = .ok () d' ∧
      d.Raised loc names d' := by
  -- The last name goes first, as the directories above it are made before it.
  induction names using List.reverseRecOn generalizing fuel with
  | nil =>
    obtain ⟨outer, e⟩ := selfAndParents_eq fuel (pathBelow p [])
    rw [e]
    have there : d.hasDirectory p = true := hasDirectory_iff.mpr ⟨loc, h, short, isDir⟩
    refine ⟨d, makeInside_of_taken (h.makeDirectory short) there, raised_of_isDirectory ?_⟩
    rw [List.append_nil]
    exact isDir
  | append_singleton names next ih =>
    have before := short_of_append h.1 short
    have room : names.length + 1 ≤ fuel := by simpa using enough
    rcases way names (List.prefix_append _ _) with gone | there
    · have more : names ≠ [] := by
        rintro rfl
        rw [List.append_nil, show d.get? loc = _ from isDir] at gone
        cases gone
      obtain ⟨fuel, rfl⟩ := Nat.exists_eq_add_of_le' (Nat.le_trans (Nat.le_add_left 1 _) room)
      have list : (pathBelow p (names ++ [next])).selfAndParents (fuel + 1) =
          pathBelow p (names ++ [next]) :: (pathBelow p names).selfAndParents fuel := by
        have tidy := isTidy_pathBelow h.1 more
        rw [Path.selfAndParents, pathBelow_concat, tidy.parent_child]
        dsimp only
        rw [if_neg (by simpa [Path.isEmpty] using tidy.ne_nil)]
      rw [list]
      obtain ⟨d', run, raised⟩ := ih way.of_concat before fuel (by omega)
      have there := raised.isDirectory isDir
      have free : d'.get? (loc ++ names ++ [next]) = none := by
        rw [raised.get?, if_neg, get?_append_of_none gone]
        rintro ⟨-, -, le⟩
        have longer := le.length_le
        simp only [List.length_append, List.length_singleton] at longer
        omega
      have reach := (h.mono (raised.within way.of_concat)).below there rfl
      have missing := h.resolveLast_of_missing isDir way.of_concat gone short
      rw [pathBelow_concat] at short missing ⊢
      exact ⟨_, makeInside_of_missing missing run (reach.resolveLast_child there short) free,
        raised.concat isDir free⟩
    · obtain ⟨outer, list⟩ := selfAndParents_eq fuel (pathBelow p (names ++ [next]))
      rw [list]
      have reach := h.below there rfl
      have raised := raised_of_isDirectory there
      rcases way (names ++ [next]) List.prefix_rfl with free | there'
      · rw [← List.append_assoc] at free
        rw [pathBelow_concat] at short ⊢
        exact ⟨_, makeInside_of_free (reach.resolveLast_child there short) free,
          raised.concat isDir free⟩
      · refine ⟨d, ?_, raised_of_isDirectory there'⟩
        rw [← List.append_assoc] at there'
        rw [pathBelow_concat] at short ⊢
        have found := hasDirectory_iff.mpr ⟨_, reach.child there' rfl, short, there'⟩
        refine makeInside_of_taken (create_of_taken (reach.resolveLast_child there short) ?_) found
        rw [show d.get? _ = _ from there']
        nofun

/-- The end of a try that failed: a directory that is there already is as good as a new one. -/
def unlessThere (p : Path) (fault : IoFault) : DiskRequest Unit := do
  if (← get).hasDirectory p then pure () else throw fault

theorem makeInside_cons (p : Path) (outer : List Path) : makeInside (p :: outer) =
    tryCatch (makeDirectory p) fun fault =>
      if fault = .system .noEntry then (do
        makeInside outer
        tryCatch (makeDirectory p) (unlessThere p))
      else unlessThere p fault := rfl

theorem after_unlessThere (p : Path) (fault : IoFault) (d : Disk) :
    after (unlessThere p fault) d = d := by
  unfold after unlessThere
  rw [bind_of_ok (get_eq d)]
  by_cases there : d.hasDirectory p = true
  · rw [if_pos there]
    rfl
  · rw [if_neg there]
    rfl

/-- Making a path inside others makes at most one directory more than they need: where the path
ends, on the disk as it was or with the others made. -/
theorem after_makeInside_cases (p : Path) (outer : List Path) (d : Disk) :
    (after (makeInside (p :: outer)) d = d ∨
      after (makeInside (p :: outer)) d = after (makeInside outer) d) ∨
    ∃ d₁ dir name closed, (d₁ = d ∨ d₁ = after (makeInside outer) d) ∧
      d₁.resolveLast p = .ok (.name dir name closed) ∧ d₁.get? (dir ++ [name]) = none ∧
        after (makeInside (p :: outer)) d = d₁.plant (dir ++ [name]) .directory := by
  rw [makeInside_cons]
  rcases makeDirectory_cases d p with ⟨dir, name, closed, last, free, made⟩ | ⟨fault, failed⟩
  · exact .inr ⟨d, dir, name, closed, .inl rfl, last, free, after_of_ok (tryCatch_of_ok made)⟩
  have caught : ∀ handle : IoFault → DiskRequest Unit,
      after (tryCatch (makeDirectory p) handle) d = after (handle fault) d := by
    intro handle
    unfold after
    rw [tryCatch_of_error failed]
  rw [caught]
  by_cases missing : fault = .system .noEntry
  · rw [if_pos missing]
    cases ho : makeInside outer d with
    | error fault' d₁ =>
      rw [after_of_error (bind_of_error ho), after_of_error ho]
      exact .inl (.inr rfl)
    | ok u d₁ =>
      rw [after_bind_of_ok ho, after_of_ok ho]
      rcases makeDirectory_cases d₁ p with ⟨dir, name, closed, last, free, made⟩ | ⟨fault', failed'⟩
      · exact .inr ⟨d₁, dir, name, closed, .inr rfl, last, free, after_of_ok (tryCatch_of_ok made)⟩
      · refine .inl (.inr (Eq.trans ?_ (after_unlessThere p fault' d₁)))
        unfold after
        rw [tryCatch_of_error failed']
  · rw [if_neg missing]
    exact .inl (.inl (after_unlessThere p fault d))

theorem rel_makeDirectories {R : Disk → Disk → Prop} (refl : ∀ d, R d d)
    (step : ∀ d d₁ dir name, R d d₁ → d₁.IsDirectory dir → d₁.get? (dir ++ [name]) = none →
      R d (d₁.plant (dir ++ [name]) .directory)) (p : Path) (d : Disk) :
    R d (after (makeDirectories p) d) := by
  have inside : ∀ paths : List Path, R d (after (makeInside paths) d) := by
    intro paths
    induction paths with
    | nil => exact refl d
    | cons p outer ih =>
      rcases after_makeInside_cases p outer d with (e | e) |
        ⟨d₁, dir, name, closed, rfl | rfl, last, free, e⟩
      · rw [e]
        exact refl d
      · rw [e]
        exact ih
      · obtain ⟨-, -, -, -, -, -, -, isDir, -⟩ := of_resolveLast_name last
        rw [e]
        exact step _ _ dir name (refl _) isDir free
      · obtain ⟨-, -, -, -, -, -, -, isDir, -⟩ := of_resolveLast_name last
        rw [e]
        exact step _ _ dir name ih isDir free
  unfold makeDirectories
  split
  · exact refl d
  · exact inside _

/-- The request takes nothing away, however it ends. -/
def Grows {α : Type} (act : DiskRequest α) : Prop := ∀ d : Disk, d.Within (after act d)

theorem grows_makeDirectories (p : Path) : Grows (makeDirectories p) :=
  rel_makeDirectories Within.refl (fun _ _ _ _ sub _ _ => sub.trans (within_plant _ _)) p

theorem reaches_plant (hl : d.resolveLast p = .ok (.name dir name closed))
    (free : d.get? (dir ++ [name]) = none) :
    (d.plant (dir ++ [name]) .directory).Reaches p (dir ++ [name]) := by
  obtain ⟨ne, zero, short, init, closing, segments, hc, isDir, links, le, w⟩ :=
    of_resolveLast_name hl
  have made : (d.plant (dir ++ [name]) .directory).IsDirectory (dir ++ [name]) :=
    get?_plant_self (by simp) free (by rwa [List.dropLast_concat]) _
  have idle : closing.filter (fun s => !Path.isIdle s) = [] := by
    rw [List.filter_eq_nil_iff]
    intro s hs
    simp [hc s hs, Path.isIdle_nil]
  have way := (w.mono (within_plant (dir ++ [name]) .directory)).append (.name made rfl (.done _))
  have whole := (leads_filter_iff closing made (init ++ [name.bytes])).mp (by
    rwa [idle, List.append_nil])
  refine ⟨ne, zero, links, le, ?_⟩
  rw [here_plant, segments]
  simpa using whole

theorem hasDirectory_plant (hl : d.resolveLast p = .ok (.name dir name closed))
    (free : d.get? (dir ++ [name]) = none) :
    (d.plant (dir ++ [name]) .directory).hasDirectory p = true := by
  obtain ⟨-, -, short, -, -, -, -, isDir, -⟩ := of_resolveLast_name hl
  exact hasDirectory_iff.mpr ⟨dir ++ [name], reaches_plant hl free, short,
    get?_plant_self (by simp) free (by rwa [List.dropLast_concat]) _⟩

theorem hasDirectory_of_makeDirectories (ne : p.text ≠ []) (h : makeDirectories p d = .ok () d') :
    d'.hasDirectory p = true := by
  rw [makeDirectories, if_neg (by simpa [Path.isEmpty] using ne)] at h
  obtain ⟨outer, e⟩ := selfAndParents_eq p.text.length p
  rw [e] at h
  have settled : ∀ (fault : IoFault) (d₁ : Disk), (do
      if (← get).hasDirectory p then pure () else throw fault : DiskRequest Unit) d₁ = .ok () d' →
        d'.hasDirectory p = true := by
    intro fault d₁ run
    rw [bind_of_ok (get_eq d₁)] at run
    split at run
    · rename_i there
      cases run
      exact there
    · cases run
  unfold makeInside at h
  dsimp only at h
  rcases makeDirectory_cases d p with ⟨dir, name, closed, last, free, made⟩ | ⟨fault, failed⟩
  · rw [tryCatch_of_ok made] at h
    cases h
    exact hasDirectory_plant last free
  · rw [tryCatch_of_error failed] at h
    split at h
    · obtain ⟨⟨⟩, d₁, -, again⟩ := bind_eq_ok_iff.mp h
      rcases makeDirectory_cases d₁ p with ⟨dir, name, closed, last, free, made⟩ | ⟨fault', failed'⟩
      · rw [tryCatch_of_ok made] at again
        cases again
        exact hasDirectory_plant last free
      · rw [tryCatch_of_error failed'] at again
        exact settled fault' d₁ again
    · exact settled fault d h

private theorem length_le_pathBelow (ne : p.text ≠ []) (names : Location) :
    names.length ≤ (pathBelow p names).text.length := by
  induction names using List.reverseRecOn with
  | nil => exact Nat.zero_le _
  | append_singleton names name ih =>
    have rel := Path.head?_ne_slash_of_notMem name.slash_notMem
    have longer := Path.length_lt_child (pathBelow_ne_nil ne names) rel name.bytes_ne_nil
    rw [pathBelow_concat, List.length_append, List.length_singleton]
    omega

theorem makeDirectories_below (h : d.Reaches p loc) (isDir : d.IsDirectory loc)
    (way : d.Passable loc names) (short : Short (pathBelow p names)) :
    ∃ d', makeDirectories (pathBelow p names) d = .ok () d' ∧ d.Raised loc names d' := by
  have ne := pathBelow_ne_nil h.1 names
  rw [makeDirectories, if_neg (by simpa [Path.isEmpty] using ne)]
  exact makeInside_below h isDir way short _ (length_le_pathBelow h.1 names)

theorem Reaches.makeDirectories (h : d.Reaches p loc) (isDir : d.IsDirectory loc)
    (short : Short p) : makeDirectories p d = .ok () d := by
  obtain ⟨outer, e⟩ := selfAndParents_eq p.text.length p
  rw [Disk.makeDirectories, if_neg (by simpa [Path.isEmpty] using h.1), e]
  exact makeInside_of_taken (h.makeDirectory short)
    (hasDirectory_iff.mpr ⟨loc, h, short, isDir⟩)

theorem makeDirectories_of_long (d : Disk) (ne : p.text ≠ []) (long : ¬ Short p) :
    ∃ fault, makeDirectories p d = .error fault d := by
  obtain ⟨fault, hl, other⟩ := d.resolveLast_of_long ne long
  obtain ⟨outer, e⟩ := selfAndParents_eq p.text.length p
  rw [makeDirectories, if_neg (by simpa [Path.isEmpty] using ne), e]
  refine ⟨fault, makeInside_of_refused (create_of_error hl) other fun there => ?_⟩
  obtain ⟨-, -, short, -⟩ := hasDirectory_iff.mp there
  exact long short

theorem Reaches.makeDirectories_child_run (h : d.Reaches p loc) (isDir : d.IsDirectory loc)
    (name : Name) :
    (d.get? (loc ++ [name]) = none ∧ Disk.makeDirectories (p.child name.bytes) d =
      .ok () (d.plant (loc ++ [name]) .directory)) ∨
    (d.hasDirectory (p.child name.bytes) = true ∧
      Disk.makeDirectories (p.child name.bytes) d = .ok () d) ∨
    ∃ fault, Disk.makeDirectories (p.child name.bytes) d = .error fault d := by
  have ne := (h.child_text name).1
  by_cases short : Short (p.child name.bytes)
  · have hl := h.resolveLast_child isDir short
    obtain ⟨outer, e⟩ := selfAndParents_eq (p.child name.bytes).text.length (p.child name.bytes)
    rw [Disk.makeDirectories, if_neg (by simpa [Path.isEmpty] using ne), e]
    by_cases free : d.get? (loc ++ [name]) = none
    · exact .inl ⟨free, makeInside_of_free hl free⟩
    · have taken : Disk.makeDirectory _ d = _ := create_of_taken hl free
      by_cases there : d.hasDirectory (p.child name.bytes) = true
      · exact .inr (.inl ⟨there, makeInside_of_taken taken there⟩)
      · exact .inr (.inr ⟨_, makeInside_of_refused taken (by simp) there⟩)
  · exact .inr (.inr (d.makeDirectories_of_long ne short))

theorem Reaches.makeDirectories_child_cases (h : d.Reaches p loc) (isDir : d.IsDirectory loc)
    (plain : ∀ text, d.get? (loc ++ [name]) ≠ some (.link text)) :
    (d.get? (loc ++ [name]) = none ∧ Disk.makeDirectories (p.child name.bytes) d =
      .ok () (d.plant (loc ++ [name]) .directory)) ∨
    (d.IsDirectory (loc ++ [name]) ∧ Disk.makeDirectories (p.child name.bytes) d = .ok () d) ∨
    ∃ fault, Disk.makeDirectories (p.child name.bytes) d = .error fault d :=
  (h.makeDirectories_child_run isDir name).imp_right fun ends =>
    ends.imp_left fun there => ⟨h.isDirectory_of_hasDirectory isDir plain there.1, there.2⟩

theorem makeDirectories_path (way : d.Passable [] names) (short : Short (Location.path names)) :
    ∃ d', makeDirectories (Location.path names) d = .ok () d' ∧ d.Raised [] names d' := by
  have root : d.get? [] = some .directory := d.isDirectory_nil
  have same : Location.path names = pathBelow (Location.path []) names := by
    rw [pathBelow_path, List.nil_append]
  rw [same] at short ⊢
  exact makeDirectories_below (reaches_path root rfl) root way short

end Disk
end LayeredTree
