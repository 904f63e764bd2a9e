import LayeredTree.Proofs.Disk.Making

set_option autoImplicit false

namespace LayeredTree.Disk

variable {d d' : Disk} {p q : Path} {loc goal : Location} {segment : Bytes} {name : Name}
variable {rest segments : List Bytes} {links budget : Nat} {node : Node}

/-- The place can be read by its own path, with a slash behind it where a directory is asked for. -/
def Legible (loc : Location) (rest : List Bytes) : Prop :=
  (Location.path loc).text.length + (if asksDirectory rest then 1 else 0) ≤ maxPathLength

/-- A way as in `Leads`, on which each named place can be read by its own path. -/
inductive Settles (d : Disk) : Location → List Bytes → Nat → Location → Prop
  | done (loc : Location) : Settles d loc [] 0 loc
  | idle {loc goal : Location} {segment : Bytes} {rest : List Bytes} {links : Nat} :
      d.IsDirectory loc → Path.isIdle segment = true → Settles d loc rest links goal →
      Settles d loc (segment :: rest) links goal
  | up {loc goal : Location} {rest : List Bytes} {links : Nat} :
      d.IsDirectory loc → Settles d loc.dropLast rest links goal →
      Settles d loc (Path.dotDot :: rest) links goal
  | name {loc goal : Location} {name : Name} {node : Node} {rest : List Bytes} {links : Nat} :
      d.get? (loc ++ [name]) = some node → node.isLink = false → Legible (loc ++ [name]) rest →
      Settles d (loc ++ [name]) rest links goal →
      Settles d loc (name.bytes :: rest) links goal
  | link {loc goal : Location} {name : Name} {target : Bytes} {rest : List Bytes} {links : Nat} :
      d.get? (loc ++ [name]) = some (.link target) → Short (Location.path (loc ++ [name])) →
      Settles d (startOf loc target) (Bytes.splitOn slash target ++ rest) links goal →
      Settles d loc (name.bytes :: rest) (links + 1) goal

theorem Legible.short (h : Legible loc rest) : Short (Location.path loc) :=
  Nat.le_trans (Nat.le_add_right _ _) h

theorem legible_of_short (short : Short (Location.path loc)) (open_ : asksDirectory rest = false) :
    Legible loc rest := by
  rw [Legible, open_]
  exact short

theorem Settles.leads (h : d.Settles loc segments links goal) :
    d.Leads loc segments links goal := by
  induction h with
  | done loc => exact .done loc
  | idle dir idle _ ih => exact .idle dir idle ih
  | up dir _ ih => exact .up dir ih
  | name found plain _ _ ih => exact .name found plain ih
  | link found _ _ ih => exact .link found ih

theorem entryIn_eq_ok_iff : d.entryIn loc segment = .ok (name, node) ↔
    segment = name.bytes ∧ d.get? (loc ++ [name]) = some node := by
  constructor
  · intro h
    unfold entryIn at h
    split at h
    · cases h
    · split at h
      · cases h
      · rename_i named
        split at h
        · cases h
        · rename_i found
          cases h
          exact ⟨Name.eq_of_ofBytes? named, found⟩
    · cases h
  · rintro ⟨rfl, found⟩
    have dir : d.get? loc = some .directory := isDirectory_of_child found
    unfold entryIn
    simp [dir, found]

theorem asksDirectory_up : asksDirectory (Path.dotDot :: rest) = true := by
  simp [asksDirectory, isIdle_dotDot]

theorem asksDirectory_name : asksDirectory (name.bytes :: rest) = false := by
  simp [asksDirectory]

theorem asksDirectory_idle_iff (idle : Path.isIdle segment = true) (ne : rest ≠ []) :
    asksDirectory (segment :: rest) = asksDirectory rest := by
  have busy : rest.isEmpty = false := by simpa using ne
  rw [asksDirectory, List.dropWhile_cons_of_pos idle, asksDirectory, busy]
  rfl

theorem settleAlong_idle (idle : Path.isIdle segment = true) :
    d.settleAlong loc (segment :: rest) = d.settleAlong loc rest := by
  rw [settleAlong, if_pos idle]

theorem settleAlong_up :
    d.settleAlong loc (Path.dotDot :: rest) = d.settleAlong loc.dropLast rest := by
  rw [settleAlong, if_neg (by simp [isIdle_dotDot]), if_pos rfl]

private theorem settleAlong_bytes : d.settleAlong loc (name.bytes :: rest) =
    if maxPathLength < (Location.path (loc ++ [name])).text.length then .error .nameTooLong
    else match d.entryIn loc name.bytes with
      | .ok (_, .link target) => .ok (loc, some (target, rest))
      | found =>
        if asksDirectory rest ∧ maxPathLength < (Location.path (loc ++ [name])).text.length + 1 then
          .error .nameTooLong
        else match found with
          | .error fault => .error fault
          | .ok (name, node) =>
            if asksDirectory rest ∧ !node.isDirectory then .error .notDirectory
            else d.settleAlong (loc ++ [name]) rest := by
  rewrite [settleAlong, if_neg (by simp), if_neg (by simp), Location.child_path]
  rfl

theorem settleAlong_link {target : Bytes} (found : d.get? (loc ++ [name]) = some (.link target))
    (short : Short (Location.path (loc ++ [name]))) :
    d.settleAlong loc (name.bytes :: rest) = .ok (loc, some (target, rest)) := by
  rw [settleAlong_bytes, if_neg (Nat.not_lt.mpr short), entryIn_eq_ok_iff.mpr ⟨rfl, found⟩]

private theorem settleAlong_plain (found : d.get? (loc ++ [name]) = some node)
    (plain : node.isLink = false) : d.settleAlong loc (name.bytes :: rest) =
      if maxPathLength < (Location.path (loc ++ [name])).text.length then .error .nameTooLong
      else if asksDirectory rest ∧
          maxPathLength < (Location.path (loc ++ [name])).text.length + 1 then .error .nameTooLong
      else if asksDirectory rest ∧ !node.isDirectory then .error .notDirectory
      else d.settleAlong (loc ++ [name]) rest := by
  rw [settleAlong_bytes, entryIn_eq_ok_iff.mpr ⟨rfl, found⟩]
  cases node with
  | link => cases plain
  | file => rfl
  | directory => rfl
  | other => rfl

theorem settleAlong_name (found : d.get? (loc ++ [name]) = some node) (plain : node.isLink = false)
    (legible : Legible (loc ++ [name]) rest)
    (isDir : asksDirectory rest = true → node = .directory) :
    d.settleAlong loc (name.bytes :: rest) = d.settleAlong (loc ++ [name]) rest := by
  have short := legible.short
  rw [settleAlong_plain found plain, if_neg (Nat.not_lt.mpr short), if_neg, if_neg]
  · rintro ⟨asks, other⟩
    rw [isDir asks] at other
    cases other
  · rintro ⟨asks, long⟩
    rw [Legible, if_pos asks] at legible
    omega

private theorem legible_of_settleAlong {stop : Location × Option (Bytes × List Bytes)}
    (found : d.get? (loc ++ [name]) = some node) (plain : node.isLink = false)
    (h : d.settleAlong loc (name.bytes :: rest) = .ok stop) :
    Legible (loc ++ [name]) rest ∧ (asksDirectory rest = true → node = .directory) ∧
      d.settleAlong (loc ++ [name]) rest = .ok stop := by
  rw [settleAlong_plain found plain] at h
  split at h
  · cases h
  split at h
  · cases h
  split at h
  · cases h
  rename_i short room kind
  refine ⟨?_, fun asks => ?_, h⟩
  · unfold Legible
    split
    · rename_i asks
      exact Nat.not_lt.mp fun long => room ⟨asks, long⟩
    · exact Nat.not_lt.mp short
  · cases node with
    | directory => rfl
    | link => cases plain
    | file => exact absurd ⟨asks, rfl⟩ kind
    | other => exact absurd ⟨asks, rfl⟩ kind

theorem settleAlong_cases {stop : Location × Option (Bytes × List Bytes)}
    (h : d.settleAlong loc (segment :: rest) = .ok stop) :
    (Path.isIdle segment = true ∧ d.settleAlong loc rest = .ok stop) ∨
    (segment = Path.dotDot ∧ d.settleAlong loc.dropLast rest = .ok stop) ∨
    ∃ name : Name, segment = name.bytes ∧
      ((∃ target, d.get? (loc ++ [name]) = some (.link target) ∧
          Short (Location.path (loc ++ [name])) ∧ stop = (loc, some (target, rest))) ∨
        ∃ node, d.get? (loc ++ [name]) = some node ∧ node.isLink = false ∧
          Legible (loc ++ [name]) rest ∧ (asksDirectory rest = true → node = .directory) ∧
          d.settleAlong (loc ++ [name]) rest = .ok stop) := by
  by_cases idle : Path.isIdle segment = true
  · rw [settleAlong_idle idle] at h
    exact .inl ⟨idle, h⟩
  by_cases up : segment = Path.dotDot
  · rw [up, settleAlong_up] at h
    exact .inr (.inl ⟨up, h⟩)
  refine .inr (.inr ?_)
  cases found : d.entryIn loc segment with
  | error fault =>
    rw [settleAlong, if_neg idle, if_neg up, found] at h
    dsimp only at h
    split at h
    · cases h
    · split at h <;> cases h
  | ok entry =>
    obtain ⟨name, node⟩ := entry
    obtain ⟨rfl, held⟩ := entryIn_eq_ok_iff.mp found
    refine ⟨name, rfl, ?_⟩
    by_cases plain : node.isLink = false
    · exact .inr ⟨node, held, plain, legible_of_settleAlong held plain h⟩
    · left
      cases node with
      | link target =>
        rw [settleAlong_bytes, found] at h
        split at h
        · cases h
        · rename_i short
          cases h
          exact ⟨target, held, Nat.not_lt.mp short, rfl⟩
      | file => exact absurd rfl plain
      | directory => exact absurd rfl plain
      | other => exact absurd rfl plain

theorem isDirectory_of_settleAlong {stop : Location × Option (Bytes × List Bytes)}
    (h : d.settleAlong loc segments = .ok stop) (ne : segments ≠ [])
    (start : asksDirectory segments = true → d.IsDirectory loc) : d.IsDirectory loc := by
  induction segments with
  | nil => exact absurd rfl ne
  | cons segment rest ih =>
    rcases settleAlong_cases h with ⟨idle, h'⟩ | ⟨rfl, -⟩ | ⟨name, rfl, ⟨target, found, -⟩ |
      ⟨node, found, -⟩⟩
    · by_cases last : rest = []
      · subst last
        exact start (by simp [asksDirectory, idle])
      · rw [asksDirectory_idle_iff idle last] at start
        exact ih h' last start
    · exact start asksDirectory_up
    · exact isDirectory_of_child found
    · exact isDirectory_of_child found

private theorem settles_of_settleAlong {stop : Location × Option (Bytes × List Bytes)}
    (h : d.settleAlong loc segments = .ok stop)
    (start : asksDirectory segments = true → d.IsDirectory loc) :
    (∀ goal, stop = (goal, none) → d.Settles loc segments 0 goal) ∧
      ∀ dir target later, stop = (dir, some (target, later)) → d.IsDirectory dir ∧
        ∀ links goal, d.Settles (startOf dir target) (Bytes.splitOn slash target ++ later) links goal →
          d.Settles loc segments (links + 1) goal := by
  induction segments generalizing loc with
  | nil =>
    rw [settleAlong] at h
    cases h
    refine ⟨fun goal e => ?_, nofun⟩
    cases e
    exact .done loc
  | cons segment rest ih =>
    have isDir := isDirectory_of_settleAlong h (List.cons_ne_nil _ _) start
    rcases settleAlong_cases h with ⟨idle, h'⟩ | ⟨rfl, h'⟩ | ⟨name, rfl, ⟨target, found, short, rfl⟩ |
      ⟨node, found, plain, legible, kind, h'⟩⟩
    · obtain ⟨ends, links⟩ := ih h' fun _ => isDir
      refine ⟨fun goal e => .idle isDir idle (ends goal e), fun dir target later e => ?_⟩
      obtain ⟨there, on⟩ := links dir target later e
      exact ⟨there, fun links goal w => .idle isDir idle (on links goal w)⟩
    · obtain ⟨ends, links⟩ := ih h' fun _ => isDirectory_dropLast_of_isDirectory isDir
      refine ⟨fun goal e => .up isDir (ends goal e), fun dir target later e => ?_⟩
      obtain ⟨there, on⟩ := links dir target later e
      exact ⟨there, fun links goal w => .up isDir (on links goal w)⟩
    · refine ⟨nofun, fun dir target' later e => ?_⟩
      cases e
      exact ⟨isDir, fun links goal w => .link found short w⟩
    · obtain ⟨ends, links⟩ := ih h' fun asks => by rw [IsDirectory, found, kind asks]
      refine ⟨fun goal e => .name found plain legible (ends goal e), fun dir target later e => ?_⟩
      obtain ⟨there, on⟩ := links dir target later e
      exact ⟨there, fun links goal w => .name found plain legible (on links goal w)⟩

private theorem settle_eq : d.settle budget loc segments =
    match d.settleAlong loc segments with
    | .error fault => .error fault
    | .ok (goal, none) => .ok goal
    | .ok (directory, some (target, rest)) =>
      match budget with
      | 0 => .error .tooManyLinks
      | budget + 1 =>
        d.settle budget (startOf directory target) (Bytes.splitOn slash target ++ rest) :=
  settle.eq_def ..

private theorem settle_congr {loc' : Location} {segments' : List Bytes}
    (h : d.settleAlong loc segments = d.settleAlong loc' segments') :
    d.settle budget loc segments = d.settle budget loc' segments' := by
  rw [settle_eq, settle_eq, h]

theorem Settles.isDirectory (h : d.Settles loc segments links goal) (ne : segments ≠ []) :
    d.IsDirectory loc := h.leads.isDirectory ne

theorem Settles.settle (h : d.Settles loc segments links goal) (le : links ≤ budget) :
    d.settle budget loc segments = .ok goal := by
  induction h generalizing budget with
  | done loc =>
    rw [settle_eq]
    rfl
  | idle _ idle _ ih =>
    rw [settle_congr (settleAlong_idle idle), ih le]
  | up _ _ ih =>
    rw [settle_congr settleAlong_up, ih le]
  | @name loc goal name node rest links found plain legible w ih =>
    have kind : asksDirectory rest = true → node = .directory := by
      intro asks
      have there := w.isDirectory (by rintro rfl; cases asks)
      rw [IsDirectory, found] at there
      exact Option.some.inj there
    rw [settle_congr (settleAlong_name found plain legible kind), ih le]
  | link found short _ ih =>
    obtain ⟨budget, rfl⟩ := Nat.exists_eq_add_of_le' (Nat.le_trans (Nat.le_add_left 1 _) le)
    rw [settle_eq, settleAlong_link found short]
    exact ih (by omega)

theorem settle_eq_ok_iff (isDir : d.IsDirectory loc) : d.settle budget loc segments = .ok goal ↔
    ∃ links ≤ budget, d.Settles loc segments links goal := by
  constructor
  · induction budget generalizing loc segments with
    | zero =>
      intro h
      rw [settle_eq] at h
      cases hs : d.settleAlong loc segments with
      | error fault => simp [hs] at h
      | ok stop =>
        obtain ⟨goal', on⟩ := stop
        have said := settles_of_settleAlong hs fun _ => isDir
        cases on with
        | none =>
          rw [hs] at h
          cases h
          exact ⟨0, Nat.le_refl 0, said.1 _ rfl⟩
        | some on => simp [hs] at h
    | succ budget ih =>
      intro h
      rw [settle_eq] at h
      cases hs : d.settleAlong loc segments with
      | error fault => simp [hs] at h
      | ok stop =>
        obtain ⟨goal', on⟩ := stop
        have said := settles_of_settleAlong hs fun _ => isDir
        cases on with
        | none =>
          rw [hs] at h
          cases h
          exact ⟨0, Nat.zero_le _, said.1 _ rfl⟩
        | some on =>
          obtain ⟨target, later⟩ := on
          rw [hs] at h
          obtain ⟨there, lift⟩ := said.2 _ _ _ rfl
          have from_ : d.IsDirectory (startOf goal' target) := by
            unfold startOf
            split
            · exact d.isDirectory_nil
            · exact there
          obtain ⟨links, le, w⟩ := ih from_ h
          exact ⟨links + 1, by omega, lift _ _ w⟩
  · rintro ⟨links, le, w⟩
    exact w.settle le

theorem Settles.short_of_concat (h : d.Settles loc segments links goal) {init : List Bytes}
    (e : segments = init ++ [name.bytes])
    (plain : ∀ dir text, d.get? (dir ++ [name]) ≠ some (.link text)) :
    Short (Location.path goal) := by
  induction h generalizing init with
  | done loc => simp at e
  | idle _ idle _ ih =>
    cases init with
    | nil =>
      cases e
      simp at idle
    | cons => exact ih (List.cons.inj e).2
  | up _ _ ih =>
    cases init with
    | nil => exact absurd (List.cons.inj e).1.symm name.bytes_ne_dotDot
    | cons => exact ih (List.cons.inj e).2
  | name found _ legible w ih =>
    cases init with
    | nil =>
      obtain ⟨-, rfl⟩ := List.cons.inj e
      cases w
      exact legible.short
    | cons => exact ih (List.cons.inj e).2
  | @link loc _ other target _ _ found _ _ ih =>
    cases init with
    | nil =>
      obtain rfl : other = name := Name.bytes_injective (List.cons.inj e).1
      exact absurd found (plain loc target)
    | cons _ init =>
      have whole : Bytes.splitOn slash target ++ (init ++ [name.bytes]) =
          Bytes.splitOn slash target ++ init ++ [name.bytes] := (List.append_assoc ..).symm
      rw [(List.cons.inj e).2] at ih
      exact ih whole

/-- The path leads to a location by a way on which each place can be read by its own path. -/
def Settled (d : Disk) (p : Path) (loc : Location) : Prop :=
  p.text ≠ [] ∧ (0 : UInt8) ∉ p.text ∧
    ∃ links ≤ maxLinks, d.Settles (startOf d.here p.text) p.segments links loc

theorem Settled.reaches (h : d.Settled p loc) : d.Reaches p loc := by
  obtain ⟨ne, zero, links, le, w⟩ := h
  exact ⟨ne, zero, links, le, w.leads⟩

theorem Settled.short_of_concat (h : d.Settled p loc) {init : List Bytes}
    (e : p.segments = init ++ [name.bytes])
    (plain : ∀ dir text, d.get? (dir ++ [name]) ≠ some (.link text)) :
    Short (Location.path loc) := by
  obtain ⟨-, -, links, -, w⟩ := h
  exact w.short_of_concat e plain

theorem canonical_eq_ok_iff : d.canonical p = .ok q ↔
    ∃ loc, d.Settled p loc ∧ q = Location.path loc := by
  unfold canonical
  by_cases spelled : p.text ≠ [] ∧ (0 : UInt8) ∉ p.text
  swap
  · constructor
    · intro h
      by_cases zero : (0 : UInt8) ∈ p.text
      · simp only [checkSpelling, zero, if_true] at h
        cases h
      · have none : p.text = [] := by
          by_contra ne
          exact spelled ⟨ne, zero⟩
        simp only [checkSpelling, none] at h
        cases h
    · rintro ⟨loc, settled, -⟩
      exact absurd ⟨settled.1, settled.2.1⟩ spelled
  obtain ⟨ne, zero⟩ := spelled
  rw [checkSpelling_eq_ok ne zero]
  by_cases isDir : d.IsDirectory (startOf d.here p.text)
  swap
  · constructor
    · intro h
      simp only [bind, Except.bind, if_pos isDir] at h
      cases h
    · rintro ⟨loc, ⟨-, -, links, -, w⟩, -⟩
      exact absurd (w.isDirectory p.segments_ne_nil) isDir
  have settled : ∀ loc, d.settle maxLinks (startOf d.here p.text) p.segments = .ok loc ↔
      d.Settled p loc :=
    fun loc => (settle_eq_ok_iff isDir).trans ⟨fun w => ⟨ne, zero, w⟩, fun h => h.2.2⟩
  simp only [bind, Except.bind, isDir, not_true, if_false]
  rw [show Bytes.splitOn slash p.text = p.segments from rfl]
  cases run : d.settle maxLinks (startOf d.here p.text) p.segments with
  | error fault =>
    constructor
    · rintro ⟨⟩
    · rintro ⟨loc, h, -⟩
      cases ((settled loc).mpr h).symm.trans run
  | ok goal =>
    constructor
    · intro h
      cases h
      exact ⟨goal, (settled goal).mp run, rfl⟩
    · rintro ⟨loc, h, rfl⟩
      cases ((settled loc).mpr h).symm.trans run
      rfl

theorem settles_names {names : Location} (isDir : d.IsDirectory (loc ++ names))
    (short : Short (Location.path (loc ++ names))) :
    d.Settles loc (names.map Name.bytes) 0 (loc ++ names) := by
  induction names generalizing loc with
  | nil =>
    rw [List.append_nil]
    exact .done loc
  | cons name rest ih =>
    have whole : loc ++ name :: rest = loc ++ [name] ++ rest := by simp
    rw [whole] at isDir short ⊢
    have open_ : asksDirectory (rest.map Name.bytes) = false := by
      cases rest with
      | nil => rfl
      | cons next rest => exact asksDirectory_name
    have there : d.IsDirectory (loc ++ [name]) := by
      by_cases last : rest = []
      · rwa [last, List.append_nil] at isDir
      · exact isDirectory_of_append last isDir
    have first := short_path_of_prefix (List.prefix_append _ rest) short
    exact .name there rfl (legible_of_short first open_) (ih isDir short)

theorem settled_path (isDir : d.IsDirectory loc) (short : Short (Location.path loc)) :
    d.Settled (Location.path loc) loc := by
  refine ⟨Location.text_path_ne_nil loc, Location.zero_notMem_path loc, 0, Nat.zero_le _, ?_⟩
  rw [startOf, if_pos (Location.head?_text_path loc)]
  by_cases top : loc = []
  · subst top
    exact .idle isDir rfl (.idle isDir rfl (.done []))
  · rw [Location.segments_path_of_ne top]
    have down : d.Settles [] (loc.map Name.bytes) 0 ([] ++ loc) := settles_names isDir short
    exact .idle d.isDirectory_nil rfl down

/-- The directory that a path names its entry in is reached place by place. -/
def Resolvable (d : Disk) (p : Path) : Prop :=
  ∃ parent dir, p.parent = some parent ∧
    d.Settled (if parent.isEmpty then ⟨Path.dot⟩ else parent) dir

theorem resolvable_of_canonical {parent : Path} (up : p.parent = some parent)
    (h : d.canonical (if parent.isEmpty then ⟨Path.dot⟩ else parent) = .ok q) :
    d.Resolvable p := by
  obtain ⟨dir, settled, -⟩ := canonical_eq_ok_iff.mp h
  exact ⟨parent, dir, up, settled⟩

theorem resolvable_path (isDir : d.IsDirectory loc) (short : Short (Location.path loc)) :
    d.Resolvable (Location.path (loc ++ [name])) := by
  have up := (Location.isTidy_path loc).parent_child name
  rw [Location.child_path] at up
  refine ⟨_, loc, up, ?_⟩
  rw [if_neg (by simp [Path.isEmpty])]
  exact settled_path isDir short

end LayeredTree.Disk
