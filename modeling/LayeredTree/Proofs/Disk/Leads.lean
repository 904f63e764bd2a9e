import LayeredTree.Disk.Resolve
import LayeredTree.Proofs.Disk.Entries
import LayeredTree.Proofs.Paths

set_option autoImplicit false

namespace LayeredTree

def Node.isLink : Node → Bool
  | .link _ => true
  | _ => false

namespace Disk

/-- Segments lead from one location to another, over the given number of links. -/
inductive Leads (d : Disk) : Location → List Bytes → Nat → Location → Prop
  | done (loc : Location) : Leads d loc [] 0 loc
  | idle {loc goal : Location} {segment : Bytes} {rest : List Bytes} {links : Nat} :
      d.IsDirectory loc → Path.isIdle segment = true → Leads d loc rest links goal →
      Leads d loc (segment :: rest) links goal
  | up {loc goal : Location} {rest : List Bytes} {links : Nat} :
      d.IsDirectory loc → Leads d loc.dropLast rest links goal →
      Leads d loc (Path.dotDot :: rest) links goal
  | name {loc goal : Location} {name : Name} {node : Node} {rest : List Bytes} {links : Nat} :
      d.get? (loc ++ [name]) = some node → node.isLink = false →
      Leads d (loc ++ [name]) rest links goal →
      Leads d loc (name.bytes :: rest) links goal
  | link {loc goal : Location} {name : Name} {target : Bytes} {rest : List Bytes} {links : Nat} :
      d.get? (loc ++ [name]) = some (.link target) →
      Leads d (startOf loc target) (Bytes.splitOn slash target ++ rest) links goal →
      Leads d loc (name.bytes :: rest) (links + 1) goal

variable {d : Disk} {loc goal : Location} {segment : Bytes} {rest : List Bytes} {links : Nat}
variable {name : Name} {follow : Bool} {budget : Nat}

theorem isIdle_dotDot : Path.isIdle Path.dotDot = false := by decide

private theorem advance_nil : d.advance follow loc [] = .ok (.entry loc) := rfl

private theorem advance_cons : d.advance follow loc (segment :: rest) =
    match d.get? loc with
    | none => .error .noEntry
    | some .directory =>
      if Path.isIdle segment then d.advance follow loc rest
      else if segment = Path.dotDot then d.advance follow loc.dropLast rest
      else
        match Name.ofBytes? segment with
        | none => .error .nameTooLong
        | some name =>
          match d.get? (loc ++ [name]) with
          | none => .ok (.free loc name rest)
          | some (.link target) =>
            if rest = [] ∧ follow = false then .ok (.entry (loc ++ [name]))
            else .ok (.link loc target rest)
          | some _ => d.advance follow (loc ++ [name]) rest
    | some _ => .error .notDirectory := advance.eq_2 ..

theorem advance_idle (dir : d.IsDirectory loc) (h : Path.isIdle segment = true) :
    d.advance follow loc (segment :: rest) = d.advance follow loc rest := by
  rw [advance_cons, show d.get? loc = some .directory from dir]
  simp [h]

theorem advance_up (dir : d.IsDirectory loc) :
    d.advance follow loc (Path.dotDot :: rest) = d.advance follow loc.dropLast rest := by
  rw [advance_cons, show d.get? loc = some .directory from dir]
  simp [isIdle_dotDot]

theorem advance_name {node : Node} (h : d.get? (loc ++ [name]) = some node)
    (plain : node.isLink = false) :
    d.advance follow loc (name.bytes :: rest) = d.advance follow (loc ++ [name]) rest := by
  have dir : d.get? loc = some .directory := isDirectory_of_child h
  rw [advance_cons, dir]
  cases node with
  | link target => cases plain
  | _ => simp [h]

theorem advance_link {target : Bytes} (h : d.get? (loc ++ [name]) = some (.link target)) :
    d.advance follow loc (name.bytes :: rest) =
      if rest = [] ∧ follow = false then .ok (.entry (loc ++ [name]))
      else .ok (.link loc target rest) := by
  have dir : d.get? loc = some .directory := isDirectory_of_child h
  rw [advance_cons, dir]
  simp [h]

theorem advance_free (dir : d.IsDirectory loc) (h : d.get? (loc ++ [name]) = none) :
    d.advance follow loc (name.bytes :: rest) = .ok (.free loc name rest) := by
  rw [advance_cons, show d.get? loc = some .directory from dir]
  simp [h]

private theorem walkTo_eq {segments : List Bytes} : d.walkTo follow budget loc segments =
    match d.advance follow loc segments with
    | .error fault => .error fault
    | .ok (.entry loc) => .ok (.entry loc)
    | .ok (.free directory name rest) => .ok (.free directory name rest)
    | .ok (.link directory target rest) =>
      match budget with
      | 0 => .error .tooManyLinks
      | budget + 1 =>
        d.walkTo follow budget (startOf directory target) (Bytes.splitOn slash target ++ rest) :=
  walkTo.eq_def ..

private theorem walkTo_congr {loc' : Location} {segments segments' : List Bytes}
    (h : d.advance follow loc segments = d.advance follow loc' segments') :
    d.walkTo follow budget loc segments = d.walkTo follow budget loc' segments' := by
  rw [walkTo_eq, walkTo_eq, h]

theorem walkTo_nil : d.walkTo follow budget loc [] = .ok (.entry loc) := by
  rw [walkTo_eq, advance_nil]

theorem walkTo_idle (dir : d.IsDirectory loc) (h : Path.isIdle segment = true) :
    d.walkTo follow budget loc (segment :: rest) = d.walkTo follow budget loc rest :=
  walkTo_congr (advance_idle dir h)

theorem walkTo_up (dir : d.IsDirectory loc) :
    d.walkTo follow budget loc (Path.dotDot :: rest) =
      d.walkTo follow budget loc.dropLast rest :=
  walkTo_congr (advance_up dir)

theorem walkTo_name {node : Node} (h : d.get? (loc ++ [name]) = some node)
    (plain : node.isLink = false) :
    d.walkTo follow budget loc (name.bytes :: rest) =
      d.walkTo follow budget (loc ++ [name]) rest :=
  walkTo_congr (advance_name h plain)

theorem walkTo_link {target : Bytes} (h : d.get? (loc ++ [name]) = some (.link target))
    (on : rest ≠ [] ∨ follow = true) :
    d.walkTo follow (budget + 1) loc (name.bytes :: rest) =
      d.walkTo follow budget (startOf loc target) (Bytes.splitOn slash target ++ rest) := by
  have go : ¬ (rest = [] ∧ follow = false) := by
    rintro ⟨rfl, rfl⟩
    simp at on
  rw [walkTo_eq, advance_link h, if_neg go]

theorem walkTo_own_link {target : Bytes} (h : d.get? (loc ++ [name]) = some (.link target)) :
    d.walkTo false budget loc [name.bytes] = .ok (.entry (loc ++ [name])) := by
  rw [walkTo_eq, advance_link h]
  simp

theorem walkTo_free (dir : d.IsDirectory loc) (h : d.get? (loc ++ [name]) = none) :
    d.walkTo follow budget loc (name.bytes :: rest) = .ok (.free loc name rest) := by
  rw [walkTo_eq, advance_free dir h]

theorem advance_cases {stop : Stop} (h : d.advance follow loc (segment :: rest) = .ok stop) :
    d.IsDirectory loc ∧
      ((Path.isIdle segment = true ∧ d.advance follow loc rest = .ok stop) ∨
        (segment = Path.dotDot ∧ d.advance follow loc.dropLast rest = .ok stop) ∨
        ∃ name : Name, segment = name.bytes ∧
          ((d.get? (loc ++ [name]) = none ∧ stop = .free loc name rest) ∨
            (∃ target, d.get? (loc ++ [name]) = some (.link target) ∧
              ((rest = [] ∧ follow = false ∧ stop = .entry (loc ++ [name])) ∨
                ((rest ≠ [] ∨ follow = true) ∧ stop = .link loc target rest))) ∨
            (∃ node, d.get? (loc ++ [name]) = some node ∧ node.isLink = false ∧
              d.advance follow (loc ++ [name]) rest = .ok stop))) := by
  rw [advance_cons] at h
  cases hd : d.get? loc with
  | none => simp [hd] at h
  | some here =>
    cases here with
    | directory =>
      refine ⟨hd, ?_⟩
      simp only [hd] at h
      by_cases idle : Path.isIdle segment = true
      · rw [if_pos idle] at h
        exact .inl ⟨idle, h⟩
      by_cases up : segment = Path.dotDot
      · rw [if_neg idle, if_pos up] at h
        exact .inr (.inl ⟨up, h⟩)
      rw [if_neg idle, if_neg up] at h
      cases hn : Name.ofBytes? segment with
      | none => simp [hn] at h
      | some name =>
        refine .inr (.inr ⟨name, Name.eq_of_ofBytes? hn, ?_⟩)
        simp only [hn] at h
        cases hg : d.get? (loc ++ [name]) with
        | none =>
          simp only [hg, Except.ok.injEq] at h
          exact .inl ⟨rfl, h.symm⟩
        | some node =>
          right
          simp only [hg] at h
          cases node with
          | link target =>
            left
            refine ⟨target, rfl, ?_⟩
            by_cases last : rest = [] ∧ follow = false
            · simp only [last, and_self, if_true, Except.ok.injEq] at h
              exact .inl ⟨last.1, last.2, h.symm⟩
            · simp only [last, if_false, Except.ok.injEq] at h
              refine .inr ⟨?_, h.symm⟩
              by_contra none
              rw [not_or, not_not, Bool.not_eq_true] at none
              exact last none
          | file content => exact .inr ⟨_, rfl, rfl, h⟩
          | directory => exact .inr ⟨_, rfl, rfl, h⟩
          | other => exact .inr ⟨_, rfl, rfl, h⟩
    | file content => simp [hd] at h
    | link target => simp [hd] at h
    | other => simp [hd] at h

theorem Leads.walkTo_append {segments : List Bytes} (h : d.Leads loc segments links goal)
    (tail : List Bytes) (on : tail ≠ [] ∨ follow = true) :
    ∀ budget, links ≤ budget → d.walkTo follow budget loc (segments ++ tail) =
      d.walkTo follow (budget - links) goal tail := by
  induction h with
  | done loc => simp
  | idle dir h _ ih =>
    intro budget le
    rw [List.cons_append, walkTo_idle dir h, ih budget le]
  | up dir _ ih =>
    intro budget le
    rw [List.cons_append, walkTo_up dir, ih budget le]
  | name h plain _ ih =>
    intro budget le
    rw [List.cons_append, walkTo_name h plain, ih budget le]
  | link h _ ih =>
    intro budget le
    obtain ⟨budget, rfl⟩ := Nat.exists_eq_add_of_le' (Nat.le_trans (Nat.le_add_left 1 _) le)
    have more : ∀ rest : List Bytes, rest ++ tail ≠ [] ∨ follow = true := fun rest =>
      on.imp_left fun ne e => ne (List.append_eq_nil_iff.mp e).2
    rw [List.cons_append, walkTo_link h (more _), ← List.append_assoc, ih budget (by omega)]
    congr 1
    omega

theorem Leads.walkTo {segments : List Bytes} (h : d.Leads loc segments links goal)
    (le : links ≤ budget) : d.walkTo true budget loc segments = .ok (.entry goal) := by
  have all : d.walkTo true budget loc (segments ++ []) = _ :=
    h.walkTo_append [] (.inr rfl) budget le
  rwa [List.append_nil, walkTo_nil] at all

/-- The last step of a walk that takes a link under it as an entry of its own. -/
def OwnStep (d : Disk) (loc : Location) (segment : Bytes) (goal : Location) : Prop :=
  d.IsDirectory loc ∧
    ((Path.isIdle segment = true ∧ goal = loc) ∨ (segment = Path.dotDot ∧ goal = loc.dropLast) ∨
      ∃ name : Name, segment = name.bytes ∧ goal = loc ++ [name] ∧ d.get? goal ≠ none)

/-- What a stop says of the way up to it: an entry is where it leads, and before a link it leads on
to wherever the link leads with some of what follows it. -/
private def Explains (d : Disk) (follow : Bool) (loc : Location) (segments : List Bytes) :
    Stop → Prop
  | .entry goal =>
    (follow = true → d.Leads loc segments 0 goal) ∧
      (follow = false → ∀ init last, segments = init ++ [last] →
        ∃ mid, d.Leads loc init 0 mid ∧ d.OwnStep mid last goal)
  | .free .. => True
  | .link dir target rest => (rest ≠ [] ∨ follow = true) ∧
      ∀ near far, rest = near ++ far → ∃ init, segments = init ++ far ∧ ∀ links goal,
        d.Leads (startOf dir target) (Bytes.splitOn slash target ++ near) links goal →
          d.Leads loc init (links + 1) goal

private theorem Explains.lift {loc' : Location} {stop : Stop}
    (h : Explains d follow loc' rest stop)
    (step : ∀ init links goal, d.Leads loc' init links goal →
      d.Leads loc (segment :: init) links goal)
    (single : ∀ goal, stop = .entry goal → rest = [] → d.OwnStep loc segment goal) :
    Explains d follow loc (segment :: rest) stop := by
  cases stop with
  | entry goal =>
    refine ⟨fun f => step _ _ _ (h.1 f), fun f init last e => ?_⟩
    rcases List.cons_eq_append_iff.mp e with ⟨rfl, e'⟩ | ⟨init, rfl, e'⟩
    · obtain ⟨rfl, rfl⟩ := List.cons_eq_cons.mp e'
      exact ⟨loc, .done loc, single goal rfl rfl⟩
    · obtain ⟨mid, w, own⟩ := h.2 f init last e'
      exact ⟨mid, step _ _ _ w, own⟩
  | free => trivial
  | link =>
    refine ⟨h.1, fun near far e => ?_⟩
    obtain ⟨init, rfl, w⟩ := h.2 near far e
    exact ⟨segment :: init, rfl, fun links goal w' => step _ _ _ (w links goal w')⟩

private theorem eq_of_advance_nil {stop : Stop} (h : d.advance follow loc [] = .ok stop) :
    stop = .entry loc := by
  rw [advance_nil, Except.ok.injEq] at h
  exact h.symm

private theorem explains_of_advance {segments : List Bytes} {stop : Stop}
    (h : d.advance follow loc segments = .ok stop) : Explains d follow loc segments stop := by
  induction segments generalizing loc with
  | nil =>
    rw [eq_of_advance_nil h]
    refine ⟨fun _ => .done loc, fun _ init last e => ?_⟩
    simp at e
  | cons segment rest ih =>
    obtain ⟨dir, ⟨idle, h'⟩ | ⟨rfl, h'⟩ | ⟨name, rfl, ⟨hn, rfl⟩ |
      ⟨target, hl, ⟨rfl, rfl, rfl⟩ | ⟨on, rfl⟩⟩ | ⟨node, hn, plain, h'⟩⟩⟩ := advance_cases h
    · refine (ih h').lift (fun _ _ _ w => .idle dir idle w) fun goal e e' => ?_
      subst e e'
      cases eq_of_advance_nil h'
      exact ⟨dir, .inl ⟨idle, rfl⟩⟩
    · refine (ih h').lift (fun _ _ _ w => .up dir w) fun goal e e' => ?_
      subst e e'
      cases eq_of_advance_nil h'
      exact ⟨dir, .inr (.inl ⟨rfl, rfl⟩)⟩
    · trivial
    · refine ⟨fun f => (nomatch f), fun _ init last e => ?_⟩
      obtain ⟨rfl, rfl⟩ : [] = init ∧ name.bytes = last := by
        rcases List.cons_eq_append_iff.mp e with ⟨rfl, e'⟩ | ⟨init, rfl, e'⟩
        · exact ⟨rfl, (List.cons_eq_cons.mp e').1.symm⟩
        · simp at e'
      exact ⟨loc, .done loc, dir, .inr (.inr ⟨name, rfl, rfl, by simp [hl]⟩)⟩
    · refine ⟨on, fun near far e => ⟨name.bytes :: near, by simp [e], fun links goal w => ?_⟩⟩
      exact .link hl w
    · refine (ih h').lift (fun _ _ _ w => .name hn plain w) fun goal e e' => ?_
      subst e e'
      cases eq_of_advance_nil h'
      exact ⟨dir, .inr (.inr ⟨name, rfl, rfl, by simp [hn]⟩)⟩

theorem walkTo_eq_entry_iff {segments : List Bytes} :
    d.walkTo true budget loc segments = .ok (.entry goal) ↔
      ∃ links ≤ budget, d.Leads loc segments links goal := by
  constructor
  · induction budget generalizing loc segments with
    | zero =>
      intro h
      rw [walkTo_eq] at h
      cases ha : d.advance true loc segments with
      | error fault => simp [ha] at h
      | ok stop =>
        have said := explains_of_advance ha
        cases stop with
        | entry g =>
          simp only [ha, Except.ok.injEq, Spot.entry.injEq] at h
          exact ⟨0, Nat.le_refl 0, h ▸ said.1 rfl⟩
        | free => simp [ha] at h
        | link => simp [ha] at h
    | succ budget ih =>
      intro h
      rw [walkTo_eq] at h
      cases ha : d.advance true loc segments with
      | error fault => simp [ha] at h
      | ok stop =>
        have said := explains_of_advance ha
        cases stop with
        | entry g =>
          simp only [ha, Except.ok.injEq, Spot.entry.injEq] at h
          exact ⟨0, Nat.zero_le _, h ▸ said.1 rfl⟩
        | free => simp [ha] at h
        | link dir target rest =>
          simp only [ha] at h
          obtain ⟨links, le, w⟩ := ih h
          obtain ⟨init, rfl, lift⟩ := said.2 rest [] (by simp)
          exact ⟨links + 1, by omega, by simpa using lift _ _ w⟩
  · rintro ⟨links, le, w⟩
    exact w.walkTo le

theorem walkTo_own_iff {init : List Bytes} {last : Bytes} :
    d.walkTo false budget loc (init ++ [last]) = .ok (.entry goal) ↔
      ∃ links ≤ budget, ∃ mid, d.Leads loc init links mid ∧ d.OwnStep mid last goal := by
  constructor
  · induction budget generalizing loc init with
    | zero =>
      intro h
      rw [walkTo_eq] at h
      cases ha : d.advance false loc (init ++ [last]) with
      | error fault => simp [ha] at h
      | ok stop =>
        have said := explains_of_advance ha
        cases stop with
        | entry g =>
          simp only [ha, Except.ok.injEq, Spot.entry.injEq] at h
          exact ⟨0, Nat.le_refl 0, h ▸ said.2 rfl init last rfl⟩
        | free => simp [ha] at h
        | link => simp [ha] at h
    | succ budget ih =>
      intro h
      rw [walkTo_eq] at h
      cases ha : d.advance false loc (init ++ [last]) with
      | error fault => simp [ha] at h
      | ok stop =>
        have said := explains_of_advance ha
        cases stop with
        | entry g =>
          simp only [ha, Except.ok.injEq, Spot.entry.injEq] at h
          exact ⟨0, Nat.zero_le _, h ▸ said.2 rfl init last rfl⟩
        | free => simp [ha] at h
        | link dir target rest =>
          simp only [ha] at h
          have ne : rest ≠ [] := said.1.resolve_right nofun
          obtain ⟨near, far, rfl⟩ := List.eq_nil_or_concat rest |>.resolve_left ne
          rw [List.concat_eq_append, ← List.append_assoc] at h
          obtain ⟨init', e, lift⟩ := said.2 near [far] (by simp)
          obtain ⟨rfl, e'⟩ := List.append_inj' e rfl
          cases e'
          obtain ⟨links, le, mid, w, own⟩ := ih h
          exact ⟨links + 1, by omega, mid, lift _ _ w, own⟩
  · rintro ⟨links, le, mid, w, dir, own⟩
    rw [w.walkTo_append [last] (.inl (by simp)) budget le]
    rcases own with ⟨idle, rfl⟩ | ⟨rfl, rfl⟩ | ⟨name, rfl, rfl, there⟩
    · rw [walkTo_idle dir idle, walkTo_nil]
    · rw [walkTo_up dir, walkTo_nil]
    · obtain ⟨node, hn⟩ := Option.ne_none_iff_exists'.mp there
      cases node with
      | link target => exact walkTo_own_link hn
      | file => rw [walkTo_name hn rfl, walkTo_nil]
      | directory => rw [walkTo_name hn rfl, walkTo_nil]
      | other => rw [walkTo_name hn rfl, walkTo_nil]

theorem Leads.append {first second : List Bytes} {mid : Location} {more : Nat}
    (h : d.Leads loc first links mid) (h' : d.Leads mid second more goal) :
    d.Leads loc (first ++ second) (links + more) goal := by
  induction h with
  | done loc => simpa using h'
  | idle dir idle _ ih => exact .idle dir idle (ih h')
  | up dir _ ih => exact .up dir (ih h')
  | name h plain _ ih => exact .name h plain (ih h')
  | @link _ _ _ _ _ n h _ ih =>
    rw [Nat.add_right_comm]
    have on := ih h'
    rw [List.append_assoc] at on
    exact .link h on

theorem Leads.split {segments : List Bytes} (h : d.Leads loc segments links goal) :
    ∀ {first second : List Bytes}, segments = first ++ second → ∃ mid near far,
      d.Leads loc first near mid ∧ d.Leads mid second far goal ∧ near + far = links := by
  induction h with
  | done loc =>
    intro first second e
    obtain ⟨rfl, rfl⟩ := List.append_eq_nil_iff.mp e.symm
    exact ⟨loc, 0, 0, .done loc, .done loc, rfl⟩
  | @idle loc _ segment rest n dir idle w ih =>
    intro first second e
    rcases List.cons_eq_append_iff.mp e with ⟨rfl, rfl⟩ | ⟨first, rfl, e'⟩
    · exact ⟨loc, 0, _, .done loc, .idle dir idle w, by simp⟩
    · obtain ⟨mid, near, far, hn, hf, sum⟩ := ih e'
      exact ⟨mid, near, far, .idle dir idle hn, hf, sum⟩
  | @up loc _ rest n dir w ih =>
    intro first second e
    rcases List.cons_eq_append_iff.mp e with ⟨rfl, rfl⟩ | ⟨first, rfl, e'⟩
    · exact ⟨loc, 0, _, .done loc, .up dir w, by simp⟩
    · obtain ⟨mid, near, far, hn, hf, sum⟩ := ih e'
      exact ⟨mid, near, far, .up dir hn, hf, sum⟩
  | @name loc _ name node rest n h plain w ih =>
    intro first second e
    rcases List.cons_eq_append_iff.mp e with ⟨rfl, rfl⟩ | ⟨first, rfl, e'⟩
    · exact ⟨loc, 0, _, .done loc, .name h plain w, by simp⟩
    · obtain ⟨mid, near, far, hn, hf, sum⟩ := ih e'
      exact ⟨mid, near, far, .name h plain hn, hf, sum⟩
  | @link loc _ name target rest n h w ih =>
    intro first second e
    rcases List.cons_eq_append_iff.mp e with ⟨rfl, rfl⟩ | ⟨first, rfl, e'⟩
    · exact ⟨loc, 0, _, .done loc, .link h w, by simp⟩
    · obtain ⟨mid, near, far, hn, hf, sum⟩ :=
        @ih (Bytes.splitOn slash target ++ first) second (by simp [e'])
      exact ⟨mid, near + 1, far, .link h hn, hf, by omega⟩

theorem Leads.unique {segments : List Bytes} {links' : Nat} {goal' : Location}
    (h : d.Leads loc segments links goal) (h' : d.Leads loc segments links' goal') :
    goal = goal' := by
  have e := h.walkTo (Nat.le_max_left links links')
  rw [h'.walkTo (Nat.le_max_right links links'), Except.ok.injEq, Spot.entry.injEq] at e
  exact e.symm

theorem Leads.mono {d' : Disk} {segments : List Bytes} (h : d.Leads loc segments links goal)
    (sub : d.Within d') : d'.Leads loc segments links goal := by
  induction h with
  | done loc => exact .done loc
  | idle dir idle _ ih => exact .idle (sub.isDirectory dir) idle ih
  | up dir _ ih => exact .up (sub.isDirectory dir) ih
  | name h plain _ ih => exact .name (sub.2 _ _ h) plain ih
  | link h _ ih => exact .link (sub.2 _ _ h) ih

theorem Leads.exists {segments : List Bytes} (h : d.Leads loc segments links goal)
    (there : d.get? loc ≠ none) : d.get? goal ≠ none := by
  induction h with
  | done => exact there
  | idle _ _ _ ih => exact ih there
  | @up loc _ _ _ dir _ ih =>
    apply ih
    by_cases e : loc = []
    · simp [e, get?_nil]
    · have up : d.get? loc.dropLast = some .directory := isDirectory_dropLast_of_get? e dir
      simp [up]
  | name h _ _ ih => exact ih (by simp [h])
  | @link loc _ _ target _ _ h _ ih =>
    apply ih
    have dir : d.get? loc = some .directory := isDirectory_of_child h
    unfold startOf
    split
    · simp [get?_nil]
    · simp [dir]

theorem Leads.isDirectory {segments : List Bytes} (h : d.Leads loc segments links goal)
    (ne : segments ≠ []) : d.IsDirectory loc := by
  cases h with
  | done => exact absurd rfl ne
  | idle dir _ _ => exact dir
  | up dir _ => exact dir
  | name h _ _ => exact isDirectory_of_child h
  | link h _ => exact isDirectory_of_child h

theorem leads_idle_iff {before after : List Bytes} (idle : Path.isIdle segment = true)
    (ne : after ≠ []) :
    d.Leads loc (before ++ segment :: after) links goal ↔
      d.Leads loc (before ++ after) links goal := by
  constructor
  · intro h
    obtain ⟨mid, near, far, hn, hf, rfl⟩ := h.split rfl
    refine hn.append ?_
    cases hf with
    | idle _ _ w => exact w
    | up => simp [isIdle_dotDot] at idle
    | name => simp at idle
    | link => simp at idle
  · intro h
    obtain ⟨mid, near, far, hn, hf, rfl⟩ := h.split rfl
    exact hn.append (.idle (hf.isDirectory ne) idle hf)

theorem leads_concat_idle_iff {before : List Bytes} (idle : Path.isIdle segment = true) :
    d.Leads loc (before ++ [segment]) links goal ↔
      d.Leads loc before links goal ∧ d.IsDirectory goal := by
  constructor
  · intro h
    obtain ⟨mid, near, far, hn, hf, rfl⟩ := h.split rfl
    have dir := hf.isDirectory (by simp)
    cases hf with
    | idle _ _ w =>
      cases w
      exact ⟨by simpa using hn, dir⟩
    | up => simp [isIdle_dotDot] at idle
    | name => simp at idle
    | link => simp at idle
  · rintro ⟨h, dir⟩
    simpa using h.append (.idle dir idle (.done goal))

theorem leads_filter_iff (segments : List Bytes) (dir : d.IsDirectory goal) :
    ∀ before : List Bytes,
      d.Leads loc (before ++ segments.filter fun s => !Path.isIdle s) links goal ↔
        d.Leads loc (before ++ segments) links goal := by
  induction segments with
  | nil => simp
  | cons segment rest ih =>
    intro before
    by_cases idle : Path.isIdle segment = true
    · rw [List.filter_cons_of_neg (by simp [idle]), ih before]
      by_cases e : rest = []
      · subst e
        rw [List.append_nil, leads_concat_idle_iff idle]
        exact ⟨fun h => ⟨h, dir⟩, fun h => h.1⟩
      · exact (leads_idle_iff idle e).symm
    · rw [List.filter_cons_of_pos (by simpa using idle)]
      have step := ih (before ++ [segment])
      simpa only [List.append_assoc, List.singleton_append] using step

end Disk
end LayeredTree
