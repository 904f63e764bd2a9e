import LayeredTree.Proofs.Disk.Digging

set_option autoImplicit false

namespace LayeredTree.Disk

variable {d d' : Disk} {p q : Path} {loc goal mid other : Location} {segments rest : List Bytes}
variable {name : Name} {node : Node} {links : Nat}

/-- What is passed on the way along segments: the start, what each step leads to, and the links. -/
inductive Passes (d : Disk) : Location → List Bytes → Location → Prop
  | start (loc : Location) (segments : List Bytes) : Passes d loc segments loc
  | idle {loc other : Location} {segment : Bytes} {rest : List Bytes} :
      Path.isIdle segment = true → Passes d loc rest other → Passes d loc (segment :: rest) other
  | up {loc other : Location} {rest : List Bytes} :
      Passes d loc.dropLast rest other → Passes d loc (Path.dotDot :: rest) other
  | name {loc other : Location} {name : Name} {node : Node} {rest : List Bytes} :
      d.get? (loc ++ [name]) = some node → node.isLink = false →
      Passes d (loc ++ [name]) rest other → Passes d loc (name.bytes :: rest) other
  | atLink {loc : Location} {name : Name} {target : Bytes} {rest : List Bytes} :
      d.get? (loc ++ [name]) = some (.link target) →
      Passes d loc (name.bytes :: rest) (loc ++ [name])
  | link {loc other : Location} {name : Name} {target : Bytes} {rest : List Bytes} :
      d.get? (loc ++ [name]) = some (.link target) →
      Passes d (startOf loc target) (Bytes.splitOn slash target ++ rest) other →
      Passes d loc (name.bytes :: rest) other

theorem Leads.of_passes (h : d.Leads loc segments links goal)
    (same : ∀ other, d.Passes loc segments other → d'.get? other = d.get? other) :
    d'.Leads loc segments links goal := by
  have isDirectory : ∀ {loc segments}, d.IsDirectory loc →
      (∀ other, d.Passes loc segments other → d'.get? other = d.get? other) →
        d'.IsDirectory loc := by
    intro loc segments dir same
    rw [IsDirectory, same loc (.start loc segments)]
    exact dir
  induction h with
  | done loc => exact .done loc
  | idle dir idle _ ih =>
    exact .idle (isDirectory dir same) idle (ih fun other passes => same other (.idle idle passes))
  | up dir _ ih =>
    exact .up (isDirectory dir same) (ih fun other passes => same other (.up passes))
  | @name loc goal name node rest links found plain _ ih =>
    refine .name ?_ plain (ih fun other passes => same other (.name found plain passes))
    rw [same _ (.name found plain (.start _ rest))]
    exact found
  | @link loc goal name target rest links found _ ih =>
    refine .link ?_ (ih fun other passes => same other (.link found passes))
    rw [same _ (.atLink found)]
    exact found

private theorem Leads.name_cases (h : d.Leads loc (name.bytes :: rest) links goal) :
    d.IsDirectory loc ∧
      ((∃ node, d.get? (loc ++ [name]) = some node ∧ node.isLink = false ∧
          d.Leads (loc ++ [name]) rest links goal) ∨
        ∃ target before, d.get? (loc ++ [name]) = some (.link target) ∧
          d.Leads (startOf loc target) (Bytes.splitOn slash target ++ rest) before goal) := by
  obtain ⟨dir, ⟨idle, -⟩ | ⟨e, -⟩ | ⟨name', e, cases⟩⟩ := h.cons_cases
  · rw [name.isIdle_bytes] at idle
    cases idle
  · exact absurd e name.bytes_ne_dotDot
  · obtain rfl := Name.bytes_injective e
    exact ⟨dir, cases⟩

theorem Passes.found (passes : d.Passes loc segments other) (sub : d'.Within d)
    (there : d'.get? loc ≠ none) (h : d'.Leads loc segments links goal) : d'.get? other ≠ none := by
  induction passes generalizing links goal with
  | start => exact there
  | idle idle _ ih =>
    obtain ⟨-, ⟨-, way⟩ | ⟨rfl, -⟩ | ⟨name, rfl, -⟩⟩ := h.cons_cases
    · exact ih there way
    · rw [isIdle_dotDot] at idle
      cases idle
    · rw [name.isIdle_bytes] at idle
      cases idle
  | up _ ih =>
    obtain ⟨dir, ⟨idle, -⟩ | ⟨-, way⟩ | ⟨name, e, -⟩⟩ := h.cons_cases
    · rw [isIdle_dotDot] at idle
      cases idle
    · refine ih ?_ way
      rw [show d'.get? _ = _ from isDirectory_dropLast_of_isDirectory dir]
      nofun
    · exact absurd e.symm name.bytes_ne_dotDot
  | name found plain _ ih =>
    obtain ⟨-, ⟨node', found', -, way⟩ | ⟨target, before, found', -⟩⟩ := h.name_cases
    · exact ih (by simp [found']) way
    · rw [sub.2 _ _ found', Option.some.injEq] at found
      subst found
      cases plain
  | atLink =>
    obtain ⟨-, ⟨node', found', -⟩ | ⟨target, before, found', -⟩⟩ := h.name_cases
    · simp [found']
    · simp [found']
  | @link loc _ _ target _ found _ ih =>
    obtain ⟨dir, ⟨node', found', plain, -⟩ | ⟨target', before, found', way⟩⟩ := h.name_cases
    · rw [sub.2 _ _ found', Option.some.injEq] at found
      subst found
      cases plain
    · rw [sub.2 _ _ found', Option.some.injEq] at found
      cases found
      refine ih ?_ way
      unfold startOf
      split
      · simp [get?_nil]
      · simp [show d'.get? loc = _ from dir]

/-- The last step of the path is looked for by way of something at the location or below it. -/
def LeadsThrough (d : Disk) (p : Path) (loc : Location) : Prop :=
  ∃ other, d.Passes (startOf d.here p.text) p.steps.dropLast other ∧ loc <+: other

theorem Seats.shrunk_iff (seats : d.Seats p loc) (sub : d'.Within d)
    (isDir : d'.IsDirectory loc.dropLast) : d'.Seats p loc ↔
      ∀ other, d.Passes (startOf d.here p.text) p.steps.dropLast other → d'.get? other ≠ none := by
  obtain ⟨init, name, dir, steps, -, ⟨links, le, way⟩, rfl⟩ := seats
  rw [List.dropLast_concat] at isDir
  rw [steps, List.dropLast_concat]
  constructor
  · rintro ⟨init', name', dir', steps', -, ⟨links', -, way'⟩, -⟩ other passes
    obtain ⟨rfl, -⟩ := List.append_inj' (steps.symm.trans steps') rfl
    rw [← sub.1] at way'
    refine passes.found sub ?_ way'
    by_cases none : init = []
    · subst none
      cases way
      rw [show d'.get? _ = _ from isDir]
      nofun
    · rw [show d'.get? _ = _ from way'.isDirectory none]
      nofun
  · intro there
    refine ⟨init, name, dir, steps, isDir, ⟨links, le, ?_⟩, rfl⟩
    rw [← sub.1]
    refine way.of_passes fun other passes => ?_
    obtain ⟨node, found⟩ := Option.ne_none_iff_exists'.mp (there other passes)
    rw [found, sub.2 _ _ found]

end LayeredTree.Disk
