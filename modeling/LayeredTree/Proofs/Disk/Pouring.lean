import LayeredTree.Patch.Author
import LayeredTree.Proofs.Disk.Digging
import LayeredTree.Proofs.Tree.Building

set_option autoImplicit false

namespace LayeredTree.Disk

variable {d d' : Disk} {out source : Path} {root names goal : Location} {name : Name}
variable {content : Bytes} {files : Location → Option Bytes}

theorem steps_pathBelow (ne : out.text ≠ []) (names : Location) :
    (pathBelow out names).steps = out.steps ++ names.map Name.bytes := by
  induction names using List.reverseRecOn with
  | nil => simp
  | append_singleton names name ih =>
    rw [pathBelow_concat, Path.steps_child (pathBelow_ne_nil ne names) name.slash_notMem
      name.isIdle_bytes, ih]
    simp

theorem Reaches.breaks_below (h : d.Reaches out root) (isDir : d.IsDirectory root)
    (bare : d.Linkless root) {place : Location} {rest : List Bytes}
    (b : d.Breaks (pathBelow out names) place rest) :
    (root <+: place ∧ place ≠ root) ∧ Path.dotDot ∉ rest := by
  obtain ⟨-, -, few, le, way⟩ := id h
  have busy := (leads_filter_iff out.segments isDir []).mpr way
  rw [List.nil_append, show (out.segments.filter fun s => !Path.isIdle s) = out.steps from rfl]
    at busy
  obtain ⟨init, next, dir, steps, -, ⟨links, -, first⟩, rfl, free⟩ := b
  rw [steps_pathBelow h.1] at steps
  have start : startOf d.here (pathBelow out names).text = startOf d.here out.text := by
    by_cases none : names = []
    · rw [none, pathBelow_nil]
    · obtain ⟨stem, -, -, -, below⟩ := h.stem_below
      exact (below names none).2.2.1
  rw [start] at first
  have plain : Path.dotDot ∉ names.map Name.bytes := by
    intro up
    obtain ⟨name, -, e⟩ := List.mem_map.mp up
    exact name.bytes_ne_dotDot e
  rcases List.append_eq_append_iff.mp steps with ⟨more, rfl, e⟩ | ⟨more, whole, e⟩
  · obtain ⟨mid, near, far, hn, hf, -⟩ := first.split rfl
    cases hn.unique busy
    rw [e] at plain
    obtain ⟨down, rfl, -⟩ := hf.downward bare fun up => plain (List.mem_append_left _ up)
    refine ⟨⟨?_, by simp⟩, fun up => plain ?_⟩
    · rw [List.append_assoc]
      exact List.prefix_append _ _
    · exact List.mem_append_right _ (List.mem_cons_of_mem _ up)
  · rw [whole] at busy
    obtain ⟨mid, near, far, hn, hf, -⟩ := busy.split rfl
    cases hn.unique first
    cases more with
    | nil =>
      cases hf
      rw [List.nil_append] at e
      rw [← e] at plain
      exact ⟨⟨List.prefix_append _ _, by simp⟩, fun up => plain (List.mem_cons_of_mem _ up)⟩
    | cons segment more =>
      rw [List.cons_append, List.cons_eq_cons] at e
      obtain ⟨rfl, -⟩ := e
      obtain ⟨-, ⟨idle, -⟩ | ⟨e, -⟩ | ⟨name, e, ⟨node, found, -⟩ | ⟨target, _, found, -⟩⟩⟩ :=
        hf.cons_cases
      · simp at idle
      · exact absurd e next.bytes_ne_dotDot
      · cases Name.bytes_injective e
        rw [free] at found
        cases found
      · cases Name.bytes_injective e
        rw [free] at found
        cases found

theorem Reaches.after_makeDirectories_below (h : d.Reaches out root) (isDir : d.IsDirectory root)
    (bare : d.Linkless root) (names : Location) :
    d.Dug (after (Disk.makeDirectories (pathBelow out names)) d) ∧
      SameOutside root d (after (Disk.makeDirectories (pathBelow out names)) d) := by
  have down : d.GoesDown (pathBelow out names) := fun place rest b =>
    (h.breaks_below isDir bare b).2
  have dug := dugFor_makeDirectories down
  refine ⟨dug.dug, dug.dug.here, fun other off => dug.get?_eq fun place rest b le => off ?_⟩
  obtain ⟨⟨below, proper⟩, -⟩ := h.breaks_below isDir bare b
  refine ⟨below.trans le, ?_⟩
  rintro rfl
  exact proper (List.IsPrefix.eq_of_length_le below le.length_le).symm

theorem Reaches.eq_append_of_below (h : d.Reaches out root) (bare : d.Linkless root)
    (reach : d.Reaches (pathBelow out names) goal) : goal = root ++ names := by
  by_cases none : names = []
  · subst none
    rw [List.append_nil]
    exact reach.unique h
  · obtain ⟨stem, links, le, way, below⟩ := h.stem_below
    obtain ⟨-, -, start, segments⟩ := below names none
    obtain ⟨-, -, links', -, whole⟩ := reach
    rw [start, segments] at whole
    obtain ⟨mid, near, far, hn, hf, -⟩ := whole.split rfl
    cases hn.unique way
    obtain ⟨names', rfl, same⟩ := hf.downward bare fun up => by
      obtain ⟨name, -, e⟩ := List.mem_map.mp up
      exact name.bytes_ne_dotDot e
    rw [List.filter_eq_self.mpr (by simp)] at same
    rw [List.map_injective_iff.mpr (fun _ _ => Name.bytes_injective) same]

/-- The directory that a file below another directory goes to is made first, and nothing but what
lies below that other one changes by that. -/
theorem Reaches.exists_parent_below (h : d.Reaches out root) (isDir : d.IsDirectory root)
    (bare : d.Linkless root) (init : Location) (name : Name) :
    ∃ q, (pathBelow out (init ++ [name])).parent = some q ∧
      d.Dug (after (Disk.makeDirectories q) d) ∧
      SameOutside root d (after (Disk.makeDirectories q) d) ∧
      ∀ d', Disk.makeDirectories q d = .ok () d' →
        d'.Reaches (pathBelow out init) (root ++ init) ∧ d'.IsDirectory (root ++ init) := by
  rw [pathBelow_concat]
  by_cases top : init = []
  · subst top
    obtain ⟨q, up, -, spelled⟩ := h.exists_parent isDir name
    have still : after (Disk.makeDirectories q) d = d := by
      rcases spelled with none | reach
      · rw [Disk.makeDirectories, if_pos (by simp [Path.isEmpty, none])]
        rfl
      · exact reach.after_makeDirectories isDir
    refine ⟨q, up, by rw [still]; exact .refl d, by rw [still]; exact .refl root d, ?_⟩
    intro d' made
    rw [after_of_ok made] at still
    rw [still, List.append_nil]
    exact ⟨h, isDir⟩
  · obtain ⟨dug, same⟩ := h.after_makeDirectories_below isDir bare init
    refine ⟨_, (isTidy_pathBelow h.1 top).parent_child name, dug, same, fun d' made => ?_⟩
    rw [after_of_ok made] at dug
    obtain ⟨goal, reach, -, there⟩ := hasDirectory_iff.mp
      (hasDirectory_of_makeDirectories (pathBelow_ne_nil h.1 init) made)
    have bare' : d'.Linkless root := fun names text found => bare names text (dug.link found)
    cases (h.mono dug.within).eq_append_of_below bare' reach
    exact ⟨reach, there⟩

/-- Below a place there are directories and just these files. -/
structure HoldsFiles (d : Disk) (root : Location) (files : Location → Option Bytes) : Prop where
  held : ∀ names ≠ [], ∀ content, files names = some content →
    d.get? (root ++ names) = some (.file content)
  only : ∀ names ≠ [], ∀ node, d.get? (root ++ names) = some node →
    node = .directory ∨ ∃ content, files names = some content ∧ node = .file content

def put (files : Location → Option Bytes) (names : Location) (content : Bytes)
    (other : Location) : Option Bytes :=
  if other = names then some content else files other

def fileAt (d : Disk) (loc : Location) : Option Bytes :=
  match d.get? loc with
  | some (.file content) => some content
  | _ => none

theorem fileAt_eq_some_iff {loc : Location} {content : Bytes} :
    d.fileAt loc = some content ↔ d.get? loc = some (.file content) := by
  unfold fileAt
  split
  · rename_i found
    simp [found]
  · rename_i off
    refine ⟨nofun, fun found => absurd found (off content)⟩

theorem holdsFiles_fileAt (plain : ∀ names ≠ [], ∀ node, d.get? (root ++ names) = some node →
    node = .directory ∨ ∃ content, node = .file content) :
    d.HoldsFiles root fun names => d.fileAt (root ++ names) := by
  refine ⟨fun names _ content held => fileAt_eq_some_iff.mp held, fun names ne node found => ?_⟩
  rcases plain names ne node found with e | ⟨content, rfl⟩
  · exact .inl e
  · exact .inr ⟨content, fileAt_eq_some_iff.mpr found, rfl⟩

theorem HoldsFiles.linkless (h : d.HoldsFiles root files) (isDir : d.IsDirectory root) :
    d.Linkless root := by
  intro names text found
  by_cases none : names = []
  · rw [none, List.append_nil, show d.get? root = _ from isDir] at found
    cases found
  · rcases h.only names none _ found with e | ⟨content, -, e⟩
    · cases e
    · cases e

theorem HoldsFiles.dug (h : d.HoldsFiles root files) (dug : d.Dug d') : d'.HoldsFiles root files := by
  refine ⟨fun names ne content here => dug.within.2 _ _ (h.held names ne content here), ?_⟩
  intro names ne node found
  rcases dug.get? (root ++ names) with same | ⟨-, isDir⟩
  · exact h.only names ne node (same ▸ found)
  · rw [show d'.get? _ = _ from isDir] at found
    cases found
    exact .inl rfl

theorem HoldsFiles.filed (h : d.HoldsFiles root files) (filed : d.Filed (root ++ names) content d') :
    d'.HoldsFiles root (put files names content) := by
  refine ⟨fun other ne content' here => ?_, fun other ne node found => ?_⟩
  · rw [put] at here
    rw [filed.get?]
    split at here
    · rename_i e
      cases here
      rw [e, if_pos rfl]
    · rename_i off
      rw [if_neg (by simpa using off)]
      exact h.held other ne content' here
  · rw [filed.get?] at found
    rw [put]
    split at found
    · rename_i e
      cases found
      rw [if_pos (List.append_cancel_left e)]
      exact .inr ⟨content, rfl, rfl⟩
    · rename_i off
      rw [if_neg (by simpa using off)]
      exact h.only other ne node found

/-- A directory that holds files goes on doing so when one is copied there, and nothing else
changes. The copy has the content of its source, unless it is the source. -/
theorem HoldsFiles.copyInto (h : d.HoldsFiles root files) (reach : d.Reaches out root)
    (isDir : d.IsDirectory root) (ne : names ≠ []) (source : Path) :
    ∃ d', SameOutside root d d' ∧ d.Paves d' ∧
      ((∃ fault, Patch.copyInto out names.key source d = .error fault d') ∧ d'.HoldsFiles root files ∨
        ∃ content, Patch.copyInto out names.key source d = .ok () d' ∧
          d'.HoldsFiles root (put files names content) ∧ ∀ place content', d.Reaches source place →
            place ≠ root ++ names → d.get? place = some (.file content') → content = content') := by
  obtain ⟨init, name, rfl⟩ : ∃ init name, names = init ++ [name] :=
    ⟨_, _, (List.dropLast_concat_getLast ne).symm⟩
  obtain ⟨q, up, dug, same, made⟩ :=
    reach.exists_parent_below isDir (h.linkless isDir) init name
  unfold Patch.copyInto
  rw [Location.path_key ne]
  dsimp only
  rw [up]
  dsimp only
  cases run : Disk.makeDirectories q d with
  | error fault d₁ =>
    rw [after_of_error run] at dug same
    exact ⟨d₁, same, dug.within.paves, .inl ⟨⟨fault, bind_of_error run⟩, h.dug dug⟩⟩
  | ok _ d₁ =>
    rw [after_of_ok run] at dug same
    obtain ⟨reach', isDir'⟩ := made d₁ run
    have holdsFiles := h.dug dug
    have bare := holdsFiles.linkless (dug.within.isDirectory isDir)
    have plain : ∀ text, d₁.get? (root ++ init ++ [name]) ≠ some (.link text) := by
      intro text
      rw [List.append_assoc]
      exact bare _ text
    rw [bind_of_ok run, pathBelow_concat]
    rcases reach'.copyFile_cases isDir' plain source with
      ⟨d', content, copied, old, filed, taken⟩ | ⟨fault, refused⟩
    · rw [List.append_assoc] at filed
      refine ⟨d', same.trans ⟨filed.here, fun other off => ?_⟩, ?_, .inr ⟨content, copied,
        holdsFiles.filed filed, fun place content' hs away held => ?_⟩⟩
      · rw [filed.get?, if_neg]
        rintro rfl
        exact off ⟨List.prefix_append _ _, by simp⟩
      · rw [← List.append_assoc] at filed
        exact dug.within.paves.trans (filed.paves old)
      · rw [← List.append_assoc] at away
        exact taken place content' (hs.mono dug.within) away (dug.within.2 _ _ held)
    · exact ⟨d₁, same, dug.within.paves, .inl ⟨⟨fault, refused⟩, holdsFiles⟩⟩

end LayeredTree.Disk
