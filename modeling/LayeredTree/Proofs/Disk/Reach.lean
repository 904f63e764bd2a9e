import LayeredTree.Proofs.Disk.Leads

set_option autoImplicit false

namespace LayeredTree.Disk

variable {d d' : Disk} {p q : Path} {loc : Location} {node : Node} {name : Name} {follow : Bool}

/-- The path leads to a location, all links followed. -/
def Reaches (d : Disk) (p : Path) (loc : Location) : Prop :=
  p.text ≠ [] ∧ (0 : UInt8) ∉ p.text ∧
    ∃ links ≤ maxLinks, d.Leads (startOf d.here p.text) p.segments links loc

theorem Reaches.unique {loc' : Location} (h : d.Reaches p loc) (h' : d.Reaches p loc') :
    loc = loc' := by
  obtain ⟨-, -, links, -, w⟩ := h
  obtain ⟨-, -, links', -, w'⟩ := h'
  exact w.unique w'

theorem Reaches.mono (h : d.Reaches p loc) (sub : d.Within d') : d'.Reaches p loc := by
  obtain ⟨ne, zero, links, le, w⟩ := h
  refine ⟨ne, zero, links, le, ?_⟩
  rw [sub.1]
  exact w.mono sub

theorem Reaches.exists (h : d.Reaches p loc) : ∃ node, d.get? loc = some node := by
  obtain ⟨ne, zero, links, le, w⟩ := h
  have start := w.isDirectory p.segments_ne_nil
  exact Option.ne_none_iff_exists'.mp (w.exists (by rw [start]; simp))

/-- The path is short enough to be read in one request. -/
def Short (p : Path) : Prop := p.text.length ≤ maxPathLength

instance (p : Path) : Decidable (Short p) := by unfold Short; infer_instance

theorem checkSpelling_eq_ok (ne : p.text ≠ []) (zero : (0 : UInt8) ∉ p.text) :
    checkSpelling p = .ok () := by
  simp [checkSpelling, ne, zero]

theorem checkText_eq_ok (ne : p.text ≠ []) (zero : (0 : UInt8) ∉ p.text) (short : Short p) :
    checkText p = .ok () := by
  have fits : ¬ maxPathLength < p.text.length := Nat.not_lt.mpr short
  simp only [checkText, checkSpelling_eq_ok ne zero, fits, if_false]
  rfl

theorem of_checkText (h : checkText p = .ok ()) :
    p.text ≠ [] ∧ (0 : UInt8) ∉ p.text ∧ Short p := by
  by_cases zero : (0 : UInt8) ∈ p.text
  · rw [checkText, checkSpelling, if_pos zero] at h
    cases h
  by_cases ne : p.text = []
  · rw [checkText, checkSpelling, if_neg zero, if_pos ne] at h
    cases h
  rw [checkText, checkSpelling_eq_ok ne zero] at h
  by_cases long : maxPathLength < p.text.length
  · simp only [long, if_true] at h
    cases h
  · exact ⟨ne, zero, Nat.not_lt.mp long⟩

theorem spotOf_eq_ok_iff {start : Bytes} {segments : List Bytes} {spot : Spot} :
    d.spotOf follow start segments = .ok spot ↔
      d.walkTo follow maxLinks (startOf d.here start) segments = .ok spot := by
  unfold spotOf
  cases d.walkTo follow maxLinks (startOf d.here start) segments <;> simp [Except.mapError]

theorem reaches_iff_spotOf : d.Reaches p loc ↔ p.text ≠ [] ∧ (0 : UInt8) ∉ p.text ∧
    d.spotOf true p.text p.segments = .ok (.entry loc) := by
  rw [spotOf_eq_ok_iff, walkTo_eq_entry_iff]
  rfl

theorem resolve_eq_ok_iff {spot : Spot} : d.resolve p follow = .ok spot ↔
    checkText p = .ok () ∧
      d.walkTo follow maxLinks (startOf d.here p.text) p.segments = .ok spot := by
  unfold resolve
  rw [← spotOf_eq_ok_iff]
  cases checkText p with
  | error fault => exact ⟨nofun, nofun⟩
  | ok u => exact ⟨fun h => ⟨rfl, h⟩, fun h => h.2⟩

theorem locate_eq_ok_iff : d.locate p follow = .ok loc ↔
    d.resolve p follow = .ok (.entry loc) := by
  unfold locate
  cases d.resolve p follow with
  | error fault => exact ⟨nofun, nofun⟩
  | ok spot =>
    cases spot with
    | entry loc' =>
      constructor
      · intro h
        cases h
        rfl
      · intro h
        cases h
        rfl
    | free => exact ⟨nofun, nofun⟩

theorem resolve_eq_entry_iff : d.resolve p true = .ok (.entry loc) ↔
    d.Reaches p loc ∧ Short p := by
  rw [resolve_eq_ok_iff, walkTo_eq_entry_iff]
  constructor
  · rintro ⟨text, links, le, w⟩
    obtain ⟨ne, zero, short⟩ := of_checkText text
    exact ⟨⟨ne, zero, links, le, w⟩, short⟩
  · rintro ⟨⟨ne, zero, links, le, w⟩, short⟩
    exact ⟨checkText_eq_ok ne zero short, links, le, w⟩

private theorem lookup_eq_ok_iff {place : Except IoFault Location} : (do
      let loc ← place
      match d.get? loc with
      | some node => pure (loc, node)
      | none => throw (.system .noEntry)) = Except.ok (loc, node) ↔
    place = .ok loc ∧ d.get? loc = some node := by
  cases place with
  | error fault =>
    constructor
    · intro h
      cases h
    · rintro ⟨h, -⟩
      cases h
  | ok found =>
    constructor
    · intro h
      cases hn : d.get? found with
      | none =>
        simp only [bind, Except.bind, hn] at h
        cases h
      | some node' =>
        simp only [bind, Except.bind, hn] at h
        cases h
        exact ⟨rfl, hn⟩
    · rintro ⟨h, hn⟩
      cases h
      simp only [bind, Except.bind, hn]
      rfl

theorem entryAt_eq_ok_iff : d.entryAt p = .ok (loc, node) ↔
    d.Reaches p loc ∧ Short p ∧ d.get? loc = some node := by
  rw [← and_assoc, ← resolve_eq_entry_iff, ← locate_eq_ok_iff]
  exact lookup_eq_ok_iff

theorem ownEntryAt_eq_ok_iff : d.ownEntryAt p = .ok (loc, node) ↔
    d.resolve p false = .ok (.entry loc) ∧ d.get? loc = some node := by
  rw [← locate_eq_ok_iff]
  exact lookup_eq_ok_iff

theorem hasDirectory_iff : d.hasDirectory p = true ↔
    ∃ loc, d.Reaches p loc ∧ Short p ∧ d.IsDirectory loc := by
  unfold hasDirectory
  constructor
  · intro h
    split at h
    · rename_i loc e
      exact ⟨loc, entryAt_eq_ok_iff.mp e⟩
    · cases h
  · rintro ⟨loc, h⟩
    rw [entryAt_eq_ok_iff.mpr h]

theorem hasEntry_iff : d.hasEntry p = true ↔ ∃ loc, d.Reaches p loc ∧ Short p := by
  unfold hasEntry
  constructor
  · intro h
    split at h
    · rename_i found e
      have := entryAt_eq_ok_iff.mp e
      exact ⟨found.1, this.1, this.2.1⟩
    · cases h
  · rintro ⟨loc, h, short⟩
    obtain ⟨node, hn⟩ := h.exists
    rw [entryAt_eq_ok_iff.mpr ⟨h, short, hn⟩]

theorem openAt_file_iff {content : Bytes} : d.openAt p = .ok (loc, .file content) ↔
    d.Reaches p loc ∧ Short p ∧ d.get? loc = some (.file content) := by
  rw [← entryAt_eq_ok_iff]
  unfold openAt
  cases d.entryAt p with
  | error fault => exact ⟨nofun, nofun⟩
  | ok found =>
    obtain ⟨loc', node⟩ := found
    cases node with
    | other => exact ⟨nofun, fun h => by cases h⟩
    | file _ => exact Iff.rfl
    | directory => exact Iff.rfl
    | link _ => exact Iff.rfl

theorem Reaches.stem (h : d.Reaches p loc) : ∃ stem, ∃ links ≤ maxLinks,
    d.Leads (startOf d.here p.text) stem links loc ∧
      ∀ name : Name, (p.child name.bytes).segments = stem ++ [name.bytes] := by
  obtain ⟨ne, -, links, le, w⟩ := h
  obtain ⟨stem, hs, child⟩ := Path.exists_stem ne
  refine ⟨stem, links, le, ?_, fun name => child _ name.slash_notMem⟩
  rcases hs with e | e
  · rwa [e] at w
  · rw [e] at w
    exact ((leads_concat_idle_iff Path.isIdle_nil).mp w).1

theorem Reaches.startOf_child (h : d.Reaches p loc) (name : Name) :
    startOf d.here (p.child name.bytes).text = startOf d.here p.text := by
  rw [startOf, startOf,
    Path.head?_child h.1 (Path.head?_ne_slash_of_notMem name.slash_notMem)]

theorem Reaches.child_text (h : d.Reaches p loc) (name : Name) :
    (p.child name.bytes).text ≠ [] ∧ (0 : UInt8) ∉ (p.child name.bytes).text := by
  have rel := Path.head?_ne_slash_of_notMem name.slash_notMem
  exact ⟨Path.child_ne_nil h.1 rel,
    Path.notMem_child h.1 (by decide) rel h.2.1 name.zero_notMem⟩

theorem Reaches.child (h : d.Reaches p loc) (hn : d.get? (loc ++ [name]) = some node)
    (plain : node.isLink = false) : d.Reaches (p.child name.bytes) (loc ++ [name]) := by
  obtain ⟨stem, links, le, w, child⟩ := h.stem
  obtain ⟨ne, zero⟩ := h.child_text name
  refine ⟨ne, zero, links, le, ?_⟩
  rw [h.startOf_child, child]
  exact w.append (.name hn plain (.done _))

theorem Reaches.resolve_child_free (h : d.Reaches p loc) (dir : d.IsDirectory loc)
    (free : d.get? (loc ++ [name]) = none) (short : Short (p.child name.bytes)) :
    d.resolve (p.child name.bytes) follow = .ok (.free loc name []) := by
  obtain ⟨stem, links, le, w, child⟩ := h.stem
  obtain ⟨ne, zero⟩ := h.child_text name
  refine resolve_eq_ok_iff.mpr ⟨checkText_eq_ok ne zero short, ?_⟩
  rw [h.startOf_child, child, w.walkTo_append _ (.inl (by simp)) _ le, walkTo_free dir free]

theorem Reaches.isDirectory_of_hasDirectory (h : d.Reaches p loc) (dir : d.IsDirectory loc)
    (plain : ∀ text, d.get? (loc ++ [name]) ≠ some (.link text))
    (there : d.hasDirectory (p.child name.bytes) = true) : d.IsDirectory (loc ++ [name]) := by
  obtain ⟨target, reach, short, isDir⟩ := hasDirectory_iff.mp there
  cases hn : d.get? (loc ++ [name]) with
  | none =>
    have free : d.resolve (p.child name.bytes) true = _ := h.resolve_child_free dir hn short
    cases free.symm.trans (resolve_eq_entry_iff.mpr ⟨reach, short⟩)
  | some node =>
    have own : node.isLink = false := by
      cases node with
      | link text => exact absurd hn (plain text)
      | file => rfl
      | directory => rfl
      | other => rfl
    cases reach.unique (h.child hn own)
    exact isDir

private theorem dropWhile_nil_append {last : Bytes} {init closing : List Bytes}
    (ne : last ≠ []) (hc : ∀ s ∈ closing, s = []) :
    (init ++ last :: closing).reverse.dropWhile (· == []) = last :: init.reverse := by
  have all : closing.reverse.dropWhile (· == []) = [] :=
    List.dropWhile_eq_nil_iff.mpr fun s hs => by simp [hc s (List.mem_reverse.mp hs)]
  rw [List.reverse_append, List.reverse_cons, List.append_assoc, List.dropWhile_append, all]
  simp [ne]

section Behind

variable {last : Bytes} {outer : List Bytes} (ok : checkText p = .ok ())

include ok

private theorem resolveLast_of_slashes (none : p.segments.reverse.dropWhile (· == []) = []) :
    d.resolveLast p = .ok .root := by
  unfold resolveLast
  simp only [ok, bind, Except.bind]
  rw [show Bytes.splitOn slash p.text = p.segments from rfl, none]
  rfl

private theorem resolveLast_of_last
    (behind : p.segments.reverse.dropWhile (· == []) = last :: outer) : d.resolveLast p = (do
      match ← d.spotOf true p.text (outer.reverse ++ [[]]) with
      | .free .. => throw (.system .noEntry)
      | .entry directory =>
        if last = Path.dot then pure .dot
        else if last = Path.dotDot then pure .dotDot
        else match Name.ofBytes? last with
          | none => throw (.system .nameTooLong)
          | some name => pure (.name directory name (p.text.getLast? == some slash))) := by
  unfold resolveLast
  simp only [ok, bind, Except.bind]
  rewrite [show Bytes.splitOn slash p.text = p.segments from rfl, behind]
  rfl

end Behind

theorem resolveLast_of_leads {init closing : List Bytes} {links : Nat} (ne : p.text ≠ [])
    (zero : (0 : UInt8) ∉ p.text) (short : Short p)
    (segments : p.segments = init ++ name.bytes :: closing) (hc : ∀ s ∈ closing, s = [])
    (le : links ≤ maxLinks) (w : d.Leads (startOf d.here p.text) init links loc)
    (dir : d.IsDirectory loc) :
    d.resolveLast p = .ok (.name loc name (p.text.getLast? == some slash)) := by
  have way : d.spotOf true p.text (init ++ [[]]) = .ok (.entry loc) :=
    spotOf_eq_ok_iff.mpr (walkTo_eq_entry_iff.mpr
      ⟨links, le, (leads_concat_idle_iff Path.isIdle_nil).mpr ⟨w, dir⟩⟩)
  have behind : p.segments.reverse.dropWhile (· == []) = name.bytes :: init.reverse := by
    rw [segments]
    exact dropWhile_nil_append name.bytes_ne_nil hc
  rw [resolveLast_of_last (checkText_eq_ok ne zero short) behind, List.reverse_reverse, way]
  simp
  rfl

theorem resolveLast_of_free {init closing rest : List Bytes} {next : Name} (ne : p.text ≠ [])
    (zero : (0 : UInt8) ∉ p.text) (short : Short p)
    (segments : p.segments = init ++ name.bytes :: closing) (hc : ∀ s ∈ closing, s = [])
    (way : d.spotOf true p.text (init ++ [[]]) = .ok (.free loc next rest)) :
    d.resolveLast p = .error (.system .noEntry) := by
  have behind : p.segments.reverse.dropWhile (· == []) = name.bytes :: init.reverse := by
    rw [segments]
    exact dropWhile_nil_append name.bytes_ne_nil hc
  rw [resolveLast_of_last (checkText_eq_ok ne zero short) behind, List.reverse_reverse, way]
  rfl

private theorem segments_of_dropWhile {last : Bytes} {outer : List Bytes}
    (h : p.segments.reverse.dropWhile (· == []) = last :: outer) : last ≠ [] ∧
      ∃ closing, p.segments = outer.reverse ++ last :: closing ∧ ∀ s ∈ closing, s = [] := by
  have split := List.takeWhile_append_dropWhile (p := (· == ([] : Bytes)))
    (l := p.segments.reverse)
  rw [h] at split
  refine ⟨?_, (p.segments.reverse.takeWhile (· == [])).reverse, ?_, fun s hs => ?_⟩
  · have head := List.head?_dropWhile_not (· == ([] : Bytes)) p.segments.reverse
    rw [h] at head
    simpa using head
  · have := congrArg List.reverse split
    simp only [List.reverse_append, List.reverse_cons, List.reverse_reverse] at this
    simpa using this.symm
  · simpa using List.mem_takeWhile_imp (List.mem_reverse.mp hs)

theorem Reaches.exists_lastStep (h : d.Reaches p loc) (short : Short p) :
    ∃ step, d.resolveLast p = .ok step ∧
      ∀ dir name closed, step = .name dir name closed → d.get? (dir ++ [name]) ≠ none := by
  obtain ⟨ne, zero, links, le, w⟩ := h
  have ok := checkText_eq_ok ne zero short
  cases hs : p.segments.reverse.dropWhile (· == []) with
  | nil =>
    refine ⟨.root, resolveLast_of_slashes ok hs, ?_⟩
    rintro _ _ _ ⟨⟩
  | cons last outer =>
    have judged := resolveLast_of_last (d := d) ok hs
    obtain ⟨busy, closing, form, -⟩ := segments_of_dropWhile hs
    obtain ⟨mid, near, far, hn, hf, sum⟩ := w.split form
    have way : d.spotOf true p.text (outer.reverse ++ [[]]) = .ok (.entry mid) :=
      spotOf_eq_ok_iff.mpr (walkTo_eq_entry_iff.mpr ⟨near, by omega,
        (leads_concat_idle_iff Path.isIdle_nil).mpr ⟨hn, hf.isDirectory (by simp)⟩⟩)
    have named : ∀ name : Name, last = name.bytes → d.get? (mid ++ [name]) ≠ none →
        Name.ofBytes? last = some name ∧ d.get? (mid ++ [name]) ≠ none := by
      rintro name rfl there
      exact ⟨by simp, there⟩
    have kind : last = Path.dot ∨ last = Path.dotDot ∨ ∃ name : Name,
        Name.ofBytes? last = some name ∧ d.get? (mid ++ [name]) ≠ none := by
      cases hf with
      | idle _ idle _ => exact .inl (by simpa [Path.isIdle, busy] using idle)
      | up => exact .inr (.inl rfl)
      | name found => exact .inr (.inr ⟨_, named _ rfl (by simp [found])⟩)
      | link found => exact .inr (.inr ⟨_, named _ rfl (by simp [found])⟩)
    rw [way] at judged
    change d.resolveLast p = if last = Path.dot then _ else _ at judged
    by_cases dotted : last = Path.dot
    · rw [if_pos dotted] at judged
      refine ⟨.dot, judged, ?_⟩
      rintro _ _ _ ⟨⟩
    by_cases up : last = Path.dotDot
    · rw [if_neg dotted, if_pos up] at judged
      refine ⟨.dotDot, judged, ?_⟩
      rintro _ _ _ ⟨⟩
    obtain ⟨name, named, there⟩ := (kind.resolve_left dotted).resolve_left up
    rw [if_neg dotted, if_neg up, named] at judged
    refine ⟨_, judged, ?_⟩
    rintro _ _ _ ⟨⟩
    exact there

theorem of_resolveLast_name {closed : Bool} (h : d.resolveLast p = .ok (.name loc name closed)) :
    p.text ≠ [] ∧ (0 : UInt8) ∉ p.text ∧ Short p ∧ ∃ init closing,
      p.segments = init ++ name.bytes :: closing ∧ (∀ s ∈ closing, s = []) ∧
        d.IsDirectory loc ∧ ∃ links ≤ maxLinks, d.Leads (startOf d.here p.text) init links loc := by
  cases ht : checkText p with
  | error fault =>
    unfold resolveLast at h
    rw [ht] at h
    cases h
  | ok u =>
    obtain ⟨ne, zero, short⟩ := of_checkText ht
    refine ⟨ne, zero, short, ?_⟩
    cases hs : p.segments.reverse.dropWhile (· == []) with
    | nil =>
      rw [resolveLast_of_slashes ht hs] at h
      cases h
    | cons last outer =>
      rw [resolveLast_of_last ht hs] at h
      obtain ⟨-, closing, form, hc⟩ := segments_of_dropWhile hs
      cases hw : d.spotOf true p.text (outer.reverse ++ [[]]) with
      | error fault =>
        rw [hw] at h
        cases h
      | ok spot =>
        rw [hw] at h
        cases spot with
        | free => cases h
        | entry dir =>
          change (if last = Path.dot then _ else _) = _ at h
          split at h
          · cases h
          split at h
          · cases h
          split at h
          · cases h
          · rename_i found hf
            cases h
            obtain ⟨links, le, w⟩ := walkTo_eq_entry_iff.mp (spotOf_eq_ok_iff.mp hw)
            obtain ⟨w, isDir⟩ := (leads_concat_idle_iff Path.isIdle_nil).mp w
            rw [Name.eq_of_ofBytes? hf] at form
            exact ⟨outer.reverse, closing, form, hc, isDir, links, le, w⟩

theorem resolveLast_of_long (d : Disk) (ne : p.text ≠ []) (long : ¬ Short p) :
    ∃ fault, d.resolveLast p = .error fault ∧ fault ≠ .system .noEntry := by
  have beyond : maxPathLength < p.text.length := Nat.not_le.mp long
  by_cases zero : (0 : UInt8) ∈ p.text
  · refine ⟨.zeroByte, ?_, nofun⟩
    rw [resolveLast, checkText, checkSpelling, if_pos zero]
    rfl
  · refine ⟨.system .nameTooLong, ?_, nofun⟩
    rw [resolveLast, checkText, checkSpelling_eq_ok ne zero]
    simp only [beyond, if_true]
    rfl

theorem Reaches.resolveLast_child (h : d.Reaches p loc) (dir : d.IsDirectory loc)
    (short : Short (p.child name.bytes)) :
    d.resolveLast (p.child name.bytes) = .ok (.name loc name false) := by
  obtain ⟨stem, links, le, w, child⟩ := h.stem
  obtain ⟨ne, zero⟩ := h.child_text name
  have plain : ((p.child name.bytes).text.getLast? == some slash) = false := by
    obtain ⟨body, -, text⟩ := Path.exists_body h.1
    rw [text _ (Path.head?_ne_slash_of_notMem name.slash_notMem), List.getLast?_append,
      List.getLast?_cons]
    have last : name.bytes.getLast?.getD slash ≠ slash := by
      cases e : name.bytes.getLast? with
      | none => simp [List.getLast?_eq_none_iff] at e
      | some b =>
        rintro rfl
        exact name.slash_notMem (List.mem_of_getLast? e)
    simpa using last
  rw [← plain]
  refine resolveLast_of_leads ne zero short (child name) (by simp) le ?_ dir
  rwa [h.startOf_child]

theorem reaches_path (hn : d.get? loc = some node) (plain : node.isLink = false) :
    d.Reaches (Location.path loc) loc := by
  induction loc using List.reverseRecOn generalizing node with
  | nil =>
    refine ⟨by simp, Location.zero_notMem_path [], 0, Nat.zero_le _, ?_⟩
    exact .idle d.isDirectory_nil rfl (.idle d.isDirectory_nil rfl (.done []))
  | append_singleton loc name ih =>
    rw [← Location.child_path]
    exact (ih (isDirectory_of_child hn) rfl).child hn plain

end LayeredTree.Disk
