import LayeredTree.Proofs.Blindness
import LayeredTree.Proofs.Disk.Keeping
import LayeredTree.Proofs.Patch.Storing
import LayeredTree.Proofs.Tree.Sidecars
import LayeredTree.Proofs.Written.Moments
import LayeredTree.Proofs.Written.Records

/-!
Storing a record in a patch tree that may have one already. What is stored is read back, and all
that changes is inside the sidecar, which no walk over the content comes to. A store that fails
leaves the old record as it was, whichever of its requests failed and even in the middle of a write.
The one thing that a store can change elsewhere is a file that a draft left behind is linked to.
-/

set_option autoImplicit false

namespace LayeredTree

variable {d d' : Disk} {out root : Path} {loc : Location} {record : PatchRecord}

namespace Disk

/-- The place of the sidecar is free, or a directory with no link in it. -/
structure PlainSidecar (d : Disk) (loc : Location) : Prop where
  place : d.get? (loc ++ [sidecar]) = none ∨ d.IsDirectory (loc ++ [sidecar])
  plain : ∀ rest text, d.get? (loc ++ [sidecar] ++ rest) ≠ some (.link text)

/-- The place lies in the tree at a location, and not in its sidecar. -/
def inContent (loc place : Location) : Bool :=
  loc.isPrefixOf place && !(loc ++ [sidecar]).isPrefixOf place

theorem inContent_sidecar (loc rest : Location) :
    inContent loc (loc ++ [sidecar] ++ rest) = false := by
  simp [inContent]

theorem inContent_eq_false_iff {place : Location} : inContent loc place = false ↔
    (loc <+: place → loc ++ [sidecar] <+: place) := by
  rw [inContent, ← Bool.not_eq_true, Bool.and_eq_true, Bool.not_eq_true', ← Bool.not_eq_true,
    List.isPrefixOf_iff_prefix, List.isPrefixOf_iff_prefix, not_and, not_not]

private theorem filter_filterMap_filter {α β : Type} {keep : α → Bool} {f : α → Option β}
    {test : β → Bool} {l : List α}
    (h : ∀ a ∈ l, keep a = false → ∀ b, f a = some b → test b = false) :
    ((l.filter keep).filterMap f).filter test = (l.filterMap f).filter test := by
  induction l with
  | nil => rfl
  | cons a l ih =>
    have tail := ih fun a' ha => h a' (List.mem_cons_of_mem _ ha)
    by_cases kept : keep a = true
    · rw [List.filter_cons_of_pos kept]
      cases hf : f a with
      | none => rw [List.filterMap_cons_none hf, List.filterMap_cons_none hf, tail]
      | some b =>
        rw [List.filterMap_cons_some hf, List.filterMap_cons_some hf, List.filter_cons,
          List.filter_cons, tail]
    · rw [List.filter_cons_of_neg kept, tail]
      cases hf : f a with
      | none => rw [List.filterMap_cons_none hf]
      | some b =>
        have off := h a List.mem_cons_self (Bool.eq_false_iff.mpr kept) b hf
        rw [List.filterMap_cons_some hf, List.filter_cons_of_neg (Bool.eq_false_iff.mp off)]

theorem PlainSidecar.excludes {rest : Location} {node : Node} (h : d.PlainSidecar loc)
    (hg : d.get? (loc ++ sidecar :: rest) = some node) :
    WalkScope.excludes .content (sidecar :: rest) node = true := by
  refine WalkScope.excludes_content_iff.mpr ⟨rfl, ?_⟩
  by_cases last : rest = []
  · subst last
    right
    rcases h.place with free | there
    · cases free.symm.trans hg
    · cases (show d.get? _ = _ from there).symm.trans hg
      rfl
  · exact .inl last

private theorem visited_eq_filter (h : d.PlainSidecar loc) : d.visited .content loc =
    (((d.nodes.filter fun p => inContent loc p.1).filterMap fun (k, node) =>
      if loc.isPrefixOf k ∧ k ≠ loc then some (k.drop loc.length, node) else none).filter
        fun (names, node) => WalkScope.content.reaches names.length &&
          !WalkScope.content.excludes names node) := by
  rw [visited, below, filter_filterMap_filter]
  rintro ⟨k, node⟩ hm unseen ⟨names, node'⟩ e
  dsimp only at e
  split at e
  · rename_i below
    cases e
    obtain ⟨rest, rfl⟩ := inContent_eq_false_iff.mp unseen (List.isPrefixOf_iff_prefix.mp below.1)
    rw [List.append_assoc, List.singleton_append] at hm ⊢
    have listed := (d.get?_eq_some_iff (by simp) node).mpr hm
    simp [h.excludes listed]
  · cases e

theorem walk_of_sameWhere (same : d.SameWhere (inContent loc) d') (side : d.PlainSidecar loc)
    (side' : d'.PlainSidecar loc) (reach : d.Reaches root loc) (reach' : d'.Reaches root loc)
    (isDir : d.IsDirectory loc) : d'.walk .content root = d.walk .content root := by
  have top : inContent loc loc = true := by
    rw [← Bool.not_eq_false, inContent_eq_false_iff]
    intro off
    have longer := (off List.prefix_rfl).length_le
    simp at longer
  have isDir' : d'.IsDirectory loc := (same.get? top).trans isDir
  by_cases short : Short root
  · have found := entryAt_eq_ok_iff.mpr ⟨reach, short, isDir⟩
    have found' := entryAt_eq_ok_iff.mpr ⟨reach', short, isDir'⟩
    have lists : d'.visited .content loc = d.visited .content loc := by
      rw [visited_eq_filter side, visited_eq_filter side', same.nodes]
    unfold walk
    rw [found, found']
    dsimp only
    rw [lists]
  · have refused : ∀ e : Disk, e.walk .content root = .error (.rootNotFound root) := by
      intro e
      unfold walk
      cases found : e.entryAt root with
      | error => rfl
      | ok place => exact absurd (entryAt_eq_ok_iff.mp found).2.1 short
    rw [refused, refused]

theorem contents_of_sameWhere (same : d.SameWhere (inContent loc) d')
    (side : d.PlainSidecar loc) (side' : d'.PlainSidecar loc) (reach : d.Reaches root loc)
    (reach' : d'.Reaches root loc) (isDir : d.IsDirectory loc) :
    d'.contents root = d.contents root := by
  have walks := walk_of_sameWhere same side side' reach reach' isDir
  unfold contents
  rw [walks]
  cases run : d.walk .content root with
  | error e => rfl
  | ok entries =>
    obtain ⟨place, walked⟩ := walked_of_walk run
    obtain rfl : place = loc := walked.reaches.unique reach
    obtain ⟨place', walked'⟩ := walked_of_walk (walks.trans run)
    obtain rfl : place' = place := walked'.reaches.unique reach'
    have seen : ∀ {names : Location} {content : Bytes} {e : Disk}, e.PlainSidecar place' →
        e.get? (place' ++ names) = some (.file content) →
          Covers .content names (.file content) → inContent place' (place' ++ names) = true := by
      intro names content e side hg covers
      rw [← Bool.not_eq_false, inContent_eq_false_iff]
      intro off
      obtain ⟨rest, e⟩ := off (List.prefix_append _ _)
      rw [List.append_assoc, List.singleton_append] at e
      obtain rfl := List.append_cancel_left e
      have excluded := side.excludes hg
      rw [covers.2] at excluded
      cases excluded
    refine congrArg Except.ok (KeyMap.ext_of_sorted (sorted_contentsOf walked'.inOrder)
      (sorted_contentsOf walked.inOrder) fun key => Option.ext fun content => ?_)
    rw [walked'.get?_contentsOf, walked.get?_contentsOf]
    constructor
    · rintro ⟨names, ne, hg, covers, e⟩
      exact ⟨names, ne, (same.get? (seen side' hg covers)).symm.trans hg, covers, e⟩
    · rintro ⟨names, ne, hg, covers, e⟩
      exact ⟨names, ne, (same.get? (seen side hg covers)).trans hg, covers, e⟩

end Disk

namespace PatchRecord

/-- The requests of a store that fail although the entries of the disk do not stand in the way. A
write may fail with so many bytes in the draft. -/
structure Mishaps where
  making : Option IoFault
  opening : Option IoFault
  writing : Option (Nat × IoFault)
  moving : Option IoFault
  removing : Option IoFault

end PatchRecord

namespace Disk

/-- Fails in place of a request, if there is a fault. -/
def failing (fault : Option IoFault) (request : DiskRequest Unit) : DiskRequest Unit :=
  match fault with
  | some fault => throw fault
  | none => request

/-- The requests of the disk amid mishaps, with a draft that has other names as well. -/
def RecordRequests.amid (mishaps : PatchRecord.Mishaps) (others : List Location) :
    RecordRequests where
  make p := failing mishaps.making (makeDirectories p)
  write p content := failing mishaps.opening (writeFileAmid others mishaps.writing p content)
  move source target := failing mishaps.moving (moveAmong others source target)
  remove p := failing mishaps.removing (removeFile p)

/-- The locations are names of the file at a place, besides its own. -/
def OtherNames (d : Disk) (place : Location) (others : List Location) : Prop :=
  ∀ other ∈ others, other ≠ place ∧
    ∃ content, d.get? place = some (.file content) ∧ d.get? other = some (.file content)

variable {d₂ : Disk} {others : List Location} {mishaps : PatchRecord.Mishaps}

/-- There is a sidecar, and the record is in the draft and all its other names. -/
structure Drafted (out : Path) (loc : Location) (record : PatchRecord) (others : List Location)
    (d d' : Disk) : Prop where
  short : Short (PatchRecord.draftPath out)
  reaches : d'.Reaches (PatchRecord.sidecarPath out) (loc ++ [sidecar])
  isDirectory : d'.IsDirectory (loc ++ [sidecar])
  paves : d.Paves d'
  content : (∀ other ∈ others, inContent loc other = false) → d.SameWhere (inContent loc) d'
  get? : ∀ other ≠ loc ++ [sidecar], d'.get? other =
    if other = loc ++ [sidecar] ++ [PatchRecord.draft] ∨ other ∈ others then
      some (.file (Bytes.ofString record.text))
    else d.get? other

/-- The record is in its place in the sidecar, and in all other names of the draft. The draft itself
is gone, unless the record is one of these names. Nothing else has changed but that there is a
sidecar. -/
structure Resealed (out : Path) (loc : Location) (record : PatchRecord) (others : List Location)
    (d d' : Disk) : Prop where
  short : Short (PatchRecord.draftPath out)
  paves : d.Paves d'
  isDirectory : d'.IsDirectory (loc ++ [sidecar])
  content : (∀ other ∈ others, inContent loc other = false) → d.SameWhere (inContent loc) d'
  stored : d'.get? (loc ++ [sidecar] ++ [PatchRecord.file]) =
    some (.file (Bytes.ofString record.text))
  linked : ∀ other ∈ others, d'.get? other = some (.file (Bytes.ofString record.text))
  drafted : d'.get? (loc ++ [sidecar] ++ [PatchRecord.draft]) =
    if loc ++ [sidecar] ++ [PatchRecord.file] ∈ others then
      some (.file (Bytes.ofString record.text))
    else none
  rest : ∀ other ∉ others, other ≠ loc ++ [sidecar] →
    other ≠ loc ++ [sidecar] ++ [PatchRecord.file] →
      other ≠ loc ++ [sidecar] ++ [PatchRecord.draft] → d'.get? other = d.get? other

/-- What a failed store keeps: all but the sidecar itself and the draft with its other names. -/
def Kept (loc : Location) (others : List Location) (d d' : Disk) : Prop :=
  ∀ other ∉ others, other ≠ loc ++ [sidecar] →
    other ≠ loc ++ [sidecar] ++ [PatchRecord.draft] → d'.get? other = d.get? other

/-- The sidecar is there, whether it was before or not, and nothing else is different. -/
private structure HasSidecar (loc : Location) (d d' : Disk) : Prop where
  within : d.Within d'
  isDirectory : d'.IsDirectory (loc ++ [sidecar])
  content : d.SameWhere (inContent loc) d'
  get? : ∀ other ≠ loc ++ [sidecar], d'.get? other = d.get? other

private theorem makeSidecar_cases (reach : d.Reaches out loc) (isDir : d.IsDirectory loc)
    (side : d.PlainSidecar loc) (mishap : Option IoFault) :
    (∃ d', failing mishap (makeDirectories (PatchRecord.sidecarPath out)) d = .ok () d' ∧
      d.HasSidecar loc d') ∨
      ∃ fault, failing mishap (makeDirectories (PatchRecord.sidecarPath out)) d =
        .error fault d := by
  cases mishap with
  | some fault => exact .inr ⟨fault, rfl⟩
  | none =>
    have plain : ∀ text, d.get? (loc ++ [sidecar]) ≠ some (.link text) := by
      intro text
      have whole := side.plain [] text
      rwa [List.append_nil] at whole
    rcases reach.makeDirectories_child_cases isDir plain with
      ⟨free, made⟩ | ⟨there, made⟩ | failed
    · have up : d.IsDirectory (loc ++ [sidecar]).dropLast := by rwa [List.dropLast_concat]
      have get := get?_plant (by simp) free up Node.directory
      have unseen := inContent_sidecar loc []
      rw [List.append_nil] at unseen
      refine .inl ⟨_, made, within_plant _ _, ?_, sameWhere_plant unseen _, ?_⟩
      · rw [IsDirectory, get, if_pos rfl]
      · intro other ne
        rw [get, if_neg ne]
    · exact .inl ⟨d, made, .refl d, there, .refl _ d, fun _ _ => rfl⟩
    · exact .inr failed

namespace HasSidecar

variable {d₁ : Disk} (h : d.HasSidecar loc d₁)

include h

private theorem kept : d.Kept loc others d₁ := fun other _ ne _ => h.get? other ne

private theorem drafted (reach : d₁.Reaches (PatchRecord.sidecarPath out) (loc ++ [sidecar]))
    (short : Short (PatchRecord.draftPath out))
    (filed : d₁.Rewritten ((loc ++ [sidecar] ++ [PatchRecord.draft]) :: others)
      (Bytes.ofString record.text) d₂)
    (old : ∀ place ∈ (loc ++ [sidecar] ++ [PatchRecord.draft]) :: others, ∀ node,
      d₁.get? place = some node → node.isFile = true)
    (same : ∀ seen : Location → Bool, (∀ place ∈ (loc ++ [sidecar] ++ [PatchRecord.draft]) :: others,
      seen place = false) → d₁.SameWhere seen d₂) :
    d.Drafted out loc record others d₂ := by
  have paves := filed.paves old
  refine ⟨short, reach.paved h.isDirectory paves, paves.isDirectory h.isDirectory,
    h.within.paves.trans paves, fun hidden => h.content.trans (same _ ?_), ?_⟩
  · intro place named
    rcases List.mem_cons.mp named with rfl | named
    · exact inContent_sidecar loc [PatchRecord.draft]
    · exact hidden place named
  · intro other ne
    rw [filed.get?, h.get? other ne]
    simp only [List.mem_cons]

private theorem write_cases (reach : d.Reaches out loc) (side : d.PlainSidecar loc)
    (names : d.OtherNames (loc ++ [sidecar] ++ [PatchRecord.draft]) others)
    (mishaps : PatchRecord.Mishaps) (record : PatchRecord) :
    (∃ d₂, (RecordRequests.amid mishaps others).write (PatchRecord.draftPath out)
        (Bytes.ofString record.text) d₁ = .ok () d₂ ∧ d.Drafted out loc record others d₂) ∨
      ∃ fault d₂, (RecordRequests.amid mishaps others).write (PatchRecord.draftPath out)
        (Bytes.ofString record.text) d₁ = .error fault d₂ ∧ d.Kept loc others d₂ := by
  have reach₁ : d₁.Reaches (PatchRecord.sidecarPath out) (loc ++ [sidecar]) :=
    (reach.mono h.within).child h.isDirectory rfl
  have plain : ∀ text, d₁.get? (loc ++ [sidecar] ++ [PatchRecord.draft]) ≠ some (.link text) := by
    intro text
    rw [h.get? _ (by simp)]
    exact side.plain _ text
  have files : ∀ other ∈ others, ∃ old, d₁.get? other = some (.file old) := by
    intro other named
    obtain ⟨-, old, -, held⟩ := names other named
    exact ⟨old, h.within.2 _ _ held⟩
  obtain ⟨making, opening, writing, moving, removing⟩ := mishaps
  cases opening with
  | some fault => exact .inr ⟨fault, d₁, rfl, h.kept⟩
  | none =>
    rcases reach₁.writeFileAmid_cases h.isDirectory plain files writing
      (Bytes.ofString record.text) with ⟨d₂, written, whole, cut, old, filed, same⟩ | ⟨fault, failed⟩
    swap
    · exact .inr ⟨fault, d₁, failed, h.kept⟩
    cases writing with
    | some failure =>
      refine .inr ⟨failure.2, d₂, cut failure.1 failure.2 rfl, fun other off ne ne' => ?_⟩
      rw [filed.get?, if_neg (List.not_mem_cons_of_ne_of_not_mem ne' off), h.get? other ne]
    | none =>
      obtain ⟨rfl, run⟩ := whole rfl
      refine .inl ⟨d₂, run, h.drafted reach₁ (short_of_writeFileAmid run) filed ?_ same⟩
      intro place named node held
      rcases List.mem_cons.mp named with rfl | named
      · exact old node held
      · obtain ⟨content, e⟩ := files place named
        cases e.symm.trans held
        rfl

end HasSidecar

namespace Drafted

variable (h : d.Drafted out loc record others d₂)

include h

private theorem short_child :
    Short ((PatchRecord.sidecarPath out).child PatchRecord.draft.bytes) := h.short

private theorem draft : d₂.get? (loc ++ [sidecar] ++ [PatchRecord.draft]) =
    some (.file (Bytes.ofString record.text)) := by
  rw [h.get? _ (by simp), if_pos (.inl rfl)]

private theorem kept : d.Kept loc others d₂ := by
  intro other off ne ne'
  rw [h.get? other ne, if_neg (not_or.mpr ⟨ne', off⟩)]

private theorem linked (side : d.PlainSidecar loc)
    (names : d.OtherNames (loc ++ [sidecar] ++ [PatchRecord.draft]) others) :
    ∀ other ∈ others, d₂.get? other = some (.file (Bytes.ofString record.text)) := by
  intro other named
  rw [h.get?, if_pos (.inr named)]
  rintro rfl
  obtain ⟨-, content, -, held⟩ := names _ named
  rcases side.place with free | there
  · cases free.symm.trans held
  · cases (show d.get? _ = _ from there).symm.trans held

private theorem remove (mishaps : PatchRecord.Mishaps) : ∃ d',
    (tryCatch ((RecordRequests.amid mishaps others).remove (PatchRecord.draftPath out))
      fun _ => pure ()) d₂ = .ok () d' ∧ d.Kept loc others d' := by
  obtain ⟨making, opening, writing, moving, removing⟩ := mishaps
  cases removing with
  | some fault => exact ⟨d₂, tryCatch_of_error (e := fault) rfl, h.kept⟩
  | none =>
    have removed := h.reaches.removeFile h.isDirectory h.short_child h.draft
    refine ⟨_, tryCatch_of_ok removed, fun other off ne ne' => ?_⟩
    have isFile : ¬ d₂.IsDirectory (loc ++ [sidecar] ++ [PatchRecord.draft]) := by
      rw [IsDirectory, h.draft]
      rintro ⟨⟩
    rw [get?_uproot_of_not_isDirectory (by simp) isFile, if_neg ne', h.kept other off ne ne']

variable (side : d.PlainSidecar loc)
  (names : d.OtherNames (loc ++ [sidecar] ++ [PatchRecord.draft]) others)

include side names

private theorem resealed_of_mem (one : loc ++ [sidecar] ++ [PatchRecord.file] ∈ others) :
    d.Resealed out loc record others d₂ := by
  have linked := h.linked side names
  refine ⟨h.short, h.paves, h.isDirectory, h.content, linked _ one, linked, ?_,
    fun other off ne _ ne' => h.kept other off ne ne'⟩
  rw [if_pos one, h.draft]

private theorem resealed_of_moved (two : loc ++ [sidecar] ++ [PatchRecord.file] ∉ others)
    (closed : ¬ d₂.IsDirectory (loc ++ [sidecar] ++ [PatchRecord.file]))
    (same : ∀ seen : Location → Bool,
      (∀ rest, seen (loc ++ [sidecar] ++ [PatchRecord.draft] ++ rest) = false) →
      (∀ rest, seen (loc ++ [sidecar] ++ [PatchRecord.file] ++ rest) = false) →
        d₂.SameWhere seen d')
    (get : ∀ other, d'.get? other =
      if other = loc ++ [sidecar] ++ [PatchRecord.file] then
        some (.file (Bytes.ofString record.text))
      else if other = loc ++ [sidecar] ++ [PatchRecord.draft] then none else d₂.get? other) :
    d.Resealed out loc record others d' := by
  have differ : loc ++ [sidecar] ++ [PatchRecord.file] ≠
      loc ++ [sidecar] ++ [PatchRecord.draft] := by
    intro e
    exact absurd (List.append_cancel_left e) (by decide)
  have plain : ∀ text, d₂.get? (loc ++ [sidecar] ++ [PatchRecord.file]) ≠ some (.link text) := by
    intro text
    rw [h.kept _ two (by simp) differ]
    exact side.plain _ text
  have unseen : ∀ name : Name, ∀ rest,
      inContent loc (loc ++ [sidecar] ++ [name] ++ rest) = false := by
    intro name rest
    rw [List.append_assoc]
    exact inContent_sidecar loc _
  have here : d'.here = d₂.here := (same (fun _ => false) (fun _ => rfl) fun _ => rfl).here
  refine ⟨h.short, h.paves.trans (paves_of_moved here h.draft closed plain get), ?_,
    fun hidden => (h.content hidden).trans (same _ (unseen _) (unseen _)), ?_, ?_, ?_, ?_⟩
  · rw [IsDirectory, get, if_neg (by simp), if_neg (by simp)]
    exact h.isDirectory
  · rw [get, if_pos rfl]
  · intro other named
    have ne : other ≠ loc ++ [sidecar] ++ [PatchRecord.file] := fun e => two (e ▸ named)
    rw [get, if_neg ne, if_neg (names other named).1, h.linked side names other named]
  · rw [get, if_neg differ.symm, if_pos rfl, if_neg two]
  · intro other off ne ne' ne''
    rw [get, if_neg ne', if_neg ne'', h.kept other off ne ne'']

private theorem move_cases (ne : out.text ≠ []) (mishaps : PatchRecord.Mishaps) :
    (∃ d', (RecordRequests.amid mishaps others).move (PatchRecord.draftPath out)
        (PatchRecord.path out) d₂ = .ok () d' ∧ d.Resealed out loc record others d') ∨
      ∃ fault, (RecordRequests.amid mishaps others).move (PatchRecord.draftPath out)
        (PatchRecord.path out) d₂ = .error fault d₂ := by
  have short' : Short ((PatchRecord.sidecarPath out).child PatchRecord.file.bytes) :=
    short_of_draft ne h.short
  obtain ⟨making, opening, writing, moving, removing⟩ := mishaps
  cases moving with
  | some fault => exact .inr ⟨fault, rfl⟩
  | none =>
    by_cases one : loc ++ [sidecar] ++ [PatchRecord.file] ∈ others
    · -- The old record is the same file as the draft, so that it has the new content already.
      exact .inl ⟨d₂, h.reaches.moveAmong_of_mem h.isDirectory h.short_child short' h.draft one,
        h.resealed_of_mem side names one⟩
    · rcases h.reaches.moveAmong_cases h.isDirectory h.short_child short' h.draft (by decide) one with
        ⟨d', moved, closed, same, get⟩ | ⟨-, failed⟩
      · exact .inl ⟨d', moved, h.resealed_of_moved side names one closed same get⟩
      · exact .inr failed

end Drafted

/-- A record is written in place of the one there was. If it cannot be, at most a draft is gone or
other than it was, with its other names, and the sidecar is new. -/
theorem writeRecordBy_cases (reach : d.Reaches out loc) (isDir : d.IsDirectory loc)
    (side : d.PlainSidecar loc)
    (names : d.OtherNames (loc ++ [sidecar] ++ [PatchRecord.draft]) others)
    (mishaps : PatchRecord.Mishaps) (record : PatchRecord) :
    (∃ d', writeRecordBy (.amid mishaps others) out record d = .ok () d' ∧
      d.Resealed out loc record others d') ∨
      ∃ fault d', writeRecordBy (.amid mishaps others) out record d = .error fault d' ∧
        d.Kept loc others d' := by
  rcases makeSidecar_cases reach isDir side mishaps.making with
    ⟨d₁, made, hasSidecar⟩ | ⟨fault, failed⟩
  swap
  · exact .inr ⟨fault, d, bind_of_error failed, fun _ _ _ _ => rfl⟩
  rcases hasSidecar.write_cases reach side names mishaps record with
    ⟨d₂, written, drafted⟩ | ⟨fault, d₂, failed, kept⟩
  swap
  · exact .inr ⟨fault, d₂, (bind_of_ok made).trans (bind_of_error failed), kept⟩
  rcases drafted.move_cases side names reach.1 mishaps with ⟨d', moved, sealed⟩ | ⟨fault, failed⟩
  · exact .inl ⟨d', (bind_of_ok made).trans ((bind_of_ok written).trans (tryCatch_of_ok moved)),
      sealed⟩
  · obtain ⟨d', removed, kept⟩ := drafted.remove mishaps
    exact .inr ⟨fault, d', (bind_of_ok made).trans ((bind_of_ok written).trans
      ((tryCatch_of_error failed).trans (bind_of_ok removed))), kept⟩

namespace Resealed

theorem plainSidecar (h : d.Resealed out loc record others d') (side : d.PlainSidecar loc) :
    d'.PlainSidecar loc := by
  refine ⟨.inr h.isDirectory, fun rest text hg => ?_⟩
  by_cases top : rest = []
  · rw [top, List.append_nil, show d'.get? _ = _ from h.isDirectory] at hg
    cases hg
  by_cases named : loc ++ [sidecar] ++ rest ∈ others
  · cases (h.linked _ named).symm.trans hg
  by_cases stored : rest = [PatchRecord.file]
  · rw [stored, h.stored] at hg
    cases hg
  by_cases drafted : rest = [PatchRecord.draft]
  · rw [drafted, h.drafted] at hg
    split at hg <;> cases hg
  rw [h.rest _ named (by simpa using top) (by simpa using stored) (by simpa using drafted)] at hg
  exact side.plain rest text hg

theorem record_eq (h : d.Resealed out loc record others d') (reach : d.Reaches out loc)
    (isDir : d.IsDirectory loc)
    (clock : ∀ t, record.createdAt = some t → Instant.parse t.text = .ok t) :
    d'.record out = if record.version = PatchRecord.currentVersion then .ok record
      else .error (.unsupportedVersion record.version) := by
  have reach' := ((reach.paved isDir h.paves).child h.isDirectory rfl).child h.stored rfl
  have held : d'.contentAt? (PatchRecord.path out) = some (Bytes.ofString record.text) :=
    contentAt?_eq_some_iff.mpr ⟨_, reach', short_of_draft reach.1 h.short, h.stored⟩
  exact record_of_content held (PatchRecord.parse_text_of_clock record clock)

end Resealed
end Disk

namespace PatchRecord

variable {w : World}

/-- What a store leaves, by how it ends, if a draft that was left behind has other names. A record
that is stored is read back, unless it has another version than the one that is read. No draft
stays, nothing changes outside the sidecar but the other names, and walks and digests see no change.
A record that cannot be stored leaves the old one as it was. -/
def Stores (out : Path) (loc : Location) (record : PatchRecord) (others : List Location)
    (w : World) : EStateM.Result RecordError World Unit → Prop
  | .ok () v =>
    (record.version = currentVersion → ∃ u, load out v = .ok record u) ∧
    (record.version ≠ currentVersion →
      ∃ u, load out v = .error (.unsupportedVersion record.version) u) ∧
    (loc ++ [sidecar] ++ [file] ∉ others → v.disk.get? (loc ++ [sidecar] ++ [draft]) = none) ∧
    (∀ other ∉ others, ¬ loc ++ [sidecar] <+: other →
      v.disk.get? other = w.disk.get? other) ∧
    (∀ other ∈ others, v.disk.get? other = some (.file (Bytes.ofString record.text))) ∧
    ((∀ other ∈ others, loc <+: other → loc ++ [sidecar] <+: other) →
      v.disk.walk .content out = w.disk.walk .content out ∧
        v.disk.digest out = w.disk.digest out)
  | .error _ v =>
    (loc ++ [sidecar] ++ [file] ∉ others → ∀ content,
      w.disk.get? (loc ++ [sidecar] ++ [file]) = some (.file content) →
        v.disk.get? (loc ++ [sidecar] ++ [file]) = some (.file content)) ∧
    ∀ other ∉ others, ¬ loc ++ [sidecar] <+: other → v.disk.get? other = w.disk.get? other

theorem store_eq_amid : store = storeBy (.amid ⟨none, none, none, none, none⟩ []) := rfl

/-- A tree `/t` with a file, an old record and a draft that was left behind, which `/k` is linked
to. -/
def sealedTree : World := .holding [
  ([47, 116], .directory), ([47, 116, 47, 120], .file [1]), ([47, 107], .file [3]),
  ([47, 116, 47, 46, 112, 97, 116, 99, 104], .directory),
  ([47, 116, 47, 46, 112, 97, 116, 99, 104, 47, 109, 101, 116, 97, 100, 97, 116, 97, 46, 106, 115,
    111, 110], .file [2]),
  ([47, 116, 47, 46, 112, 97, 116, 99, 104, 47, 109, 101, 116, 97, 100, 97, 116, 97, 46, 106, 115,
    111, 110, 46, 116, 109, 112], .file [3])]

end PatchRecord
end LayeredTree
