import LayeredTree.Patch.Record
import LayeredTree.Proofs.Tree.Building
import LayeredTree.Proofs.Tree.Contents

set_option autoImplicit false

namespace LayeredTree

variable {d d' : Disk} {out : Path} {root : Location} {record : PatchRecord}
variable {files : Location → Option Bytes}

def sidecar : Name := ⟨sidecarName, by decide⟩

namespace PatchRecord

def file : Name := ⟨fileName, by decide⟩

def draft : Name := ⟨draftName, by decide⟩

/-- The files of a tree with a record in its sidecar. -/
def beside (record : PatchRecord) (files : Location → Option Bytes) (names : Location) :
    Option Bytes :=
  if names = [sidecar, file] then some (Bytes.ofString record.text) else files names

end PatchRecord

namespace Disk

theorem record_of_content {content : Bytes} (h : d.contentAt? (PatchRecord.path out) = some content)
    (reads : PatchRecord.parse content = .ok record) :
    d.record out = if record.version = PatchRecord.currentVersion then .ok record
      else .error (.unsupportedVersion record.version) := by
  obtain ⟨place, found⟩ := contentAt?_eq_some_iff.mp h
  have opened := openAt_file_iff.mpr found
  unfold Disk.record
  dsimp only
  rw [opened]
  dsimp only
  rw [reads]

theorem recordPath_eq (out : Path) :
    PatchRecord.path out = pathBelow out [sidecar, PatchRecord.file] := rfl

theorem record_eq_ok_iff : d.record out = .ok record ↔
    ∃ content, d.contentAt? (PatchRecord.path out) = some content ∧
      PatchRecord.parse content = .ok record ∧ record.version = PatchRecord.currentVersion := by
  constructor
  · intro h
    unfold Disk.record at h
    dsimp only at h
    cases opened : d.openAt (PatchRecord.path out) with
    | error fault =>
      rw [opened] at h
      dsimp only at h
      split at h
      · cases h
      · cases h
    | ok found =>
      obtain ⟨place, node⟩ := found
      rw [opened] at h
      cases node with
      | file content =>
        dsimp only at h
        cases reads : PatchRecord.parse content with
        | error fault =>
          rw [reads] at h
          cases h
        | ok record' =>
          rw [reads] at h
          dsimp only at h
          split at h
          · rename_i version
            cases h
            exact ⟨content, contentAt?_eq_some_iff.mpr ⟨place, openAt_file_iff.mp opened⟩, reads,
              version⟩
          · cases h
      | directory => cases h
      | link => cases h
      | other => cases h
  · rintro ⟨content, held, reads, version⟩
    rw [record_of_content held reads, if_pos version]

theorem short_of_draft (ne : out.text ≠ []) (short : Short (PatchRecord.draftPath out)) :
    Short (PatchRecord.path out) := by
  have tidy : (PatchRecord.sidecarPath out).IsTidy :=
    isTidy_pathBelow ne (List.cons_ne_nil sidecar [])
  obtain ⟨body, -, text⟩ := Path.exists_body tidy.ne_nil
  have draftText := text _ (Path.head?_ne_slash_of_notMem PatchRecord.draft.slash_notMem)
  have fileText := text _ (Path.head?_ne_slash_of_notMem PatchRecord.file.slash_notMem)
  have longer : PatchRecord.file.bytes.length ≤ PatchRecord.draft.bytes.length := by decide
  rw [Short, PatchRecord.draftPath, show PatchRecord.draftName = PatchRecord.draft.bytes from rfl,
    draftText] at short
  rw [Short, PatchRecord.path, show PatchRecord.fileName = PatchRecord.file.bytes from rfl, fileText]
  simp only [List.length_append, List.length_cons] at short ⊢
  omega

theorem writeRecord_run (host : d.Hosts out root) (free : d.get? (root ++ [sidecar]) = none)
    (short : Short (PatchRecord.draftPath out)) (record : PatchRecord) :
    ∃ d', writeRecord out record d = .ok () d' ∧ d.Within d' ∧
      d.Placed root [sidecar, PatchRecord.file] (Bytes.ofString record.text) d' := by
  have way : d.Passable root [sidecar] := passable_singleton host.isDirectory (.inl free)
  have whole : Short (pathBelow out ([sidecar] ++ [PatchRecord.draft])) := short
  have shortSide : Short (pathBelow out [sidecar]) := short_of_append host.reaches.1 whole
  obtain ⟨d₁, made, raised⟩ := host.raise way shortSide
  have isDir := raised.isDirectory host.isDirectory
  have reach : d₁.Reaches (PatchRecord.sidecarPath out) (root ++ [sidecar]) :=
    (host.reaches.mono (raised.within way)).child isDir rfl
  have empty : ∀ name : Name, d₁.get? (root ++ [sidecar] ++ [name]) = none := by
    intro name
    rw [raised.get?, if_neg, get?_append_of_none free]
    rintro ⟨-, -, le⟩
    have longer := le.length_le
    simp only [List.length_append, List.length_singleton] at longer
    omega
  obtain ⟨d₂, written, filed⟩ := writeFile_of_free reach isDir (empty PatchRecord.draft) short
    (Bytes.ofString record.text)
  have sub : d₁.Within d₂ := filed.within (empty PatchRecord.draft)
  have isDir₂ := sub.isDirectory isDir
  have shortFile : Short (PatchRecord.path out) := short_of_draft host.reaches.1 short
  have shortOld : Short ((PatchRecord.sidecarPath out).child PatchRecord.draft.bytes) := short
  have shortNew : Short ((PatchRecord.sidecarPath out).child PatchRecord.file.bytes) := shortFile
  have old := (reach.mono sub).resolveLast_child isDir₂ shortOld
  have new := (reach.mono sub).resolveLast_child isDir₂ shortNew
  have apart : ¬ root ++ [sidecar] ++ [PatchRecord.draft] <+: root ++ [sidecar] ++ [PatchRecord.file] := by
    rw [Location.child_prefix_child_iff]
    decide
  have here : d₂.get? (root ++ [sidecar] ++ [PatchRecord.draft]) =
      some (.file (Bytes.ofString record.text)) := by
    rw [filed.get?, if_pos rfl]
  have free₂ : d₂.get? (root ++ [sidecar] ++ [PatchRecord.file]) = none := by
    rw [filed.get?, if_neg, empty]
    intro e
    exact apart (e ▸ List.prefix_rfl)
  have moved := move_of_free old new here free₂ apart
  have up : d₁.IsDirectory (root ++ [sidecar] ++ [PatchRecord.file]).dropLast := by
    rwa [List.dropLast_concat]
  have placed := filed.graft (by simp) (by simp) apart (empty _) (empty _) up
  refine ⟨_, ?_, (raised.within way).trans (placed.within (empty _)), raised.placed placed⟩
  exact (bind_of_ok made).trans ((bind_of_ok written).trans (tryCatch_of_ok moved))

theorem of_writeRecord (ne : out.text ≠ []) (h : writeRecord out record d = .ok () d') :
    (∃ d₁, d.Within d₁ ∧ d₁.hasDirectory (PatchRecord.sidecarPath out) = true) ∧
      Short (PatchRecord.draftPath out) := by
  obtain ⟨⟨⟩, d₁, made, h⟩ := bind_eq_ok_iff.mp h
  obtain ⟨⟨⟩, d₂, written, -⟩ := bind_eq_ok_iff.mp h
  have rel := Path.head?_ne_slash_of_notMem sidecar.slash_notMem
  have grown := grows_makeDirectories (PatchRecord.sidecarPath out) d
  rw [after_of_ok made] at grown
  exact ⟨⟨d₁, grown, hasDirectory_of_makeDirectories (Path.child_ne_nil ne rel) made⟩,
    short_of_writeFile written⟩

theorem HoldsTree.stored (h : d.HoldsTree root files) (host : d.Hosts out root) (apart : Apart files)
    (top : files [] = none) (hidden : ∀ rest ≠ [], files ([sidecar] ++ rest) = none)
    (run : writeRecord out record d = .ok () d') :
    d'.HoldsTree root (record.beside files) ∧ SameOutside root d d' ∧ d.Within d' := by
  obtain ⟨⟨d₁, sub, there⟩, short⟩ := of_writeRecord host.reaches.1 run
  obtain ⟨place, reach, -, isDir⟩ := hasDirectory_iff.mp there
  have taken : ∀ node, d.get? (root ++ [sidecar]) = some node → node = .directory := by
    intro node hn
    rcases (h [sidecar] (by simp) node).mp hn with ⟨content, -, rfl⟩ | ⟨rfl, -⟩
    · have file := sub.2 _ _ hn
      cases ((host.reaches.mono sub).child file rfl).unique reach
      rw [show d₁.get? _ = _ from isDir] at file
      cases file
    · rfl
  have free : d.get? (root ++ [sidecar]) = none := by
    cases hn : d.get? (root ++ [sidecar]) with
    | none => rfl
    | some node =>
      cases taken node hn
      rcases (h [sidecar] (by simp) .directory).mp hn with ⟨content, -, e⟩ | ⟨-, rest, ne, there⟩
      · cases e
      · exact absurd (hidden rest ne) there
  have bare : files [sidecar] = none := by
    cases hf : files [sidecar] with
    | none => rfl
    | some content =>
      rw [(h [sidecar] (by simp) (.file content)).mpr (.inl ⟨content, hf, rfl⟩)] at free
      cases free
  obtain ⟨d₂, written, grown, placed⟩ := writeRecord_run host free short record
  cases run.symm.trans written
  refine ⟨h.placed placed (if_pos rfl) (fun other ne => if_neg ne) fun names rest ne there => ?_,
    placed.sameOutside (by simp), grown⟩
  unfold PatchRecord.beside at there ⊢
  have short : ∀ first : Location, first ++ rest = [sidecar, PatchRecord.file] →
      first = [] ∨ first = [sidecar] := by
    intro first e
    rcases List.append_eq_cons_iff.mp e with ⟨rfl, -⟩ | ⟨more, rfl, tail⟩
    · exact .inl rfl
    · rcases List.append_eq_cons_iff.mp tail.symm with ⟨rfl, -⟩ | ⟨last, rfl, more⟩
      · exact .inr rfl
      · exact absurd (List.append_eq_nil_iff.mp more.symm).2 ne
  by_cases last : names ++ rest = [sidecar, PatchRecord.file]
  · rcases short names last with rfl | rfl
    · exact absurd top there
    · exact absurd bare there
  · rw [if_neg last]
    by_cases record : names = [sidecar, PatchRecord.file]
    · subst record
      exact hidden _ (by simp)
    · rw [if_neg record] at there
      exact apart names rest ne there

end Disk
end LayeredTree
