import LayeredTree.Proofs.Blindness
import LayeredTree.Proofs.Patch.Storing
import LayeredTree.Proofs.Reading.Records

set_option autoImplicit false

namespace LayeredTree

variable {w : World} {d : Disk} {patch : Path} {content : Bytes} {m m' : PatchRecord}

theorem Disk.record_of_malformed {fault : Json.Fault}
    (h : d.contentAt? (PatchRecord.path patch) = some content)
    (refused : PatchRecord.parse content = .error fault) :
    d.record patch = .error (.malformed (PatchRecord.path patch) fault) := by
  obtain ⟨place, found⟩ := contentAt?_eq_some_iff.mp h
  unfold Disk.record
  dsimp only
  rw [openAt_file_iff.mpr found]
  dsimp only
  rw [refused]

namespace PatchRecord

theorem Accepted.unique (h : Accepted content m) (h' : Accepted content m') : m = m' := by
  have same := parse_eq_ok_iff.mpr h
  rw [parse_eq_ok_iff.mpr h'] at same
  exact (Except.ok.inj same).symm

/-- Reading a record gives the one that the content is accepted as, if its version is the current
one. Another version is refused as such, and what is not accepted is malformed. -/
theorem load_decides (held : w.disk.contentAt? (path patch) = some content) :
    (∀ m, (∃ v, load patch w = .ok m v) ↔ m.version = 1 ∧ Accepted content m) ∧
      (∀ version, (∃ v, load patch w = .error (.unsupportedVersion version) v) ↔
        version ≠ 1 ∧ ∃ m, m.version = version ∧ Accepted content m) ∧
      ((∃ fault v, load patch w = .error (.malformed (path patch) fault) v) ↔
        ∀ m, ¬ Accepted content m) ∧
      ∀ m, Documented content m → Accepted content m := by
  refine and_assoc.mp (and_assoc.mp ⟨?_, fun m => Documented.accepted⟩)
  cases parsed : PatchRecord.parse content with
  | error fault =>
    have run := load_of_error (Disk.record_of_malformed held parsed)
    have none : ∀ m, ¬ Accepted content m := by
      intro m accepted
      rw [parse_eq_ok_iff.mpr accepted] at parsed
      cases parsed
    refine ⟨⟨fun m => ⟨fun ⟨v, h⟩ => ?_, fun h => absurd h.2 (none m)⟩, fun version =>
      ⟨fun ⟨v, h⟩ => ?_, fun ⟨_, m, _, h⟩ => absurd h (none m)⟩⟩, fun _ => none,
      fun _ => ⟨_, _, run⟩⟩
    · rw [run] at h
      cases h
    · rw [run] at h
      cases h
  | ok record =>
    have accepted := parse_eq_ok_iff.mp parsed
    have taken : w.disk.record patch = if record.version = 1 then .ok record
        else .error (.unsupportedVersion record.version) := Disk.record_of_content held parsed
    by_cases current : record.version = 1
    · rw [if_pos current] at taken
      obtain ⟨v, run, -⟩ := load_of_ok taken
      refine ⟨⟨fun m => ⟨fun ⟨v', h⟩ => ?_, fun ⟨_, h⟩ => ?_⟩, fun version => ⟨fun ⟨v', h⟩ => ?_,
        fun ⟨other, m, same, h⟩ => ?_⟩⟩, fun ⟨_, _, h⟩ => ?_, fun none => absurd accepted (none _)⟩
      · rw [run] at h
        cases h
        exact ⟨current, accepted⟩
      · cases h.unique accepted
        exact ⟨v, run⟩
      · rw [run] at h
        cases h
      · cases h.unique accepted
        exact absurd (same.symm.trans current) other
      · rw [run] at h
        cases h
    · rw [if_neg current] at taken
      have run := load_of_error taken
      refine ⟨⟨fun m => ⟨fun ⟨v', h⟩ => ?_, fun ⟨now, h⟩ => ?_⟩, fun version => ⟨fun ⟨v', h⟩ => ?_,
        fun ⟨_, m, same, h⟩ => ?_⟩⟩, fun ⟨_, _, h⟩ => ?_, fun none => absurd accepted (none _)⟩
      · rw [run] at h
        cases h
      · cases h.unique accepted
        exact absurd now current
      · rw [run] at h
        cases h
        exact ⟨current, record, rfl, accepted⟩
      · cases h.unique accepted
        subst same
        exact ⟨w, run⟩
      · rw [run] at h
        cases h

def listed : World := .holding [
  ([47, 112], .directory), ([47, 112, 47, 46, 112, 97, 116, 99, 104], .directory),
  ([47, 112, 47, 46, 112, 97, 116, 99, 104, 47, 109, 101, 116, 97, 100, 97, 116, 97, 46, 106, 115,
    111, 110], .file [91, 49, 93])]

/-- A list is taken as a record, though no list has the documented form. -/
theorem load_takes_list : listed.disk.contentAt? (path ⟨[47, 112]⟩) = some [91, 49, 93] ∧
    (∃ v, load ⟨[47, 112]⟩ listed = .ok ⟨1, none, none, [], none⟩ v) ∧
      ∀ m, ¬ Documented [91, 49, 93] m := by
  have held : listed.disk.contentAt? (path ⟨[47, 112]⟩) = some [91, 49, 93] := by rfl
  have one : IsWord [49] 1 := ⟨⟨⟨by simp, by simp; rfl⟩, by simp⟩, rfl⟩
  have item : Json.Parts Eq true ([] ++ ([49] ++ [])) [[49]] :=
    .cons (.first Json.isGap_nil) rfl (.nil Json.isGap_nil)
  have items : Json.ListOf [91, 49, 93] [[49]] := ⟨[49], item, rfl⟩
  have accepted : Accepted [91, 49, 93] ⟨1, none, none, [], none⟩ :=
    ⟨[], [91, 49, 93], [], Json.isGap_nil, Json.isGap_nil, .inr ⟨[[49]], items, by simp,
      ⟨[49], rfl, one⟩, .absent, .absent, .absent, .absent⟩, rfl⟩
  refine ⟨held, ((load_decides held).1 _).mpr ⟨rfl, accepted⟩, ?_⟩
  rintro m ⟨gap, _, gap', isGap, -, ⟨_, _, ⟨inner, -, rfl⟩, -⟩, e⟩
  cases gap with
  | nil => cases e
  | cons b gap =>
    obtain ⟨rfl, -⟩ := List.cons_eq_cons.mp e
    cases isGap 91 List.mem_cons_self

end PatchRecord
end LayeredTree
