import LayeredTree.Proofs.Ancestry
import LayeredTree.Proofs.Patch.Ends
import LayeredTree.Proofs.Patch.Storing
import LayeredTree.Proofs.Tree.Fingerprint
import LayeredTree.Proofs.Written.Moments
import LayeredTree.Proofs.Written.Records

/-!
What can influence a merged tree. A combine succeeds only on a base that has the declared digest,
and the merge takes from the base just what its digest covers. So the patch alone settles what the
merged tree is, entry by entry.
-/

set_option autoImplicit false

namespace LayeredTree

open World

variable {ε : Type} {w w' v v' : World} {d d' : Disk} {old new m m' : KeyMap Bytes}

namespace Disk

variable {out out' root root' : Path} {goal goal' : Location} {files : Key → Option Bytes}

/-- Two patch trees that are one to a combine: it reads the same record and the same content. -/
structure SamePatch (d d' : Disk) (patch patch' : Path) : Prop where
  record : ∀ r, d.record patch = .ok r ↔ d'.record patch' = .ok r
  contents : ∀ m, d.contents patch = .ok m ↔ d'.contents patch' = .ok m

theorem SamePatch.refl (d : Disk) (patch : Path) : d.SamePatch d patch patch :=
  ⟨fun _ => Iff.rfl, fun _ => Iff.rfl⟩

theorem Shows.exists_contents (h : d.Shows out goal files) : ∃ m, d.contents out = .ok m ∧
    m.Sorted ∧ ∀ key, files key = m.get? key := by
  obtain ⟨entries, walk, -, get⟩ := h.walked
  obtain ⟨place, walked⟩ := walked_of_walk walk
  exact ⟨_, contents_eq_ok_iff.mpr ⟨entries, walk, rfl⟩, sorted_contentsOf walked.inOrder,
    fun key => (get key).symm⟩

theorem Shows.get?_congr (h : d.Shows out goal files) (h' : d'.Shows out' goal' files)
    (names : Location) : d.get? (goal ++ names) = d'.get? (goal' ++ names) := by
  by_cases top : names = []
  · rw [top, List.append_nil, List.append_nil]
    exact h.isDirectory.trans h'.isDirectory.symm
  · refine Option.ext fun node => ?_
    rw [h.get?_iff names top, h'.get?_iff names top]

/-- No file of a tree is longer than a length in eight bytes can tell. -/
def TellingTree (d : Disk) (root : Path) : Prop :=
  ∀ m, d.contents root = .ok m → ∀ file ∈ m, DigestStream.Telling file.2

theorem TellingTree.telling (tells : d.TellingTree root) (h : d.contents root = .ok m) :
    ∀ file ∈ m, DigestStream.Telling file.1 ∧ DigestStream.Telling file.2 := by
  intro file hf
  obtain ⟨entries, walk, rfl⟩ := contents_eq_ok_iff.mp h
  obtain ⟨loc, walked⟩ := walked_of_walk walk
  exact ⟨walked.telling_key file hf, tells _ h file hf⟩

theorem contents_eq_of_digest (tells : d.TellingTree root) (tells' : d'.TellingTree root')
    (h : d.contents root = .ok m) (h' : d'.contents root' = .ok m')
    (apart : ∀ b b', d.hashed root = .ok b → d'.hashed root' = .ok b' →
      Blake3.hash b = Blake3.hash b' → b = b')
    (e : Digest.ofContents m = Digest.ofContents m') : m = m' := by
  rw [Digest.ofContents_eq_ofHash, Digest.ofContents_eq_ofHash] at e
  exact DigestStream.ofContents_injective (tells.telling h) (tells'.telling h')
    (apart _ _ (hashed_of_contents h) (hashed_of_contents h') (congrArg Digest.bytes e))

end Disk

namespace Combiner

variable {c c' done done' : Combiner} {p p' : Path}

theorem of_combine (run : (c.combine : Action ε _) w = .ok (.ok p, done) v) :
    ∃ record merged, c.request.Admits w.disk record ∧
      Patch.mergeWith c.mergeRoot c.request.before c.request.after record w = .ok p merged ∧
        Alike merged v := by
  have first : c.stage = .start := by
    by_contra ran
    cases run.symm.trans (combine_again ran w)
  obtain ⟨result, c₁, v₁, run', cases⟩ := combine_cases (ε := ε) c first w
  cases run.symm.trans run'
  rcases cases with ⟨record, p₁, merged, admits, merge, e, -, like⟩ | ⟨-, e₁, -, -, -, e, -⟩ |
    ⟨-, e₁, e, -⟩
  · cases e
    exact ⟨record, merged, admits, merge, like⟩
  · cases e
  · cases e

theorem shows_of_combine (run : (c.combine : Action ε _) w = .ok (.ok p, done) v) :
    ∃ record old new goal, w.disk.record c.request.after = .ok record ∧
      record.previousHash = some (Digest.ofContents old) ∧
      w.disk.contents c.request.before = .ok old ∧ w.disk.contents c.request.after = .ok new ∧
        v.disk.Shows p goal (Patch.merged old new record.removed) := by
  obtain ⟨record, merged, admits, merge, like⟩ := of_combine run
  obtain ⟨old, new, goal, base, patch, shows⟩ := Patch.shows_of_mergeWith merge
  obtain ⟨digest, files, found, declared⟩ := admits.extended
  cases found.symm.trans (Disk.digest_of_contents base)
  exact ⟨record, old, new, goal, admits.recorded, declared, base, patch, like.disk ▸ shows⟩

/-- What the hash check covers is all that a merge uses. If two combines of the same patch succeed,
whatever their bases are and wherever they lie, then the merged trees have the same content, and
are the same entry by entry. -/
theorem combine_determined (tells : w.disk.TellingTree c.request.before)
    (tells' : w'.disk.TellingTree c'.request.before)
    (same : w.disk.SamePatch w'.disk c.request.after c'.request.after)
    (apart : ∀ b b', w.disk.hashed c.request.before = .ok b →
      w'.disk.hashed c'.request.before = .ok b' → Blake3.hash b = Blake3.hash b' → b = b')
    (run : (c.combine : Action ε _) w = .ok (.ok p, done) v)
    (run' : (c'.combine : Action ε _) w' = .ok (.ok p', done') v') :
    (∃ m, v.disk.contents p = .ok m ∧ v'.disk.contents p' = .ok m) ∧
      ∃ goal goal', v.disk.Reaches p goal ∧ v'.disk.Reaches p' goal' ∧
        ∀ names, v.disk.get? (goal ++ names) = v'.disk.get? (goal' ++ names) := by
  obtain ⟨record, old, new, goal, recorded, declared, base, patch, shows⟩ := shows_of_combine run
  obtain ⟨record', old', new', goal', recorded', declared', base', patch', shows'⟩ :=
    shows_of_combine run'
  cases recorded'.symm.trans ((same.record record).mp recorded)
  cases patch'.symm.trans ((same.contents new).mp patch)
  have digests : Digest.ofContents old = Digest.ofContents old' :=
    Option.some.inj (declared.symm.trans declared')
  obtain rfl := Disk.contents_eq_of_digest tells tells' base base' apart digests
  obtain ⟨m, content, sorted, get⟩ := shows.exists_contents
  exact ⟨⟨m, content, shows'.contents sorted get⟩, goal, goal', shows.reaches, shows'.reaches,
    shows.get?_congr shows'⟩

/-- A patch that extends every tree with just the file `x`. -/
def extending : PatchRecord :=
  .full (.uniform 1) (Digest.ofContents [([120], [1])]) [] default

/-- A tree `/a` with the file `x`, a tree `/b` with the same file, an empty directory and a link,
and the patch `/p` with the file `y`. -/
def twoBases : World := .holding [
  ([47, 97], .directory), ([47, 97, 47, 120], .file [1]), ([47, 98], .directory),
  ([47, 98, 47, 101], .directory), ([47, 98, 47, 108], .link [120]), ([47, 98, 47, 120], .file [1]),
  ([47, 112], .directory), ([47, 112, 47, 46, 112, 97, 116, 99, 104], .directory),
  ([47, 112, 47, 46, 112, 97, 116, 99, 104, 47, 109, 101, 116, 97, 100, 97, 116, 97, 46, 106, 115,
    111, 110], .file (Bytes.ofString extending.text)),
  ([47, 112, 47, 121], .file [2])]

/-- A combine of the patch that makes its result at the top. -/
def onto (before : Path) : Combiner :=
  withPolicy ⟨before, ⟨[47, 112]⟩, some (.uniform 1)⟩ ⟨[47]⟩ fun _ _ => false

theorem record_twoBases : twoBases.disk.record ⟨[47, 112]⟩ = .ok extending := by
  have clock : Instant.IsShown default := ⟨by decide, by decide, by decide⟩
  have held : twoBases.disk.contentAt? (PatchRecord.path ⟨[47, 112]⟩) =
      some (Bytes.ofString extending.text) := by rfl
  rw [Disk.record_of_content held (PatchRecord.parse_text _ _ _ (Instant.parse_text clock))]
  rfl

theorem exists_combine_twoBases {before : Path} {entries : List TreeEntry}
    (given : before.isEmpty = false) (present : twoBases.disk.hasEntry before = true)
    (walk : twoBases.disk.walk .content before = .ok entries)
    (held : twoBases.disk.contentsOf entries = [([120], [1])]) : ∃ p done v,
      ((onto before).combine : Action Empty _) twoBases = .ok (.ok p, done) v := by
  have walk' : twoBases.disk.walk .content ⟨[47, 112]⟩ =
      .ok [.file [121] ⟨[47, 112, 47, 121]⟩ 1] := by rfl
  have held' : twoBases.disk.contentsOf [.file [121] ⟨[47, 112, 47, 121]⟩ 1] = [([121], [2])] := by
    rfl
  have only : ∀ key, Patch.merged [([120], [1])] [([121], [2])] [] key ≠ none →
      key = [120] ∨ key = [121] := by
    intro key there
    by_contra ne
    rw [not_or] at ne
    apply there
    rw [Patch.merged, KeyMap.get?_cons, KeyMap.get?_cons, if_neg ne.1, if_neg ne.2]
    rfl
  have mergeable : Patch.Mergeable [([120], [1])] [([121], [2])]
      [.file [121] ⟨[47, 112, 47, 121]⟩ 1] [] := by
    refine ⟨by simp, by simp, by simp, by simp, fun key parent there around => ?_⟩
    rcases only key there with rfl | rfl
    · cases around
    · cases around
  have room : Patch.Room twoBases ⟨[47]⟩ (Patch.merged [([120], [1])] [([121], [2])] [])
      twoBases.disk ⟨[47] ++ Patch.mergedName ++ freshDigits freshWidth 0⟩
        { twoBases with
          disk := twoBases.disk.plant [⟨Patch.mergedName ++ freshDigits freshWidth 0, by decide⟩]
            .directory
          serial := 1 } := by
    refine ⟨rfl, rfl, fun key there => ?_⟩
    rcases only key there with rfl | rfl
    · decide
    · decide
  rw [← held, ← held'] at mergeable room
  have takes : Patch.Mergeable _ _ _ extending.removed := mergeable
  obtain ⟨-, -, merged, merge, -⟩ := Patch.exists_mergeWith walk walk' takes room
  have base : twoBases.disk.contents before = .ok [([120], [1])] :=
    Disk.contents_eq_ok_iff.mpr ⟨entries, walk, held.symm⟩
  have admits : (onto before).request.Admits twoBases.disk extending :=
    ⟨⟨given, by rfl⟩, ⟨present, by rfl⟩, record_twoBases, ⟨.uniform 1, rfl, rfl⟩,
      ⟨_, _, Disk.digest_of_contents base, rfl⟩⟩
  obtain ⟨done, v, run, -⟩ := combine_of_merged (ε := Empty) (onto before) rfl admits merge
  exact ⟨_, done, v, run⟩

/-- Both bases are combined with the patch, into trees with the same content. -/
theorem combines_two_bases : ∃ p p' done done' v v' m,
    ((onto ⟨[47, 97]⟩).combine : Action Empty _) twoBases = .ok (.ok p, done) v ∧
      ((onto ⟨[47, 98]⟩).combine : Action Empty _) twoBases = .ok (.ok p', done') v' ∧
      v.disk.contents p = .ok m ∧ v'.disk.contents p' = .ok m := by
  have walk : twoBases.disk.walk .content ⟨[47, 97]⟩ =
      .ok [.file [120] ⟨[47, 97, 47, 120]⟩ 1] := by rfl
  have walk' : twoBases.disk.walk .content ⟨[47, 98]⟩ =
      .ok [.link [108] ⟨[47, 98, 47, 108]⟩, .file [120] ⟨[47, 98, 47, 120]⟩ 1] := by rfl
  have base : twoBases.disk.contents ⟨[47, 97]⟩ = .ok [([120], [1])] :=
    Disk.contents_eq_ok_iff.mpr ⟨_, walk, by rfl⟩
  have base' : twoBases.disk.contents ⟨[47, 98]⟩ = .ok [([120], [1])] :=
    Disk.contents_eq_ok_iff.mpr ⟨_, walk', by rfl⟩
  have short : ∀ file ∈ ([([120], [1])] : KeyMap Bytes), DigestStream.Telling file.2 := by
    intro file hf
    rw [List.mem_singleton.mp hf]
    exact show ([1] : Bytes).length < 256 ^ 8 by decide
  have tells : twoBases.disk.TellingTree (onto ⟨[47, 97]⟩).request.before := by
    intro m h
    cases base.symm.trans h
    exact short
  have tells' : twoBases.disk.TellingTree (onto ⟨[47, 98]⟩).request.before := by
    intro m h
    cases base'.symm.trans h
    exact short
  have apart : ∀ b b', twoBases.disk.hashed (onto ⟨[47, 97]⟩).request.before = .ok b →
      twoBases.disk.hashed (onto ⟨[47, 98]⟩).request.before = .ok b' →
        Blake3.hash b = Blake3.hash b' → b = b' := by
    rintro b b' h h' -
    cases (Disk.hashed_of_contents base).symm.trans h
    cases (Disk.hashed_of_contents base').symm.trans h'
    rfl
  obtain ⟨p, done, v, run⟩ := exists_combine_twoBases (by rfl) (by rfl) walk (by rfl)
  obtain ⟨p', done', v', run'⟩ := exists_combine_twoBases (by rfl) (by rfl) walk' (by rfl)
  obtain ⟨⟨m, content, content'⟩, -⟩ :=
    combine_determined tells tells' (.refl _ _) apart run run'
  exact ⟨p, p', done, done', v, v', m, run, run', content, content'⟩

end Combiner
end LayeredTree
