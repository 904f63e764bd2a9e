import LayeredTree.Proofs.Blindness
import LayeredTree.Proofs.Tree.Contents
import LayeredTree.Proofs.Tree.Sidecars

/-!
What a digest identifies. The stream that is hashed can be read back from its front, since eight
bytes are left just where the files end. So two trees have the same stream just if the same
addresses hold the same content in both.
-/

set_option autoImplicit false

namespace LayeredTree

namespace Bytes

variable {m n width : Nat}

@[simp] theorem length_bigEndian (width n : Nat) : (bigEndian width n).length = width := by
  induction width generalizing n with
  | zero => rfl
  | succ width ih => rw [bigEndian, List.length_append, ih, List.length_singleton]

theorem bigEndian_injective (hm : m < 256 ^ width) (hn : n < 256 ^ width)
    (h : bigEndian width m = bigEndian width n) : m = n := by
  induction width generalizing m n with
  | zero =>
    rw [Nat.pow_zero] at hm hn
    omega
  | succ width ih =>
    rw [Nat.pow_succ] at hm hn
    obtain ⟨front, last⟩ := List.append_inj' h rfl
    have quotients : m / 256 = n / 256 := ih (by omega) (by omega) front
    have digits := congrArg UInt8.toNat (List.cons_eq_cons.mp last).1
    rw [UInt8.toNat_ofNat', UInt8.toNat_ofNat'] at digits
    omega

end Bytes

namespace DigestStream

variable {a b rest rest' : Bytes} {m m' : KeyMap Bytes} {s : DigestStream}

/-- A byte string whose length can be told in eight bytes. -/
def Telling (b : Bytes) : Prop := b.length < 256 ^ 8

/-- A byte string behind its length. -/
def told (b : Bytes) : Bytes := lengthBytes b.length ++ b

def ofContents (m : KeyMap Bytes) : Bytes :=
  domain ++ m.flatMap (fun file => told file.1 ++ told file.2) ++ lengthBytes m.length

theorem length_lengthBytes (n : Nat) : (lengthBytes n).length = 8 := Bytes.length_bigEndian 8 n

theorem told_append_injective (ha : Telling a) (hb : Telling b)
    (h : told a ++ rest = told b ++ rest') : a = b ∧ rest = rest' := by
  rw [told, told, List.append_assoc, List.append_assoc] at h
  obtain ⟨lengths, later⟩ :=
    List.append_inj h ((length_lengthBytes _).trans (length_lengthBytes _).symm)
  exact List.append_inj later (Bytes.bigEndian_injective ha hb lengths)

theorem length_told (b : Bytes) : 8 ≤ (told b).length := by
  rw [told, List.length_append, length_lengthBytes]
  omega

theorem files_injective (hm : ∀ file ∈ m, Telling file.1 ∧ Telling file.2)
    (hm' : ∀ file ∈ m', Telling file.1 ∧ Telling file.2) {n n' : Nat}
    (h : m.flatMap (fun file => told file.1 ++ told file.2) ++ lengthBytes n =
      m'.flatMap (fun file => told file.1 ++ told file.2) ++ lengthBytes n') : m = m' := by
  -- A file takes sixteen bytes at least, so that it is not mistaken for the number at the end.
  have longer : ∀ (file : Key × Bytes) (rest : Bytes) (n : Nat),
      ¬ lengthBytes n = told file.1 ++ told file.2 ++ rest := by
    intro file rest n e
    have lengths := congrArg List.length e
    have key := length_told file.1
    have content := length_told file.2
    rw [length_lengthBytes, List.length_append, List.length_append] at lengths
    omega
  induction m generalizing m' with
  | nil =>
    cases m' with
    | nil => rfl
    | cons file m' =>
      rw [List.flatMap_nil, List.nil_append, List.flatMap_cons, List.append_assoc] at h
      exact absurd h (longer _ _ _)
  | cons file m ih =>
    cases m' with
    | nil =>
      rw [List.flatMap_nil, List.nil_append, List.flatMap_cons, List.append_assoc] at h
      exact absurd h.symm (longer _ _ _)
    | cons file' m' =>
      obtain ⟨tell, tells⟩ := List.forall_mem_cons.mp hm
      obtain ⟨tell', tells'⟩ := List.forall_mem_cons.mp hm'
      simp only [List.flatMap_cons, List.append_assoc] at h
      obtain ⟨keys, h⟩ := told_append_injective tell.1 tell'.1 h
      obtain ⟨contents, h⟩ := told_append_injective tell.2 tell'.2 h
      rw [Prod.ext keys contents, ih tells tells' h]

theorem ofContents_injective (hm : ∀ file ∈ m, Telling file.1 ∧ Telling file.2)
    (hm' : ∀ file ∈ m', Telling file.1 ∧ Telling file.2) (h : ofContents m = ofContents m') :
    m = m' := by
  rw [ofContents, ofContents, List.append_assoc, List.append_assoc] at h
  exact files_injective hm hm' (List.append_cancel_left h)

theorem foldl_feed (m : KeyMap Bytes) (s : DigestStream) : m.foldl feed s =
    ⟨s.bytes ++ m.flatMap (fun file => told file.1 ++ told file.2), s.files + m.length⟩ := by
  induction m generalizing s with
  | nil => simp
  | cons file m ih =>
    rw [List.foldl_cons, ih, feed, frame, List.flatMap_cons, List.length_cons, told, told]
    simp only [List.append_assoc, Nat.add_assoc, Nat.add_comm 1]

end DigestStream

namespace Disk

variable {d : Disk} {root : Path} {loc : Location} {m : KeyMap Bytes} {key : Key} {content : Bytes}

/-- The bytes that the digest of a tree is the hash of. -/
def hashed (d : Disk) (root : Path) : Except StorageError Bytes := do
  let files ← d.filesOf .content root
  let stream ← d.streamOf .start files
  pure (stream.bytes ++ DigestStream.lengthBytes stream.files)

/-- A regular file somewhere below a directory, by its address. What is in a sidecar at the top is
none of them. -/
def FileAt (d : Disk) (loc : Location) (key : Key) (content : Bytes) : Prop :=
  ∃ (top : Name) (rest : Location), key = Location.key (top :: rest) ∧
    d.get? (loc ++ top :: rest) = some (.file content) ∧
      ¬ (top.bytes = sidecarName ∧ rest ≠ [])

/-- No file is longer than a length in eight bytes can tell. -/
def Telling (d : Disk) : Prop :=
  ∀ loc content, d.get? loc = some (.file content) → DigestStream.Telling content

theorem hashed_of_contents (h : d.contents root = .ok m) :
    d.hashed root = .ok (DigestStream.ofContents m) := by
  obtain ⟨files, found, -, stream⟩ := streamOf_of_contents h
  rw [hashed, found]
  change (d.streamOf .start files >>= fun stream =>
    Except.ok (stream.bytes ++ DigestStream.lengthBytes stream.files)) = _
  rw [stream, DigestStream.foldl_feed]
  simp [DigestStream.ofContents, DigestStream.start]
  rfl

theorem covers_content_file_iff {top : Name} {rest : Location} :
    Covers .content (top :: rest) (.file content) ↔ ¬ (top.bytes = sidecarName ∧ rest ≠ []) := by
  have left : WalkScope.excludes .content (top :: rest) (.file content) = true ↔ _ :=
    WalkScope.excludes_content_iff
  rw [Covers, ← Bool.not_eq_true, left]
  simp [WalkScope.reaches, WalkScope.content, Node.isDirectory]

theorem Walked.get?_contentsOf_iff {entries : List TreeEntry}
    (h : d.Walked .content root loc entries) :
    (d.contentsOf entries).get? key = some content ↔ d.FileAt loc key content := by
  rw [h.get?_contentsOf]
  constructor
  · rintro ⟨names, ne, hg, covers, rfl⟩
    obtain ⟨top, rest, rfl⟩ := List.exists_cons_of_ne_nil ne
    exact ⟨top, rest, rfl, hg, covers_content_file_iff.mp covers⟩
  · rintro ⟨top, rest, rfl, hg, covers⟩
    exact ⟨top :: rest, by simp, hg, covers_content_file_iff.mpr covers, rfl⟩

theorem length_key_lt (ne : root.text ≠ []) (names : Location) :
    names.key.length < 2 * (pathBelow root names).text.length := by
  induction names using List.reverseRecOn with
  | nil =>
    have pos := List.length_pos_iff.mpr ne
    rw [Location.key_nil, pathBelow_nil, List.length_nil]
    omega
  | append_singleton names name ih =>
    have rel := Path.head?_ne_slash_of_notMem name.slash_notMem
    have pos := List.length_pos_iff.mpr name.bytes_ne_nil
    have path : (pathBelow root names).text ≠ [] := by
      intro e
      rw [e, List.length_nil] at ih
      omega
    have longer := Path.le_length_child path rel
    have key : (Location.key (names ++ [name])).length ≤
        (Location.key names).length + 1 + name.bytes.length := by
      by_cases hn : names = []
      · subst hn
        exact Nat.le_add_left _ _
      · rw [Location.key_append hn (by simp), List.length_append, List.length_cons]
        have last : Location.key [name] = name.bytes := rfl
        rw [last]
        omega
    rw [pathBelow_concat]
    omega

theorem Walked.telling_key {entries : List TreeEntry} (h : d.Walked .content root loc entries) :
    ∀ file ∈ d.contentsOf entries, DigestStream.Telling file.1 := by
  rintro ⟨key, content⟩ hf
  have held := (KeyMap.get?_eq_some_iff (sorted_contentsOf h.inOrder)).mpr hf
  obtain ⟨names, ne, hg, covers, rfl⟩ := h.get?_contentsOf.mp held
  have short : (pathBelow root names).text.length ≤ 4095 := (h.of_file ne hg covers).2
  have longer := length_key_lt h.reaches.1 names
  have bound : 2 * 4095 < 256 ^ 8 := by decide
  change names.key.length < 256 ^ 8
  omega

theorem Walked.telling {entries : List TreeEntry} (h : d.Walked .content root loc entries)
    (tells : d.Telling) : ∀ file ∈ d.contentsOf entries,
      DigestStream.Telling file.1 ∧ DigestStream.Telling file.2 := by
  rintro ⟨key, content⟩ hf
  have held := (KeyMap.get?_eq_some_iff (sorted_contentsOf h.inOrder)).mpr hf
  obtain ⟨names, -, hg, -⟩ := h.get?_contentsOf.mp held
  exact ⟨h.telling_key _ hf, tells _ _ hg⟩

end Disk

namespace Digest

theorem ofContents_eq_ofHash (m : KeyMap Bytes) :
    ofContents m = ofHash (DigestStream.ofContents m) := by
  rw [ofContents, DigestStream.foldl_feed]
  simp [DigestStream.ofContents, DigestStream.start, DigestStream.finish]

/-- What a digest was made of: the files at the place of the tree, each once and in byte order of
the addresses, as one stream. -/
structure MadeOf (d : Disk) (root : Path) (digest : Digest) (loc : Location) (m : KeyMap Bytes) :
    Prop where
  reaches : d.Reaches root loc
  sorted : m.Sorted
  held : ∀ key content, m.get? key = some content ↔ d.FileAt loc key content
  hashed : d.hashed root = .ok (DigestStream.ofContents m)
  digest_eq : digest = ofHash (DigestStream.ofContents m)

variable {d d' : Disk} {w v w' v' : World} {root root' : Path} {digest digest' : Digest}
variable {loc loc' : Location} {m m' : KeyMap Bytes}

theorem madeOf_of_compute (tells : w.disk.Telling) (run : compute root w = .ok digest v) :
    ∃ loc m, MadeOf w.disk root digest loc m ∧
      ∀ file ∈ m, DigestStream.Telling file.1 ∧ DigestStream.Telling file.2 := by
  obtain ⟨⟨n, found⟩, -⟩ := of_compute run
  rw [Disk.digest_eq_map_contents] at found
  cases h : w.disk.contents root with
  | error e =>
    rw [h] at found
    cases found
  | ok m =>
    rw [h] at found
    cases found
    have stream := Disk.hashed_of_contents h
    obtain ⟨entries, walk, rfl⟩ := Disk.contents_eq_ok_iff.mp h
    obtain ⟨loc, walked⟩ := Disk.walked_of_walk walk
    refine ⟨loc, _, ⟨walked.reaches, Disk.sorted_contentsOf walked.inOrder,
      fun key content => walked.get?_contentsOf_iff, stream, ofContents_eq_ofHash _⟩,
      walked.telling tells⟩

theorem MadeOf.eq_iff (h : MadeOf d root digest loc m) (h' : MadeOf d' root' digest' loc' m') :
    m = m' ↔ ∀ key content, d.FileAt loc key content ↔ d'.FileAt loc' key content := by
  constructor
  · rintro rfl key content
    rw [← h.held, h'.held]
  · intro same
    refine KeyMap.ext_of_sorted h.sorted h'.sorted fun key => Option.ext fun content => ?_
    rw [h.held, h'.held, same]

/-- A digest identifies the content of a tree and nothing else. Wherever two trees lie and whatever
else is on the disks, the streams that their digests are hashes of are the same just if the same
addresses hold the same content. So are the digests, unless the hash takes two streams for one. -/
theorem compute_identifies (tells : w.disk.Telling) (tells' : w'.disk.Telling)
    (run : compute root w = .ok digest v) (run' : compute root' w' = .ok digest' v') :
    ∃ loc m loc' m', MadeOf w.disk root digest loc m ∧ MadeOf w'.disk root' digest' loc' m' ∧
      (DigestStream.ofContents m = DigestStream.ofContents m' ↔
        ∀ key content, w.disk.FileAt loc key content ↔ w'.disk.FileAt loc' key content) ∧
      ((∀ key content, w.disk.FileAt loc key content ↔ w'.disk.FileAt loc' key content) →
        digest = digest') ∧
      ((Blake3.hash (DigestStream.ofContents m) = Blake3.hash (DigestStream.ofContents m') →
          DigestStream.ofContents m = DigestStream.ofContents m') → digest = digest' →
        ∀ key content, w.disk.FileAt loc key content ↔ w'.disk.FileAt loc' key content) := by
  obtain ⟨loc, m, made, short⟩ := madeOf_of_compute tells run
  obtain ⟨loc', m', made', short'⟩ := madeOf_of_compute tells' run'
  have streams : DigestStream.ofContents m = DigestStream.ofContents m' ↔
      ∀ key content, w.disk.FileAt loc key content ↔ w'.disk.FileAt loc' key content := by
    rw [← made.eq_iff made']
    exact ⟨DigestStream.ofContents_injective short short', congrArg _⟩
  refine ⟨loc, m, loc', m', made, made', streams, fun same => ?_, fun apart e => ?_⟩
  · rw [made.digest_eq, made'.digest_eq, streams.mpr same]
  · rw [made.digest_eq, made'.digest_eq] at e
    exact streams.mp (apart (congrArg Digest.bytes e))

/-- The same file under two roots, one of them with other entries beside it. -/
def twinTrees : World := .holding [
  ([47, 97], .directory), ([47, 97, 47, 120], .file [1]), ([47, 98], .directory),
  ([47, 98, 47, 101], .directory), ([47, 98, 47, 108], .link [120]), ([47, 98, 47, 120], .file [1])]

theorem telling_twinTrees : twinTrees.disk.Telling := by
  intro loc content hg
  have each : twinTrees.disk.nodes.all fun p =>
      decide (p.2 ∈ [.directory, .link [120], .file [1]]) := by
    decide
  have ne : loc ≠ [] := by
    rintro rfl
    cases hg
  have hm := (twinTrees.disk.get?_eq_some_iff ne _).mp hg
  have known := of_decide_eq_true (List.all_eq_true.mp each _ hm)
  obtain rfl : content = [1] := by simpa using known
  exact show ([1] : Bytes).length < 256 ^ 8 by decide

/-- The two trees have one digest, and hold the same. -/
theorem compute_twins : ∃ digest v v' loc loc', compute ⟨[47, 97]⟩ twinTrees = .ok digest v ∧
    compute ⟨[47, 98]⟩ twinTrees = .ok digest v' ∧ twinTrees.disk.Reaches ⟨[47, 97]⟩ loc ∧
      twinTrees.disk.Reaches ⟨[47, 98]⟩ loc' ∧
        ∀ key content, twinTrees.disk.FileAt loc key content ↔
          twinTrees.disk.FileAt loc' key content := by
  have left : twinTrees.disk.contents ⟨[47, 97]⟩ = .ok [([120], [1])] := by rfl
  have right : twinTrees.disk.contents ⟨[47, 98]⟩ = .ok [([120], [1])] := by rfl
  obtain ⟨v, run, -⟩ := compute_of_ok (Disk.digest_of_contents left)
  obtain ⟨v', run', -⟩ := compute_of_ok (Disk.digest_of_contents right)
  obtain ⟨loc, m, loc', m', made, made', streams, -⟩ :=
    compute_identifies telling_twinTrees telling_twinTrees run run'
  have same : DigestStream.ofContents m = DigestStream.ofContents m' := by
    have first := made.hashed.symm.trans (Disk.hashed_of_contents left)
    have second := made'.hashed.symm.trans (Disk.hashed_of_contents right)
    exact Except.ok.inj (first.trans second.symm)
  exact ⟨_, v, v', loc, loc', run, run', made.reaches, made'.reaches, streams.mp same⟩

end Digest
end LayeredTree
