import LayeredTree.Proofs.Patch.Merging
import LayeredTree.Proofs.Tree.Showing
import LayeredTree.Proofs.Patch.Storing
import LayeredTree.Proofs.Written.Records

set_option autoImplicit false

namespace LayeredTree

open World

variable {d d' : Disk} {w w' : World} {before after path out : Path} {goal loc names : Location}
variable {old new : KeyMap Bytes} {key : Key} {a b content : Bytes} {entries : List TreeEntry}

namespace Patch

/-- The content a patch has for an address: that of the later tree, if the earlier one has nothing
with its hash there. -/
def changes (old new : KeyMap Bytes) (key : Key) : Option Bytes :=
  (new.get? key).filter fun content =>
    (old.get? key).map Digest.ofHash ≠ some (Digest.ofHash content)

theorem changes_eq_some_iff : changes old new key = some content ↔ new.get? key = some content ∧
    (old.get? key).map Digest.ofHash ≠ some (Digest.ofHash content) := by
  rw [changes, Option.filter_eq_some_iff, decide_eq_true_iff]

theorem changes_of_same (ho : old.get? key = some a) (hn : new.get? key = some content)
    (same : Digest.ofHash a = Digest.ofHash content) : changes old new key = none := by
  rw [changes, hn, Option.filter_some, if_neg (by simp [ho, same])]

theorem changes_of_none (h : new.get? key = none) : changes old new key = none := by
  rw [changes, h, Option.filter_none]

theorem apart_changes (old : KeyMap Bytes) (h : Disk.IsTree new) :
    Disk.Apart fun names => changes old new (Location.key names) := by
  intro names rest ne there
  refine changes_of_none (h.apart names rest ne fun none => there (changes_of_none none))

/-- The tree can be published: a walk over it meets no link, and files with this content. -/
def Publishes (d : Disk) (root : Path) (content : KeyMap Bytes) : Prop :=
  ∃ entries, d.walk .content root = .ok entries ∧ (∀ key path, .link key path ∉ entries) ∧
    content = d.contentsOf entries

theorem Publishes.contents (h : Publishes d before old) : d.contents before = .ok old := by
  obtain ⟨entries, walk, -, e⟩ := h
  exact Disk.contents_eq_ok_iff.mpr ⟨entries, walk, e⟩

theorem publishable_eq_ok_iff {files : KeyMap Path} : publishable before d = .ok files ↔
    ∃ entries, d.walk .content before = .ok entries ∧ (∀ key path, .link key path ∉ entries) ∧
      files = filePaths entries := by
  unfold publishable
  cases hw : d.walk .content before with
  | error e => exact ⟨nofun, fun ⟨_, h, _⟩ => nomatch h⟩
  | ok entries =>
    change regularFiles before entries = .ok files ↔ _
    obtain ⟨loc, walked⟩ := Disk.walked_of_walk hw
    obtain ⟨plain, linked⟩ := foldlM_files
      (fun key => StorageError.invalidPath (.linkInPublished key before)) []
        (sorted_filePaths walked.inOrder)
    constructor
    · intro run
      by_cases links : ∃ key path, .link key path ∈ entries
      · obtain ⟨key, e⟩ := linked links
        cases run.symm.trans e
      · have none : ∀ key path, .link key path ∉ entries := fun key path hm =>
          links ⟨key, path, hm⟩
        have e := (plain none).symm.trans run
        rw [List.nil_append, Except.ok.injEq] at e
        exact ⟨entries, rfl, none, e.symm⟩
    · rintro ⟨_, ⟨⟩, none, rfl⟩
      exact plain none

theorem hashFile_of_contentAt? (h : d.contentAt? path = some content) :
    d.hashFile path = .ok (Digest.ofHash content) := by
  obtain ⟨loc, found⟩ := Disk.contentAt?_eq_some_iff.mp h
  unfold Disk.hashFile
  rw [Disk.openAt_file_iff.mpr found]
  rfl

theorem differ_of_contents (ha : d.contentAt? before = some a) (hb : d.contentAt? after = some b) :
    differ before after d = .ok (decide (Digest.ofHash a ≠ Digest.ofHash b)) := by
  unfold differ
  rw [hashFile_of_contentAt? ha, hashFile_of_contentAt? hb]
  rfl

theorem short_of_copyInto (h : copyInto before key path d = .ok () d') :
    Disk.Short (Key.path before key) := by
  unfold copyInto at h
  cases up : (Key.path before key).parent with
  | none =>
    rw [up] at h
    exact Disk.short_of_copyFile h
  | some parent =>
    rw [up] at h
    obtain ⟨⟨⟩, d₁, -, copied⟩ := bind_eq_ok_iff.mp h
    exact Disk.short_of_copyFile copied

theorem copyInto_eq {parent : Path} {d₁ d₂ : Disk} (up : (Key.path before key).parent = some parent)
    (made : Disk.makeDirectories parent d = .ok () d₁)
    (copied : Disk.copyFile path (Key.path before key) d₁ = .ok () d₂) :
    copyInto before key path d = .ok () d₂ := by
  unfold copyInto
  rw [up]
  exact (bind_of_ok made).trans copied

/-- The paths are those of the files of a tree with this content. -/
def Locates (d : Disk) (files : KeyMap Path) (m : KeyMap Bytes) : Prop :=
  ∀ key, (files.get? key = none ↔ m.get? key = none) ∧
    (files.get? key).bind d.contentAt? = m.get? key

theorem copyChanged_cons {files rest : KeyMap Path} {output : Path}
    (located : Locates w.disk files old) (held : w.disk.contentAt? path = some content)
    (there : new.get? key = some content) : copyChanged output files ((key, path) :: rest) w =
      if changes old new key = none then copyChanged output files rest w
      else (do
        onDisk (copyInto output key path)
        let keys ← copyChanged output files rest
        pure (key :: keys) : Action IoFault (List Key)) w := by
  rw [copyChanged]
  obtain ⟨absent, found⟩ := located key
  cases hf : files.get? key with
  | none =>
    have ne : changes old new key ≠ none := by
      rw [Option.ne_none_iff_exists']
      exact ⟨content, changes_eq_some_iff.mpr ⟨there, by simp [absent.mp hf]⟩⟩
    rw [if_neg ne]
    rfl
  | some earlier =>
    rw [hf, Option.bind_some] at found
    obtain ⟨before, ho⟩ := Option.ne_none_iff_exists'.mp fun e => by
      have none := absent.mpr e
      rw [hf] at none
      cases none
    rw [ho] at found
    dsimp only
    rw [bind_of_ok (onDiskAsk_of_ok (differ_of_contents found held))]
    by_cases same : Digest.ofHash before = Digest.ofHash content
    · rw [if_pos (changes_of_same ho there same), if_neg (by simp [same])]
    · have ne : changes old new key ≠ none := by
        rw [Option.ne_none_iff_exists']
        exact ⟨content, changes_eq_some_iff.mpr ⟨there, by simpa [ho] using same⟩⟩
      rw [if_neg ne, if_pos (by simpa using same)]

/-- Each path of the list leads to a file of the tree. -/
private def Supplies (d : Disk) (new : KeyMap Bytes) (files : KeyMap Path) : Prop :=
  ∀ p ∈ files, ∃ (names : Location) (content : Bytes), names ≠ [] ∧ p.1 = names.key ∧
    new.get? p.1 = some content ∧ d.contentAt? p.2 = some content

theorem Locates.mono {files : KeyMap Path} (h : Locates d files old) (sub : d.Within d') :
    Locates d' files old := by
  intro key
  obtain ⟨absent, found⟩ := h key
  refine ⟨absent, ?_⟩
  cases hf : files.get? key with
  | none => rw [absent.mp hf, Option.bind_none]
  | some path =>
    rw [hf, Option.bind_some] at found
    obtain ⟨content, ho⟩ := Option.ne_none_iff_exists'.mp fun e => by
      have none := absent.mpr e
      rw [hf] at none
      cases none
    rw [ho] at found ⊢
    exact Disk.contentAt?_mono sub found

theorem Supplies.mono {files : KeyMap Path} (h : Supplies d new files) (sub : d.Within d') :
    Supplies d' new files := by
  intro p hp
  obtain ⟨names, content, ne, e, there, held⟩ := h p hp
  exact ⟨names, content, ne, e, there, Disk.contentAt?_mono sub held⟩

def ShortChanges (output : Path) (old new : KeyMap Bytes) : Prop :=
  ∀ key, changes old new key ≠ none → Disk.Short (Key.path output key)

private def ShortChangesAmong (output : Path) (old new : KeyMap Bytes) (files : KeyMap Path) : Prop :=
  ∀ p ∈ files, changes old new p.1 ≠ none → Disk.Short (Key.path output p.1)

def changedAmong (old new : KeyMap Bytes) (keys : List Key) : List Key :=
  keys.filter fun key => (changes old new key).isSome

theorem changedAmong_cons (old new : KeyMap Bytes) (key : Key) (keys : List Key) :
    changedAmong old new (key :: keys) = if changes old new key = none
      then changedAmong old new keys else key :: changedAmong old new keys := by
  unfold changedAmong
  rw [List.filter_cons]
  cases changes old new key with
  | none => rfl
  | some content => rfl

/-- A run over some files puts those that changed in their places, and does nothing else. It fails
only over a path that is too long. -/
private theorem copyChanged_cases {output : Path} {before : KeyMap Path}
    (apart : Disk.Apart fun names => changes old new names.key) (files : KeyMap Path)
    (done : List Key) (sorted : files.Sorted) (fresh : ∀ p ∈ files, p.1 ∉ done) (w : World)
    (host : w.disk.Hosts output goal) (located : Locates w.disk before old)
    (supplied : Supplies w.disk new files)
    (holdsTree : w.disk.HoldsTree goal (Disk.soFar (fun names => changes old new names.key) done)) :
    (ShortChangesAmong output old new files ∧ ∃ d', copyChanged output before files w =
        .ok (changedAmong old new files.keys) { w with disk := d' } ∧ w.disk.Within d' ∧
          Disk.SameOutside goal w.disk d' ∧ d'.HoldsTree goal
            (Disk.soFar (fun names => changes old new names.key) (files.keys ++ done))) ∨
      (¬ ShortChangesAmong output old new files ∧
        ∃ fault w', copyChanged output before files w = .error fault w') := by
  -- `done` holds the keys already looked at. An unchanged one joins it too, with nothing written.
  induction files generalizing done w with
  | nil => exact .inl ⟨nofun, w.disk, rfl, .refl _, .refl _ _, holdsTree⟩
  | cons file rest ih =>
    obtain ⟨key, path⟩ := file
    have tail := (List.pairwise_cons.mp sorted).2
    obtain ⟨names, content, ne, rfl, there, held⟩ := supplied _ List.mem_cons_self
    have fresh' := KeyMap.notMem_of_sorted sorted fresh
    have supplied' : Supplies w.disk new rest := fun p hp => supplied p (List.mem_cons_of_mem _ hp)
    have order : ∀ key, key ∈ KeyMap.keys rest ++ Location.key names :: done ↔
        key ∈ KeyMap.keys ((Location.key names, path) :: rest) ++ done := by
      intro key
      simp only [KeyMap.keys, List.map_cons, List.mem_append, List.mem_cons, or_left_comm, or_assoc]
    have fits : ShortChangesAmong output old new ((Location.key names, path) :: rest) ↔
        (changes old new (Location.key names) ≠ none →
          Disk.Short (Key.path output (Location.key names))) ∧ ShortChangesAmong output old new rest :=
      List.forall_mem_cons
    rw [copyChanged_cons located held there, fits]
    have listed := changedAmong_cons old new (Location.key names) (KeyMap.keys rest)
    by_cases same : changes old new (Location.key names) = none
    · rw [if_pos same] at listed ⊢
      rw [← Disk.soFar_cons_of_none done same] at holdsTree
      rcases ih (Location.key names :: done) tail fresh' w host located supplied' holdsTree with
        ⟨short, d', run, sub, outside, carried⟩ | ⟨long, fault, w', run⟩
      · rw [Disk.soFar_congr order] at carried
        exact .inl ⟨⟨fun ne => absurd same ne, short⟩, d', listed ▸ run, sub, outside, carried⟩
      · exact .inr ⟨fun fit => long fit.2, fault, w', run⟩
    rw [if_neg same] at listed ⊢
    by_cases short : Disk.Short (Key.path output (Location.key names))
    · have value : changes old new (Location.key names) = some content := by
        obtain ⟨content', e⟩ := Option.ne_none_iff_exists'.mp same
        rw [e, ← there, (changes_eq_some_iff.mp e).1]
      obtain ⟨parent, d₁, d₂, up, made, written, sub, holdsTree', outside⟩ :=
        host.put apart holdsTree ne (fresh _ List.mem_cons_self) value short held
      rw [bind_of_ok (onDisk_of_ok (copyInto_eq up made written))]
      rcases ih (Location.key names :: done) tail fresh' { w with disk := d₂ } (host.mono sub)
        (located.mono sub) (supplied'.mono sub) holdsTree' with
        ⟨fit, d', run, sub', outside', carried⟩ | ⟨long, fault, w', run⟩
      · rw [Disk.soFar_congr order] at carried
        exact .inl ⟨⟨fun _ => short, fit⟩, d', listed ▸ bind_of_ok run, sub.trans sub',
          outside.trans outside', carried⟩
      · exact .inr ⟨fun fit => long fit.2, fault, w', bind_of_error run⟩
    · refine .inr ⟨fun fit => short (fit.1 same), ?_⟩
      cases copied : onDisk (copyInto output (Location.key names) path) w with
      | ok _ w' =>
        obtain ⟨d', into, -⟩ := onDisk_eq_ok_iff.mp copied
        exact absurd (short_of_copyInto into) short
      | error fault w' => exact ⟨fault, w', bind_of_error copied⟩

theorem locates_of_walked {scope : WalkScope} (h : d.Walked scope before loc entries) :
    Locates d (filePaths entries) (d.contentsOf entries) :=
  fun key => ⟨h.get?_filePaths_eq_none_iff key, h.bind_contentAt? key⟩

theorem supplies_of_walked {scope : WalkScope} (h : d.Walked scope before loc entries) :
    Supplies d (d.contentsOf entries) (filePaths entries) := by
  rintro ⟨key, path⟩ hp
  have found := (KeyMap.get?_eq_some_iff (sorted_filePaths h.inOrder)).mpr hp
  obtain ⟨names, content, ne, hg, covers, rfl, rfl⟩ := h.get?_filePaths.mp found
  exact ⟨names, content, ne, rfl, h.get?_contentsOf.mpr ⟨names, ne, hg, covers, rfl⟩,
    h.contentAt? ne hg covers⟩

theorem copyChanged_run {base patch : List TreeEntry} {baseLoc patchLoc : Location}
    (hb : w.disk.Walked .content before baseLoc base)
    (hp : w.disk.Walked .content after patchLoc patch) (sub : w.disk.Within d)
    (host : d.Hosts out goal) (bare : d.IsBare goal)
    (apart : Disk.Apart fun names =>
      changes (w.disk.contentsOf base) (w.disk.contentsOf patch) names.key) :
    (ShortChanges out (w.disk.contentsOf base) (w.disk.contentsOf patch) ∧
      ∃ d', copyChanged out (filePaths base) (filePaths patch) { w with disk := d } =
        .ok (changedAmong (w.disk.contentsOf base) (w.disk.contentsOf patch) (filePaths patch).keys)
          { w with disk := d' } ∧ d.Within d' ∧ Disk.SameOutside goal d d' ∧
          d'.HoldsTree goal fun names =>
            changes (w.disk.contentsOf base) (w.disk.contentsOf patch) names.key) ∨
      (¬ ShortChanges out (w.disk.contentsOf base) (w.disk.contentsOf patch) ∧
      ∃ fault w', copyChanged out (filePaths base) (filePaths patch) { w with disk := d } =
        .error fault w') := by
  have start : d.HoldsTree goal (Disk.soFar (fun names =>
      changes (w.disk.contentsOf base) (w.disk.contentsOf patch) names.key) []) :=
    Disk.holdsTree_of_isBare bare
  have listed : ∀ key, changes (w.disk.contentsOf base) (w.disk.contentsOf patch) key ≠ none →
      key ∈ (filePaths patch).keys := by
    intro key there
    obtain ⟨content, hc⟩ := Option.ne_none_iff_exists'.mp there
    rw [KeyMap.mem_keys_iff, ne_eq, hp.get?_filePaths_eq_none_iff, (changes_eq_some_iff.mp hc).1]
    nofun
  have fits : ShortChanges out (w.disk.contentsOf base) (w.disk.contentsOf patch) ↔
      ShortChangesAmong out (w.disk.contentsOf base) (w.disk.contentsOf patch) (filePaths patch) := by
    constructor
    · exact fun h p _ => h p.1
    · intro h key there
      obtain ⟨p, hp, rfl⟩ := List.mem_map.mp (listed key there)
      exact h p hp there
  rw [fits]
  rcases copyChanged_cases apart _ [] (sorted_filePaths hp.inOrder) (by simp) { w with disk := d }
    host ((locates_of_walked hb).mono sub) ((supplies_of_walked hp).mono sub) start with
    ⟨fit, d', run, grown, outside, carried⟩ | failed
  · rw [Disk.soFar_of_all] at carried
    · exact .inl ⟨fit, d', run, grown, outside, carried⟩
    · intro names there
      rw [List.append_nil]
      exact listed _ there
  · exact .inr failed

theorem isBare_of_children (h : d.children loc = []) : d.IsBare loc := by
  intro names ne
  obtain ⟨name, rest, rfl⟩ := List.exists_cons_of_ne_nil ne
  rw [← List.singleton_append, ← List.append_assoc]
  apply Disk.get?_append_of_none
  cases hn : d.get? (loc ++ [name]) with
  | none => rfl
  | some node =>
    have listed := (Disk.mem_children name node).mpr hn
    rw [h] at listed
    cases listed

theorem children_of_isBare (h : d.IsBare loc) : d.children loc = [] := by
  rw [List.eq_nil_iff_forall_not_mem]
  rintro ⟨name, node⟩ hm
  have there := (Disk.mem_children name node).mp hm
  rw [h [name] (by simp)] at there
  cases there

theorem readDirectory_of_directory (h : d.Hosts out goal) :
    Disk.readDirectory out d = .ok ((d.children goal).map Prod.fst) d := by
  unfold Disk.readDirectory
  rw [bind_of_ok (Disk.ask_of_ok (Disk.entryAt_eq_ok_iff.mpr ⟨h.reaches, h.short, h.isDirectory⟩))]
  rfl

theorem of_readDirectory {names : List Name} (h : Disk.readDirectory out d = .ok names d') :
    d' = d ∧ ∃ loc, d.Reaches out loc ∧ names = (d.children loc).map Prod.fst := by
  unfold Disk.readDirectory at h
  obtain ⟨⟨loc, node⟩, d₁, asked, answer⟩ := bind_eq_ok_iff.mp h
  obtain ⟨entry, rfl⟩ := Disk.ask_eq_ok_iff.mp asked
  obtain ⟨reach, -, -⟩ := Disk.entryAt_eq_ok_iff.mp entry
  cases node with
  | directory =>
    dsimp only at answer
    rw [bind_of_ok (Disk.get_eq _)] at answer
    cases answer
    exact ⟨rfl, loc, reach, rfl⟩
  | file => cases answer
  | link => cases answer
  | other => cases answer

theorem of_requireEmpty (h : requireEmpty out w = .ok () w') :
    w' = w ∧ ∀ loc, w.disk.Reaches out loc → Disk.Short out → w.disk.IsBare loc := by
  unfold requireEmpty at h
  rw [bind_of_ok (show (get : Action CombineError World) w = .ok w w from rfl)] at h
  by_cases found : w.disk.hasEntry out = true
  · rw [if_pos found] at h
    obtain ⟨names, w₁, listed, empty⟩ := bind_eq_ok_iff.mp h
    obtain ⟨d, read, rfl⟩ := onDisk_eq_ok_iff.mp (failingAs_eq_ok_iff.mp listed)
    obtain ⟨rfl, loc, reach, rfl⟩ := of_readDirectory read
    split at empty
    · cases empty
    · rename_i none
      cases empty
      refine ⟨rfl, fun loc' reach' _ => ?_⟩
      cases reach.unique reach'
      exact isBare_of_children (by simpa using none)
  · rw [if_neg found] at h
    cases h
    exact ⟨rfl, fun loc reach short => absurd (Disk.hasEntry_iff.mpr ⟨loc, reach, short⟩) found⟩

/-- The output directory is made, and there is nothing in it. -/
structure Prepared (d : Disk) (out : Path) (goal : Location) (d' : Disk) : Prop where
  made : Disk.makeDirectories out d = .ok () d'
  hosts : d'.Hosts out goal
  bare : d'.IsBare goal

theorem Prepared.within (h : Prepared d out goal d') : d.Within d' := by
  have grows := Disk.grows_makeDirectories out d
  rwa [after_of_ok h.made] at grows

theorem Prepared.requireEmpty (h : Prepared w.disk out goal d) : requireEmpty out w = .ok () w := by
  unfold Patch.requireEmpty
  rw [bind_of_ok (show (get : Action CombineError World) w = .ok w w from rfl)]
  by_cases found : w.disk.hasEntry out = true
  · obtain ⟨loc, reach, short⟩ := Disk.hasEntry_iff.mp found
    obtain rfl : loc = goal := (reach.mono h.within).unique h.hosts.reaches
    obtain ⟨node, hn⟩ := reach.exists
    have isDir : w.disk.IsDirectory loc := by
      have later := h.within.2 _ _ hn
      rw [show d.get? loc = _ from h.hosts.isDirectory] at later
      rw [Disk.IsDirectory, hn, later]
    have bare : w.disk.IsBare loc := by
      intro names ne
      by_contra there
      obtain ⟨node, hn⟩ := Option.ne_none_iff_exists'.mp there
      have later := h.within.2 _ _ hn
      rw [h.bare names ne] at later
      cases later
    rw [if_pos found, bind_of_ok (failingAs_of_ok (onDisk_of_ok
      (readDirectory_of_directory ⟨reach, isDir, short⟩))), children_of_isBare bare]
    rfl
  · rw [if_neg found]
    rfl

theorem prepared_path (way : d.Passable [] goal)
    (empty : ∀ loc, d.Reaches (Location.path goal) loc → Disk.Short (Location.path goal) →
      d.IsBare loc) (short : Disk.Short (Location.path goal)) :
    ∃ d', d.Raised [] goal d' ∧ Prepared d (Location.path goal) goal d' := by
  obtain ⟨d', made, raised⟩ := Disk.makeDirectories_path way short
  have isDir : d'.IsDirectory goal := raised.isDirectory d.isDirectory_nil
  refine ⟨d', raised, made, Disk.hosts_path isDir short, fun names more => ?_⟩
  have beyond : ¬ ([] <+: goal ++ names ∧ goal ++ names ≠ [] ∧ goal ++ names <+: [] ++ goal) := by
    rintro ⟨-, -, le⟩
    have longer := le.length_le
    have some := List.length_pos_iff.mpr more
    simp only [List.nil_append, List.length_append] at longer
    omega
  rw [raised.get?, if_neg beyond]
  by_cases there : d.IsDirectory goal
  · exact empty goal (Disk.reaches_path there rfl) short names more
  · exact Disk.get?_append_of_not_isDirectory more there

def recordOf (w : World) (old : KeyMap Bytes) (signature : Signature) (removed : List Key) :
    PatchRecord :=
  PatchRecord.full signature (Digest.ofContents old) (removed.map markerOf) w.now

private def onlyIn (base patch : KeyMap Path) : List Key :=
  base.keys.filter fun key => !patch.contains key

/-- The summary tells the digest of the earlier tree, which files changed and which are gone. -/
structure Tells (summary : PatchSummary) (old new : KeyMap Bytes) : Prop where
  hash : summary.previousHash = Digest.ofContents old
  changed : KeyMap.Lists summary.changed fun key => changes old new key ≠ none
  removed : KeyMap.Lists summary.removed fun key => old.get? key ≠ none ∧ new.get? key = none

private theorem tells_of_walked {base patch : List TreeEntry} {baseLoc patchLoc : Location}
    (hb : d.Walked .content before baseLoc base) (hp : d.Walked .content after patchLoc patch) :
    Tells ⟨Digest.ofContents (d.contentsOf base),
      changedAmong (d.contentsOf base) (d.contentsOf patch) (filePaths patch).keys,
      onlyIn (filePaths base) (filePaths patch)⟩ (d.contentsOf base) (d.contentsOf patch) := by
  refine ⟨rfl, (KeyMap.lists_filter_keys (sorted_filePaths hp.inOrder) _).congr fun key => ?_,
    (KeyMap.lists_filter_keys (sorted_filePaths hb.inOrder) _).congr fun key => ?_⟩
  · rw [ne_eq, hp.get?_filePaths_eq_none_iff, Option.isSome_iff_ne_none, and_iff_right_iff_imp]
    exact fun there none => there (changes_of_none none)
  · rw [ne_eq, hb.get?_filePaths_eq_none_iff, Bool.not_eq_true', KeyMap.contains_eq_false_iff,
      hp.get?_filePaths_eq_none_iff]

/-- Up to the record an author only meets paths that are too long. With the files in place, all
that is left is to write the record. -/
theorem author_run (hb : Publishes w.disk before old) (ha : Publishes w.disk after new)
    (prepared : Prepared w.disk out goal d) (fits : ShortChanges out old new) (signature : Signature) :
    ∃ summary d', Tells summary old new ∧ d.Within d' ∧ Disk.SameOutside goal d d' ∧
      (d'.HoldsTree goal fun names => changes old new names.key) ∧
      (∀ d'', Disk.writeRecord out (recordOf w old signature summary.removed) d' = .ok () d'' →
        ∃ v, author before after out signature w = .ok summary v ∧ v.disk = d'') ∧
      ∀ fault d'', Disk.writeRecord out (recordOf w old signature summary.removed) d' =
        .error fault d'' → ∃ e v, author before after out signature w = .error e v := by
  obtain ⟨base, walkBase, plainBase, rfl⟩ := hb
  obtain ⟨patch, walkPatch, plainPatch, rfl⟩ := ha
  obtain ⟨baseLoc, wb⟩ := Disk.walked_of_walk walkBase
  obtain ⟨patchLoc, wp⟩ := Disk.walked_of_walk walkPatch
  have tree := Disk.isTree_of_contents (Disk.contents_eq_ok_iff.mpr ⟨patch, walkPatch, rfl⟩)
  have digest := Disk.digest_of_contents (Disk.contents_eq_ok_iff.mpr ⟨base, walkBase, rfl⟩)
  let entered : World := { w with spans := w.spans ++ [⟨"patchchain::patch::diff", "create_patch",
    [("before", .shown before.shown), ("after", .shown after.shown), ("out", .shown out.shown)]⟩] }
  have required : requireEmpty out entered = .ok () entered := Prepared.requireEmpty prepared
  obtain ⟨v, computed, like⟩ := Digest.compute_of_ok (w := entered) digest
  have same : v.disk = w.disk := like.disk.symm
  have clock : v.now = w.now := like.now.symm
  have filesBase : publishable before v.disk = .ok (filePaths base) := by
    rw [same]
    exact publishable_eq_ok_iff.mpr ⟨base, walkBase, plainBase, rfl⟩
  have filesPatch : publishable after v.disk = .ok (filePaths patch) := by
    rw [same]
    exact publishable_eq_ok_iff.mpr ⟨patch, walkPatch, plainPatch, rfl⟩
  have made := prepared.made
  rw [← same] at wb wp made
  have sub : v.disk.Within d := by
    rw [same]
    exact prepared.within
  rw [← same] at fits tree
  obtain ⟨-, d', copied, grown, outside, carried⟩ :=
    (copyChanged_run wb wp sub prepared.hosts prepared.bare (apart_changes _ tree)).resolve_right
      fun failed => failed.1 fits
  have tells := tells_of_walked wb wp
  rw [same] at carried copied tells
  refine ⟨_, d', tells, grown, outside, carried, fun d'' written => ?_, fun fault d'' written => ?_⟩
  · rw [recordOf, ← clock] at written
    have stored : World.failingAs CombineError.record (PatchRecord.store out _)
        { v with disk := d' } = .ok () { v with disk := d'' } :=
      failingAs_of_ok (failingAs_of_ok (onDisk_of_ok written))
    have finished : ∃ u, author before after out signature w = .ok
        ⟨Digest.ofContents (w.disk.contentsOf base),
          changedAmong (w.disk.contentsOf base) (w.disk.contentsOf patch) (filePaths patch).keys,
          onlyIn (filePaths base) (filePaths patch)⟩ u ∧ Alike { w with disk := d'' } u := by
      apply exists_inside_of_ok
      rw [bind_of_ok required, bind_of_ok (failingAs_of_ok computed),
        bind_of_ok (failingAs_of_ok (onDiskAsk_of_ok filesBase)),
        bind_of_ok (failingAs_of_ok (onDiskAsk_of_ok filesPatch)),
        bind_of_ok (failingAs_of_ok (onDisk_of_ok made)), bind_of_ok (failingAs_of_ok copied)]
      exact ⟨_, bind_of_ok stored, rfl, like.environment, like.now, like.serial⟩
    obtain ⟨u, run, like⟩ := finished
    exact ⟨u, run, like.disk.symm⟩
  · rw [recordOf, ← clock] at written
    have stored : World.failingAs CombineError.record (PatchRecord.store out _)
        { v with disk := d' } = .error _ { v with disk := d'' } :=
      failingAs_of_error (failingAs_of_error (onDisk_of_error written))
    have failed : ∃ u, author before after out signature w = .error (.record (.io fault)) u ∧
        Alike { w with disk := d'' } u := by
      apply exists_inside_of_error
      rw [bind_of_ok required, bind_of_ok (failingAs_of_ok computed),
        bind_of_ok (failingAs_of_ok (onDiskAsk_of_ok filesBase)),
        bind_of_ok (failingAs_of_ok (onDiskAsk_of_ok filesPatch)),
        bind_of_ok (failingAs_of_ok (onDisk_of_ok made)), bind_of_ok (failingAs_of_ok copied)]
      have read : (get : Action CombineError World) { v with disk := d' } =
        .ok { v with disk := d' } { v with disk := d' } := rfl
      exact ⟨{ v with disk := d'' }, (bind_of_ok read).trans (bind_of_error stored), rfl,
        like.environment, like.now, like.serial⟩
    obtain ⟨u, run, -⟩ := failed
    exact ⟨_, u, run⟩

theorem steps_of_author {signature : Signature} {summary : PatchSummary}
    (run : author before after out signature w = .ok summary w') : ∃ base patch,
      publishable before w.disk = .ok base ∧ publishable after w.disk = .ok patch ∧
        (∀ loc, w.disk.Reaches out loc → Disk.Short out → w.disk.IsBare loc) ∧
        ∃ d, Disk.makeDirectories out w.disk = .ok () d ∧ ∃ v : World, v.disk = w.disk ∧
          ∃ keys v', copyChanged out base patch { v with disk := d } = .ok keys v' := by
  obtain ⟨v, body, rfl⟩ := of_inside_ok run
  obtain ⟨⟨⟩, w₁, required, body⟩ := bind_eq_ok_iff.mp body
  obtain ⟨rfl, empty⟩ := of_requireEmpty required
  obtain ⟨hash, w₂, computed, body⟩ := bind_eq_ok_iff.mp body
  obtain ⟨base, w₃, walked, body⟩ := bind_eq_ok_iff.mp body
  obtain ⟨patch, w₄, walked', body⟩ := bind_eq_ok_iff.mp body
  obtain ⟨⟨⟩, w₅, opened, body⟩ := bind_eq_ok_iff.mp body
  obtain ⟨keys, w₆, copied, -⟩ := bind_eq_ok_iff.mp body
  obtain ⟨published, rfl⟩ := onDiskAsk_eq_ok_iff.mp (failingAs_eq_ok_iff.mp walked)
  obtain ⟨published', rfl⟩ := onDiskAsk_eq_ok_iff.mp (failingAs_eq_ok_iff.mp walked')
  obtain ⟨d, made, rfl⟩ := onDisk_eq_ok_iff.mp (failingAs_eq_ok_iff.mp opened)
  have same := (Digest.of_compute (failingAs_eq_ok_iff.mp computed)).2
  change w₄.disk = w.disk at same
  rw [same] at published published' made
  exact ⟨base, patch, published, published', empty, d, made, w₄, same, keys, w₆,
    failingAs_eq_ok_iff.mp copied⟩

theorem prepared_of_author {signature : Signature} {summary : PatchSummary}
    (way : w.disk.Passable [] goal)
    (run : author before after (Location.path goal) signature w = .ok summary w') :
    ∀ d, Disk.makeDirectories (Location.path goal) w.disk = .ok () d →
      Prepared w.disk (Location.path goal) goal d := by
  intro d made
  obtain ⟨-, -, -, -, empty, -⟩ := steps_of_author run
  have found := Disk.hasDirectory_of_makeDirectories (Location.text_path_ne_nil goal) made
  obtain ⟨-, -, short, -⟩ := Disk.hasDirectory_iff.mp found
  obtain ⟨d', -, prepared⟩ := prepared_path way empty short
  cases made.symm.trans prepared.made
  exact prepared

/-- What an author needs and leaves. Both trees can be published, the paths are short enough, and
the directory holds the files that changed and the record, which names the files that are gone. -/
theorem of_author {signature : Signature} {summary : PatchSummary}
    (hb : w.disk.contents before = .ok old) (ha : w.disk.contents after = .ok new)
    (prepared : ∀ d, Disk.makeDirectories out w.disk = .ok () d → Prepared w.disk out goal d)
    (run : author before after out signature w = .ok summary w') :
    Tells summary old new ∧ ShortChanges out old new ∧ Disk.Short (PatchRecord.draftPath out) ∧
        ∃ d, Prepared w.disk out goal d ∧ d.Within w'.disk ∧ Disk.SameOutside goal d w'.disk ∧
          w'.disk.HoldsTree goal ((recordOf w old signature summary.removed).beside fun names =>
            changes old new names.key) := by
  obtain ⟨base, patch, published, published', -, d, made, v, same, keys, v', copied⟩ :=
    steps_of_author run
  have ready := prepared d made
  have tree := Disk.isTree_of_contents ha
  obtain ⟨earlier, walk, plain, rfl⟩ := publishable_eq_ok_iff.mp published
  obtain ⟨later, walk', plain', rfl⟩ := publishable_eq_ok_iff.mp published'
  obtain ⟨_, again, rfl⟩ := Disk.contents_eq_ok_iff.mp hb
  cases walk.symm.trans again
  obtain ⟨_, again, rfl⟩ := Disk.contents_eq_ok_iff.mp ha
  cases walk'.symm.trans again
  have fits : ShortChanges out (w.disk.contentsOf earlier) (w.disk.contentsOf later) := by
    obtain ⟨baseLoc, wb⟩ := Disk.walked_of_walk walk
    obtain ⟨patchLoc, wp⟩ := Disk.walked_of_walk walk'
    have sub := ready.within
    rw [← same] at wb wp sub tree ⊢
    rcases copyChanged_run wb wp sub ready.hosts ready.bare (apart_changes _ tree) with
      done | ⟨-, fault, u, failed⟩
    · exact done.1
    · cases copied.symm.trans failed
  obtain ⟨told, d', tells, grown, outside, carried, done, failed⟩ :=
    author_run ⟨earlier, walk, plain, rfl⟩ ⟨later, walk', plain', rfl⟩ ready fits signature
  cases written : Disk.writeRecord out
    (recordOf w (w.disk.contentsOf earlier) signature told.removed) d' with
  | error fault d'' =>
    obtain ⟨e, u, run'⟩ := failed fault d'' written
    cases run.symm.trans run'
  | ok _ d'' =>
    obtain ⟨u, run', rfl⟩ := done d'' written
    cases run.symm.trans run'
    have top : changes (w.disk.contentsOf earlier) (w.disk.contentsOf later) (Location.key []) =
        none := changes_of_none tree.top
    obtain ⟨whole, outside', grown'⟩ := carried.stored (ready.hosts.mono grown)
      (apart_changes _ tree) top (fun rest more => changes_of_none (tree.hidden rfl more)) written
    have short := (Disk.of_writeRecord ready.hosts.reaches.1 written).2
    exact ⟨tells, fits, short, d, ready, grown.trans grown', outside.trans outside', whole⟩

end Patch
end LayeredTree
