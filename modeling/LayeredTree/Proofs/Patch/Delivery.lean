import LayeredTree.Proofs.Patch.Authoring
import LayeredTree.Proofs.Patch.Exactness
import LayeredTree.Proofs.Written.Moments

set_option autoImplicit false

namespace LayeredTree

variable {d : Disk} {out : Path} {loc names : Location} {old new patch : KeyMap Bytes} {key : Key}
variable {record : PatchRecord} {entries : List TreeEntry} {removed : List Key}

namespace Location

theorem spelled_key (h : Disk.Spelled names) : (Bytes.toString? names.key).isSome := by
  have text : ∃ s, names.key = Bytes.ofString s := by
    induction names with
    | nil => exact ⟨"", by decide⟩
    | cons name rest ih =>
      obtain ⟨s, hs⟩ := Option.isSome_iff_exists.mp (h name List.mem_cons_self)
      obtain ⟨t, ht⟩ := ih fun other hm => h other (List.mem_cons_of_mem _ hm)
      by_cases last : rest = []
      · subst last
        refine ⟨s, ?_⟩
        rw [Bytes.ofString_of_toString? hs]
        rfl
      · refine ⟨s ++ ("/" ++ t), ?_⟩
        have head : (Location.key [name] : Key) = name.bytes := rfl
        rw [← List.singleton_append, key_append (by simp) last, ht, head, Bytes.ofString_append,
          Bytes.ofString_append, Bytes.ofString_of_toString? hs]
        rfl
  obtain ⟨s, e⟩ := text
  rw [e, Bytes.toString?_ofString]
  rfl

theorem zero_notMem_key : (0 : UInt8) ∉ names.key := by
  intro h
  obtain ⟨piece, hp, hz⟩ := Bytes.mem_joinWith (by decide) h
  obtain ⟨name, -, rfl⟩ := List.mem_map.mp hp
  exact name.zero_notMem hz

end Location

namespace Patch

theorem ofString_markerOf (h : (Bytes.toString? key).isSome) :
    Bytes.ofString (markerOf key) = key := by
  obtain ⟨s, hs⟩ := Option.isSome_iff_exists.mp h
  rw [markerOf, hs, Option.getD_some]
  exact Bytes.ofString_of_toString? hs

/-- Files that the trees have under one address have one hash only if they are the same. -/
def ToldApart (old new : KeyMap Bytes) : Prop :=
  ∀ key a b, old.get? key = some a → new.get? key = some b → Digest.ofHash a = Digest.ofHash b →
    a = b

section Difference

variable (earlier : Disk.IsTree old) (later : Disk.IsTree new)
variable (gone : ∀ key, key ∈ removed ↔ old.get? key ≠ none ∧ new.get? key = none)
variable (supplied : ∀ key, patch.get? key = changes old new key)

include earlier gone

theorem ofString_markers : (removed.map markerOf).map Bytes.ofString = removed := by
  have same : ∀ key ∈ removed, (Bytes.ofString ∘ markerOf) key = key := by
    intro key hk
    obtain ⟨content, hc⟩ := Option.ne_none_iff_exists'.mp ((gone key).mp hk).1
    obtain ⟨names, -, rfl, spelled, -⟩ := earlier.named key content hc
    exact ofString_markerOf (Location.spelled_key spelled)
  rw [List.map_map]
  exact (List.map_congr_left same).trans (List.map_id' _)

include supplied

/-- What the patch makes of the earlier content has the addresses of the later one, and for each of
them its content or one of the same hash that was there before. -/
theorem merged_changes_cases (key : Key) :
    (merged old patch (removed.map markerOf) key = none ∧ new.get? key = none) ∨
      ∃ a b, merged old patch (removed.map markerOf) key = some a ∧ new.get? key = some b ∧
        (a = b ∨ old.get? key = some a ∧ Digest.ofHash a = Digest.ofHash b) := by
  rw [merged, supplied, ofString_markers earlier gone]
  cases hn : new.get? key with
  | none =>
    refine .inl ⟨?_, rfl⟩
    rw [changes_of_none hn, Option.none_or]
    by_cases there : old.get? key = none
    · rw [there, ite_self]
    · rw [if_pos ((gone key).mpr ⟨there, hn⟩)]
  | some content =>
    right
    have kept : key ∉ removed := fun hm => by
      have none := ((gone key).mp hm).2
      rw [hn] at none
      cases none
    rw [if_neg kept]
    by_cases same : (old.get? key).map Digest.ofHash = some (Digest.ofHash content)
    · obtain ⟨before, ho, e⟩ := Option.map_eq_some_iff.mp same
      rw [changes_of_same ho hn e, ho]
      exact ⟨before, content, rfl, rfl, .inr ⟨rfl, e⟩⟩
    · rw [changes_eq_some_iff.mpr ⟨hn, same⟩]
      exact ⟨content, content, rfl, rfl, .inl rfl⟩

theorem merged_changes (told : ToldApart old new) (key : Key) :
    merged old patch (removed.map markerOf) key = new.get? key := by
  rcases merged_changes_cases earlier gone supplied key with ⟨e, e'⟩ | ⟨a, b, e, e', same⟩
  · rw [e, e']
  · rcases same with rfl | ⟨ho, same⟩
    · rw [e, e']
    · rw [e, e', told key a b ho e' same]

theorem merged_changes_eq_none_iff (key : Key) :
    merged old patch (removed.map markerOf) key = none ↔ new.get? key = none := by
  rcases merged_changes_cases earlier gone supplied key with ⟨e, e'⟩ | ⟨a, b, e, e', -⟩
  · exact ⟨fun _ => e', fun _ => e⟩
  · simp [e, e']

include later

theorem mergeable_changes (plain : ∀ key path, .link key path ∉ entries)
    (back : ∀ key ∈ removed, (92 : UInt8) ∉ key) :
    Mergeable old patch entries (removed.map markerOf) := by
  have marked : ∀ raw ∈ removed.map markerOf, Bytes.ofString raw ∈ removed := by
    intro raw hm
    rw [← ofString_markers earlier gone]
    exact List.mem_map_of_mem hm
  refine ⟨plain, fun raw hm => ?_, fun raw hm => ?_, fun raw hm => ?_, fun key parent there hp => ?_⟩
  · have hk := marked raw hm
    obtain ⟨content, hc⟩ := Option.ne_none_iff_exists'.mp ((gone _).mp hk).1
    obtain ⟨names, ne, e, -⟩ := earlier.named _ content hc
    refine ⟨_, Key.ofMarker_eq_ok_iff.mpr ⟨rfl, back _ hk, ?_, ?_⟩⟩
    · rw [e]
      exact Location.zero_notMem_key
    · rw [e, Location.splitOn_key ne]
      intro s hs
      obtain ⟨name, -, rfl⟩ := List.mem_map.mp hs
      exact ⟨name.isIdle_bytes, name.bytes_ne_dotDot⟩
  · rw [supplied, changes_of_none ((gone _).mp (marked raw hm)).2]
  · exact ((gone _).mp (marked raw hm)).1
  · rw [ne_eq, merged_changes_eq_none_iff earlier gone supplied] at there
    rw [merged_changes_eq_none_iff earlier gone supplied]
    by_contra above
    obtain ⟨content, hc⟩ := Option.ne_none_iff_exists'.mp there
    obtain ⟨names, -, rfl, -⟩ := later.named key content hc
    obtain ⟨init, rest, -, ne, rfl, rfl⟩ := Location.mem_ancestors_key_iff.mp hp
    exact there (later.apart init rest ne above)

end Difference

/-- The tree of a patch lies at a location as its author left it: files that changed beside the
record, under paths that are short enough to be opened. -/
structure Lies (d : Disk) (out : Path) (loc : Location) (record : PatchRecord)
    (old new : KeyMap Bytes) : Prop where
  hosts : d.Hosts out loc
  holdsTree : d.HoldsTree loc (record.beside fun names => changes old new (Location.key names))
  short : ∀ names content, record.beside (fun names => changes old new (Location.key names)) names =
    some content → Disk.Short (Disk.pathBelow out names)

namespace Lies

theorem recorded (h : Lies d out loc record old new)
    (reads : PatchRecord.parse (Bytes.ofString record.text) = .ok record)
    (current : record.version = PatchRecord.currentVersion) : d.record out = .ok record := by
  have place : PatchRecord.path out = Disk.pathBelow out [sidecar, PatchRecord.file] := rfl
  have found : d.get? (loc ++ [sidecar, PatchRecord.file]) =
      some (.file (Bytes.ofString record.text)) :=
    (h.holdsTree _ (by simp) _).mpr (.inl ⟨_, if_pos rfl, rfl⟩)
  have held : d.contentAt? (PatchRecord.path out) = some (Bytes.ofString record.text) :=
    Disk.contentAt?_eq_some_iff.mpr
      ⟨_, place ▸ h.hosts.reaches.below found rfl, place ▸ h.short _ _ (if_pos rfl), found⟩
  rw [Disk.record_of_content held reads, if_pos current]

theorem walked (h : Lies d out loc record old new) (later : Disk.IsTree new) :
    ∃ entries, d.walk .content out = .ok entries ∧
      (∀ key path, .link key path ∉ entries) ∧
        ∀ key, (d.contentsOf entries).get? key = changes old new key := by
  have known : ∀ names content, changes old new (Location.key names) = some content →
      names ≠ [] ∧ Disk.Spelled names ∧ Disk.Covers .content names (.file content) := by
    intro names content hc
    obtain ⟨names', ne, e, facts⟩ := later.named _ content (changes_eq_some_iff.mp hc).1
    obtain rfl := Location.key_injective e
    exact ⟨ne, facts⟩
  have hidden : ∀ content, ¬ Disk.Covers .content [sidecar, PatchRecord.file] (.file content) := by
    intro content covers
    exact Disk.bytes_ne_sidecarName (by simp) covers rfl
  have visible : ∀ names content, record.beside (fun names => changes old new (Location.key names))
      names = some content → Disk.Visible out names content := by
    intro names content there
    refine ⟨h.short names content there, fun covers => ?_⟩
    unfold PatchRecord.beside at there
    split at there
    · rename_i e
      rw [e] at covers
      exact absurd covers (hidden content)
    · exact (known names content there).2.1
  obtain ⟨entries, -, run, plain, get⟩ := Disk.walk_of_holdsTree h.hosts h.holdsTree visible
  refine ⟨entries, run, plain, fun key => Option.ext fun content => ?_⟩
  rw [get]
  constructor
  · rintro ⟨names, -, rfl, there, covers⟩
    unfold PatchRecord.beside at there
    split at there
    · rename_i e
      rw [e] at covers
      exact absurd covers (hidden content)
    · exact there
  · intro there
    obtain ⟨names, busy, rfl, -⟩ := later.named _ content (changes_eq_some_iff.mp there).1
    obtain ⟨-, -, covers⟩ := known names content there
    refine ⟨names, busy, rfl, ?_, covers⟩
    rw [PatchRecord.beside, if_neg]
    · exact there
    · rintro rfl
      exact hidden content covers

theorem congr {d' : Disk} (h : Lies d (Location.path loc) loc record old new)
    (same : ∀ names, d'.get? (loc ++ names) = d.get? (loc ++ names)) :
    Lies d' (Location.path loc) loc record old new := by
  have isDir : d'.IsDirectory loc := by
    have top := same []
    rw [List.append_nil] at top
    exact top.trans h.hosts.isDirectory
  refine ⟨Disk.hosts_path isDir h.hosts.short, fun names ne node => ?_, h.short⟩
  rw [same]
  exact h.holdsTree names ne node

end Lies

theorem lies_of_author {w v : World} {before after : Path} {signature : Signature}
    {summary : PatchSummary} (hb : w.disk.contents before = .ok old)
    (ha : w.disk.contents after = .ok new)
    (prepared : ∀ d, Disk.makeDirectories out w.disk = .ok () d → Prepared w.disk out loc d)
    (run : author before after out signature w = .ok summary v) :
    Tells summary old new ∧ ∃ d, Prepared w.disk out loc d ∧ d.Within v.disk ∧
      Disk.SameOutside loc d v.disk ∧
        Lies v.disk out loc (recordOf w old signature summary.removed) old new := by
  obtain ⟨tells, fits, short, d, ready, grown, outside, holdsTree⟩ := of_author hb ha prepared run
  refine ⟨tells, d, ready, grown, outside, ready.hosts.mono grown, holdsTree,
    fun names content there => ?_⟩
  unfold PatchRecord.beside at there
  split at there
  · rename_i e
    rw [e]
    exact Disk.short_of_draft ready.hosts.reaches.1 short
  · change changes old new (Location.key names) = some content at there
    have busy : names ≠ [] := by
      rintro rfl
      rw [changes_of_none (Disk.isTree_of_contents ha).top] at there
      cases there
    have fit := fits (Location.key names) (by rw [there]; nofun)
    rwa [Location.path_key busy] at fit

end Patch
end LayeredTree
