import LayeredTree.Proofs.Disk.Filing
import LayeredTree.Proofs.Disk.Removing

set_option autoImplicit false

namespace LayeredTree.Disk

variable {d d' d'' : Disk} {out source : Path} {root loc names other : Location} {name : Name}
variable {content : Bytes} {files : Location → Option Bytes}

/-- The path leads to a directory and is short enough for requests. -/
structure Hosts (d : Disk) (out : Path) (root : Location) : Prop where
  reaches : d.Reaches out root
  isDirectory : d.IsDirectory root
  short : Short out

/-- The parent of a child's path leads to the directory of the child; it may be the empty path, if
that is the working directory. -/
theorem Reaches.exists_parent (h : d.Reaches out root) (isDir : d.IsDirectory root) (name : Name) :
    ∃ q, (out.child name.bytes).parent = some q ∧
      q.text.length ≤ (out.child name.bytes).text.length ∧ (q.text = [] ∨ d.Reaches q root) := by
  have ne := h.1
  have steps := Path.steps_child ne name.slash_notMem name.isIdle_bytes
  obtain ⟨q, up⟩ := Path.exists_parent (p := out.child name.bytes) (by simp [steps])
  have parent := Path.isParent_of_parent up
  refine ⟨q, up, parent.length, or_iff_not_imp_left.mpr fun empty => ?_⟩
  have same : q.steps = out.steps := by
    rcases parent.steps with ⟨none, -⟩ | ⟨last, -, e⟩
    · simp [steps] at none
    · exact (List.append_inj' (steps.symm.trans e) rfl).1.symm
  have start : startOf d.here q.text = startOf d.here out.text := by
    have absolute := parent.isAbsolute empty
    rw [Bool.eq_iff_iff, Path.isAbsolute_iff, Path.isAbsolute_iff,
      Path.head?_child ne (Path.head?_ne_slash_of_notMem name.slash_notMem)] at absolute
    simp only [startOf, absolute]
  obtain ⟨-, -, links, le, w⟩ := id h
  refine ⟨empty, fun zero => ?_, links, le, ?_⟩
  · exact (h.child_text name).2 (parent.mem 0 zero (by decide))
  · have busy : d.Leads (startOf d.here out.text) out.steps links root :=
      (leads_filter_iff out.segments isDir []).mpr w
    rw [← same] at busy
    rw [start]
    exact (leads_filter_iff q.segments isDir []).mp busy

namespace Hosts

theorem mono (h : d.Hosts out root) (sub : d.Within d') : d'.Hosts out root :=
  ⟨h.reaches.mono sub, sub.isDirectory h.isDirectory, h.short⟩

theorem raise (h : d.Hosts out root) (way : d.Passable root names)
    (short : Short (pathBelow out names)) :
    ∃ d', makeDirectories (pathBelow out names) d = .ok () d' ∧ d.Raised root names d' :=
  makeDirectories_below h.reaches h.isDirectory way short

theorem exists_parent (h : d.Hosts out root) (short : Short (out.child name.bytes)) :
    ∃ q, (out.child name.bytes).parent = some q ∧ makeDirectories q d = .ok () d := by
  obtain ⟨q, up, length, none | reach⟩ := h.reaches.exists_parent h.isDirectory name
  · refine ⟨q, up, ?_⟩
    rw [makeDirectories, if_pos (by simp [Path.isEmpty, none])]
    rfl
  · exact ⟨q, up, reach.makeDirectories h.isDirectory (Nat.le_trans length short)⟩

end Hosts

theorem hosts_path (isDir : d.IsDirectory root) (short : Short (Location.path root)) :
    d.Hosts (Location.path root) root :=
  ⟨reaches_path isDir rfl, isDir, short⟩

/-- The second disk has a file at the names and the directories on the way in addition. -/
structure Placed (d : Disk) (root names : Location) (content : Bytes) (d' : Disk) : Prop where
  here : d'.here = d.here
  get? : ∀ other, d'.get? other = if other = root ++ names then some (.file content)
    else if root <+: other ∧ other ≠ root ∧ other <+: root ++ names then some .directory
    else d.get? other

theorem Raised.placed (raised : d.Raised root names d')
    (filed : d'.Filed (root ++ names ++ [name]) content d'') :
    d.Placed root (names ++ [name]) content d'' := by
  refine ⟨filed.here.trans raised.here, fun other => ?_⟩
  rw [filed.get?, raised.get?, ← List.append_assoc]
  by_cases e : other = root ++ names ++ [name]
  · rw [if_pos e, if_pos e]
  · rw [if_neg e, if_neg e]
    congr 1
    refine propext (and_congr_right fun _ => and_congr_right fun _ => ⟨fun le => ?_, fun le => ?_⟩)
    · exact le.trans (List.prefix_append _ _)
    · rcases List.prefix_concat_iff.mp le with same | le
      · exact absurd same e
      · exact le

theorem Hosts.place (h : d.Hosts out root) (way : d.Passable root names)
    (free : d.get? (root ++ names ++ [name]) = none)
    (short : Short (pathBelow out (names ++ [name]))) (hs : d.contentAt? source = some content) :
    ∃ d₁ d₂, makeDirectories (pathBelow out names) d = .ok () d₁ ∧
      copyFile source (pathBelow out (names ++ [name])) d₁ = .ok () d₂ ∧ d.Within d₂ ∧
        d.Placed root (names ++ [name]) content d₂ := by
  obtain ⟨d₁, made, raised⟩ := h.raise way (short_of_append h.reaches.1 short)
  have sub := raised.within way
  have there := raised.isDirectory h.isDirectory
  have reach := (h.reaches.mono sub).below there rfl
  have apart : ∀ {other}, other <+: root ++ names → other ≠ root ++ names ++ [name] := by
    rintro other le rfl
    have longer := le.length_le
    simp only [List.length_append, List.length_singleton] at longer
    omega
  have free' : d₁.get? (root ++ names ++ [name]) = none := by
    rw [raised.get?, if_neg]
    · exact free
    · rintro ⟨-, -, le⟩
      exact apart le rfl
  have hs' := contentAt?_mono sub hs
  rw [pathBelow_concat] at short ⊢
  obtain ⟨d₂, copied, filed⟩ := copyFile_of_free hs' reach there free' short
  exact ⟨d₁, d₂, made, copied, sub.trans (filed.within free'), raised.placed filed⟩

/-- Below the location lie exactly the given files and the directories around them. -/
def HoldsTree (d : Disk) (root : Location) (files : Location → Option Bytes) : Prop :=
  ∀ names ≠ [], ∀ node, d.get? (root ++ names) = some node ↔
    (∃ content, files names = some content ∧ node = .file content) ∨
      node = .directory ∧ ∃ rest ≠ [], files (names ++ rest) ≠ none

/-- No file lies below another one. -/
def Apart (files : Location → Option Bytes) : Prop :=
  ∀ names rest, rest ≠ [] → files names ≠ none → files (names ++ rest) = none

/-- The files that are in their places once the addresses were gone through. -/
def soFar (files : Location → Option Bytes) (done : List Key) (names : Location) : Option Bytes :=
  if names.key ∈ done then files names else none

theorem Apart.soFar (apart : Apart files) (done : List Key) : Apart (soFar files done) := by
  intro names rest ne there
  unfold Disk.soFar at there ⊢
  split at there
  · rw [apart names rest ne there]
    exact ite_self none
  · exact absurd rfl there

theorem soFar_congr {done done' : List Key} (h : ∀ key, key ∈ done ↔ key ∈ done') :
    soFar files done = soFar files done' := by
  funext names
  simp only [soFar, h]

theorem soFar_of_all {done : List Key} (all : ∀ names, files names ≠ none → names.key ∈ done) :
    soFar files done = files := by
  funext names
  unfold soFar
  split
  · rfl
  · rename_i off
    by_contra there
    exact off (all names fun e => there e.symm)

theorem soFar_cons_of_ne (done : List Key) (apart : other ≠ names) :
    soFar files (names.key :: done) other = soFar files done other := by
  have ne : other.key ≠ names.key := fun e => apart (Location.key_injective e)
  simp only [soFar, List.mem_cons, ne, false_or]

theorem soFar_cons_of_none (done : List Key) (gone : files names = none) :
    soFar files (names.key :: done) = soFar files done := by
  funext other
  by_cases same : other = names
  · subst same
    simp only [soFar, gone, ite_self]
  · exact soFar_cons_of_ne done same

theorem holdsTree_of_isBare (h : d.IsBare root) : d.HoldsTree root fun _ => none := by
  intro names ne node
  rw [h names ne]
  simp

theorem HoldsTree.free (h : d.HoldsTree root files) (ne : names ≠ []) (new : files names = none)
    (leaf : ∀ rest ≠ [], files (names ++ rest) = none) : d.get? (root ++ names) = none := by
  cases hn : d.get? (root ++ names) with
  | none => rfl
  | some node =>
    rcases (h names ne node).mp hn with ⟨content, e, -⟩ | ⟨-, rest, ne', e⟩
    · rw [new] at e
      cases e
    · exact absurd (leaf rest ne') e

theorem HoldsTree.passable (h : d.HoldsTree root files) (isDir : d.IsDirectory root)
    (above : ∀ init, init <+: names → files init = none) : d.Passable root names := by
  intro init le
  by_cases first : init = []
  · subst first
    rw [List.append_nil]
    exact .inr isDir
  cases hn : d.get? (root ++ init) with
  | none => exact .inl rfl
  | some node =>
    rcases (h init first node).mp hn with ⟨content, e, -⟩ | ⟨rfl, -⟩
    · rw [above init le] at e
      cases e
    · exact .inr hn

theorem HoldsTree.placed {files' : Location → Option Bytes} (h : d.HoldsTree root files)
    (placed : d.Placed root names content d') (here : files' names = some content)
    (same : ∀ other, other ≠ names → files' other = files other) (apart : Apart files') :
    d'.HoldsTree root files' := by
  intro place ne node
  rw [placed.get?]
  by_cases e : place = names
  · subst e
    rw [if_pos rfl, here]
    have leaf : ¬ ∃ rest ≠ [], files' (place ++ rest) ≠ none := by
      rintro ⟨rest, ne', h'⟩
      exact h' (apart place rest ne' (by simp [here]))
    simp [leaf, eq_comm]
  · rw [if_neg (by simpa using e), same place e]
    by_cases le : place <+: names
    · obtain ⟨rest, rfl⟩ := le
      have ne' : rest ≠ [] := by
        rintro rfl
        simp at e
      have gone : files place = none := by
        rw [← same place e]
        by_contra there
        rw [apart place rest ne' there] at here
        cases here
      have below : ∃ rest ≠ [], files' (place ++ rest) ≠ none := ⟨rest, ne', by simp [here]⟩
      rw [if_pos ⟨List.prefix_append _ _, by simpa using ne,
        (List.prefix_append_right_inj root).mpr (List.prefix_append _ _)⟩, gone]
      constructor
      · intro h'
        cases h'
        exact .inr ⟨rfl, below⟩
      · rintro (⟨content, h', -⟩ | ⟨rfl, -⟩)
        · cases h'
        · rfl
    · have off : ¬ (root <+: root ++ place ∧ root ++ place ≠ root ∧
          root ++ place <+: root ++ names) := fun on =>
        le ((List.prefix_append_right_inj root).mp on.2.2)
      have apart' : ∀ rest, files' (place ++ rest) = files (place ++ rest) := fun rest =>
        same _ fun e' => le ⟨rest, e'⟩
      rw [if_neg off, h place ne]
      simp only [apart']

/-- The disks agree on all that is not strictly below the location. -/
def SameOutside (root : Location) (d d' : Disk) : Prop :=
  d'.here = d.here ∧ ∀ other, ¬ (root <+: other ∧ other ≠ root) → d'.get? other = d.get? other

theorem SameOutside.refl (root : Location) (d : Disk) : SameOutside root d d :=
  ⟨rfl, fun _ _ => rfl⟩

theorem SameOutside.trans (h : SameOutside root d d') (h' : SameOutside root d' d'') :
    SameOutside root d d'' :=
  ⟨h'.1.trans h.1, fun other out => (h'.2 other out).trans (h.2 other out)⟩

theorem SameOutside.newAt (h : SameOutside root d' d'') (new : d.NewAt root d') :
    d.NewAt root d'' := by
  refine ⟨h.1.trans new.here, new.free, fun other away => ?_⟩
  rw [h.2 other fun below => away below.1]
  exact new.get? other away

theorem Placed.sameOutside (h : d.Placed root names content d') (ne : names ≠ []) :
    SameOutside root d d' := by
  refine ⟨h.here, fun other out => ?_⟩
  rw [h.get?, if_neg, if_neg]
  · exact fun on => out ⟨on.1, on.2.1⟩
  · rintro rfl
    exact out ⟨List.prefix_append _ _, by simpa using ne⟩

theorem Raised.sameOutside (h : d.Raised root names d') : SameOutside root d d' := by
  refine ⟨h.here, fun other out => ?_⟩
  rw [h.get?, if_neg]
  exact fun on => out ⟨on.1, on.2.1⟩

theorem HoldsTree.way {done : List Key} (h : d.HoldsTree root (soFar files done)) (apart : Apart files)
    (isDir : d.IsDirectory root) (new : (names ++ [name]).key ∉ done)
    (there : files (names ++ [name]) ≠ none) :
    d.get? (root ++ (names ++ [name])) = none ∧ d.Passable root names := by
  have leaf : ∀ rest ≠ [], soFar files done (names ++ [name] ++ rest) = none := by
    intro rest more
    rw [soFar, apart _ _ more there, ite_self]
  refine ⟨h.free (by simp) (if_neg new) leaf, h.passable isDir fun init le => ?_⟩
  obtain ⟨rest, rfl⟩ := le
  rw [soFar]
  split
  · by_contra above
    rw [List.append_assoc] at there
    exact there (apart init (rest ++ [name]) (by simp) above)
  · rfl

theorem Hosts.put {done : List Key} (host : d.Hosts out root) (apart : Apart files)
    (h : d.HoldsTree root (soFar files done)) (ne : names ≠ []) (new : names.key ∉ done)
    (value : files names = some content) (short : Short (Key.path out names.key))
    (hs : d.contentAt? source = some content) :
    ∃ parent d₁ d₂, (Key.path out names.key).parent = some parent ∧
      makeDirectories parent d = .ok () d₁ ∧
        copyFile source (Key.path out names.key) d₁ = .ok () d₂ ∧ d.Within d₂ ∧
          d₂.HoldsTree root (soFar files (names.key :: done)) ∧ SameOutside root d d₂ := by
  have here : soFar files (names.key :: done) names = some content := by
    rw [soFar, if_pos List.mem_cons_self, value]
  have same : ∀ other, other ≠ names →
      soFar files (names.key :: done) other = soFar files done other :=
    fun other => soFar_cons_of_ne done
  have apart' := apart.soFar (names.key :: done)
  rw [Location.path_key ne] at short ⊢
  obtain ⟨init, name, rfl⟩ : ∃ init name, names = init ++ [name] :=
    ⟨_, _, (List.dropLast_concat_getLast ne).symm⟩
  obtain ⟨vacant, way⟩ := h.way apart host.isDirectory new (by rw [value]; nofun)
  rw [← List.append_assoc] at vacant
  obtain ⟨d₁, d₂, made, copied, sub, placed⟩ := host.place way vacant short hs
  have done : ∃ parent, (pathBelow out (init ++ [name])).parent = some parent ∧
      makeDirectories parent d = .ok () d₁ := by
    rw [pathBelow_concat] at short ⊢
    by_cases top : init = []
    · subst top
      obtain ⟨parent, up, none⟩ := host.exists_parent short
      cases (host.reaches.makeDirectories host.isDirectory host.short).symm.trans made
      exact ⟨parent, up, none⟩
    · exact ⟨_, (isTidy_pathBelow host.reaches.1 top).parent_child name, made⟩
  obtain ⟨parent, up, made⟩ := done
  exact ⟨parent, d₁, d₂, up, made, copied, sub, h.placed placed here same apart',
    placed.sameOutside ne⟩

theorem Hosts.put_long {done : List Key} (host : d.Hosts out root) (tidy : out.IsTidy)
    (apart : Apart files) (h : d.HoldsTree root (soFar files done)) (ne : names ≠ [])
    (new : names.key ∉ done) (there : files names ≠ none)
    (long : ¬ Short (Key.path out names.key)) (source : Path) :
    ∃ parent, (Key.path out names.key).parent = some parent ∧
      ((∃ fault, makeDirectories parent d = .error fault d) ∨
        ∃ d₁ fault, makeDirectories parent d = .ok () d₁ ∧
          copyFile source (Key.path out names.key) d₁ = .error fault d₁ ∧ d.Within d₁ ∧
            SameOutside root d d₁) := by
  rw [Location.path_key ne] at long ⊢
  obtain ⟨init, name, rfl⟩ : ∃ init name, names = init ++ [name] :=
    ⟨_, _, (List.dropLast_concat_getLast ne).symm⟩
  obtain ⟨-, way⟩ := h.way apart host.isDirectory new there
  have whole := pathBelow_ne_nil host.reaches.1 (init ++ [name])
  have tidy' : (pathBelow out init).IsTidy := by
    by_cases top : init = []
    · rwa [top]
    · exact isTidy_pathBelow host.reaches.1 top
  refine ⟨pathBelow out init, ?_, ?_⟩
  · rw [pathBelow_concat]
    exact tidy'.parent_child name
  by_cases short : Short (pathBelow out init)
  · obtain ⟨d₁, made, raised⟩ := host.raise way short
    obtain ⟨fault, refused⟩ := copyFile_of_long d₁ source whole long
    exact .inr ⟨d₁, fault, made, refused, raised.within way, raised.sameOutside⟩
  · exact .inl (d.makeDirectories_of_long (pathBelow_ne_nil host.reaches.1 init) short)

end LayeredTree.Disk
