import LayeredTree.Proofs.Chain.Links
import LayeredTree.Proofs.Surviving

/-!
How the area judges an entry: where it sits, whatever path leads there. A path that ends in a name
is sanctioned just where its own entry lies strictly below a root, is not shared and is no link. The
one exception is a path whose directory part passes a place so deep that its own path is longer than
the operating system reads.
-/

set_option autoImplicit false

namespace LayeredTree

variable {d : Disk} {p q dataPath tempPath : Path} {loc other data temp : Location}
variable {node : Node} {area : WorkArea}

namespace Path

/-- The last step is an ordinary name, and neither a slash nor a dot stands behind it. -/
def EndsInName (p : Path) : Prop := (∃ name, p.fileName = some name) ∧ ¬ p.IsClosed

theorem not_isClosed {last : Bytes} (h : p.segments.getLast? = some last)
    (busy : isIdle last = false) : ¬ p.IsClosed := by
  rintro ⟨init, last', e, idle⟩
  rw [e, List.getLast?_concat, Option.some.injEq] at h
  rw [h, busy] at idle
  cases idle

theorem endsInName_path (dir : Location) (name : Name) :
    (Location.path (dir ++ [name])).EndsInName := by
  refine ⟨⟨name.bytes, fileName_eq_some_iff.mpr ⟨⟨dir.map Name.bytes, ?_⟩, by simp⟩⟩, ?_⟩
  · simp
  · obtain ⟨stem, -, child⟩ := exists_stem (Location.text_path_ne_nil dir)
    have segments := child name.bytes name.slash_notMem
    rw [Location.child_path] at segments
    exact not_isClosed (by rw [segments, List.getLast?_concat]) name.isIdle_bytes

end Path

namespace Disk

/-- Where a path puts its entry: in the directory that its parent leads to, all links followed,
under its own name. -/
def Sits (d : Disk) (p : Path) (loc : Location) : Prop :=
  ∃ dir, ∃ name : Name, loc = dir ++ [name] ∧ p.fileName = some name.bytes ∧
    ∃ parent, p.parent = some parent ∧
      d.Reaches (if parent.isEmpty then ⟨Path.dot⟩ else parent) dir

theorem seats_of_ownEntryAt (ends : p.EndsInName) (h : d.ownEntryAt p = .ok (loc, node)) :
    d.Seats p loc := by
  obtain ⟨⟨last, hf⟩, opened⟩ := ends
  obtain ⟨⟨init, steps⟩, up⟩ := Path.fileName_eq_some_iff.mp hf
  obtain ⟨seat, seats, rfl | ⟨closed, -⟩⟩ := own_cases steps up (ownEntryAt_eq_ok_iff.mp h).1
  · exact seats
  · exact absurd closed opened

theorem sits_of_ownEntryAt (ends : p.EndsInName) (h : d.ownEntryAt p = .ok (loc, node)) :
    d.Sits p loc := by
  obtain ⟨init, name, dir, steps, isDir, way, rfl⟩ := seats_of_ownEntryAt ends h
  have text := (resolve_eq_ok_iff.mp (ownEntryAt_eq_ok_iff.mp h).1).1
  obtain ⟨parent, hp⟩ := Path.exists_parent (p := p) (by simp [steps])
  have reach := reaches_of_isParent (Path.isParent_of_parent hp) steps (of_checkText text).2.1
    isDir way
  exact ⟨dir, name, rfl,
    Path.fileName_eq_some_iff.mpr ⟨⟨init, steps⟩, name.bytes_ne_dotDot⟩, parent, hp, reach⟩

theorem contains_iff_of_endsInName (ends : p.EndsInName) : area.contains d p = true ↔
    ∃ loc node, d.ownEntryAt p = .ok (loc, node) ∧ node.isLink = false ∧
      d.Resolvable p ∧ area.Holds loc ∧ ¬ area.Protects loc := by
  rw [contains_iff]
  constructor
  · rintro ⟨seat, seats, settles, holds, free, loc, node, found, plain⟩
    cases seats.unique (seats_of_ownEntryAt ends found)
    exact ⟨seat, node, found, plain, settles, holds, free⟩
  · rintro ⟨loc, node, found, plain, settles, holds, free⟩
    exact ⟨loc, seats_of_ownEntryAt ends found, settles, holds, free, loc, node, found, plain⟩

theorem contains_congr (ends : p.EndsInName) (ends' : q.EndsInName) (settles : d.Resolvable p)
    (settles' : d.Resolvable q) (h : d.ownEntryAt p = .ok (loc, node))
    (h' : d.ownEntryAt q = .ok (loc, node)) : area.contains d p = area.contains d q := by
  rw [Bool.eq_iff_iff, contains_iff_of_endsInName ends, contains_iff_of_endsInName ends', h, h']
  simp only [settles, settles']

end Disk

namespace WorkArea

/-- The location lies strictly below one of two directories and is no directory that work shares:
neither of the two, nor the one that merged trees are made in. -/
structure Owns (data temp loc : Location) : Prop where
  below : data <+: loc ∨ temp <+: loc
  ne_data : loc ≠ data
  ne_temp : loc ≠ temp
  ne_merge : loc ≠ Chain.mergePlace temp

theorem owns_iff (dataRoot : area.dataRoot = Location.path data)
    (tempRoot : area.tempRoot = Location.path temp) :
    area.Holds loc ∧ ¬ area.Protects loc ↔ Owns data temp loc := by
  have merge : area.mergeRoot = Location.path (Chain.mergePlace temp) :=
    Chain.mergeRoot_eq_path tempRoot
  have holds : area.Holds loc ↔ (data <+: loc ∧ loc ≠ data) ∨ (temp <+: loc ∧ loc ≠ temp) := by
    simp only [Holds, dataRoot, tempRoot, or_and_right, exists_or, exists_eq_left,
      Location.isWithin_path_iff, ← Bool.not_eq_true, Location.same_path_iff, ne_eq]
  have free : area.Protects loc ↔ loc = data ∨ loc = temp ∨ loc = Chain.mergePlace temp := by
    simp only [Protects, dataRoot, tempRoot, merge, or_and_right, exists_or, exists_eq_left,
      Location.same_path_iff]
  rw [holds, free]
  constructor
  · rintro ⟨below, apart⟩
    simp only [not_or] at apart
    exact ⟨below.imp And.left And.left, apart.1, apart.2.1, apart.2.2⟩
  · rintro ⟨below, ne_data, ne_temp, ne_merge⟩
    refine ⟨below.imp (⟨·, ne_data⟩) (⟨·, ne_temp⟩), ?_⟩
    rintro (e | e | e)
    · exact ne_data e
    · exact ne_temp e
    · exact ne_merge e

variable {w w' : World}

/-- Each area that was made stands for the two directories that its paths led to. On whatever disk,
a path that ends in a name is sanctioned just if its own entry is there, is no link, belongs to the
two, and the directory part of the path is reached by places that can each be read. So two paths to
one entry are judged alike if both are reached like that. -/
theorem contains_iff_owns (prepared : prepare dataPath tempPath w = .ok area w') :
    ∃ data temp, (area.dataRoot = Location.path data ∧ w'.disk.Reaches dataPath data) ∧
      (area.tempRoot = Location.path temp ∧ w'.disk.Reaches tempPath temp) ∧
      ∀ (d : Disk) (p : Path), p.EndsInName →
        (area.contains d p = true ↔ ∃ loc node, d.ownEntryAt p = .ok (loc, node) ∧
          node.isLink = false ∧ d.Sits p loc ∧ d.Resolvable p ∧ Owns data temp loc) ∧
        ∀ q : Path, q.EndsInName → d.Resolvable p → d.Resolvable q → ∀ loc node,
          d.ownEntryAt p = .ok (loc, node) → d.ownEntryAt q = .ok (loc, node) →
            area.contains d p = area.contains d q := by
  obtain ⟨d₁, data, temp, ⟨-, dataRoot, reach, -⟩, madeTemp, tempRoot, reach', -⟩ :=
    of_prepare prepared
  have grows := Disk.grows_makeDirectories tempPath d₁
  rw [after_of_ok madeTemp] at grows
  refine ⟨data, temp, ⟨dataRoot, reach.mono grows⟩, ⟨tempRoot, reach'⟩, fun d p ends => ⟨?_, ?_⟩⟩
  · rw [Disk.contains_iff_of_endsInName ends]
    simp only [owns_iff dataRoot tempRoot]
    constructor
    · rintro ⟨loc, node, found, plain, settles, owns⟩
      exact ⟨loc, node, found, plain, Disk.sits_of_ownEntryAt ends found, settles, owns⟩
    · rintro ⟨loc, node, found, plain, -, settles, owns⟩
      exact ⟨loc, node, found, plain, settles, owns⟩
  · exact fun q ends' settles settles' loc node found found' =>
      Disk.contains_congr ends ends' settles settles' found found'

/-- A tree, and a link to it beside it. -/
def linked : World := .holding [
  ([47, 100], .directory), ([47, 100, 47, 97], .directory),
  ([47, 100, 47, 97, 47, 102], .file [1]), ([47, 108], .link [47, 100, 47, 97])]

/-- A file of the area is sanctioned through a link, and as well through the link and back. -/
theorem contains_linked : ∃ v, prepare ⟨[47, 100]⟩ ⟨[47, 116]⟩ Release.bareWorld =
      .ok ⟨⟨[47, 100]⟩, ⟨[47, 116]⟩⟩ v ∧
    contains ⟨⟨[47, 100]⟩, ⟨[47, 116]⟩⟩ linked.disk ⟨[47, 108, 47, 102]⟩ = true ∧
    contains ⟨⟨[47, 100]⟩, ⟨[47, 116]⟩⟩ linked.disk
      ⟨[47, 108, 47, 46, 46, 47, 97, 47, 102]⟩ = true := by
  have prepared : prepare ⟨[47, 100]⟩ ⟨[47, 116]⟩ Release.bareWorld =
      .ok ⟨⟨[47, 100]⟩, ⟨[47, 116]⟩⟩
        (after (prepare ⟨[47, 100]⟩ ⟨[47, 116]⟩) Release.bareWorld) := by rfl
  refine ⟨_, prepared, ?_⟩
  obtain ⟨data, temp, ⟨dataRoot, -⟩, ⟨tempRoot, -⟩, judged⟩ := contains_iff_owns prepared
  obtain rfl : [⟨[100], by decide⟩] = data := Location.path_injective dataRoot
  obtain rfl : [⟨[116], by decide⟩] = temp := Location.path_injective tempRoot
  have sanctioned : ∀ p : Path, p.EndsInName → linked.disk.ownEntryAt p =
      .ok ([⟨[100], by decide⟩, ⟨[97], by decide⟩, ⟨[102], by decide⟩], .file [1]) →
      linked.disk.Resolvable p →
        contains ⟨⟨[47, 100]⟩, ⟨[47, 116]⟩⟩ linked.disk p = true := fun p ends found settles =>
    (judged linked.disk p ends).1.mpr ⟨_, _, found, rfl, Disk.sits_of_ownEntryAt ends found,
      settles, .inl ⟨_, rfl⟩, by decide, by decide, by decide⟩
  have ends : ∀ p : Path, p.segments.getLast? = some [102] → p.fileName = some [102] →
      p.EndsInName := fun p last name => ⟨⟨[102], name⟩, Path.not_isClosed last (by decide)⟩
  exact ⟨sanctioned _ (ends _ (by decide) (by decide)) (by rfl)
      (Disk.resolvable_of_canonical (q := ⟨[47, 100, 47, 97]⟩) (by rfl) (by rfl)),
    sanctioned _ (ends _ (by decide) (by decide)) (by rfl)
      (Disk.resolvable_of_canonical (q := ⟨[47, 100, 47, 97]⟩) (by rfl) (by rfl))⟩

end WorkArea

namespace Disk

/-- Directories of one name inside of each other, down to a depth. -/
def shaft (name : Name) : Nat → Disk
  | 0 => .empty
  | depth + 1 => (shaft name depth).plant (List.replicate (depth + 1) name) .directory

theorem get?_shaft (name : Name) (depth : Nat) (loc : Location) : (shaft name depth).get? loc =
    if loc = List.replicate loc.length name ∧ loc.length ≤ depth then some .directory else none := by
  induction depth generalizing loc with
  | zero =>
    cases loc with
    | nil => rfl
    | cons => simp [shaft, empty, get?]
  | succ depth ih =>
    have free : (shaft name depth).get? (List.replicate (depth + 1) name) = none := by
      rw [ih, if_neg (by simp)]
    have up : (shaft name depth).IsDirectory (List.replicate (depth + 1) name).dropLast := by
      rw [IsDirectory, ih, if_pos (by simp)]
    rw [shaft, get?_plant (by simp) free up, ih]
    by_cases last : loc = List.replicate (depth + 1) name
    · subst last
      simp
    · rw [if_neg last]
      have deeper : loc = List.replicate loc.length name → loc.length ≠ depth + 1 :=
        fun e n => last (n ▸ e)
      congr 1
      grind

theorem length_path_replicate (name : Name) {n : Nat} (pos : 0 < n) :
    (Location.path (List.replicate n name)).text.length = n * (name.bytes.length + 1) := by
  have busy : (List.replicate n name).isEmpty = false := by
    simpa using Nat.ne_of_gt pos
  rw [Location.path, busy]
  simp [List.length_flatMap]

/-- A shaft, and beside it a link to the directory two levels above its end. -/
def bypassed (deep link : Name) (depth : Nat) : Disk :=
  (shaft deep (depth + 2)).plant [link] (.link (Location.path (List.replicate depth deep)).text)

variable {deep link : Name} {depth n : Nat}

theorem isDirectory_bypassed (le : n ≤ depth + 2) :
    (bypassed deep link depth).IsDirectory (List.replicate n deep) := by
  refine (within_plant _ _).isDirectory ?_
  rw [IsDirectory, get?_shaft, if_pos (by simpa using le)]

theorem get?_bypassed (apart : link ≠ deep) (loc : Location) :
    (bypassed deep link depth).get? loc = if loc = [link] then
      some (.link (Location.path (List.replicate depth deep)).text)
    else (shaft deep (depth + 2)).get? loc := by
  refine get?_plant (by simp) ?_ (isDirectory_nil _) _ loc
  rw [get?_shaft, if_neg (by simpa using apart)]

theorem get?_bypassed_link (apart : link ≠ deep) : (bypassed deep link depth).get? [link] =
    some (.link (Location.path (List.replicate depth deep)).text) := by
  rw [get?_bypassed apart, if_pos rfl]

theorem reaches_bypassed (apart : link ≠ deep) :
    (bypassed deep link depth).Reaches (Location.path [link]) (List.replicate depth deep) :=
  have link : (bypassed deep link depth).get? ([] ++ [link]) = _ := get?_bypassed_link apart
  reaches_link (isDirectory_bypassed (Nat.le_add_right depth 2)) link

theorem reaches_bypassed_child (apart : link ≠ deep) : (bypassed deep link depth).Reaches
    (Location.path [link, deep]) (List.replicate (depth + 1) deep) := by
  have first : (bypassed deep link depth).IsDirectory (List.replicate (depth + 1) deep) :=
    isDirectory_bypassed (by omega)
  rw [List.replicate_succ'] at first ⊢
  have reach := (reaches_bypassed apart).child first rfl
  rwa [Location.child_path] at reach

theorem ownEntryAt_bypassed (apart : link ≠ deep) : (bypassed deep link depth).ownEntryAt
    (Location.path [link, deep, deep]) = .ok (List.replicate (depth + 2) deep, .directory) := by
  have last : (bypassed deep link depth).IsDirectory (List.replicate (depth + 2) deep) :=
    isDirectory_bypassed (Nat.le_refl _)
  rw [List.replicate_succ' (n := depth + 1)] at last ⊢
  have text : Location.path [link, deep, deep] = (Location.path [link, deep]).child deep.bytes := by
    rw [Location.child_path]
    rfl
  have short : Short (Location.path [link, deep, deep]) := by
    have small := deep.isName.2.2.2.2
    have small' := link.isName.2.2.2.2
    simp only [maxNameLength] at small small'
    simp [Short, Location.path, maxPathLength]
    omega
  rw [text] at short ⊢
  exact (reaches_bypassed_child apart).ownEntryAt_child last short

theorem not_resolvable_bypassed (apart : link ≠ deep)
    (long : maxPathLength < (depth + 1) * (deep.bytes.length + 1)) :
    ¬ (bypassed deep link depth).Resolvable (Location.path [link, deep, deep]) := by
  rintro ⟨parent, dir, up, settled⟩
  have named := (Location.isTidy_path [link, deep]).parent_child deep
  rw [Location.child_path] at named
  obtain rfl : Location.path [link, deep] = parent := Option.some.inj (named.symm.trans up)
  rw [if_neg (by simp [Path.isEmpty])] at settled
  have plain : ∀ dir text,
      (bypassed deep link depth).get? (dir ++ [deep]) ≠ some (.link text) := by
    intro dir text held
    rw [get?_bypassed apart] at held
    split at held
    · rename_i e
      rw [← List.nil_append [link]] at e
      exact apart (List.cons.inj (List.append_inj' e.symm rfl).2).1
    · rw [get?_shaft] at held
      split at held <;> cases held
  have segments : (Location.path [link, deep]).segments = [[], link.bytes] ++ [deep.bytes] :=
    Location.segments_path_of_ne (by simp)
  have short := settled.short_of_concat segments plain
  cases settled.reaches.unique (reaches_bypassed_child apart)
  rw [Short, length_path_replicate deep (Nat.succ_pos depth)] at short
  exact absurd short (Nat.not_le.mpr long)

theorem contains_bypassed (apart : link ≠ deep)
    (long : maxPathLength < (depth + 1) * (deep.bytes.length + 1)) :
    area.contains (bypassed deep link depth) (Location.path [link, deep, deep]) = false := by
  rw [Bool.eq_false_iff]
  intro sanctioned
  obtain ⟨loc, node, found, -, settles, -⟩ :=
    (contains_iff_of_endsInName (Path.endsInName_path [link, deep] deep)).mp sanctioned
  exact not_resolvable_bypassed apart long settles

end Disk

namespace WorkArea

/-- A directory of the area that sits too deep is refused under a path that leads to it. -/
theorem refuses_too_deep : ∃ deep link temp : Name,
    deep.bytes = [100] ∧ link.bytes = [108] ∧ temp.bytes = [116] ∧
    (∃ v, prepare (Location.path [deep]) (Location.path [temp]) Release.bareWorld =
      .ok ⟨Location.path [deep], Location.path [temp]⟩ v) ∧
    (Location.path [link, deep, deep]).EndsInName ∧ ∃ loc,
      (Disk.bypassed deep link 2047).ownEntryAt (Location.path [link, deep, deep]) =
        .ok (loc, .directory) ∧
      (Disk.bypassed deep link 2047).Sits (Location.path [link, deep, deep]) loc ∧
      Owns [deep] [temp] loc ∧
      contains ⟨Location.path [deep], Location.path [temp]⟩ (Disk.bypassed deep link 2047)
        (Location.path [link, deep, deep]) = false := by
  refine ⟨⟨[100], by decide⟩, ⟨[108], by decide⟩, ⟨[116], by decide⟩, rfl, rfl, rfl, ?_⟩
  have ends := Path.endsInName_path [⟨[108], by decide⟩, ⟨[100], by decide⟩] ⟨[100], by decide⟩
  have apart : (⟨[108], by decide⟩ : Name) ≠ ⟨[100], by decide⟩ := by decide
  have found : (Disk.bypassed _ _ 2047).ownEntryAt _ = _ := Disk.ownEntryAt_bypassed apart
  refine ⟨⟨_, rfl⟩, ends, _, found, Disk.sits_of_ownEntryAt ends found, ?_,
    Disk.contains_bypassed apart (by decide)⟩
  have deeper : ∀ other : Location, other.length < 2049 →
      List.replicate (2047 + 2) (⟨[100], by decide⟩ : Name) ≠ other := by
    intro other few e
    have long := congrArg List.length e
    rw [List.length_replicate] at long
    omega
  exact ⟨.inl ⟨_, rfl⟩, deeper _ (by decide), deeper _ (by decide), deeper _ (by decide)⟩

end WorkArea
end LayeredTree
