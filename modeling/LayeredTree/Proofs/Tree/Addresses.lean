import LayeredTree.Proofs.Tree.Keys
import LayeredTree.Proofs.Written.Texts

set_option autoImplicit false

namespace LayeredTree

namespace Bytes

variable {sep : UInt8} {a b : Bytes}

theorem ofString_injective {s t : String} (h : ofString s = ofString t) : s = t := by
  have same := congrArg toString? h
  rw [toString?_ofString, toString?_ofString] at same
  exact Option.some.inj same

theorem splitOn_append_of_notMem (free : sep ∉ a) (b : Bytes) :
    splitOn sep (a ++ b) = (splitOn sep b).modifyHead (a ++ ·) := by
  induction a with
  | nil =>
    obtain ⟨piece, pieces, hs⟩ := List.exists_cons_of_ne_nil (splitOn_ne_nil sep b)
    rw [List.nil_append, hs]
    rfl
  | cons c a ih =>
    rw [List.mem_cons, not_or] at free
    obtain ⟨piece, pieces, hs⟩ := List.exists_cons_of_ne_nil (splitOn_ne_nil sep b)
    have tail := ih free.2
    rw [hs, List.modifyHead_cons] at tail
    rw [List.cons_append, splitOn_cons_of_ne (Ne.symm free.1) _ tail, hs, List.modifyHead_cons,
      List.cons_append]

end Bytes

namespace Text

variable {c : Char}

theorem mem_utf8EncodeChar_iff (mark : Char) (small : mark.toNat < 128) :
    UInt8.ofNat mark.toNat ∈ String.utf8EncodeChar c ↔ c = mark := by
  have value : (UInt8.ofNat mark.toNat).toNat = mark.toNat := by
    rw [UInt8.toNat_ofNat']
    omega
  by_cases ascii : c.toNat < 128
  · have value' : (UInt8.ofNat c.toNat).toNat = c.toNat := by
      rw [UInt8.toNat_ofNat']
      omega
    rw [utf8EncodeChar_of_ascii ascii, List.mem_singleton]
    constructor
    · intro h
      apply Char.toNat_inj.mp
      rw [← value', ← h, value]
    · rintro rfl
      rfl
  · constructor
    · intro h
      have high := le_of_mem_utf8EncodeChar (Nat.not_lt.mp ascii) h
      omega
    · rintro rfl
      exact absurd small ascii

theorem mem_ofString_iff (mark : Char) (small : mark.toNat < 128) (s : String) :
    UInt8.ofNat mark.toNat ∈ Bytes.ofString s ↔ mark ∈ s.toList := by
  rw [Bytes.ofString_eq, List.mem_flatMap]
  constructor
  · rintro ⟨c, hc, h⟩
    rwa [(mem_utf8EncodeChar_iff mark small).mp h] at hc
  · intro h
    exact ⟨mark, h, (mem_utf8EncodeChar_iff mark small).mpr rfl⟩

theorem splitOn_bytes (l : List Char) :
    Bytes.splitOn slash (l.flatMap String.utf8EncodeChar) =
      (l.splitOn '/').map fun piece => piece.flatMap String.utf8EncodeChar := by
  induction l with
  | nil => rfl
  | cons c l ih =>
    rw [List.splitOn_cons_eq_if_modifyHead, List.flatMap_cons]
    by_cases e : c = '/'
    · subst e
      rw [if_pos (by simp), List.map_cons, ← ih]
      exact Bytes.splitOn_cons_self _
    · have free : slash ∉ String.utf8EncodeChar c := fun h =>
        e ((mem_utf8EncodeChar_iff '/' (by decide)).mp h)
      rw [if_neg (by simpa using e), Bytes.splitOn_append_of_notMem free, ih]
      obtain ⟨piece, pieces, hs⟩ := List.exists_cons_of_ne_nil (List.splitOn_ne_nil '/' l)
      rw [hs]
      rfl

end Text

namespace Key

variable {raw : String} {key : Key} {root : Path}

/-- A text of plain names with single slashes between them. -/
structure IsPlainText (raw : String) : Prop where
  not_empty : raw ≠ ""
  no_backslash : '\\' ∉ raw.toList
  no_nul : '\x00' ∉ raw.toList
  segments : ∀ segment ∈ raw.toList.splitOn '/',
    segment ≠ [] ∧ segment ≠ ['.'] ∧ segment ≠ ['.', '.']

theorem splitOn_ofString (raw : String) : Bytes.splitOn slash (Bytes.ofString raw) =
    (raw.toList.splitOn '/').map fun segment => Bytes.ofString (String.ofList segment) := by
  rw [Bytes.ofString_eq, Text.splitOn_bytes]
  exact List.map_congr_left fun segment _ => (Bytes.ofString_ofList segment).symm

private theorem ofString_ne {s : String} {l : List Char} :
    Bytes.ofString (String.ofList l) ≠ Bytes.ofString s ↔ l ≠ s.toList := by
  rw [not_iff_not]
  constructor
  · intro h
    rw [← Bytes.ofString_injective h, String.toList_ofList]
  · rintro rfl
    rw [String.ofList_toList]

private theorem plain_segment_iff (l : List Char) :
    (Path.isIdle (Bytes.ofString (String.ofList l)) = false ∧
      Bytes.ofString (String.ofList l) ≠ Path.dotDot) ↔ l ≠ [] ∧ l ≠ ['.'] ∧ l ≠ ['.', '.'] := by
  have empty : Bytes.ofString "" = [] := rfl
  have dot : Bytes.ofString "." = Path.dot := by decide
  have dots : Bytes.ofString ".." = Path.dotDot := by decide
  rw [Path.isIdle, Bool.or_eq_false_iff, beq_eq_false_iff_ne, beq_eq_false_iff_ne, ← empty, ← dot,
    ← dots, ofString_ne, ofString_ne, ofString_ne, and_assoc]
  rfl

theorem ofMarker_eq_ok_iff_isPlainText :
    ofMarker raw = .ok key ↔ key = Bytes.ofString raw ∧ IsPlainText raw := by
  rw [ofMarker_eq_ok_iff]
  apply and_congr_right
  rintro rfl
  rw [splitOn_ofString, List.forall_mem_map]
  simp only [plain_segment_iff]
  have back := Text.mem_ofString_iff '\\' (by decide) raw
  have nul := Text.mem_ofString_iff '\x00' (by decide) raw
  constructor
  · rintro ⟨h, h', segments⟩
    refine ⟨?_, fun hc => h (back.mpr hc), fun hc => h' (nul.mpr hc), segments⟩
    rintro rfl
    exact (segments [] (by simp)).1 rfl
  · intro h
    exact ⟨fun hb => h.no_backslash (back.mp hb), fun hb => h.no_nul (nul.mp hb), h.segments⟩

end Key

namespace Path

variable {root p q : Path} {name : Bytes} {names : List Bytes}

/-- A step down: no slash, and nothing that stays or leads up. -/
structure IsStep (name : Bytes) : Prop where
  free : slash ∉ name
  busy : isIdle name = false
  not_up : name ≠ dotDot

def down (root : Path) (names : List Bytes) : Path := names.foldl child root

@[simp] theorem down_nil (root : Path) : down root [] = root := rfl

@[simp] theorem down_concat (root : Path) (names : List Bytes) (name : Bytes) :
    down root (names ++ [name]) = (down root names).child name := by
  rw [down, List.foldl_append]
  rfl

theorem IsStep.stepOf_eq (h : IsStep name) : stepOf name = .normal name := if_neg h.not_up

theorem components_down (steps : ∀ name ∈ names, IsStep name) :
    (down root names).components = root.components ++ names.map .normal := by
  induction names using List.reverseRecOn with
  | nil => simp
  | append_singleton names name ih =>
    have last := steps name (by simp)
    rw [down_concat, components_child _ last.free last.busy, last.stepOf_eq,
      ih fun n hn => steps n (List.mem_append_left _ hn), List.map_append, List.append_assoc]
    rfl

theorem below?_down (steps : ∀ name ∈ names, IsStep name) :
    below? root (down root names) = some (names.map .normal) := by
  rw [below?, components_down steps,
    if_pos (List.isPrefixOf_iff_prefix.mpr (List.prefix_append _ _)),
    List.drop_left]

theorem steps_ne_nil_of_child (h : IsStep name) : (p.child name).steps ≠ [] := by
  intro none
  have last := components_child p h.free h.busy
  rw [components_eq, none, List.map_nil, List.append_nil, h.stepOf_eq] at last
  have mem : Component.normal name ∈ (p.child name).start := by
    rw [last]
    simp
  unfold start at mem
  split at mem
  · simp at mem
  · split at mem <;> simp at mem

theorem parent_down_concat (ne : names ≠ []) (steps : ∀ name ∈ names, IsStep name)
    (h : IsStep name) : ((down root names).child name).parent = some (down root names) := by
  obtain ⟨init, last, rfl⟩ : ∃ init last, names = init ++ [last] :=
    ⟨_, _, (List.dropLast_concat_getLast ne).symm⟩
  have final := steps last (by simp)
  have rel := head?_ne_slash_of_notMem final.free
  have last_ne : last ≠ [] := by
    rintro rfl
    cases final.busy
  rw [down_concat]
  by_cases empty : (down root init).text = []
  · have whole : ((down root init).child last).text = last := by
      have rel' : ¬ (Path.mk last).isAbsolute = true := by rwa [isAbsolute_iff]
      rw [child, join, if_neg rel', if_pos (by simp [empty]), empty, List.nil_append]
    refine parent_child_of_busy (by rwa [whole]) ⟨[], last, ?_, final.busy⟩ h.free h.busy
    rw [segments, whole, Bytes.splitOn_of_notMem final.free, List.nil_append]
  · obtain ⟨stem, -, child⟩ := exists_stem empty
    exact parent_child_of_busy (child_ne_nil empty rel) ⟨stem, last, child _ final.free, final.busy⟩
      h.free h.busy

theorem exists_parent_same (root : Path) (h : IsStep name) :
    ∃ q, (root.child name).parent = some q ∧ q.same root = true := by
  have busy := steps_ne_nil_of_child (p := root) h
  obtain ⟨q, parent⟩ := exists_parent busy
  obtain ⟨last, split⟩ := components_of_parent parent busy
  rw [components_child root h.free h.busy] at split
  refine ⟨q, parent, ?_⟩
  rw [same, beq_iff_eq]
  exact (List.append_inj' split rfl).1.symm

/-- The directories on the way from a path up to a root, the nearest first. Each is the parent of
the one before, and the parent of the last one is the root. -/
inductive Around (root : Path) : Path → List Path → Prop
  | top {p q : Path} : p.parent = some q → q.same root = true → Around root p []
  | up {p q : Path} {dirs : List Path} : p.parent = some q → q.same root = false →
      Around root q dirs → Around root p (q :: dirs)

theorem Around.unique {dirs dirs' : List Path} (h : Around root p dirs) (h' : Around root p dirs') :
    dirs = dirs' := by
  induction h generalizing dirs' with
  | top parent same =>
    cases h' with
    | top => rfl
    | up parent' other =>
      rw [parent, Option.some.injEq] at parent'
      rw [← parent', same] at other
      cases other
  | up parent other _ ih =>
    cases h' with
    | top parent' same =>
      rw [parent, Option.some.injEq] at parent'
      rw [← parent', other] at same
      cases same
    | up parent' _ above =>
      rw [parent, Option.some.injEq] at parent'
      subst parent'
      rw [ih above]

theorem same_down (ne : names ≠ []) (steps : ∀ name ∈ names, IsStep name) :
    (down root names).same root = false := by
  rw [same, components_down steps, beq_eq_false_iff_ne]
  intro e
  have size := congrArg List.length e
  rw [List.length_append, List.length_map] at size
  have pos := List.length_pos_iff.mpr ne
  omega

end Path

namespace Key

variable {raw : String} {key up : Key} {root p : Path} {name : Bytes} {names : List Bytes}

theorem namesOf_normal (spelled : ∀ name ∈ names, (Bytes.toString? name).isSome = true) :
    namesOf root p (names.map .normal) = .ok names := by
  induction names with
  | nil => rfl
  | cons name names ih =>
    rw [List.forall_mem_cons] at spelled
    rw [List.map_cons, namesOf, if_pos spelled.1, ih spelled.2]
    rfl

theorem ofPath_down (ne : names ≠ []) (steps : ∀ name ∈ names, Path.IsStep name)
    (spelled : ∀ name ∈ names, (Bytes.toString? name).isSome = true) :
    ofPath root (Path.down root names) = .ok (ofNames names) := by
  unfold ofPath
  rw [Path.below?_down steps]
  dsimp only
  rw [namesOf_normal spelled]
  change (if names = [] then _ else _) = _
  rw [if_neg ne]
  rfl

theorem ancestors_cons (b : UInt8) (rest : Bytes) : ancestors (b :: rest) =
    (if b = slash then [[]] else []) ++ (ancestors rest).map (b :: ·) := rfl

theorem ancestors_of_notMem (free : slash ∉ name) : ancestors name = [] := by
  induction name with
  | nil => rfl
  | cons c name ih =>
    rw [List.mem_cons, not_or] at free
    rw [ancestors_cons, if_neg (Ne.symm free.1), ih free.2]
    rfl

theorem ancestors_append (a : Key) (free : slash ∉ name) :
    ancestors (a ++ slash :: name) = ancestors a ++ [a] := by
  induction a with
  | nil =>
    rw [List.nil_append, ancestors_cons, if_pos rfl, ancestors_of_notMem free]
    rfl
  | cons c a ih =>
    rw [List.cons_append, ancestors_cons, ih, ancestors_cons, List.map_append, List.append_assoc]
    rfl

theorem ancestors_concat (ne : names ≠ []) (free : slash ∉ name) :
    ancestors (ofNames (names ++ [name])) = ancestors (ofNames names) ++ [ofNames names] := by
  rw [ofNames, Bytes.joinWith_append ne (by simp)]
  exact ancestors_append _ free

theorem exists_around (ne : names ≠ []) (steps : ∀ name ∈ names, Path.IsStep name)
    (spelled : ∀ name ∈ names, (Bytes.toString? name).isSome = true) :
    ∃ dirs, Path.Around root (Path.down root names) dirs ∧
      dirs.reverse.map (ofPath root) = (ancestors (ofNames names)).map .ok := by
  induction names using List.reverseRecOn with
  | nil => exact absurd rfl ne
  | append_singleton names name ih =>
    have last := steps name (by simp)
    have steps' : ∀ n ∈ names, Path.IsStep n := fun n hn => steps n (List.mem_append_left _ hn)
    have spelled' : ∀ n ∈ names, (Bytes.toString? n).isSome = true := fun n hn =>
      spelled n (List.mem_append_left _ hn)
    rw [Path.down_concat]
    by_cases only : names = []
    · subst only
      obtain ⟨q, parent, same⟩ := Path.exists_parent_same root last
      refine ⟨[], .top parent same, ?_⟩
      have none : ancestors (ofNames ([] ++ [name])) = [] := ancestors_of_notMem last.free
      rw [none]
      rfl
    · obtain ⟨dirs, around, above⟩ := ih only steps' spelled'
      refine ⟨_, .up (Path.parent_down_concat only steps' last) (Path.same_down only steps') around,
        ?_⟩
      rw [List.reverse_cons, List.map_append, above, ancestors_concat only last.free,
        List.map_append, List.map_singleton, ofPath_down only steps' spelled']
      rfl

theorem ofString_intercalate (segments : List (List Char)) :
    Bytes.ofString (String.ofList (['/'].intercalate segments)) =
      ofNames (segments.map fun segment => Bytes.ofString (String.ofList segment)) := by
  induction segments with
  | nil => rfl
  | cons first rest ih =>
    cases rest with
    | nil => simp [ofNames, Bytes.joinWith, List.intercalate_singleton]
    | cons second rest =>
      have mark : Bytes.ofString (String.ofList ['/']) = [slash] := by decide
      rw [List.intercalate_cons_cons, String.ofList_append, String.ofList_append,
        Bytes.ofString_append, Bytes.ofString_append, ih, mark, List.append_assoc,
        List.singleton_append]
      exact (Bytes.joinWith_cons (List.cons_ne_nil _ _)).symm

theorem IsPlainText.steps (h : IsPlainText raw) :
    ∀ name ∈ Bytes.splitOn slash (Bytes.ofString raw), Path.IsStep name := by
  intro name hn
  have free := Bytes.notMem_of_mem_splitOn hn
  rw [splitOn_ofString] at hn
  obtain ⟨segment, hs, rfl⟩ := List.mem_map.mp hn
  obtain ⟨busy, other⟩ := (plain_segment_iff segment).mpr (h.segments segment hs)
  exact ⟨free, busy, other⟩

theorem spelled_of_mem (raw : String) :
    ∀ name ∈ Bytes.splitOn slash (Bytes.ofString raw), (Bytes.toString? name).isSome = true := by
  intro name hn
  rw [splitOn_ofString] at hn
  obtain ⟨segment, -, rfl⟩ := List.mem_map.mp hn
  rw [Bytes.toString?_ofString]
  rfl

theorem IsPlainText.above (h : IsPlainText raw) (hu : up ∈ ancestors (Bytes.ofString raw)) :
    ∃ text, ofMarker text = .ok up := by
  obtain ⟨rest, whole⟩ := mem_ancestors_iff.mp hu
  have pieces := splitOn_ofString raw
  rw [whole, Bytes.splitOn_append_cons] at pieces
  obtain ⟨init, tail, split, start, -⟩ := List.append_eq_map_iff.mp pieces
  have text : up = Bytes.ofString (String.ofList (['/'].intercalate init)) := by
    rw [ofString_intercalate, start, ofNames, Bytes.joinWith_splitOn]
  have accepted := ofMarker_eq_ok_iff.mp (ofMarker_eq_ok_iff_isPlainText.mpr ⟨rfl, h⟩)
  rw [whole] at accepted
  obtain ⟨-, back, nul, segments⟩ := accepted
  refine ⟨_, ofMarker_eq_ok_iff.mpr ⟨text, ?_, ?_, fun s hs => segments s ?_⟩⟩
  · exact fun hb => back (List.mem_append_left _ hb)
  · exact fun hb => nul (List.mem_append_left _ hb)
  · rw [Bytes.splitOn_append_cons]
    exact List.mem_append_left _ hs

/-- What an address is to a root: the path it leads to lies strictly below the root and has it as
its address, and the directories on the way have the addresses around it, which are accepted too. -/
structure Addresses (root : Path) (key : Key) : Prop where
  back : ofPath root (path root key) = .ok key
  below : ∃ names : List Bytes, names ≠ [] ∧
    (path root key).components = root.components ++ names.map .normal
  accepted : ∀ up ∈ ancestors key, ∃ text, ofMarker text = .ok up
  around : ∃ dirs, (∀ dirs', Path.Around root (path root key) dirs' ↔ dirs' = dirs) ∧
    dirs.reverse.map (ofPath root) = (ancestors key).map .ok

theorem IsPlainText.addresses (h : IsPlainText raw) (root : Path) :
    Addresses root (Bytes.ofString raw) := by
  have ne := Bytes.splitOn_ne_nil slash (Bytes.ofString raw)
  have whole : ofNames (Bytes.splitOn slash (Bytes.ofString raw)) = Bytes.ofString raw :=
    Bytes.joinWith_splitOn slash _
  have back : ofPath root (Path.down root _) = _ := ofPath_down ne h.steps (spelled_of_mem raw)
  obtain ⟨dirs, around, addresses⟩ := exists_around ne h.steps (spelled_of_mem raw)
  rw [whole] at back addresses
  refine ⟨back, ⟨_, ne, Path.components_down h.steps⟩, fun _ hu => h.above hu, dirs, ?_, addresses⟩
  intro dirs'
  constructor
  · intro around'
    exact around'.unique around
  · rintro rfl
    exact around

/-- Just the plain texts are accepted as addresses, unchanged; from any root an accepted one leads
strictly below it, to a path that has this address and no other. -/
theorem marker_inverts (root : Path) (raw : String) :
    (∀ key, ofMarker raw = .ok key ↔ key = Bytes.ofString raw ∧ IsPlainText raw) ∧
      ∀ key, ofMarker raw = .ok key → Addresses root key ∧
        ∀ raw' key', ofMarker raw' = .ok key' → path root key = path root key' → raw = raw' := by
  refine ⟨fun key => ofMarker_eq_ok_iff_isPlainText, fun key accepted => ?_⟩
  obtain ⟨rfl, plain⟩ := ofMarker_eq_ok_iff_isPlainText.mp accepted
  refine ⟨plain.addresses root, fun raw' key' accepted' same => ?_⟩
  obtain ⟨rfl, plain'⟩ := ofMarker_eq_ok_iff_isPlainText.mp accepted'
  have key := (plain.addresses root).back
  rw [same, (plain'.addresses root).back] at key
  exact Bytes.ofString_injective (Except.ok.inj key).symm

end Key
end LayeredTree
