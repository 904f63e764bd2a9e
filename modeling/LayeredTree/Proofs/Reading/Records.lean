import LayeredTree.Proofs.Reading.Forms

set_option autoImplicit false

namespace LayeredTree.PatchRecord

open Json

variable {α : Type} {s s' t w inner content : Bytes} {name : String} {a : α}
variable {Form : Bytes → α → Prop} {members : List (String × Bytes)} {draft draft' : Draft}
variable {m : PatchRecord} {first : Bool} {steps : Nat} {word : Option Bytes} {old : Option α}

section Member

variable {set : Option α → Draft} {read : Reader α} {gap gap' : Bytes}

theorem field_sound (reads : Reads read Form) (h : (do
      let new ← once name old read
      pure (set new) : Reader Draft) s = .ok (draft', s')) :
    ∃ gap gap' w a, IsGap gap ∧ IsGap gap' ∧ s = gap ++ 58 :: (gap' ++ (w ++ s')) ∧ old = none ∧
      Form w a ∧ draft' = set (some a) := by
  obtain ⟨new, t, field, done⟩ := read_bind_iff.mp h
  cases done
  unfold once at field
  cases old with
  | some a =>
    have twice : (some a).isSome = true := rfl
    rw [if_pos twice] at field
    cases field
  | none =>
    rw [if_neg (by simp)] at field
    dsimp only at field
    obtain ⟨_, u, colon, field⟩ := read_bind_iff.mp field
    obtain ⟨a, value, rfl⟩ := read_map_iff.mp field
    obtain ⟨gap, isGap, rfl⟩ := readColon_iff.mp colon
    obtain ⟨gap', w, isGap', form, rfl⟩ := reads.sound value
    exact ⟨gap, gap', w, a, isGap, isGap', rfl, rfl, form, rfl⟩

theorem field_complete (reads : Reads read Form) (isGap : IsGap gap) (isGap' : IsGap gap')
    (form : Form w a) (stops : Stops s) (name : String) (set : Option α → Draft) : (do
      let new ← once name none read
      pure (set new) : Reader Draft) (gap ++ 58 :: (gap' ++ (w ++ s))) = .ok (set (some a), s) := by
  have field : once name none read (gap ++ 58 :: (gap' ++ (w ++ s))) = .ok (some a, s) := by
    unfold once
    rw [if_neg (by simp)]
    dsimp only
    rw [bind_of_read (readColon_iff.mpr ⟨gap, isGap, rfl⟩)]
    exact map_of_read (reads.complete isGap' form stops)
  exact bind_of_read field

theorem readMember_sound (h : readMember draft name s = .ok (draft', s')) :
    ∃ gap gap' w, IsGap gap ∧ IsGap gap' ∧ s = gap ++ 58 :: (gap' ++ (w ++ s')) ∧
      IsValue IsLooseText w ∧ Gathers [(name, w)] draft draft' := by
  by_cases version : name = "version"
  · subst version
    rw [readMember, if_pos rfl] at h
    obtain ⟨gap, gap', w, a, isGap, isGap', e, missing, form, rfl⟩ := field_sound reads_word h
    exact ⟨gap, gap', w, isGap, isGap', e, form.value, missing ▸ .same form,
      .other (by decide) w _, .other (by decide) w _, .other (by decide) w _,
      .other (by decide) w _⟩
  by_cases signature : name = "previous_signature"
  · subst signature
    rw [readMember, if_neg (by decide), if_pos rfl] at h
    obtain ⟨gap, gap', w, a, isGap, isGap', e, missing, form, rfl⟩ := field_sound reads_signature h
    exact ⟨gap, gap', w, isGap, isGap', e, form.value, .other (by decide) w _, missing ▸ .same form,
      .other (by decide) w _, .other (by decide) w _, .other (by decide) w _⟩
  by_cases hash : name = "previous_hash"
  · subst hash
    rw [readMember, if_neg (by decide), if_neg (by decide), if_pos rfl] at h
    obtain ⟨gap, gap', w, a, isGap, isGap', e, missing, form, rfl⟩ := field_sound reads_digest h
    exact ⟨gap, gap', w, isGap, isGap', e, form.value, .other (by decide) w _,
      .other (by decide) w _, missing ▸ .same form, .other (by decide) w _, .other (by decide) w _⟩
  by_cases removed : name = "removed"
  · subst removed
    rw [readMember, if_neg (by decide), if_neg (by decide), if_neg (by decide), if_pos rfl] at h
    obtain ⟨gap, gap', w, a, isGap, isGap', e, missing, form, rfl⟩ := field_sound reads_markers h
    exact ⟨gap, gap', w, isGap, isGap', e, form.value, .other (by decide) w _,
      .other (by decide) w _, .other (by decide) w _, missing ▸ .same form, .other (by decide) w _⟩
  by_cases createdAt : name = "created_at"
  · subst createdAt
    rw [readMember, if_neg (by decide), if_neg (by decide), if_neg (by decide), if_neg (by decide),
      if_pos rfl] at h
    obtain ⟨gap, gap', w, a, isGap, isGap', e, missing, form, rfl⟩ := field_sound reads_instant h
    exact ⟨gap, gap', w, isGap, isGap', e, form.value, .other (by decide) w _,
      .other (by decide) w _, .other (by decide) w _, .other (by decide) w _, missing ▸ .same form⟩
  rw [readMember, if_neg version, if_neg signature, if_neg hash, if_neg removed,
    if_neg createdAt] at h
  obtain ⟨_, u, colon, h⟩ := read_bind_iff.mp h
  obtain ⟨_, v, skip, h⟩ := read_bind_iff.mp h
  cases h
  obtain ⟨gap, isGap, rfl⟩ := readColon_iff.mp colon
  obtain ⟨gap', w, isGap', value, rfl⟩ := reads_skipAny.sound skip
  exact ⟨gap, gap', w, isGap, isGap', rfl, value, .other version w _, .other signature w _,
    .other hash w _, .other removed w _, .other createdAt w _⟩

theorem readMember_complete (isGap : IsGap gap) (isGap' : IsGap gap')
    (value : IsValue IsLooseText w) (gathers : Gathers [(name, w)] draft draft') (stops : Stops s) :
    readMember draft name (gap ++ 58 :: (gap' ++ (w ++ s))) = .ok (draft', s) := by
  obtain ⟨_, _, _, _, _⟩ := draft
  obtain ⟨_, _, _, _, _⟩ := draft'
  obtain ⟨h₁, h₂, h₃, h₄, h₅⟩ := gathers
  by_cases version : name = "version"
  · subst version
    obtain ⟨missing, a, filled, form⟩ := h₁.of_same
    cases missing
    cases filled
    cases h₂.of_other (by decide)
    cases h₃.of_other (by decide)
    cases h₄.of_other (by decide)
    cases h₅.of_other (by decide)
    rw [readMember, if_pos rfl]
    exact field_complete reads_word isGap isGap' form stops _ _
  cases h₁.of_other version
  by_cases signature : name = "previous_signature"
  · subst signature
    obtain ⟨missing, a, filled, form⟩ := h₂.of_same
    cases missing
    cases filled
    cases h₃.of_other (by decide)
    cases h₄.of_other (by decide)
    cases h₅.of_other (by decide)
    rw [readMember, if_neg (by decide), if_pos rfl]
    exact field_complete reads_signature isGap isGap' form stops _ _
  cases h₂.of_other signature
  by_cases hash : name = "previous_hash"
  · subst hash
    obtain ⟨missing, a, filled, form⟩ := h₃.of_same
    cases missing
    cases filled
    cases h₄.of_other (by decide)
    cases h₅.of_other (by decide)
    rw [readMember, if_neg (by decide), if_neg (by decide), if_pos rfl]
    exact field_complete reads_digest isGap isGap' form stops _ _
  cases h₃.of_other hash
  by_cases removed : name = "removed"
  · subst removed
    obtain ⟨missing, a, filled, form⟩ := h₄.of_same
    cases missing
    cases filled
    cases h₅.of_other (by decide)
    rw [readMember, if_neg (by decide), if_neg (by decide), if_neg (by decide), if_pos rfl]
    exact field_complete reads_markers isGap isGap' form stops _ _
  cases h₄.of_other removed
  by_cases createdAt : name = "created_at"
  · subst createdAt
    obtain ⟨missing, a, filled, form⟩ := h₅.of_same
    cases missing
    cases filled
    rw [readMember, if_neg (by decide), if_neg (by decide), if_neg (by decide), if_neg (by decide),
      if_pos rfl]
    exact field_complete reads_instant isGap isGap' form stops _ _
  cases h₅.of_other createdAt
  have skip : skipAny (gap' ++ (w ++ s)) = .ok ((), s) := reads_skipAny.complete isGap' value stops
  rw [readMember, if_neg version, if_neg signature, if_neg hash, if_neg removed, if_neg createdAt,
    bind_of_read (readColon_iff.mpr ⟨gap, isGap, rfl⟩), bind_of_read skip]
  rfl

end Member

theorem readMembers_sound (h : readMembers steps first draft s = .ok (draft', s')) :
    ∃ inner members t, Parts (MemberOf IsText) first inner members ∧
      (∀ m ∈ members, IsValue IsLooseText m.2) ∧ Gathers members draft draft' ∧
        s = inner ++ 125 :: t ∧ s' = 125 :: t := by
  induction steps generalizing first draft s with
  | zero => cases h
  | succ steps ih =>
    rw [readMembers, read_bind_iff] at h
    obtain ⟨found, u, next, h⟩ := h
    cases found with
    | none =>
      obtain ⟨gap, t, isGap, rfl, rfl⟩ := nextKey_none_iff.mp next
      cases h
      exact ⟨gap, [], t, .nil isGap, by simp, gathers_nil_iff.mpr rfl, rfl, rfl⟩
    | some name =>
      obtain ⟨lead, key, standing, isText, rfl⟩ := nextKey_some_iff.mp next
      dsimp only at h
      obtain ⟨mid, v, member, further⟩ := read_bind_iff.mp h
      obtain ⟨gap, gap', w, isGap, isGap', rfl, value, one⟩ := readMember_sound member
      obtain ⟨inner, members, t, parts, values, rest, rfl, rfl⟩ := ih further
      exact ⟨_, (name, w) :: members, t, .cons standing ⟨key, gap, gap', isText, isGap, isGap', rfl⟩
        parts, List.forall_mem_cons.mpr ⟨value, values⟩, gathers_cons_iff.mpr ⟨mid, one, rest⟩,
        by simp, rfl⟩

theorem readMembers_complete (parts : Parts (MemberOf IsText) first inner members)
    (values : ∀ m ∈ members, IsValue IsLooseText m.2) (gathers : Gathers members draft draft')
    (enough : members.length < steps) (t : Bytes) :
    readMembers steps first draft (inner ++ 125 :: t) = .ok (draft', 125 :: t) := by
  induction parts generalizing draft steps with
  | nil isGap =>
    cases gathers_nil_iff.mp gathers
    obtain ⟨steps, rfl⟩ := Nat.exists_eq_add_of_lt enough
    rw [readMembers, bind_of_read (nextKey_none_iff.mpr ⟨_, t, isGap, rfl, rfl⟩)]
    rfl
  | @cons _ lead w rest member members standing part parts ih =>
    cases steps with
    | zero => cases enough
    | succ steps =>
      obtain ⟨key, gap, gap', isText, isGap, isGap', rfl⟩ := part
      obtain ⟨mid, one, others⟩ := gathers_cons_iff.mp gathers
      have form : lead ++ (key ++ (gap ++ 58 :: (gap' ++ member.2)) ++ rest) ++ 125 :: t =
          lead ++ (key ++ (gap ++ 58 :: (gap' ++ (member.2 ++ (rest ++ 125 :: t))))) := by simp
      have stops : Stops (rest ++ 125 :: t) := parts.stops true t
      rw [form, readMembers, bind_of_read (nextKey_some_iff.mpr ⟨lead, key, standing, isText, rfl⟩)]
      dsimp only
      rw [bind_of_read (readMember_complete isGap isGap' (values member List.mem_cons_self) one
        stops)]
      exact ih (fun m hm => values m (List.mem_cons_of_mem _ hm)) others
        (Nat.lt_of_succ_lt_succ enough)

/-- The next item of a list up to where the following ones stand, or none at its end. -/
inductive Item : Bool → Bytes → Bytes → Option Bytes → Prop
  | none {first : Bool} {gap t : Bytes} : IsGap gap → Item first (gap ++ 93 :: t) (93 :: t) none
  | some {first : Bool} {lead w s : Bytes} : Lead first lead →
      Item first (lead ++ (w ++ s)) s (some w)

inductive Items : Bool → Bytes → List (Option Bytes) → Bytes → Prop
  | nil {first : Bool} {s : Bytes} : Items first s [] s
  | cons {first : Bool} {s t s' : Bytes} {word : Option Bytes} {words : List (Option Bytes)} :
      Item first s t word → Items false t words s' → Items first s (word :: words) s'

theorem readItem_sound {read : Reader α} (reads : Reads read Form) {x : Option α}
    (h : readItem first read s = .ok (x, s')) :
    ∃ word, Item first s s' word ∧ Option.Rel Form word x := by
  rw [readItem, read_bind_iff] at h
  obtain ⟨more, t, next, h⟩ := h
  cases more with
  | false =>
    obtain ⟨gap, u, isGap, rfl, rfl⟩ := nextItem_false_iff.mp next
    cases h
    exact ⟨none, .none isGap, .none⟩
  | true =>
    obtain ⟨lead, b, u, standing, -, -, rfl, rfl⟩ := nextItem_true_iff.mp next
    obtain ⟨a, value, rfl⟩ := read_map_iff.mp h
    obtain ⟨gap, w, isGap, form, e⟩ := reads.sound value
    refine ⟨some w, ?_, .some form⟩
    rw [e, ← List.append_assoc]
    exact .some (standing.append isGap)

theorem readItem_complete {read : Reader α} (reads : Reads read Form) {x : Option α}
    (start : ∀ {w a}, Form w a → ∃ b more, w = b :: more ∧ IsStart b)
    (item : Item first s s' word) (rel : Option.Rel Form word x) (stops : Stops s') :
    readItem first read s = .ok (x, s') := by
  cases item with
  | @none gap t isGap =>
    cases rel
    rw [readItem, bind_of_read (nextItem_false_iff.mpr ⟨gap, t, isGap, rfl, rfl⟩)]
    rfl
  | some standing =>
    cases rel with
    | some form =>
      obtain ⟨b, more, rfl, busy, open', -⟩ := start form
      have value := reads.complete isGap_nil form stops
      rw [List.nil_append, List.cons_append] at value
      rw [readItem, List.cons_append, bind_of_read (nextItem_true_iff.mpr ⟨_, b, _, standing, busy,
        open', rfl, rfl⟩)]
      exact map_of_read value

/-- So many items, with none for those that are not there. -/
def padded (n : Nat) (items : List Bytes) : List (Option Bytes) := (List.range n).map (items[·]?)

theorem padded_nil (n : Nat) : padded (n + 1) [] = none :: padded n [] := by
  rw [padded, List.range_succ_eq_map, List.map_cons, List.map_map]
  rfl

theorem padded_cons (n : Nat) (w : Bytes) (items : List Bytes) :
    padded (n + 1) (w :: items) = some w :: padded n items := by
  rw [padded, List.range_succ_eq_map, List.map_cons, List.map_map]
  rfl

theorem Items.closed {words : List (Option Bytes)} (h : Items false (93 :: t) words s') :
    s' = 93 :: t ∧ words = padded words.length [] := by
  induction words with
  | nil =>
    cases h
    exact ⟨rfl, rfl⟩
  | cons word words ih =>
    rw [List.length_cons, padded_nil]
    generalize start : 93 :: t = s at h
    cases h with
    | cons item rest =>
      cases item with
      | @none gap t' isGap =>
        cases gap with
        | nil =>
          cases start
          obtain ⟨e, none⟩ := ih rest
          exact ⟨e, by rw [← none]⟩
        | cons b gap =>
          cases start
          cases isGap 93 List.mem_cons_self
      | some lead =>
        cases lead with
        | @further gap gap' isGap =>
          cases gap with
          | nil => cases start
          | cons b gap =>
            cases start
            cases isGap 93 List.mem_cons_self

theorem Items.parts {words : List (Option Bytes)} {gap : Bytes}
    (h : Items first s words (gap ++ 93 :: t)) (isGap : IsGap gap) :
    ∃ inner items, Parts Eq first inner items ∧ s = inner ++ 93 :: t ∧
      items.length ≤ words.length ∧ words = padded words.length items := by
  generalize behind : gap ++ 93 :: t = s' at h
  induction h with
  | nil => exact ⟨gap, [], .nil isGap, behind.symm, Nat.le_refl _, rfl⟩
  | cons item rest ih =>
    cases item with
    | @none before t' isGap' =>
      obtain ⟨rfl, none⟩ := rest.closed
      cases gap with
      | nil =>
        cases behind
        exact ⟨before, [], .nil isGap', rfl, Nat.zero_le _, by
          rw [List.length_cons, padded_nil, ← none]⟩
      | cons b gap =>
        cases behind
        cases isGap 93 List.mem_cons_self
    | @some lead w _ standing =>
      obtain ⟨inner, items, parts, rfl, few, padding⟩ := ih behind
      refine ⟨lead ++ (w ++ inner), w :: items, .cons standing rfl parts, by simp,
        Nat.succ_le_succ few, ?_⟩
      rw [List.length_cons, padded_cons, ← padding]

theorem items_of_parts {items : List Bytes} (h : Parts Eq first inner items) {n : Nat}
    (few : items.length ≤ n) (t : Bytes) :
    ∃ gap, IsGap gap ∧ Items first (inner ++ 93 :: t) (padded n items) (gap ++ 93 :: t) := by
  have closed : ∀ n, Items false (93 :: t) (padded n []) (93 :: t) := by
    intro n
    induction n with
    | zero => exact .nil
    | succ n ih =>
      rw [padded_nil]
      exact .cons (.none isGap_nil) ih
  induction h generalizing n with
  | @nil _ gap isGap =>
    cases n with
    | zero => exact ⟨gap, isGap, .nil⟩
    | succ n =>
      rw [padded_nil]
      exact ⟨[], isGap_nil, .cons (.none isGap) (closed n)⟩
  | @cons _ lead w rest item items standing same parts ih =>
    subst same
    cases n with
    | zero => cases few
    | succ n =>
      obtain ⟨gap, isGap, run⟩ := ih (Nat.le_of_succ_le_succ few)
      rw [padded_cons, List.append_assoc, List.append_assoc]
      exact ⟨gap, isGap, .cons (.some standing) run⟩

theorem Items.stops {words : List (Option Bytes)} {gap : Bytes}
    (h : Items false s words (gap ++ 93 :: t)) (isGap : IsGap gap) : Stops s := by
  obtain ⟨inner, items, parts, rfl, -⟩ := h.parts isGap
  exact parts.stops false t

theorem readItems_sound (h : readItems s = .ok (draft, s')) :
    ∃ g : Given,
      Items true s [g.version, g.previousSignature, g.previousHash, g.removed, g.createdAt] s' ∧
        g.Fills draft := by
  rw [readItems, read_bind_iff] at h
  obtain ⟨version, s₁, read₁, h⟩ := h
  split at h
  · cases h
  simp only [read_bind_iff] at h
  obtain ⟨signature, s₂, read₂, hash, s₃, read₃, removed, s₄, read₄, createdAt, s₅, read₅,
    done⟩ := h
  cases done
  obtain ⟨word₁, item₁, rel₁⟩ := readItem_sound reads_word read₁
  obtain ⟨word₂, item₂, rel₂⟩ := readItem_sound reads_signature read₂
  obtain ⟨word₃, item₃, rel₃⟩ := readItem_sound reads_digest read₃
  obtain ⟨word₄, item₄, rel₄⟩ := readItem_sound reads_markers read₄
  obtain ⟨word₅, item₅, rel₅⟩ := readItem_sound reads_instant read₅
  exact ⟨⟨word₁, word₂, word₃, word₄, word₅⟩,
    .cons item₁ (.cons item₂ (.cons item₃ (.cons item₄ (.cons item₅ .nil)))),
    ⟨rel₁, rel₂, rel₃, rel₄, rel₅⟩⟩

theorem OrNull.start {Means : String → α → Prop} {x : Option α} (h : OrNull (TextOf Means) w x) :
    ∃ b more, w = b :: more ∧ IsStart b := h.value.head fun _ => IsLooseText.head

theorem readItems_complete {g : Given} {gap : Bytes} (isGap : IsGap gap)
    (items : Items true s [g.version, g.previousSignature, g.previousHash, g.removed, g.createdAt]
      (gap ++ 93 :: t)) (fills : g.Fills draft) (given : draft.version ≠ none) :
    readItems s = .ok (draft, gap ++ 93 :: t) := by
  obtain ⟨version, signature, hash, removed, createdAt⟩ := draft
  obtain ⟨rel₁, rel₂, rel₃, rel₄, rel₅⟩ := fills
  cases items with | cons item₁ items₂ =>
  cases items₂ with | cons item₂ items₃ =>
  cases items₃ with | cons item₃ items₄ =>
  cases items₄ with | cons item₄ items₅ =>
  cases items₅ with | cons item₅ items₆ =>
  have stops₂ := Items.stops (.cons item₂ (.cons item₃ (.cons item₄ (.cons item₅ items₆)))) isGap
  have stops₃ := Items.stops (.cons item₃ (.cons item₄ (.cons item₅ items₆))) isGap
  have stops₄ := Items.stops (.cons item₄ (.cons item₅ items₆)) isGap
  have stops₅ := Items.stops (.cons item₅ items₆) isGap
  have stops₆ := Items.stops items₆ isGap
  cases items₆
  rw [readItems, bind_of_read (readItem_complete reads_word (fun form => form.value.head fun _ =>
    IsLooseText.head) item₁ rel₁ stops₂), if_neg given]
  dsimp only
  rw [bind_of_read (readItem_complete reads_signature OrNull.start item₂ rel₂ stops₃),
    bind_of_read (readItem_complete reads_digest OrNull.start item₃ rel₃ stops₄),
    bind_of_read (readItem_complete reads_markers (fun form => form.value.head fun _ =>
      IsLooseText.head) item₄ rel₄ stops₅),
    bind_of_read (readItem_complete reads_instant OrNull.start item₅ rel₅ stops₆)]
  rfl

theorem finish_iff : finish draft s = .ok (m, s') ↔ draft.record = .ok m ∧ s' = s := by
  unfold finish
  cases draft.record with
  | error fault => exact ⟨nofun, fun h => nomatch h.1⟩
  | ok m' =>
    constructor
    · rintro ⟨⟩
      exact ⟨rfl, rfl⟩
    · rintro ⟨⟨⟩, rfl⟩
      rfl

theorem closeList_of_gap {gap : Bytes} (isGap : IsGap gap) (s : Bytes) :
    closeList (gap ++ 93 :: s) = .ok ((), s) :=
  bind_of_read (peek_of_gap isGap rfl s)

theorem exists_gap_of_closeList (h : closeList s = .ok ((), s')) :
    ∃ gap, IsGap gap ∧ s = gap ++ 93 :: s' := by
  rw [closeList, read_bind_iff] at h
  obtain ⟨found, t, look, h⟩ := h
  cases found with
  | none => cases h
  | some b =>
    obtain ⟨-, gap, u, isGap, rfl, rfl⟩ := peek_some_iff.mp look
    dsimp only at h
    rw [bind_of_read (skipByte_cons _ _)] at h
    split at h
    · rename_i closed
      subst closed
      cases h
      exact ⟨gap, isGap, rfl⟩
    · exfalso
      obtain ⟨_, _, -, h⟩ := read_bind_iff.mp h
      split at h <;> cases h

theorem object_sound (h : (do
      skipByte
      let record ← finish (← readMembers ((← get).length + 1) true .empty)
      closeObject
      pure record : Reader PatchRecord) (123 :: s) = .ok (m, s')) :
    ∃ w, IsObject IsLooseText Instant.IsTimestamp w m ∧ 123 :: s = w ++ s' := by
  rw [bind_of_read (skipByte_cons _ _),
    bind_of_read (show (get : Reader Bytes) s = .ok (s, s) from rfl)] at h
  simp only [read_bind_iff] at h
  obtain ⟨draft, t, read, m', t', finished, _, t'', close, done⟩ := h
  cases done
  obtain ⟨inner, members, u, parts, values, gathers, rfl, rfl⟩ := readMembers_sound read
  obtain ⟨record, rfl⟩ := finish_iff.mp finished
  obtain ⟨g, among, fills⟩ := gathers_empty_iff.mp gathers
  have closed : closeObject (125 :: u) = .ok ((), u) := rfl
  rw [closed] at close
  cases close
  refine ⟨123 :: (inner ++ [125]), ⟨members, g, ⟨inner, parts, rfl⟩, values, among,
    means_iff.mpr ⟨draft, fills, record⟩⟩, by simp⟩

theorem list_sound (h : (do
      skipByte
      let record ← finish (← readItems)
      closeList
      pure record : Reader PatchRecord) (91 :: s) = .ok (m, s')) :
    ∃ w, IsList Instant.IsTimestamp w m ∧ 91 :: s = w ++ s' := by
  rw [bind_of_read (skipByte_cons _ _)] at h
  simp only [read_bind_iff] at h
  obtain ⟨draft, t, read, m', t', finished, _, t'', close, done⟩ := h
  cases done
  obtain ⟨record, rfl⟩ := finish_iff.mp finished
  obtain ⟨gap, isGap, rfl⟩ := exists_gap_of_closeList close
  obtain ⟨⟨version, signature, hash, removed, createdAt⟩, items, fills⟩ := readItems_sound read
  obtain ⟨inner, words, parts, rfl, few, padding⟩ := items.parts isGap
  change [version, signature, hash, removed, createdAt] =
    [words[0]?, words[1]?, words[2]?, words[3]?, words[4]?] at padding
  cases padding
  refine ⟨91 :: (inner ++ [93]), ⟨words, ⟨inner, parts, rfl⟩, few,
    means_iff.mpr ⟨draft, fills, record⟩⟩, by simp⟩

theorem reads_record : Reads readRecord IsRecord where
  sound {s s' m} h := by
    rw [readRecord, read_bind_iff] at h
    obtain ⟨b, t, look, h⟩ := h
    obtain ⟨-, gap, u, isGap, rfl, rfl⟩ := peekValue_iff.mp look
    split at h
    · rename_i object
      subst object
      obtain ⟨w, form, e⟩ := object_sound h
      exact ⟨gap, w, isGap, .inl form, by rw [e]⟩
    split at h
    · rename_i list
      subst list
      obtain ⟨w, form, e⟩ := list_sound h
      exact ⟨gap, w, isGap, .inr form, by rw [e]⟩
    · exact absurd h refuseKind_ne
  complete {gap w s m} isGap form stops := by
    rcases form with ⟨members, g, ⟨inner, parts, rfl⟩, values, among, means⟩ |
      ⟨words, ⟨inner, parts, rfl⟩, few, means⟩
    · obtain ⟨draft, fills, record⟩ := means_iff.mp means
      have gathers := gathers_empty_iff.mpr ⟨g, among, fills⟩
      have short : members.length ≤ inner.length := parts.length_le fun member => by
        obtain ⟨key, _, _, isText, -, -, rfl⟩ := member
        obtain ⟨more, rfl⟩ := isText.head
        exact List.cons_ne_nil _ _
      have form : opening true :: (inner ++ [closing true]) ++ s = 123 :: (inner ++ 125 :: s) := by
        simp [opening, closing]
      have read : readMembers ((inner ++ 125 :: s).length + 1) true .empty (inner ++ 125 :: s) =
          _ := readMembers_complete parts values gathers (by rw [List.length_append]; omega) s
      rw [form, readRecord, bind_of_read (peekValue_of_gap isGap rfl _), if_pos rfl,
        bind_of_read (skipByte_cons _ _),
        bind_of_read (show (get : Reader Bytes) (inner ++ 125 :: s) = .ok (_, _) from rfl),
        bind_of_read read, bind_of_read (finish_iff.mpr ⟨record, rfl⟩)]
      rfl
    · obtain ⟨draft, fills, record⟩ := means_iff.mp means
      obtain ⟨gap', isGap', items⟩ := items_of_parts parts few s
      have given : draft.version ≠ none := by
        intro missing
        rw [Draft.record, missing] at record
        cases record
      have form : opening false :: (inner ++ [closing false]) ++ s = 91 :: (inner ++ 93 :: s) := by
        simp [opening, closing]
      rw [form, readRecord, bind_of_read (peekValue_of_gap isGap rfl _), if_neg (by decide),
        if_pos rfl, bind_of_read (skipByte_cons _ _),
        bind_of_read (readItems_complete isGap' items fills given),
        bind_of_read (finish_iff.mpr ⟨record, rfl⟩), bind_of_read (closeList_of_gap isGap' s)]
      rfl

theorem readEnd_iff : readEnd s = .ok ((), s') ↔ IsGap s ∧ s' = [] := by
  rw [readEnd, read_bind_iff, ← peek_none_iff]
  constructor
  · rintro ⟨found, t, look, h⟩
    cases found with
    | none =>
      cases h
      exact look
    | some => cases h
  · exact fun h => ⟨none, s', h, rfl⟩

theorem parse_eq_ok_iff : PatchRecord.parse content = .ok m ↔ Accepted content m := by
  have run : PatchRecord.parse content = .ok m ↔ ∃ s,
      (do let r ← readRecord; readEnd; pure r : Reader PatchRecord) content = .ok (m, s) := by
    unfold PatchRecord.parse
    change ((do let r ← readRecord; readEnd; pure r : Reader PatchRecord) content >>= _) = _ ↔ _
    cases (do let r ← readRecord; readEnd; pure r : Reader PatchRecord) content with
    | error fault => exact ⟨nofun, nofun⟩
    | ok result =>
      constructor
      · rintro ⟨⟩
        exact ⟨_, rfl⟩
      · rintro ⟨_, ⟨⟩⟩
        rfl
  rw [run]
  constructor
  · rintro ⟨s, h⟩
    simp only [read_bind_iff] at h
    obtain ⟨m', t, read, _, t', ends, done⟩ := h
    cases done
    obtain ⟨gap, w, isGap, form, rfl⟩ := reads_record.sound read
    obtain ⟨isGap', -⟩ := readEnd_iff.mp ends
    exact ⟨gap, w, t, isGap, isGap', form, rfl⟩
  · rintro ⟨gap, w, gap', isGap, isGap', form, rfl⟩
    have stops : Stops gap' := by
      have ends := Stops.gap isGap' stops_nil
      rwa [List.append_nil] at ends
    refine ⟨[], ?_⟩
    rw [bind_of_read (reads_record.complete isGap form stops),
      bind_of_read (readEnd_iff.mpr ⟨isGap', rfl⟩)]
    rfl

end LayeredTree.PatchRecord
