import LayeredTree.Proofs.Reading.Numbers

set_option autoImplicit false

namespace LayeredTree.Json

variable {α : Type} {b : UInt8} {s s' t u v w gap gap' row : Bytes} {steps : Nat}
variable {around : List Bool} {Text Text' : Bytes → Prop}

/-- What stands before a part: a gap before the first one, a comma before a further one. -/
inductive Lead : Bool → Bytes → Prop
  | first {gap : Bytes} : IsGap gap → Lead true gap
  | further {gap gap' : Bytes} : IsGap gap → IsGap gap' → Lead false (gap ++ 44 :: gap')

/-- Parts up to the bracket that closes them. -/
inductive Parts {α : Type} (Part : Bytes → α → Prop) : Bool → Bytes → List α → Prop
  | nil {first : Bool} {gap : Bytes} : IsGap gap → Parts Part first gap []
  | cons {first : Bool} {lead w rest : Bytes} {a : α} {as : List α} : Lead first lead → Part w a →
      Parts Part false rest as → Parts Part first (lead ++ (w ++ rest)) (a :: as)

def opening (inObject : Bool) : UInt8 := if inObject then 123 else 91
def closing (inObject : Bool) : UInt8 := if inObject then 125 else 93

def Enclosed {α : Type} (inObject : Bool) (Part : Bytes → α → Prop) (w : Bytes) (as : List α) :
    Prop :=
  ∃ inner, Parts Part true inner as ∧ w = opening inObject :: (inner ++ [closing inObject])

abbrev ListOf : Bytes → List Bytes → Prop := Enclosed false Eq

def MemberOf {α : Type} (Name : Bytes → α → Prop) (w : Bytes) (m : α × Bytes) : Prop :=
  ∃ key gap gap', Name key m.1 ∧ IsGap gap ∧ IsGap gap' ∧ w = key ++ (gap ++ 58 :: (gap' ++ m.2))

abbrev ObjectOf {α : Type} (Name : Bytes → α → Prop) : Bytes → List (α × Bytes) → Prop :=
  Enclosed true (MemberOf Name)

/-- The written form of a value. What counts as a text is given. -/
inductive IsValue (Text : Bytes → Prop) : Bytes → Prop
  | null : IsValue Text (110 :: nullTail)
  | yes : IsValue Text (116 :: trueTail)
  | no : IsValue Text (102 :: falseTail)
  | number {w : Bytes} {number : Numeral} : IsNumeral w number → IsValue Text w
  | text {w : Bytes} : Text w → IsValue Text w
  | list {w : Bytes} {items : List Bytes} : ListOf w items → (∀ v ∈ items, IsValue Text v) →
      IsValue Text w
  | object {w : Bytes} {members : List (Bytes × Bytes)} : ObjectOf Eq w members →
      (∀ m ∈ members, Text m.1) → (∀ m ∈ members, IsValue Text m.2) → IsValue Text w

theorem IsValue.imp (h : IsValue Text w) (texts : ∀ w, Text w → Text' w) : IsValue Text' w := by
  induction h with
  | null => exact .null
  | yes => exact .yes
  | no => exact .no
  | number number => exact .number number
  | text text => exact .text (texts _ text)
  | list list _ ih => exact .list list ih
  | object object names _ ih => exact .object object (fun m hm => texts _ (names m hm)) ih

/-- What a value, a text or a number begins with: no blank, and nothing that closes a bracket. -/
def IsStart (b : UInt8) : Prop := isGap b = false ∧ b ≠ 93 ∧ b ≠ 125

theorem isStart_of_isDigit (digit : b = 45 ∨ isDigit b = true) : IsStart b := by
  rcases digit with rfl | digit
  · exact ⟨rfl, by decide, by decide⟩
  · refine ⟨isGap_of_isDigit digit, ?_, ?_⟩
    all_goals
      rintro rfl
      cases digit

theorem IsValue.head (texts : ∀ w, Text w → ∃ more, w = 34 :: more) (h : IsValue Text w) :
    ∃ b more, w = b :: more ∧ IsStart b := by
  cases h with
  | null => exact ⟨_, _, rfl, rfl, by decide, by decide⟩
  | yes => exact ⟨_, _, rfl, rfl, by decide, by decide⟩
  | no => exact ⟨_, _, rfl, rfl, by decide, by decide⟩
  | number number =>
    obtain ⟨b, more, rfl, digit⟩ := number.head
    exact ⟨b, more, rfl, isStart_of_isDigit digit⟩
  | text text =>
    obtain ⟨more, rfl⟩ := texts _ text
    exact ⟨_, _, rfl, rfl, by decide, by decide⟩
  | list list =>
    obtain ⟨inner, -, rfl⟩ := list
    exact ⟨_, _, rfl, rfl, by decide, by decide⟩
  | object object =>
    obtain ⟨inner, -, rfl⟩ := object
    exact ⟨_, _, rfl, rfl, by decide, by decide⟩

theorem IsLooseText.head (h : IsLooseText w) : ∃ more, w = 34 :: more := by
  obtain ⟨inner, rfl, -⟩ := h
  exact ⟨_, rfl⟩

theorem IsGap.append (h : IsGap gap) (h' : IsGap gap') : IsGap (gap ++ gap') :=
  fun b hb => (List.mem_append.mp hb).elim (h b) (h' b)

theorem readColon_iff : readColon s = .ok ((), s') ↔ ∃ gap, IsGap gap ∧ s = gap ++ 58 :: s' := by
  constructor
  · intro h
    obtain ⟨found, t, look, h⟩ := read_bind_iff.mp h
    cases found with
    | none => cases h
    | some b =>
      obtain ⟨-, gap, u, isGap, rfl, rfl⟩ := peek_some_iff.mp look
      dsimp only at h
      split at h
      · rename_i colon
        cases h
        exact ⟨gap, isGap, by rw [colon]; rfl⟩
      · cases h
  · rintro ⟨gap, isGap, rfl⟩
    exact bind_of_read (peek_of_gap isGap rfl s')

theorem Parts.exists_words {first : Bool} {Part : Bytes → α → Prop} {as : List α}
    (h : Parts Part first w as) :
    ∃ words, Parts Eq first w words ∧ ∀ v ∈ words, ∃ a, Part v a := by
  induction h with
  | nil isGap => exact ⟨[], .nil isGap, nofun⟩
  | cons lead part _ ih =>
    obtain ⟨words, parts, each⟩ := ih
    exact ⟨_, .cons lead rfl parts, List.forall_mem_cons.mpr ⟨⟨_, part⟩, each⟩⟩

theorem bind_congr_read {β : Type} {x : Reader α} {f : α → Reader β} (h : x s = x t) :
    (x >>= f) s = (x >>= f) t := by
  change (x s >>= fun p => f p.1 p.2) = (x t >>= fun p => f p.1 p.2)
  rw [h]

theorem peek_gap (h : IsGap gap) (s : Bytes) : peek (gap ++ s) = peek s := by
  unfold peek
  rw [List.dropWhile_append_of_pos h]

theorem skipValue_gap (h : IsGap gap) (steps : Nat) (around : List Bool) (s : Bytes) :
    skipValue steps around (gap ++ s) = skipValue steps around s := by
  cases steps with
  | zero => rfl
  | succ steps =>
    rw [skipValue]
    exact bind_congr_read (bind_congr_read (peek_gap h s))

/-- What closes the brackets that are open, the innermost first. -/
inductive Closes : List Bool → Bytes → Prop
  | nil : Closes [] []
  | list {row w : Bytes} {items : List Bytes} {around : List Bool} : Parts Eq false row items →
      (∀ v ∈ items, IsValue IsLooseText v) → Closes around w →
      Closes (false :: around) (row ++ 93 :: w)
  | object {row w : Bytes} {members : List (Bytes × Bytes)} {around : List Bool} :
      Parts (MemberOf Eq) false row members → (∀ m ∈ members, IsLooseText m.1) →
      (∀ m ∈ members, IsValue IsLooseText m.2) → Closes around w →
      Closes (true :: around) (row ++ 125 :: w)

/-- After a gap there is a value, and then what closes the brackets. -/
def BeginsValue (around : List Bool) (s s' : Bytes) : Prop :=
  ∃ gap v w, IsGap gap ∧ IsValue IsLooseText v ∧ Closes around w ∧ s = gap ++ (v ++ (w ++ s'))

def BeginsMember (around : List Bool) (s s' : Bytes) : Prop :=
  ∃ gap w m rest, IsGap gap ∧ MemberOf Eq w m ∧ IsLooseText m.1 ∧ IsValue IsLooseText m.2 ∧
    Closes (true :: around) rest ∧ s = gap ++ (w ++ (rest ++ s'))

/-- What is passed over by so many steps. -/
structure SoundUpTo (steps : Nat) : Prop where
  value : ∀ {around : List Bool} {s s' : Bytes}, skipValue steps around s = .ok ((), s') →
    BeginsValue around s s'
  key : ∀ {around : List Bool} {s s' : Bytes}, skipKey steps (true :: around) s = .ok ((), s') →
    BeginsMember around s s'
  after : ∀ {around : List Bool} {s s' : Bytes}, skipAfter steps around s = .ok ((), s') →
    ∃ w, Closes around w ∧ s = w ++ s'

theorem BeginsValue.list (h : BeginsValue (false :: around) s s') :
    ∃ gap v row items w, IsGap gap ∧ Parts Eq false row items ∧ IsValue IsLooseText v ∧
      (∀ v ∈ items, IsValue IsLooseText v) ∧ Closes around w ∧
        s = gap ++ (v ++ (row ++ 93 :: (w ++ s'))) := by
  obtain ⟨gap, v, w, isGap, value, closes, rfl⟩ := h
  cases closes with
  | list row values closes =>
    exact ⟨gap, v, _, _, _, isGap, row, value, values, closes, by simp⟩

theorem BeginsMember.object (h : BeginsMember around s s') :
    ∃ gap w m row members rest, IsGap gap ∧ MemberOf Eq w m ∧
      Parts (MemberOf Eq) false row members ∧ (∀ m' ∈ m :: members, IsLooseText m'.1) ∧
        (∀ m' ∈ m :: members, IsValue IsLooseText m'.2) ∧ Closes around rest ∧
          s = gap ++ (w ++ (row ++ 125 :: (rest ++ s'))) := by
  obtain ⟨gap, w, m, rest, isGap, member, name, value, closes, rfl⟩ := h
  cases closes with
  | object row names values closes =>
    exact ⟨gap, w, m, _, _, _, isGap, member, row, List.forall_mem_cons.mpr ⟨name, names⟩,
      List.forall_mem_cons.mpr ⟨value, values⟩, closes, by simp⟩

theorem SoundUpTo.list (sound : SoundUpTo steps)
    (h : skipValue (steps + 1) around (91 :: s) = .ok ((), s')) :
    ∃ v w, IsValue IsLooseText v ∧ Closes around w ∧ 91 :: s = v ++ (w ++ s') := by
  rw [skipValue, bind_of_read (peekValue_cons rfl s), if_pos rfl, bind_of_read (skipByte_cons _ _),
    read_bind_iff] at h
  obtain ⟨found, t, look, h⟩ := h
  cases found with
  | none => cases h
  | some c =>
    obtain ⟨-, gap, u, isGap, rfl, rfl⟩ := peek_some_iff.mp look
    dsimp only at h
    by_cases closed : c = 93
    · subst closed
      rw [if_pos rfl, bind_of_read (skipByte_cons _ _)] at h
      obtain ⟨w, closes, rfl⟩ := sound.after h
      exact ⟨_, w, .list ⟨gap, .nil isGap, rfl⟩ nofun, closes, by simp [opening, closing]⟩
    · rw [if_neg closed] at h
      obtain ⟨gap', v, row, items, w, isGap', isRow, value, values, closes, e⟩ :=
        (sound.value h).list
      refine ⟨_, w, .list ⟨_, .cons (.first (isGap.append isGap')) rfl isRow, rfl⟩
        (List.forall_mem_cons.mpr ⟨value, values⟩), closes, ?_⟩
      rw [e]
      simp [opening, closing]

theorem SoundUpTo.object (sound : SoundUpTo steps)
    (h : skipValue (steps + 1) around (123 :: s) = .ok ((), s')) :
    ∃ v w, IsValue IsLooseText v ∧ Closes around w ∧ 123 :: s = v ++ (w ++ s') := by
  rw [skipValue, bind_of_read (peekValue_cons rfl s), if_neg (by decide), if_pos rfl,
    bind_of_read (skipByte_cons _ _), read_bind_iff] at h
  obtain ⟨found, t, look, h⟩ := h
  cases found with
  | none => cases h
  | some c =>
    obtain ⟨-, gap, u, isGap, rfl, rfl⟩ := peek_some_iff.mp look
    dsimp only at h
    by_cases closed : c = 125
    · subst closed
      rw [if_pos rfl, bind_of_read (skipByte_cons _ _)] at h
      obtain ⟨w, closes, rfl⟩ := sound.after h
      exact ⟨_, w, .object ⟨gap, .nil isGap, rfl⟩ nofun nofun, closes, by simp [opening, closing]⟩
    · rw [if_neg closed] at h
      obtain ⟨gap', m, pair, row, members, w, isGap', member, isRow, names, values, closes, e⟩ :=
        (sound.key h).object
      refine ⟨_, w, .object ⟨_, .cons (.first (isGap.append isGap')) member isRow, rfl⟩ names
        values, closes, ?_⟩
      rw [e]
      simp [opening, closing]

theorem readWord_iff {word : Bytes} : readWord word s = .ok ((), s') ↔ s = word ++ s' := by
  induction word generalizing s with
  | nil =>
    constructor
    · rintro ⟨⟩
      rfl
    · rintro rfl
      rfl
  | cons b word ih =>
    cases s with
    | nil => exact ⟨nofun, nofun⟩
    | cons c s =>
      rw [readWord, List.cons_append, List.cons_eq_cons]
      split
      · rename_i same
        rw [ih]
        exact ⟨fun h => ⟨same, h⟩, fun h => h.2⟩
      · rename_i other
        exact ⟨nofun, fun h => absurd h.1 other⟩

private def skipPlain (b : UInt8) : Reader Unit :=
  if b = 110 then do skipByte; readWord nullTail
  else if b = 116 then do skipByte; readWord trueTail
  else if b = 102 then do skipByte; readWord falseTail
  else if b = 34 then do skipByte; skipText .plain
  else if b = 45 ∨ isDigit b then discard (readNumeral .badNumber)
  else throw .missingValue

theorem discard_iff {x : Reader α} : (discard x) s = .ok ((), s') ↔ ∃ a, x s = .ok (a, s') := by
  change (Function.const α () <$> x) s = _ ↔ _
  rw [read_map_iff]
  exact ⟨fun ⟨a, h, _⟩ => ⟨a, h⟩, fun ⟨a, h⟩ => ⟨a, h, rfl⟩⟩

private theorem skipPlain_sound (h : skipPlain b (b :: s) = .ok ((), s')) :
    ∃ v, IsValue IsLooseText v ∧ b :: s = v ++ s' := by
  unfold skipPlain at h
  split at h
  · rename_i e
    subst e
    rw [bind_of_read (skipByte_cons _ _), readWord_iff] at h
    exact ⟨_, .null, by rw [h]; rfl⟩
  split at h
  · rename_i e
    subst e
    rw [bind_of_read (skipByte_cons _ _), readWord_iff] at h
    exact ⟨_, .yes, by rw [h]; rfl⟩
  split at h
  · rename_i e
    subst e
    rw [bind_of_read (skipByte_cons _ _), readWord_iff] at h
    exact ⟨_, .no, by rw [h]; rfl⟩
  split at h
  · rename_i e
    subst e
    rw [bind_of_read (skipByte_cons _ _), skipText_iff] at h
    obtain ⟨w, text, e⟩ := h
    exact ⟨w, .text text, e⟩
  split at h
  · obtain ⟨number, h⟩ := discard_iff.mp h
    obtain ⟨w, numeral, e⟩ := readNumeral_sound h
    exact ⟨w, .number numeral, e⟩
  · cases h

private theorem skipValue_plain (list : b ≠ 91) (object : b ≠ 123) (busy : isGap b = false) :
    skipValue (steps + 1) around (b :: t) =
      (skipPlain b >>= fun _ => skipAfter steps around) (b :: t) := by
  rw [skipValue, bind_of_read (peekValue_cons busy t), if_neg list, if_neg object]
  unfold skipPlain
  split_ifs <;> rfl

theorem soundUpTo_value (sound : SoundUpTo steps)
    (h : skipValue (steps + 1) around s = .ok ((), s')) : BeginsValue around s s' := by
  have start := h
  rw [skipValue, read_bind_iff] at start
  obtain ⟨b, _, look, -⟩ := start
  obtain ⟨busy, gap, t, isGap, rfl, -⟩ := peekValue_iff.mp look
  suffices found : ∃ v w, IsValue IsLooseText v ∧ Closes around w ∧ b :: t = v ++ (w ++ s') by
    obtain ⟨v, w, value, closes, e⟩ := found
    exact ⟨gap, v, w, isGap, value, closes, by rw [e]⟩
  rw [skipValue_gap isGap] at h
  by_cases list : b = 91
  · subst list
    exact sound.list h
  by_cases object : b = 123
  · subst object
    exact sound.object h
  rw [skipValue_plain list object busy, read_bind_iff] at h
  obtain ⟨_, u, plain, h⟩ := h
  obtain ⟨v, value, e⟩ := skipPlain_sound plain
  obtain ⟨w, closes, rfl⟩ := sound.after h
  exact ⟨v, w, value, closes, e⟩

theorem soundUpTo_key (sound : SoundUpTo steps)
    (h : skipKey (steps + 1) (true :: around) s = .ok ((), s')) : BeginsMember around s s' := by
  rw [skipKey, read_bind_iff] at h
  obtain ⟨found, t, look, h⟩ := h
  cases found with
  | none => cases h
  | some b =>
    obtain ⟨-, gap, u, isGap, rfl, rfl⟩ := peek_some_iff.mp look
    dsimp only at h
    by_cases quote : b = 34
    · subst quote
      rw [if_pos rfl, bind_of_read (skipByte_cons _ _), read_bind_iff] at h
      obtain ⟨_, t, name, named⟩ := h
      obtain ⟨key, isText, e⟩ := skipText_iff.mp name
      obtain ⟨_, t', colon, valued⟩ := read_bind_iff.mp named
      obtain ⟨gap', isGap', rfl⟩ := readColon_iff.mp colon
      obtain ⟨gap'', v, w, isGap'', value, closes, rfl⟩ := sound.value valued
      refine ⟨gap, key ++ (gap' ++ 58 :: (gap'' ++ v)), (key, v), w, isGap,
        ⟨key, gap', gap'', rfl, isGap', isGap'', rfl⟩, isText, value, closes, ?_⟩
      rw [e]
      simp
    · rw [if_neg quote] at h
      cases h

theorem soundUpTo_after (sound : SoundUpTo steps)
    (h : skipAfter (steps + 1) around s = .ok ((), s')) : ∃ w, Closes around w ∧ s = w ++ s' := by
  cases around with
  | nil =>
    rw [skipAfter] at h
    cases h
    exact ⟨[], .nil, rfl⟩
  | cons inObject around =>
    rw [skipAfter, read_bind_iff] at h
    obtain ⟨found, t, look, h⟩ := h
    cases found with
    | none => cases h
    | some b =>
      obtain ⟨-, gap, u, isGap, rfl, rfl⟩ := peek_some_iff.mp look
      dsimp only at h
      by_cases comma : b = 44
      · subst comma
        rw [if_pos rfl, bind_of_read (skipByte_cons _ _)] at h
        cases inObject with
        | false =>
          obtain ⟨gap', v, row, items, w, isGap', isRow, value, values, closes, rfl⟩ :=
            (sound.value h).list
          exact ⟨_, .list (.cons (.further isGap isGap') rfl isRow)
            (List.forall_mem_cons.mpr ⟨value, values⟩) closes, by simp⟩
        | true =>
          obtain ⟨gap', m, pair, row, members, w, isGap', member, isRow, names, values, closes,
            rfl⟩ := (sound.key h).object
          exact ⟨_, .object (.cons (.further isGap isGap') member isRow) names values closes,
            by simp⟩
      rw [if_neg comma] at h
      change (if b = closing inObject then (do skipByte; skipAfter steps around) else _ :
        Reader Unit) (b :: u) = _ at h
      by_cases closed : b = closing inObject
      · rw [if_pos closed, bind_of_read (skipByte_cons _ _)] at h
        obtain ⟨w, closes, rfl⟩ := sound.after h
        subst closed
        cases inObject with
        | false => exact ⟨gap ++ 93 :: w, .list (.nil isGap) nofun closes, by simp [closing]⟩
        | true =>
          exact ⟨gap ++ 125 :: w, .object (.nil isGap) nofun nofun closes, by simp [closing]⟩
      · rw [if_neg closed] at h
        cases h

theorem soundUpTo (steps : Nat) : SoundUpTo steps := by
  induction steps with
  | zero =>
    refine ⟨nofun, nofun, fun {around s s'} h => ?_⟩
    cases around with
    | nil =>
      cases h
      exact ⟨[], .nil, rfl⟩
    | cons => cases h
  | succ steps ih =>
    exact ⟨soundUpTo_value ih, soundUpTo_key ih, soundUpTo_after ih⟩

def skipPart (inObject : Bool) (steps : Nat) (around : List Bool) : Reader Unit :=
  if inObject then skipKey steps (inObject :: around) else skipValue steps (inObject :: around)

/-- A value is passed over in so few steps. -/
def IsPassedOver (v : Bytes) : Prop :=
  ∃ n, n + 1 ≤ 2 * v.length ∧ ∀ steps around s, Stops s →
    skipValue (steps + n) around (v ++ s) = skipAfter steps around s

/-- A member or an item is passed over in so few steps. -/
def IsPartPassedOver (inObject : Bool) (w : Bytes) : Prop :=
  (∃ b more, w = b :: more ∧ IsStart b) ∧ ∃ n, n + 1 ≤ 2 * w.length ∧ ∀ steps around s, Stops s →
    skipPart inObject (steps + n) around (w ++ s) = skipAfter steps (inObject :: around) s

theorem skipPart_gap (h : IsGap gap) (inObject : Bool) (steps : Nat) (around : List Bool)
    (s : Bytes) : skipPart inObject steps around (gap ++ s) = skipPart inObject steps around s := by
  cases inObject with
  | false => exact skipValue_gap h steps _ s
  | true =>
    cases steps with
    | zero => rfl
    | succ steps =>
      change skipKey (steps + 1) (true :: around) (gap ++ s) =
        skipKey (steps + 1) (true :: around) s
      rw [skipKey]
      exact bind_congr_read (peek_gap h s)

variable {inObject : Bool} {Part : Bytes → α → Prop} {a : α} {as : List α}

theorem skipAfter_comma (h : IsGap gap) :
    skipAfter (steps + 1) (inObject :: around) (gap ++ 44 :: s) =
      skipPart inObject steps around s := by
  rw [skipAfter, bind_of_read (peek_of_gap h rfl s)]
  dsimp only
  rw [if_pos rfl, bind_of_read (skipByte_cons _ _)]
  rfl

theorem skipAfter_close (h : IsGap gap) :
    skipAfter (steps + 1) (inObject :: around) (gap ++ closing inObject :: s) =
      skipAfter steps around s := by
  have busy : isGap (closing inObject) = false ∧ closing inObject ≠ 44 := by
    revert inObject
    decide
  rw [skipAfter, bind_of_read (peek_of_gap h busy.1 s)]
  dsimp only
  rw [if_neg busy.2]
  change (if closing inObject = closing inObject then (do skipByte; skipAfter steps around) else _ :
    Reader Unit) (closing inObject :: s) = _
  rw [if_pos rfl]
  exact bind_of_read (skipByte_cons _ _)

theorem skipValue_empty (h : IsGap gap) :
    skipValue (steps + 1) around (opening inObject :: (gap ++ closing inObject :: s)) =
      skipAfter steps around s := by
  cases inObject with
  | false =>
    rw [skipValue, bind_of_read (peekValue_cons rfl _)]
    refine (bind_of_read (skipByte_cons _ _)).trans ?_
    exact bind_of_read (peek_of_gap h rfl s)
  | true =>
    rw [skipValue, bind_of_read (peekValue_cons rfl _)]
    refine (bind_of_read (skipByte_cons _ _)).trans ?_
    exact bind_of_read (peek_of_gap h rfl s)

theorem skipValue_open (h : IsGap gap) (start : IsStart b) :
    skipValue (steps + 1) around (opening inObject :: (gap ++ b :: s)) =
      skipPart inObject steps around (b :: s) := by
  obtain ⟨busy, notList, notObject⟩ := start
  cases inObject with
  | false =>
    rw [skipValue, bind_of_read (peekValue_cons rfl _)]
    refine (bind_of_read (skipByte_cons _ _)).trans ((bind_of_read (peek_of_gap h busy s)).trans ?_)
    dsimp only
    rw [if_neg notList]
    rfl
  | true =>
    rw [skipValue, bind_of_read (peekValue_cons rfl _)]
    refine (bind_of_read (skipByte_cons _ _)).trans ((bind_of_read (peek_of_gap h busy s)).trans ?_)
    dsimp only
    rw [if_neg notObject]
    rfl

theorem Parts.stops (parts : Parts Part false w as) (inObject : Bool) (s : Bytes) :
    Stops (w ++ closing inObject :: s) := by
  cases parts with
  | nil isGap =>
    refine Stops.gap isGap ?_
    cases inObject with
    | false => exact stops_cons rfl (by decide) (by decide)
    | true => exact stops_cons rfl (by decide) (by decide)
  | cons lead =>
    cases lead with
    | further isGap =>
      rw [List.append_assoc, List.append_assoc]
      exact Stops.gap isGap (stops_cons rfl (by decide) (by decide))

theorem Parts.passed {further : Bool} (parts : Parts Part further w as) (behind : further = false)
    (each : ∀ a ∈ as, ∀ v, Part v a → IsPartPassedOver inObject v) :
    ∃ n, n ≤ 2 * w.length + 1 ∧ ∀ steps around s,
      skipAfter (steps + n) (inObject :: around) (w ++ closing inObject :: s) =
        skipAfter steps around s := by
  induction parts with
  | nil isGap => exact ⟨1, by omega, fun steps around s => skipAfter_close isGap⟩
  | @cons _ _ v row a as lead part rest ih =>
    subst behind
    cases lead with
    | @further gap gap' isGap isGap' =>
      obtain ⟨n, few, run⟩ := ih rfl fun a ha => each a (List.mem_cons_of_mem _ ha)
      obtain ⟨-, m, fewer, pass⟩ := each a List.mem_cons_self v part
      refine ⟨n + m + 1, ?_, fun steps around s => ?_⟩
      · simp only [List.length_append, List.length_cons]
        omega
      · have form : (gap ++ 44 :: gap') ++ (v ++ row) ++ closing inObject :: s =
            gap ++ 44 :: (gap' ++ (v ++ (row ++ closing inObject :: s))) := by simp
        rw [form, ← Nat.add_assoc, ← Nat.add_assoc, skipAfter_comma isGap, skipPart_gap isGap',
          pass _ _ _ (rest.stops inObject s), run]

theorem Enclosed.isPassedOver (inObject : Bool) (h : Enclosed inObject Part w as)
    (each : ∀ a ∈ as, ∀ v, Part v a → IsPartPassedOver inObject v) : IsPassedOver w := by
  obtain ⟨inner, parts, rfl⟩ := h
  cases parts with
  | nil isGap =>
    refine ⟨1, ?_, fun steps around s _ => ?_⟩
    · rw [List.length_cons]
      omega
    · rw [List.cons_append, List.append_assoc]
      exact skipValue_empty isGap
  | @cons _ gap v row a as lead part rest =>
    cases lead with
    | first isGap =>
      obtain ⟨⟨b, more, rfl, start⟩, m, fewer, pass⟩ := each a List.mem_cons_self v part
      obtain ⟨n, few, run⟩ := rest.passed rfl fun a ha => each a (List.mem_cons_of_mem _ ha)
      refine ⟨n + m + 1, ?_, fun steps around s _ => ?_⟩
      · simp only [List.length_append, List.length_cons, List.length_nil] at fewer ⊢
        omega
      · have form : (opening inObject :: (gap ++ (b :: more ++ row) ++ [closing inObject])) ++ s =
            opening inObject :: (gap ++ b :: (more ++ (row ++ closing inObject :: s))) := by simp
        have again := pass (steps + n) around _ (rest.stops inObject s)
        rw [List.cons_append] at again
        rw [form, ← Nat.add_assoc, ← Nat.add_assoc, skipValue_open isGap start, again, run]

private theorem isPassedOver_plain (h : ∀ s, Stops s → skipPlain b (b :: (w ++ s)) = .ok ((), s))
    (busy : isGap b = false) (list : b ≠ 91) (object : b ≠ 123) : IsPassedOver (b :: w) := by
  refine ⟨1, ?_, fun steps around s stops => ?_⟩
  · rw [List.length_cons]
    omega
  rw [List.cons_append, skipValue_plain list object busy, bind_of_read (h s stops)]

private theorem skipPlain_number (digit : b = 45 ∨ isDigit b = true) :
    skipPlain b = discard (readNumeral .badNumber) := by
  have other : ∀ c : UInt8, (c = 45 ∨ isDigit c = true) = false → b ≠ c := by
    rintro c no rfl
    exact of_eq_false (by simpa using no) digit
  unfold skipPlain
  rw [if_neg (other 110 (by simp; decide)), if_neg (other 116 (by simp; decide)),
    if_neg (other 102 (by simp; decide)), if_neg (other 34 (by simp; decide)), if_pos digit]

theorem IsLooseText.isPassedOver (h : IsLooseText w) : IsPassedOver w := by
  obtain ⟨more, rfl⟩ := h.head
  refine isPassedOver_plain (fun s _ => ?_) rfl (by decide) (by decide)
  exact (bind_of_read (skipByte_cons _ _)).trans (skipText_iff.mpr ⟨_, h, rfl⟩)

theorem IsNumeral.isPassedOver {number : Numeral} (h : IsNumeral w number) : IsPassedOver w := by
  obtain ⟨b, more, rfl, digit⟩ := h.head
  obtain ⟨busy, -, -⟩ := isStart_of_isDigit digit
  refine isPassedOver_plain (fun s stops => ?_) busy ?_ ?_
  · rw [skipPlain_number digit]
    exact discard_iff.mpr ⟨number, readNumeral_complete h stops⟩
  all_goals
    rintro rfl
    rcases digit with h | h <;> cases h

theorem MemberOf.isPassedOver {m : Bytes × Bytes} (h : MemberOf Eq w m) (name : IsLooseText m.1)
    (value : IsPassedOver m.2) : IsPartPassedOver true w := by
  obtain ⟨key, gap, gap', rfl, isGap, isGap', rfl⟩ := h
  obtain ⟨n, few, pass⟩ := value
  obtain ⟨more, e⟩ := name.head
  refine ⟨⟨34, more ++ (gap ++ 58 :: (gap' ++ m.2)), by rw [e, List.cons_append], rfl, by decide,
    by decide⟩, n + 1, ?_, fun steps around s stops => ?_⟩
  · simp only [List.length_append, List.length_cons]
    omega
  · have form : m.1 ++ (gap ++ 58 :: (gap' ++ m.2)) ++ s =
        34 :: (more ++ (gap ++ 58 :: (gap' ++ (m.2 ++ s)))) := by
      rw [e]
      simp
    have named : skipText .plain (more ++ (gap ++ 58 :: (gap' ++ (m.2 ++ s)))) =
        .ok ((), gap ++ 58 :: (gap' ++ (m.2 ++ s))) := by
      refine skipText_iff.mpr ⟨m.1, name, ?_⟩
      rw [e, List.cons_append]
    change skipKey (steps + n + 1) (true :: around) _ = _
    rw [form, skipKey, bind_of_read (peek_cons rfl _)]
    dsimp only
    rw [if_pos rfl, bind_of_read (skipByte_cons _ _), bind_of_read named,
      bind_of_read (readColon_iff.mpr ⟨gap, isGap, rfl⟩), skipValue_gap isGap', pass _ _ _ stops]

theorem IsValue.isPassedOver (h : IsValue IsLooseText w) : IsPassedOver w := by
  induction h with
  | null => exact isPassedOver_plain (fun s _ => readWord_iff.mpr rfl) rfl (by decide) (by decide)
  | yes => exact isPassedOver_plain (fun s _ => readWord_iff.mpr rfl) rfl (by decide) (by decide)
  | no => exact isPassedOver_plain (fun s _ => readWord_iff.mpr rfl) rfl (by decide) (by decide)
  | number number => exact number.isPassedOver
  | text text => exact text.isPassedOver
  | list list values ih =>
    refine Enclosed.isPassedOver false list fun v hv w e => ?_
    subst e
    obtain ⟨n, few, run⟩ := ih w hv
    exact ⟨(values w hv).head fun _ => IsLooseText.head, n, few, fun steps around => run steps _⟩
  | object object names values ih =>
    exact Enclosed.isPassedOver true object fun m hm w member =>
      member.isPassedOver (names m hm) (ih m hm)

/-- A reader takes the values of a form: after a gap it takes one of them and nothing else, and it
takes each of them, if what follows does not continue a number. -/
structure Reads {α : Type} (read : Reader α) (Form : Bytes → α → Prop) : Prop where
  sound : ∀ {s s' : Bytes} {a : α}, read s = .ok (a, s') →
    ∃ gap w, IsGap gap ∧ Form w a ∧ s = gap ++ (w ++ s')
  complete : ∀ {gap w s : Bytes} {a : α}, IsGap gap → Form w a → Stops s →
    read (gap ++ (w ++ s)) = .ok (a, s)

theorem reads_skipAny : Reads skipAny fun w _ => IsValue IsLooseText w where
  sound h := by
    obtain ⟨gap, v, w, isGap, value, closes, rfl⟩ := (soundUpTo _).value h
    cases closes
    exact ⟨gap, v, isGap, value, rfl⟩
  complete {gap w s a} isGap value stops := by
    obtain ⟨n, few, run⟩ := value.isPassedOver
    have enough : n ≤ 2 * (gap ++ (w ++ s)).length + 2 := by
      simp only [List.length_append]
      omega
    obtain ⟨steps, e⟩ := Nat.exists_eq_add_of_le' enough
    rw [skipAny, e, skipValue_gap isGap, run steps [] s stops, skipAfter]
    rfl

end LayeredTree.Json
