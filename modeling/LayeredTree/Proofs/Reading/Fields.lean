import LayeredTree.Proofs.Reading.Values

set_option autoImplicit false

namespace LayeredTree

namespace Hex

/-- Two digits of either case for each byte. -/
inductive Spells : Bytes → Bytes → Prop
  | nil : Spells [] []
  | cons {high low h l : UInt8} {text bytes : Bytes} : value? high = some h → value? low = some l →
      Spells text bytes → Spells (high :: low :: text) ((h * 16 + l) :: bytes)

theorem decodePairs_of_spells {text bytes : Bytes} (h : Spells text bytes) (position : Nat) :
    decodePairs position text = .ok bytes := by
  induction h generalizing position with
  | nil => rfl
  | cons high low _ ih =>
    rw [decodePairs, high, low]
    dsimp only
    rw [ih]
    rfl

theorem spells_of_decodePairs (text : Bytes) {bytes : Bytes} {position : Nat}
    (even : text.length % 2 = 0) (h : decodePairs position text = .ok bytes) :
    Spells text bytes := by
  match text, even, h with
  | [], _, h =>
    cases h
    exact .nil
  | [_], even, _ => cases even
  | high :: low :: rest, even, h =>
    rw [decodePairs] at h
    cases upper : value? high with
    | none =>
      rw [upper] at h
      cases h
    | some n =>
      cases lower : value? low with
      | none =>
        rw [upper, lower] at h
        cases h
      | some m =>
        rw [upper, lower] at h
        dsimp only at h
        cases tail : decodePairs (position + 2) rest with
        | error fault =>
          rw [tail] at h
          cases h
        | ok bytes' =>
          rw [tail] at h
          cases h
          refine .cons upper lower (spells_of_decodePairs rest ?_ tail)
          rw [List.length_cons, List.length_cons] at even
          omega

theorem Spells.even {text bytes : Bytes} (h : Spells text bytes) : text.length % 2 = 0 := by
  induction h with
  | nil => rfl
  | cons _ _ _ ih =>
    rw [List.length_cons, List.length_cons]
    omega

theorem decode_eq_ok_iff {text bytes : Bytes} : decode text = .ok bytes ↔ Spells text bytes := by
  unfold decode
  constructor
  · intro h
    split at h
    · cases h
    · exact spells_of_decodePairs text (by omega) h
  · intro h
    rw [if_neg (by rw [h.even]; decide)]
    exact decodePairs_of_spells h 0

end Hex

theorem Signature.parse_eq_ok_iff {s : String} {signature : Signature} :
    parse s = .ok signature ↔ Hex.Spells (trimmedBytes s) signature.bytes := by
  rw [← Hex.decode_eq_ok_iff]
  unfold parse
  cases Hex.decode (trimmedBytes s) with
  | error fault => exact ⟨nofun, nofun⟩
  | ok bytes =>
    dsimp only
    rw [Except.ok.injEq]
    unfold ofBytes
    constructor
    · intro h
      split at h
      · cases h
        rfl
      · cases h
    · rintro rfl
      rw [dif_pos signature.length_eq]

theorem Digest.parse_eq_ok_iff {s : String} {digest : Digest} :
    parse s = .ok digest ↔ Hex.Spells (trimmedBytes s) digest.bytes := by
  rw [← Hex.decode_eq_ok_iff]
  unfold parse
  cases Hex.decode (trimmedBytes s) with
  | error fault => exact ⟨nofun, nofun⟩
  | ok bytes =>
    dsimp only
    rw [Except.ok.injEq]
    unfold ofBytes
    constructor
    · intro h
      split at h
      · cases h
        rfl
      · cases h
    · rintro rfl
      rw [dif_pos digest.length_eq]

namespace Json

variable {α : Type} {b : UInt8} {s s' t u w gap lead : Bytes} {first : Bool}

theorem Lead.append (h : Lead first lead) (isGap : IsGap gap) : Lead first (lead ++ gap) := by
  cases h with
  | first before => exact .first (before.append isGap)
  | further before behind =>
    rw [List.append_assoc, List.cons_append]
    exact .further before (behind.append isGap)

theorem closeList_cons (s : Bytes) : closeList (93 :: s) = .ok ((), s) := rfl

theorem nextItem_false_iff : nextItem first s = .ok (false, s') ↔
    ∃ gap t, IsGap gap ∧ s = gap ++ 93 :: t ∧ s' = 93 :: t := by
  rw [nextItem, read_bind_iff]
  constructor
  · rintro ⟨found, u, look, h⟩
    cases found with
    | none => cases h
    | some b =>
      obtain ⟨-, gap, t, isGap, rfl, rfl⟩ := peek_some_iff.mp look
      dsimp only at h
      split at h
      · rename_i closed
        subst closed
        cases h
        exact ⟨gap, t, isGap, rfl, rfl⟩
      split at h
      · cases h
      split at h
      · obtain ⟨_, _, _, h⟩ := read_bind_iff.mp h
        obtain ⟨found, _, _, h⟩ := read_bind_iff.mp h
        cases found with
        | none => cases h
        | some c =>
          dsimp only at h
          split at h <;> cases h
      · cases h
  · rintro ⟨gap, t, isGap, rfl, rfl⟩
    exact ⟨_, _, peek_of_gap isGap rfl t, rfl⟩

theorem nextItem_true_iff : nextItem first s = .ok (true, s') ↔ ∃ lead b t, Lead first lead ∧
    isGap b = false ∧ b ≠ 93 ∧ s = lead ++ b :: t ∧ s' = b :: t := by
  rw [nextItem, read_bind_iff]
  constructor
  · rintro ⟨found, u, look, h⟩
    cases found with
    | none => cases h
    | some b =>
      obtain ⟨busy, gap, t, isGap, rfl, rfl⟩ := peek_some_iff.mp look
      dsimp only at h
      split at h
      · cases h
      rename_i open'
      cases first with
      | true =>
        cases h
        exact ⟨gap, b, t, .first isGap, busy, open', rfl, rfl⟩
      | false =>
        rw [if_neg (by decide)] at h
        split at h
        · rename_i comma
          subst comma
          rw [bind_of_read (skipByte_cons _ _), read_bind_iff] at h
          obtain ⟨found, v, look', h⟩ := h
          cases found with
          | none => cases h
          | some c =>
            obtain ⟨busy', gap', t', isGap', rfl, rfl⟩ := peek_some_iff.mp look'
            dsimp only at h
            split at h
            · cases h
            · rename_i open''
              cases h
              exact ⟨gap ++ 44 :: gap', c, t', .further isGap isGap', busy', open'', by simp, rfl⟩
        · cases h
  · rintro ⟨lead, b, t, standing, busy, open', rfl, rfl⟩
    cases standing with
    | first isGap =>
      refine ⟨_, _, peek_of_gap isGap busy t, ?_⟩
      dsimp only
      rw [if_neg open']
      rfl
    | @further gap gap' isGap isGap' =>
      rw [List.append_assoc, List.cons_append]
      refine ⟨_, _, peek_of_gap isGap rfl _, ?_⟩
      dsimp only
      rw [if_neg (by decide), if_neg (by decide), if_pos rfl, bind_of_read (skipByte_cons _ _),
        bind_of_read (peek_of_gap isGap' busy t)]
      dsimp only
      rw [if_neg open']
      rfl

theorem nextKey_none_iff : nextKey first s = .ok (none, s') ↔
    ∃ gap t, IsGap gap ∧ s = gap ++ 125 :: t ∧ s' = 125 :: t := by
  rw [nextKey, read_bind_iff]
  constructor
  · rintro ⟨found, u, look, h⟩
    cases found with
    | none => cases h
    | some b =>
      obtain ⟨-, gap, t, isGap, rfl, rfl⟩ := peek_some_iff.mp look
      dsimp only at h
      split at h
      · rename_i closed
        subst closed
        cases h
        exact ⟨gap, t, isGap, rfl, rfl⟩
      have named : ∀ {v : Bytes}, (do skipByte; some <$> readText : Reader (Option String)) v ≠
          .ok (none, s') := by
        intro v h
        obtain ⟨_, _, _, h⟩ := read_bind_iff.mp h
        obtain ⟨_, _, e⟩ := read_map_iff.mp h
        cases e
      split at h
      · split at h
        · cases h
        · exact absurd h named
      split at h
      · obtain ⟨_, _, _, h⟩ := read_bind_iff.mp h
        obtain ⟨found, _, _, h⟩ := read_bind_iff.mp h
        cases found with
        | none => cases h
        | some c =>
          dsimp only at h
          split at h
          · cases h
          split at h
          · cases h
          · exact absurd h named
      · cases h
  · rintro ⟨gap, t, isGap, rfl, rfl⟩
    exact ⟨_, _, peek_of_gap isGap rfl t, rfl⟩

theorem nextKey_some_iff {name : String} : nextKey first s = .ok (some name, s') ↔
    ∃ lead key, Lead first lead ∧ IsText key name ∧ s = lead ++ (key ++ s') := by
  have named : ∀ {v : Bytes}, (do skipByte; some <$> readText : Reader (Option String)) (34 :: v) =
      .ok (some name, s') ↔ ∃ key, IsText key name ∧ 34 :: v = key ++ s' := by
    intro v
    rw [bind_of_read (skipByte_cons _ _), read_map_iff, ← readText_iff]
    constructor
    · rintro ⟨_, h, ⟨⟩⟩
      exact h
    · exact fun h => ⟨_, h, rfl⟩
  rw [nextKey, read_bind_iff]
  constructor
  · rintro ⟨found, u, look, h⟩
    cases found with
    | none => cases h
    | some b =>
      obtain ⟨busy, gap, t, isGap, rfl, rfl⟩ := peek_some_iff.mp look
      dsimp only at h
      split at h
      · cases h
      cases first with
      | true =>
        rw [if_pos rfl] at h
        split at h
        · cases h
        · rename_i quote
          obtain rfl := not_not.mp quote
          obtain ⟨key, text, e⟩ := named.mp h
          exact ⟨gap, key, .first isGap, text, by rw [e]⟩
      | false =>
        rw [if_neg (by decide)] at h
        split at h
        · rename_i comma
          subst comma
          rw [bind_of_read (skipByte_cons _ _), read_bind_iff] at h
          obtain ⟨found, v, look', h⟩ := h
          cases found with
          | none => cases h
          | some c =>
            obtain ⟨busy', gap', t', isGap', rfl, rfl⟩ := peek_some_iff.mp look'
            dsimp only at h
            split at h
            · cases h
            split at h
            · cases h
            · rename_i quote
              obtain rfl := not_not.mp quote
              obtain ⟨key, text, e⟩ := named.mp h
              exact ⟨gap ++ 44 :: gap', key, .further isGap isGap', text, by rw [e]; simp⟩
        · cases h
  · rintro ⟨lead, key, standing, text, rfl⟩
    obtain ⟨more, e⟩ := text.loose.head
    have read := named.mpr ⟨key, text, by rw [e, List.cons_append]⟩
    rw [e, List.cons_append]
    cases standing with
    | first isGap =>
      refine ⟨_, _, peek_of_gap isGap rfl _, ?_⟩
      dsimp only
      rw [if_neg (by decide), if_pos rfl, if_neg (by decide)]
      exact read
    | @further gap gap' isGap isGap' =>
      rw [List.append_assoc, List.cons_append]
      refine ⟨_, _, peek_of_gap isGap rfl _, ?_⟩
      dsimp only
      rw [if_neg (by decide), if_neg (by decide), if_pos rfl, bind_of_read (skipByte_cons _ _),
        bind_of_read (peek_of_gap isGap' rfl _)]
      dsimp only
      rw [if_neg (by decide), if_neg (by decide)]
      exact read

theorem refuseKind_ne {wanted : String} {a : α} : refuseKind wanted s ≠ .ok (a, s') := by
  intro h
  obtain ⟨_, _, _, h⟩ := read_bind_iff.mp h
  split at h
  all_goals try split at h
  all_goals
    repeat obtain ⟨_, _, _, h⟩ := read_bind_iff.mp h
    cases h

theorem Parts.length_le {Part : Bytes → α → Prop} {as : List α}
    (h : Parts Part first w as) (each : ∀ {v a}, Part v a → v ≠ []) : as.length ≤ w.length := by
  induction h with
  | nil => exact Nat.zero_le _
  | cons _ part _ ih =>
    have some := List.length_pos_iff.mpr (each part)
    simp only [List.length_cons, List.length_append]
    omega

theorem IsText.head {text : String} (h : IsText w text) : ∃ more, w = 34 :: more := h.loose.head

theorem IsText.value {text : String} (h : IsText w text) : IsValue IsLooseText w := .text h.loose

end Json

namespace PatchRecord

open Json

variable {α : Type} {Form : Bytes → α → Prop} {Means : String → α → Prop} {w s s' inner : Bytes}
variable {a : α} {read : Reader α} {parse : String → Except Fault α} {texts : List String}
variable {first : Bool} {steps : Nat}

def IsWord (w : Bytes) (word : UInt32) : Prop := IsWhole w ∧ digitsValue w = word.toNat

/-- A text in its written form that means something. -/
def TextOf {α : Type} (Means : String → α → Prop) (w : Bytes) (a : α) : Prop :=
  ∃ text, IsText w text ∧ Means text a

/-- Null for nothing, or the written form of something. -/
inductive OrNull {α : Type} (Form : Bytes → α → Prop) : Bytes → Option α → Prop
  | null : OrNull Form (110 :: nullTail) none
  | some {w : Bytes} {a : α} : Form w a → OrNull Form w (some a)

abbrev IsTexts : Bytes → List String → Prop := Enclosed false IsText

theorem IsWord.numeral {word : UInt32} (h : IsWord w word) : IsNumeral w ⟨false, w, none, none⟩ :=
  ⟨[], [], [], .none, h.1, .none, .none, by simp⟩

theorem reads_word : Reads readWord32 IsWord where
  sound {s s' word} h := by
    obtain ⟨b, t, look, h⟩ := read_bind_iff.mp h
    obtain ⟨-, gap, u, isGap, rfl, rfl⟩ := peekValue_iff.mp look
    split at h
    · obtain ⟨n, v, read, h⟩ := read_bind_iff.mp h
      obtain ⟨number, v', numeral, value⟩ := read_bind_iff.mp read
      obtain ⟨w, isNumeral, e⟩ := readNumeral_sound numeral
      cases found : number.value with
      | error fault =>
        rw [found] at value
        cases value
      | ok n' =>
        rw [found] at value
        cases value
        cases fits : wordOf n with
        | error fault =>
          rw [fits] at h
          cases h
        | ok word' =>
          rw [fits] at h
          cases h
          rw [wordOf_eq_ok_iff.mp fits] at found
          obtain ⟨plain, none, flat, value, -⟩ := value_eq_natural_iff.mp found
          obtain ⟨sign, fraction, power, signed, whole, isFraction, isPower, rfl⟩ := isNumeral
          rw [plain] at signed
          rw [none] at isFraction
          rw [flat] at isPower
          cases signed
          cases isFraction
          cases isPower
          exact ⟨gap, number.whole, isGap, ⟨whole, value⟩, by rw [e]; simp⟩
    · exact absurd h refuseKind_ne
  complete {gap w s word} isGap form stops := by
    have number := form.numeral
    have small : word.toNat ≤ maxWord := by
      have fits := word.toNat_lt
      rw [maxWord]
      omega
    have value : Numeral.value ⟨false, w, none, none⟩ = .ok (.natural word.toNat) :=
      value_eq_natural_iff.mpr ⟨rfl, rfl, rfl, form.2, small⟩
    have read : readNumber (w ++ s) = .ok (.natural word.toNat, s) := by
      rw [readNumber, bind_of_read (readNumeral_complete number stops), value]
      rfl
    obtain ⟨b, more, rfl, digit⟩ := number.head
    obtain ⟨busy, -, -⟩ := isStart_of_isDigit digit
    rw [List.cons_append] at read
    rw [readWord32, List.cons_append, bind_of_read (peekValue_of_gap isGap busy _), if_pos digit,
      bind_of_read read, wordOf_eq_ok_iff.mpr rfl]
    rfl

theorem reads_parsed (wanted : String) (means : ∀ text a, parse text = .ok a ↔ Means text a) :
    Reads (readParsed wanted parse) (TextOf Means) where
  sound {s s' a} h := by
    obtain ⟨b, t, look, h⟩ := read_bind_iff.mp h
    obtain ⟨-, gap, u, isGap, rfl, rfl⟩ := peekValue_iff.mp look
    split at h
    · rename_i quote
      subst quote
      rw [bind_of_read (skipByte_cons _ _), read_bind_iff] at h
      obtain ⟨text, v, read, h⟩ := h
      obtain ⟨w, isText, e⟩ := readText_iff.mp read
      cases parsed : parse text with
      | error fault =>
        rw [parsed] at h
        cases h
      | ok a' =>
        rw [parsed] at h
        cases h
        exact ⟨gap, w, isGap, ⟨text, isText, (means text a).mp parsed⟩, by rw [e]⟩
    · exact absurd h refuseKind_ne
  complete {gap w s a} isGap form stops := by
    obtain ⟨text, isText, meant⟩ := form
    obtain ⟨more, e⟩ := isText.head
    have read : readText (more ++ s) = .ok (text, s) :=
      readText_iff.mpr ⟨w, isText, by rw [e, List.cons_append]⟩
    rw [e, readParsed, List.cons_append, bind_of_read (peekValue_of_gap isGap rfl _), if_pos rfl,
      bind_of_read (skipByte_cons _ _), bind_of_read read, (means text a).mpr meant]
    rfl

theorem reads_optional (reads : Reads read Form)
    (start : ∀ {w a}, Form w a → ∃ b more, w = b :: more ∧ isGap b = false ∧ b ≠ 110) :
    Reads (readOptional read) (OrNull Form) where
  sound {s s' a} h := by
    obtain ⟨found, t, look, value⟩ := read_bind_iff.mp h
    obtain ⟨⟨gap, isGap, rfl⟩, -, -⟩ := peek_iff.mp look
    split at value
    · obtain ⟨-, -, u, -, -, rfl⟩ := peek_some_iff.mp look
      rw [bind_of_read (skipByte_cons _ _), read_bind_iff] at value
      obtain ⟨_, _, word, done⟩ := value
      cases done
      exact ⟨gap, _, isGap, .null, by rw [readWord_iff.mp word]; rfl⟩
    · obtain ⟨a', inner, rfl⟩ := read_map_iff.mp value
      obtain ⟨gap', w, isGap', form, rfl⟩ := reads.sound inner
      exact ⟨gap ++ gap', w, isGap.append isGap', .some form, by rw [List.append_assoc]⟩
  complete {gap w s a} isGap form stops := by
    cases form with
    | null =>
      rw [readOptional, List.cons_append, bind_of_read (peek_of_gap isGap rfl _)]
      rfl
    | some form =>
      obtain ⟨b, more, rfl, busy, other⟩ := start form
      have read := reads.complete isGap_nil form stops
      rw [List.nil_append, List.cons_append] at read
      rw [readOptional, List.cons_append, bind_of_read (peek_of_gap isGap busy _)]
      generalize found : some b = next
      split
      · cases found
        exact absurd rfl other
      · exact map_of_read read

theorem reads_text : Reads (readParsed "a string" .ok) IsText := by
  have reads : Reads (readParsed "a string" .ok) (TextOf Eq) :=
    reads_parsed "a string" fun text a => Except.ok.injEq text a ▸ Iff.rfl
  refine ⟨fun h => ?_, fun isGap form => reads.complete isGap ⟨_, form, rfl⟩⟩
  obtain ⟨gap, w, isGap, ⟨text, isText, rfl⟩, e⟩ := reads.sound h
  exact ⟨gap, w, isGap, isText, e⟩

theorem readTexts_sound (h : readTexts steps first s = .ok (texts, s')) :
    ∃ inner t, Parts IsText first inner texts ∧ s = inner ++ 93 :: t ∧ s' = 93 :: t := by
  induction steps generalizing first s texts with
  | zero => cases h
  | succ steps ih =>
    obtain ⟨more, u, next, h⟩ := read_bind_iff.mp h
    cases more with
    | false =>
      obtain ⟨gap, t, isGap, rfl, rfl⟩ := nextItem_false_iff.mp next
      cases h
      exact ⟨gap, t, .nil isGap, rfl, rfl⟩
    | true =>
      obtain ⟨lead, b, t, standing, -, -, rfl, rfl⟩ := nextItem_true_iff.mp next
      obtain ⟨text, v, item, h⟩ := read_bind_iff.mp h
      obtain ⟨rest, v', items, h⟩ := read_bind_iff.mp h
      cases h
      obtain ⟨gap, w, isGap, isText, e⟩ := reads_text.sound item
      obtain ⟨inner, t', parts, rfl, rfl⟩ := ih items
      refine ⟨(lead ++ gap) ++ (w ++ inner), t', .cons (standing.append isGap) isText parts, ?_,
        rfl⟩
      rw [e]
      simp

theorem readTexts_complete (h : Parts IsText first inner texts) (enough : texts.length < steps)
    (t : Bytes) : readTexts steps first (inner ++ 93 :: t) = .ok (texts, 93 :: t) := by
  induction h generalizing steps with
  | nil isGap =>
    obtain ⟨steps, rfl⟩ := Nat.exists_eq_add_of_lt enough
    rw [readTexts, bind_of_read (nextItem_false_iff.mpr ⟨_, t, isGap, rfl, rfl⟩)]
    rfl
  | @cons _ lead w rest text items standing isText parts ih =>
    cases steps with
    | zero => cases enough
    | succ steps =>
      obtain ⟨more, rfl⟩ := isText.head
      have item := reads_text.complete isGap_nil isText (parts.stops false t)
      rw [List.nil_append, List.cons_append] at item
      have form : lead ++ (34 :: more ++ rest) ++ 93 :: t =
          lead ++ 34 :: (more ++ (rest ++ 93 :: t)) := by simp
      rw [form, readTexts, bind_of_read (nextItem_true_iff.mpr ⟨lead, 34, _, standing, rfl,
        by decide, rfl, rfl⟩), if_pos rfl]
      refine (bind_of_read item).trans ?_
      exact bind_of_read (ih (Nat.lt_of_succ_lt_succ enough))

theorem reads_markers : Reads readMarkers IsTexts where
  sound {s s' texts} h := by
    obtain ⟨b, t, look, h⟩ := read_bind_iff.mp h
    obtain ⟨-, gap, u, isGap, rfl, rfl⟩ := peekValue_iff.mp look
    split at h
    · rename_i list
      subst list
      rw [bind_of_read (skipByte_cons _ _),
        bind_of_read (show (get : Reader Bytes) u = .ok (u, u) from rfl), read_bind_iff] at h
      obtain ⟨texts', v, items, h⟩ := h
      obtain ⟨inner, t, parts, rfl, rfl⟩ := readTexts_sound items
      rw [bind_of_read (closeList_cons t)] at h
      cases h
      exact ⟨gap, _, isGap, ⟨inner, parts, rfl⟩, by simp [opening, closing]⟩
    · exact absurd h refuseKind_ne
  complete {gap w s texts} isGap form stops := by
    obtain ⟨inner, parts, rfl⟩ := form
    have few : texts.length ≤ inner.length := parts.length_le fun text => by
      obtain ⟨more, rfl⟩ := text.head
      exact List.cons_ne_nil _ _
    have form : opening false :: (inner ++ [closing false]) ++ s = 91 :: (inner ++ 93 :: s) := by
      simp [opening, closing]
    have items : readTexts ((inner ++ 93 :: s).length + 1) true (inner ++ 93 :: s) = _ :=
      readTexts_complete parts (by rw [List.length_append]; omega) s
    rw [form, readMarkers, bind_of_read (peekValue_of_gap isGap rfl _), if_pos rfl,
      bind_of_read (skipByte_cons _ _),
      bind_of_read (show (get : Reader Bytes) (inner ++ 93 :: s) = .ok (_, _) from rfl),
      bind_of_read items, bind_of_read (closeList_cons s)]
    rfl

end PatchRecord
end LayeredTree
