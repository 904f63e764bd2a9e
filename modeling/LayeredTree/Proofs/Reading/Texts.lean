import LayeredTree.Proofs.Written.Texts
import Mathlib.Data.List.TakeWhile

set_option autoImplicit false

namespace LayeredTree

namespace Json

variable {b c : UInt8} {s s' gap w out digits : Bytes} {state : TextState}

def IsGap (gap : Bytes) : Prop := ∀ b ∈ gap, isGap b = true

theorem isGap_nil : IsGap [] := by simp [IsGap]

theorem isGap_of_all (h : gap.all isGap = true) : IsGap gap := List.all_eq_true.mp h

theorem peek_iff {found : Option UInt8} : peek s = .ok (found, s') ↔
    (∃ gap, IsGap gap ∧ s = gap ++ s') ∧ found = s'.head? ∧ ∀ b ∈ s'.head?, isGap b = false := by
  constructor
  · intro h
    obtain ⟨rfl, rfl⟩ : (s.dropWhile isGap).head? = found ∧ s.dropWhile isGap = s' := by
      simpa [peek] using h
    refine ⟨⟨s.takeWhile isGap, fun b hb => List.mem_takeWhile_imp hb, ?_⟩, rfl, fun b hb => ?_⟩
    · exact (List.takeWhile_append_dropWhile).symm
    · have head := List.head?_dropWhile_not isGap s
      rw [Option.mem_def.mp hb] at head
      simpa using head
  · rintro ⟨⟨gap, isGap, rfl⟩, rfl, busy⟩
    unfold peek
    rw [List.dropWhile_append_of_pos isGap]
    cases s' with
    | nil => rfl
    | cons b t => rw [List.dropWhile_cons_of_neg (by simp [busy b rfl])]

theorem peek_some_iff : peek s = .ok (some b, s') ↔
    isGap b = false ∧ ∃ gap t, IsGap gap ∧ s = gap ++ b :: t ∧ s' = b :: t := by
  rw [peek_iff]
  constructor
  · rintro ⟨⟨gap, isGap, rfl⟩, found, busy⟩
    obtain ⟨t, rfl⟩ := List.head?_eq_some_iff.mp found.symm
    exact ⟨busy b rfl, gap, t, isGap, rfl, rfl⟩
  · rintro ⟨busy, gap, t, isGap, rfl, rfl⟩
    exact ⟨⟨gap, isGap, rfl⟩, rfl, by simpa using busy⟩

theorem peek_none_iff : peek s = .ok (none, s') ↔ IsGap s ∧ s' = [] := by
  rw [peek_iff]
  constructor
  · rintro ⟨⟨gap, isGap, rfl⟩, found, -⟩
    obtain rfl := List.head?_eq_none_iff.mp found.symm
    exact ⟨by rwa [List.append_nil], rfl⟩
  · rintro ⟨isGap, rfl⟩
    exact ⟨⟨s, isGap, (List.append_nil s).symm⟩, rfl, nofun⟩

theorem peekValue_iff : peekValue s = .ok (b, s') ↔
    isGap b = false ∧ ∃ gap t, IsGap gap ∧ s = gap ++ b :: t ∧ s' = b :: t := by
  rw [← peek_some_iff, peekValue, read_bind_iff]
  constructor
  · rintro ⟨found, t, h, h'⟩
    cases found with
    | none => cases h'
    | some b' =>
      cases h'
      exact h
  · exact fun h => ⟨_, _, h, rfl⟩

theorem peek_of_gap (h : IsGap gap) (busy : isGap b = false) (s : Bytes) :
    peek (gap ++ b :: s) = .ok (some b, b :: s) :=
  peek_some_iff.mpr ⟨busy, gap, s, h, rfl, rfl⟩

theorem peek_cons (busy : isGap b = false) (s : Bytes) : peek (b :: s) = .ok (some b, b :: s) :=
  peek_of_gap isGap_nil busy s

theorem peekValue_of_gap (h : IsGap gap) (busy : isGap b = false) (s : Bytes) :
    peekValue (gap ++ b :: s) = .ok (b, b :: s) :=
  peekValue_iff.mpr ⟨busy, gap, s, h, rfl, rfl⟩

theorem peekValue_cons (busy : isGap b = false) (s : Bytes) :
    peekValue (b :: s) = .ok (b, b :: s) :=
  peekValue_of_gap isGap_nil busy s

theorem skipByte_cons (b : UInt8) (s : Bytes) : skipByte (b :: s) = .ok ((), s) := rfl

/-- Bytes that stand for themselves inside the quotes. -/
def IsPlainByte (b : UInt8) : Prop := b ≠ 34 ∧ b ≠ 92 ∧ ¬ b < 32

/-- The number of the character with the two halves. -/
def paired (n m : Nat) : Nat := (n - 0xD800) * 0x400 + (m - 0xDC00) + 0x10000

/-- A piece of a text as it is written between the quotes, with the bytes that it stands for: a
byte as it is, an escape of one letter, the number of a character, or the two halves of one. -/
inductive Piece : Bytes → Bytes → Prop
  | plain {b : UInt8} : IsPlainByte b → Piece [b] [b]
  | short {e c : UInt8} : escaped? e = some c → Piece [92, e] [c]
  | unit {digits : Bytes} {n : Nat} : digits.length = 4 → hexRow? digits = some n →
      ¬ (0xD800 ≤ n ∧ n ≤ 0xDFFF) →
      Piece (92 :: 117 :: digits) (String.utf8EncodeChar (Char.ofNat n))
  | pair {first second : Bytes} {n m : Nat} : first.length = 4 → hexRow? first = some n →
      0xD800 ≤ n ∧ n ≤ 0xDBFF → second.length = 4 → hexRow? second = some m →
      0xDC00 ≤ m ∧ m ≤ 0xDFFF → Piece (92 :: 117 :: (first ++ 92 :: 117 :: second))
        (String.utf8EncodeChar (Char.ofNat (paired n m)))

/-- Pieces between the quotes, and all the bytes that they stand for. -/
inductive Pieces : Bytes → Bytes → Prop
  | nil : Pieces [] []
  | cons {w out rest outs : Bytes} : Piece w out → Pieces rest outs →
      Pieces (w ++ rest) (out ++ outs)

def IsText (w : Bytes) (s : String) : Prop :=
  ∃ inner, w = 34 :: (inner ++ [34]) ∧ Pieces inner (Bytes.ofString s)

theorem Piece.pieces (h : Piece w out) : Pieces w out := by
  have one := Pieces.cons h .nil
  rwa [List.append_nil, List.append_nil] at one

theorem Pieces.append {w' out' : Bytes} (h : Pieces w out) (h' : Pieces w' out') :
    Pieces (w ++ w') (out ++ out') := by
  induction h with
  | nil => exact h'
  | cons piece _ ih =>
    rw [List.append_assoc, List.append_assoc]
    exact .cons piece ih

private theorem readTextBytes_nil {state : TextState} :
    readTextBytes state [] = .error .endInText := rfl

theorem readTextBytes_cons_iff (state : TextState) (inside : state = .plain → b ≠ 34) :
    readTextBytes state (b :: s) = .ok (out, s') ↔ ∃ first next rest,
      state.next b = .ok (first, next) ∧ readTextBytes next s = .ok (rest, s') ∧
        out = first ++ rest := by
  rw [readTextBytes, if_neg fun h => inside h.1 h.2]
  cases state.next b with
  | error fault =>
    constructor
    · rintro ⟨⟩
    · rintro ⟨_, _, _, ⟨⟩, -⟩
  | ok step =>
    obtain ⟨first, next⟩ := step
    dsimp only
    constructor
    · intro h
      cases e : readTextBytes next s with
      | error fault =>
        rw [e] at h
        cases h
      | ok tail =>
        rw [e] at h
        cases h
        exact ⟨first, next, tail.1, rfl, e, rfl⟩
    · rintro ⟨_, _, rest, ⟨⟩, e, rfl⟩
      rw [e]
      rfl

section Unit

variable {lead : Option Nat} {ds : List UInt8} {x y z : UInt8}

private theorem readTextBytes_unit_more (few : ds.length < 3) :
    readTextBytes (.unit lead ds) s = .ok (out, s') ↔
      ∃ b t, s = b :: t ∧ readTextBytes (.unit lead (ds ++ [b])) t = .ok (out, s') := by
  cases s with
  | nil => exact ⟨nofun, nofun⟩
  | cons b t =>
    have step : (TextState.unit lead ds).next b = .ok ([], .unit lead (ds ++ [b])) := if_pos few
    rw [readTextBytes_cons_iff (.unit lead ds) nofun, step]
    constructor
    · rintro ⟨first, next, rest, e, h, rfl⟩
      cases e
      exact ⟨b, t, rfl, h⟩
    · rintro ⟨_, _, ⟨⟩, h⟩
      exact ⟨[], _, out, rfl, h, rfl⟩

private theorem readTextBytes_unit_last : readTextBytes (.unit lead [x, y, z]) s = .ok (out, s') ↔
    ∃ u t first next rest, s = u :: t ∧ closeUnit lead [x, y, z, u] = .ok (first, next) ∧
      readTextBytes next t = .ok (rest, s') ∧ out = first ++ rest := by
  cases s with
  | nil => exact ⟨nofun, nofun⟩
  | cons u t =>
    rw [readTextBytes_cons_iff (.unit lead [x, y, z]) nofun]
    constructor
    · rintro ⟨first, next, rest, step, h, rfl⟩
      exact ⟨u, t, first, next, rest, rfl, step, h, rfl⟩
    · rintro ⟨_, _, first, next, rest, ⟨⟩, step, h, rfl⟩
      exact ⟨first, next, rest, step, h, rfl⟩

theorem readTextBytes_unit_iff :
    readTextBytes (.unit lead []) s = .ok (out, s') ↔ ∃ digits t first next rest,
      digits.length = 4 ∧ s = digits ++ t ∧ closeUnit lead digits = .ok (first, next) ∧
        readTextBytes next t = .ok (rest, s') ∧ out = first ++ rest := by
  rw [readTextBytes_unit_more (by simp)]
  constructor
  · rintro ⟨x, t₁, rfl, h₁⟩
    obtain ⟨y, t₂, rfl, h₂⟩ := (readTextBytes_unit_more (by simp)).mp h₁
    obtain ⟨z, t₃, rfl, h₃⟩ := (readTextBytes_unit_more (by simp)).mp h₂
    obtain ⟨u, t, first, next, rest, rfl, step, h, rfl⟩ := readTextBytes_unit_last.mp h₃
    exact ⟨[x, y, z, u], t, first, next, rest, rfl, rfl, step, h, rfl⟩
  · rintro ⟨digits, t, first, next, rest, four, rfl, step, h, rfl⟩
    obtain ⟨x, y, z, u, rfl⟩ := List.length_eq_four.mp four
    refine ⟨x, y :: z :: u :: t, rfl, (readTextBytes_unit_more (by simp)).mpr
      ⟨y, z :: u :: t, rfl, (readTextBytes_unit_more (by simp)).mpr ⟨z, u :: t, rfl, ?_⟩⟩⟩
    exact readTextBytes_unit_last.mpr ⟨u, t, first, next, rest, rfl, step, h, rfl⟩

end Unit

private theorem closeUnit_none_iff {first : Bytes} {next : TextState} :
    closeUnit none digits = .ok (first, next) ↔ ∃ n, hexRow? digits = some n ∧
      ((¬ (0xD800 ≤ n ∧ n ≤ 0xDFFF) ∧ first = String.utf8EncodeChar (Char.ofNat n) ∧
          next = .plain) ∨
        (0xD800 ≤ n ∧ n ≤ 0xDBFF) ∧ first = [] ∧ next = .afterLead n) := by
  unfold closeUnit
  cases hexRow? digits with
  | none => simp
  | some n =>
    simp only [Option.some.injEq, exists_eq_left']
    split
    · rename_i low
      exact ⟨nofun, fun h => by omega⟩
    · split
      · rename_i high
        constructor
        · rintro ⟨⟩
          exact .inr ⟨high, rfl, rfl⟩
        · rintro (⟨plain, -⟩ | ⟨-, rfl, rfl⟩)
          · omega
          · rfl
      · constructor
        · rintro ⟨⟩
          exact .inl ⟨by omega, rfl, rfl⟩
        · rintro (⟨-, rfl, rfl⟩ | ⟨high, -⟩)
          · rfl
          · omega

private theorem closeUnit_some_iff {n : Nat} {first : Bytes} {next : TextState} :
    closeUnit (some n) digits = .ok (first, next) ↔ ∃ m, hexRow? digits = some m ∧
      (0xDC00 ≤ m ∧ m ≤ 0xDFFF) ∧ next = .plain ∧
        first = String.utf8EncodeChar (Char.ofNat (paired n m)) := by
  unfold closeUnit paired
  cases hexRow? digits with
  | none => simp
  | some m =>
    simp only [Option.some.injEq, exists_eq_left']
    split
    · rename_i low
      rw [Except.ok.injEq, Prod.mk.injEq]
      exact ⟨fun h => ⟨low, h.2.symm, h.1.symm⟩, fun h => ⟨h.2.2.symm, h.2.1.symm⟩⟩
    · exact ⟨nofun, fun h => by omega⟩

private theorem readTextBytes_step_iff (state : TextState) {next : TextState}
    (inside : state = .plain → b ≠ 34) (step : state.next b = .ok ([], next)) :
    readTextBytes state (b :: s) = .ok (out, s') ↔ readTextBytes next s = .ok (out, s') := by
  rw [readTextBytes_cons_iff state inside, step]
  constructor
  · rintro ⟨_, _, rest, ⟨⟩, h, rfl⟩
    exact h
  · exact fun h => ⟨[], next, out, rfl, h, rfl⟩

private theorem readTextBytes_escape_iff : readTextBytes .escape s = .ok (out, s') ↔
    (∃ e c t rest, s = e :: t ∧ escaped? e = some c ∧ readTextBytes .plain t = .ok (rest, s') ∧
      out = c :: rest) ∨
    ∃ t, s = 117 :: t ∧ readTextBytes (.unit none []) t = .ok (out, s') := by
  cases s with
  | nil => simp [readTextBytes_nil]
  | cons e t =>
    by_cases number : e = 117
    · subst number
      rw [readTextBytes_step_iff .escape (by simp) rfl]
      constructor
      · exact fun h => .inr ⟨t, rfl, h⟩
      · rintro (⟨_, _, _, _, ⟨⟩, none, -⟩ | ⟨_, ⟨⟩, h⟩)
        · cases none
        · exact h
    · rw [readTextBytes_cons_iff .escape (by simp), TextState.next, if_neg number]
      constructor
      · rintro ⟨first, next, rest, step, h, rfl⟩
        cases found : escaped? e with
        | none =>
          rw [found] at step
          cases step
        | some c =>
          rw [found] at step
          cases step
          exact .inl ⟨e, c, t, rest, rfl, found, h, rfl⟩
      · rintro (⟨_, c, _, rest, ⟨⟩, found, h, rfl⟩ | ⟨_, ⟨⟩, -⟩)
        · rw [found]
          exact ⟨[c], .plain, rest, rfl, h, rfl⟩
        · exact absurd rfl number

private theorem readTextBytes_afterLead_iff {n : Nat} :
    readTextBytes (.afterLead n) s = .ok (out, s') ↔
      ∃ t, s = 92 :: 117 :: t ∧ readTextBytes (.unit (some n) []) t = .ok (out, s') := by
  have back : ∀ s, readTextBytes (.afterLeadEscape n) s = .ok (out, s') ↔
      ∃ t, s = 117 :: t ∧ readTextBytes (.unit (some n) []) t = .ok (out, s') := by
    intro s
    cases s with
    | nil => simp [readTextBytes_nil]
    | cons b t =>
      by_cases number : b = 117
      · subst number
        rw [readTextBytes_step_iff (.afterLeadEscape n) (by simp) rfl]
        constructor
        · exact fun h => ⟨t, rfl, h⟩
        · rintro ⟨_, ⟨⟩, h⟩
          exact h
      · rw [readTextBytes_cons_iff (.afterLeadEscape n) (by simp), TextState.next, if_neg number]
        constructor
        · rintro ⟨_, _, _, ⟨⟩, -⟩
        · rintro ⟨_, e, -⟩
          exact absurd (List.cons_eq_cons.mp e).1 number
  cases s with
  | nil => simp [readTextBytes_nil]
  | cons b t =>
    by_cases escape : b = 92
    · subst escape
      rw [readTextBytes_step_iff (.afterLead n) (by simp) rfl, back]
      constructor
      · rintro ⟨u, rfl, h⟩
        exact ⟨u, rfl, h⟩
      · rintro ⟨u, ⟨⟩, h⟩
        exact ⟨u, rfl, h⟩
    · rw [readTextBytes_cons_iff (.afterLead n) (by simp), TextState.next, if_neg escape]
      constructor
      · rintro ⟨_, _, _, ⟨⟩, -⟩
      · rintro ⟨_, e, -⟩
        exact absurd (List.cons_eq_cons.mp e).1 escape

theorem Piece.read {rest : Bytes} (piece : Piece w out)
    (h : readTextBytes .plain s = .ok (rest, s')) :
    readTextBytes .plain (w ++ s) = .ok (out ++ rest, s') := by
  have escape : ∀ {u : Bytes} {o : Bytes}, readTextBytes .escape u = .ok (o, s') →
      readTextBytes .plain (92 :: u) = .ok (o, s') := fun h =>
    (readTextBytes_step_iff .plain (fun _ => by decide) rfl).mpr h
  cases piece with
  | @plain b plain =>
    obtain ⟨quote, back, visible⟩ := plain
    have step : TextState.plain.next b = .ok ([b], .plain) := by
      rw [TextState.next, if_neg back, if_neg visible]
    exact (readTextBytes_cons_iff .plain fun _ => quote).mpr ⟨_, _, rest, step, h, rfl⟩
  | short found =>
    exact escape (readTextBytes_escape_iff.mpr (.inl ⟨_, _, _, _, rfl, found, h, rfl⟩))
  | unit four value whole =>
    refine escape (readTextBytes_escape_iff.mpr (.inr ⟨_, rfl, ?_⟩))
    exact readTextBytes_unit_iff.mpr ⟨_, s, _, _, rest, four, rfl,
      closeUnit_none_iff.mpr ⟨_, value, .inl ⟨whole, rfl, rfl⟩⟩, h, rfl⟩
  | pair four value high four' value' low =>
    rw [List.cons_append, List.cons_append, List.append_assoc]
    refine escape (readTextBytes_escape_iff.mpr (.inr ⟨_, rfl, ?_⟩))
    refine readTextBytes_unit_iff.mpr ⟨_, _, _, _, _, four, rfl,
      closeUnit_none_iff.mpr ⟨_, value, .inr ⟨high, rfl, rfl⟩⟩, ?_, (List.nil_append _).symm⟩
    refine readTextBytes_afterLead_iff.mpr ⟨_, rfl, ?_⟩
    exact readTextBytes_unit_iff.mpr ⟨_, s, _, _, rest, four', rfl,
      closeUnit_some_iff.mpr ⟨_, value', low, rfl, rfl⟩, h, rfl⟩

theorem exists_piece (h : readTextBytes .plain (b :: s) = .ok (out, s')) (open' : b ≠ 34) :
    ∃ w first t rest, Piece w first ∧ w ≠ [] ∧ b :: s = w ++ t ∧
      readTextBytes .plain t = .ok (rest, s') ∧ out = first ++ rest := by
  by_cases escape : b = 92
  · subst escape
    rw [readTextBytes_step_iff .plain (fun _ => open') rfl, readTextBytes_escape_iff] at h
    rcases h with ⟨e, c, t, rest, rfl, found, h, rfl⟩ | ⟨t, rfl, h⟩
    · exact ⟨[92, e], [c], t, rest, .short found, by simp, rfl, h, rfl⟩
    obtain ⟨digits, u, first, next, rest, four, rfl, close, after, rfl⟩ :=
      readTextBytes_unit_iff.mp h
    obtain ⟨n, value, ⟨whole, rfl, rfl⟩ | ⟨high, rfl, rfl⟩⟩ := closeUnit_none_iff.mp close
    · exact ⟨_, _, u, rest, .unit four value whole, by simp, rfl, after, rfl⟩
    obtain ⟨v, rfl, second⟩ := readTextBytes_afterLead_iff.mp after
    obtain ⟨digits', u, first, next, rest, four', rfl, close', last, rfl⟩ :=
      readTextBytes_unit_iff.mp second
    obtain ⟨m, value', low, rfl, e⟩ := closeUnit_some_iff.mp close'
    exact ⟨92 :: 117 :: (digits ++ 92 :: 117 :: digits'), _, u, rest,
      .pair four value high four' value' low, by simp, by simp, last, by rw [e, List.nil_append]⟩
  · rw [readTextBytes_cons_iff .plain (fun _ => open'), TextState.next, if_neg escape] at h
    obtain ⟨first, next, rest, step, h, rfl⟩ := h
    split at step
    · cases step
    · rename_i visible
      cases step
      exact ⟨[b], [b], s, rest, .plain ⟨open', escape, visible⟩, by simp, rfl, h, rfl⟩

theorem readTextBytes_iff : readTextBytes .plain s = .ok (out, s') ↔
    ∃ inner, Pieces inner out ∧ s = inner ++ 34 :: s' := by
  constructor
  · intro h
    -- A piece takes up to twelve bytes at once, so the bytes left over are not the tail.
    induction size : s.length using Nat.strong_induction_on generalizing s out with
    | _ n ih =>
      cases s with
      | nil => cases h
      | cons b t =>
        by_cases closed : b = 34
        · subst closed
          cases h
          exact ⟨[], .nil, rfl⟩
        · obtain ⟨w, first, u, rest, piece, ne, e, after, rfl⟩ := exists_piece h closed
          have shorter : u.length < n := by
            have pos := List.length_pos_iff.mpr ne
            rw [← size, e, List.length_append]
            omega
          obtain ⟨inner, pieces, rfl⟩ := ih _ shorter after rfl
          exact ⟨w ++ inner, .cons piece pieces, by rw [e, List.append_assoc]⟩
  · rintro ⟨inner, pieces, rfl⟩
    induction pieces with
    | nil => rfl
    | cons piece _ ih =>
      rw [List.append_assoc]
      exact piece.read ih

theorem readText_iff {text : String} : readText s = .ok (text, s') ↔
    ∃ w, IsText w text ∧ 34 :: s = w ++ s' := by
  have bytes : readText s = .ok (text, s') ↔
      readTextBytes .plain s = .ok (Bytes.ofString text, s') := by
    rw [readText, read_bind_iff]
    constructor
    · rintro ⟨out, t, h, h'⟩
      cases found : Bytes.toString? out with
      | none =>
        rw [found] at h'
        cases h'
      | some text' =>
        rw [found] at h'
        cases h'
        rwa [Bytes.ofString_of_toString? found]
    · intro h
      refine ⟨_, _, h, ?_⟩
      rw [Bytes.toString?_ofString]
      rfl
  rw [bytes, readTextBytes_iff]
  constructor
  · rintro ⟨inner, pieces, rfl⟩
    exact ⟨34 :: (inner ++ [34]), ⟨inner, rfl, pieces⟩, by simp⟩
  · rintro ⟨_, ⟨inner, rfl, pieces⟩, e⟩
    exact ⟨inner, pieces, by simpa using e⟩

/-- A piece of a text by its form: an escape may be any, whatever it stands for. -/
inductive LoosePiece : Bytes → Prop
  | plain {b : UInt8} : IsPlainByte b → LoosePiece [b]
  | short {e : UInt8} : (escaped? e).isSome → LoosePiece [92, e]
  | unit {digits : Bytes} : digits.length = 4 → (hexRow? digits).isSome →
      LoosePiece (92 :: 117 :: digits)

inductive LoosePieces : Bytes → Prop
  | nil : LoosePieces []
  | cons {w rest : Bytes} : LoosePiece w → LoosePieces rest → LoosePieces (w ++ rest)

/-- The written form of a text, or what looks like one. -/
def IsLooseText (w : Bytes) : Prop := ∃ inner, w = 34 :: (inner ++ [34]) ∧ LoosePieces inner

theorem LoosePieces.append {w' : Bytes} (h : LoosePieces w) (h' : LoosePieces w') :
    LoosePieces (w ++ w') := by
  induction h with
  | nil => exact h'
  | cons piece _ ih =>
    rw [List.append_assoc]
    exact .cons piece ih

theorem LoosePiece.pieces (h : LoosePiece w) : LoosePieces w := by
  rw [← List.append_nil w]
  exact .cons h .nil

theorem Piece.loose (h : Piece w out) : LoosePieces w := by
  cases h with
  | plain plain => exact (LoosePiece.plain plain).pieces
  | short found => exact (LoosePiece.short (by simp [found])).pieces
  | unit four value => exact (LoosePiece.unit four (by simp [value])).pieces
  | pair four value _ four' value' =>
    exact (LoosePiece.unit four (by simp [value])).pieces.append
      (LoosePiece.unit four' (by simp [value'])).pieces

theorem Pieces.loose (h : Pieces w out) : LoosePieces w := by
  induction h with
  | nil => exact .nil
  | cons piece _ ih => exact piece.loose.append ih

theorem IsText.loose {text : String} (h : IsText w text) : IsLooseText w := by
  obtain ⟨inner, rfl, pieces⟩ := h
  exact ⟨inner, rfl, pieces.loose⟩

private theorem skipText_nil {state : TextState} : skipText state [] = .error .endInText := rfl

private theorem skipText_plain : skipText .plain (b :: s) =
    if b = 34 then .ok ((), s)
    else if b = 92 then skipText .escape s
    else if b < 32 then .error .controlInText
    else skipText .plain s := rfl

private theorem skipText_escape : skipText .escape (b :: s) =
    if b = 117 then skipText (.unit none []) s
    else if (escaped? b).isSome then skipText .plain s
    else .error .badEscape := rfl

section Unit

variable {lead : Option Nat} {ds : List UInt8} {x y z : UInt8}

private theorem skipText_unit : skipText (.unit lead ds) (b :: s) =
    if ds.length < 3 then skipText (.unit lead (ds ++ [b])) s
    else if (hexRow? (ds ++ [b])).isSome then skipText .plain s
    else .error .badEscape := rfl

private theorem skipText_unit_more (few : ds.length < 3) :
    skipText (.unit lead ds) s = .ok ((), s') ↔
      ∃ b t, s = b :: t ∧ skipText (.unit lead (ds ++ [b])) t = .ok ((), s') := by
  cases s with
  | nil => exact ⟨nofun, nofun⟩
  | cons b t =>
    rw [skipText_unit, if_pos few]
    constructor
    · exact fun h => ⟨b, t, rfl, h⟩
    · rintro ⟨_, _, ⟨⟩, h⟩
      exact h

private theorem skipText_unit_last : skipText (.unit lead [x, y, z]) s = .ok ((), s') ↔
    ∃ u t, s = u :: t ∧ (hexRow? [x, y, z, u]).isSome ∧ skipText .plain t = .ok ((), s') := by
  cases s with
  | nil => exact ⟨nofun, nofun⟩
  | cons u t =>
    rw [skipText_unit, if_neg (by simp), List.cons_append, List.cons_append, List.cons_append,
      List.nil_append]
    split
    · rename_i value
      constructor
      · exact fun h => ⟨u, t, rfl, value, h⟩
      · rintro ⟨_, _, ⟨⟩, -, h⟩
        exact h
    · rename_i none
      refine ⟨nofun, ?_⟩
      rintro ⟨_, _, ⟨⟩, value, -⟩
      exact absurd value none

private theorem skipText_unit_iff : skipText (.unit lead []) s = .ok ((), s') ↔
    ∃ digits t, digits.length = 4 ∧ (hexRow? digits).isSome ∧ s = digits ++ t ∧
      skipText .plain t = .ok ((), s') := by
  rw [skipText_unit_more (by simp)]
  constructor
  · rintro ⟨x, t₁, rfl, h₁⟩
    obtain ⟨y, t₂, rfl, h₂⟩ := (skipText_unit_more (by simp)).mp h₁
    obtain ⟨z, t₃, rfl, h₃⟩ := (skipText_unit_more (by simp)).mp h₂
    obtain ⟨u, t, rfl, value, h⟩ := skipText_unit_last.mp h₃
    exact ⟨[x, y, z, u], t, rfl, value, rfl, h⟩
  · rintro ⟨digits, t, four, value, rfl, h⟩
    obtain ⟨x, y, z, u, rfl⟩ := List.length_eq_four.mp four
    refine ⟨x, y :: z :: u :: t, rfl, (skipText_unit_more (by simp)).mpr
      ⟨y, z :: u :: t, rfl, (skipText_unit_more (by simp)).mpr ⟨z, u :: t, rfl, ?_⟩⟩⟩
    exact skipText_unit_last.mpr ⟨u, t, rfl, value, h⟩

end Unit

private theorem skipText_escape_iff : skipText .escape s = .ok ((), s') ↔
    (∃ e t, s = e :: t ∧ (escaped? e).isSome ∧ skipText .plain t = .ok ((), s')) ∨
    ∃ t, s = 117 :: t ∧ skipText (.unit none []) t = .ok ((), s') := by
  cases s with
  | nil => simp [skipText_nil]
  | cons e t =>
    by_cases number : e = 117
    · subst number
      rw [skipText_escape, if_pos rfl]
      constructor
      · exact fun h => .inr ⟨t, rfl, h⟩
      · rintro (⟨_, _, ⟨⟩, none, -⟩ | ⟨_, ⟨⟩, h⟩)
        · cases none
        · exact h
    · rw [skipText_escape, if_neg number]
      split
      · rename_i found
        constructor
        · exact fun h => .inl ⟨e, t, rfl, found, h⟩
        · rintro (⟨_, _, ⟨⟩, -, h⟩ | ⟨_, ⟨⟩, -⟩)
          · exact h
          · exact absurd rfl number
      · rename_i none
        refine ⟨nofun, ?_⟩
        rintro (⟨_, _, ⟨⟩, found, -⟩ | ⟨_, ⟨⟩, -⟩)
        · exact absurd found none
        · exact absurd rfl number

theorem LoosePiece.skip (piece : LoosePiece w) (h : skipText .plain s = .ok ((), s')) :
    skipText .plain (w ++ s) = .ok ((), s') := by
  have escape : ∀ {u : Bytes}, skipText .escape u = .ok ((), s') →
      skipText .plain (92 :: u) = .ok ((), s') := by
    intro u h
    rw [skipText_plain, if_neg (by decide), if_pos rfl]
    exact h
  cases piece with
  | plain plain =>
    obtain ⟨quote, back, visible⟩ := plain
    rw [List.singleton_append, skipText_plain, if_neg quote, if_neg back, if_neg visible]
    exact h
  | short found => exact escape (skipText_escape_iff.mpr (.inl ⟨_, s, rfl, found, h⟩))
  | unit four value =>
    refine escape (skipText_escape_iff.mpr (.inr ⟨_, rfl, ?_⟩))
    exact skipText_unit_iff.mpr ⟨_, s, four, value, rfl, h⟩

theorem exists_loosePiece (h : skipText .plain (b :: s) = .ok ((), s')) (open' : b ≠ 34) :
    ∃ w t, LoosePiece w ∧ w ≠ [] ∧ b :: s = w ++ t ∧ skipText .plain t = .ok ((), s') := by
  rw [skipText_plain, if_neg open'] at h
  split at h
  · rename_i escape
    subst escape
    rcases skipText_escape_iff.mp h with ⟨e, t, rfl, found, h⟩ | ⟨t, rfl, h⟩
    · exact ⟨[92, e], t, .short found, by simp, rfl, h⟩
    · obtain ⟨digits, u, four, value, rfl, after⟩ := skipText_unit_iff.mp h
      exact ⟨92 :: 117 :: digits, u, .unit four value, by simp, rfl, after⟩
  · rename_i escape
    split at h
    · cases h
    · rename_i visible
      exact ⟨[b], s, .plain ⟨open', escape, visible⟩, by simp, rfl, h⟩

theorem skipText_iff : skipText .plain s = .ok ((), s') ↔
    ∃ w, IsLooseText w ∧ 34 :: s = w ++ s' := by
  constructor
  · intro h
    suffices found : ∃ inner, LoosePieces inner ∧ s = inner ++ 34 :: s' by
      obtain ⟨inner, pieces, rfl⟩ := found
      exact ⟨34 :: (inner ++ [34]), ⟨inner, rfl, pieces⟩, by simp⟩
    induction size : s.length using Nat.strong_induction_on generalizing s with
    | _ n ih =>
      cases s with
      | nil => cases h
      | cons b t =>
        by_cases closed : b = 34
        · subst closed
          cases h
          exact ⟨[], .nil, rfl⟩
        · obtain ⟨w, u, piece, ne, e, after⟩ := exists_loosePiece h closed
          have shorter : u.length < n := by
            have pos := List.length_pos_iff.mpr ne
            rw [← size, e, List.length_append]
            omega
          obtain ⟨inner, pieces, rfl⟩ := ih _ shorter after rfl
          exact ⟨w ++ inner, .cons piece pieces, by rw [e, List.append_assoc]⟩
  · rintro ⟨_, ⟨inner, rfl, pieces⟩, e⟩
    obtain rfl : s = inner ++ 34 :: s' := by simpa using e
    clear e
    induction pieces with
    | nil => rfl
    | cons piece _ ih =>
      rw [List.append_assoc]
      exact piece.skip ih

end Json
end LayeredTree
