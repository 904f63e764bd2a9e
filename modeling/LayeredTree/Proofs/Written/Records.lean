import LayeredTree.Proofs.Reading.Records
import LayeredTree.Proofs.Written.Numerals
import LayeredTree.Proofs.Written.Quotes
import Mathlib.Data.List.Forall2

set_option autoImplicit false

namespace LayeredTree

namespace Json

variable {α : Type} {Part : Bytes → α → Prop} {depth : Nat}

def lineStart (depth : Nat) : Bytes := 10 :: Bytes.ofString (indent depth)

theorem isGap_lineStart (depth : Nat) : IsGap (lineStart depth) := by
  have blank : String.utf8EncodeChar ' ' = [32] := by decide
  intro b hb
  rcases List.mem_cons.mp hb with rfl | hb
  · rfl
  · rw [indent, Bytes.ofString_ofList, List.mem_flatMap] at hb
    obtain ⟨c, hc, hb⟩ := hb
    rw [List.eq_of_mem_replicate hc, blank, List.mem_singleton] at hb
    rw [hb]
    rfl

/-- Words on lines of their own, each behind a comma. -/
def furtherLines (depth : Nat) : List Bytes → Bytes
  | [] => []
  | w :: words => 44 :: (lineStart depth ++ (w ++ furtherLines depth words))

theorem parts_furtherLines {gap : Bytes} (isGap : IsGap gap) {words : List Bytes} {as : List α}
    (each : List.Forall₂ Part words as) (depth : Nat) :
    Parts Part false (furtherLines depth words ++ gap) as := by
  induction each with
  | nil => exact .nil isGap
  | cons part _ ih =>
    have parts := Parts.cons (.further isGap_nil (isGap_lineStart depth)) part ih
    simpa [furtherLines] using parts

theorem enclosed_lines (inObject : Bool) {w : Bytes} {a : α} {words : List Bytes} {as : List α}
    (part : Part w a) (each : List.Forall₂ Part words as) (depth : Nat) :
    Enclosed inObject Part (opening inObject :: (lineStart (depth + 1) ++
      (w ++ furtherLines (depth + 1) words)) ++ (lineStart depth ++ [closing inObject])) (a :: as) :=
  ⟨lineStart (depth + 1) ++ (w ++ (furtherLines (depth + 1) words ++ lineStart depth)),
    .cons (.first (isGap_lineStart _)) part (parts_furtherLines (isGap_lineStart _) each _),
    by simp⟩

section Layout

variable (depth : Nat) (v w : Json) (rest : List Json) (m m' : String × Json)
variable (members : List (String × Json))

private theorem pretty_list : pretty depth (.list (v :: rest)) =
    "[\n" ++ prettyItems (depth + 1) (v :: rest) ++ "\n" ++ indent depth ++ "]" := rfl

private theorem pretty_object : pretty depth (.object (m :: members)) =
    "\x7b\n" ++ prettyMembers (depth + 1) (m :: members) ++ "\n" ++ indent depth ++ "\x7d" := rfl

private theorem prettyItems_last : prettyItems depth [v] = indent depth ++ pretty depth v := rfl

private theorem prettyItems_cons : prettyItems depth (v :: w :: rest) =
    indent depth ++ pretty depth v ++ ",\n" ++ prettyItems depth (w :: rest) := rfl

private theorem prettyMembers_last : prettyMembers depth [m] =
    indent depth ++ textForm m.1 ++ ": " ++ pretty depth m.2 := rfl

private theorem prettyMembers_cons : prettyMembers depth (m :: m' :: members) =
    indent depth ++ textForm m.1 ++ ": " ++ pretty depth m.2 ++ ",\n" ++
      prettyMembers depth (m' :: members) := rfl

end Layout

def written (depth : Nat) (v : Json) : Bytes := Bytes.ofString (pretty depth v)

def writtenMember (depth : Nat) (m : String × Json) : Bytes :=
  quoted m.1 ++ 58 :: 32 :: written depth m.2

theorem ofString_prettyItems (depth : Nat) (v : Json) (rest : List Json) :
    10 :: Bytes.ofString (prettyItems depth (v :: rest)) =
      lineStart depth ++ (written depth v ++ furtherLines depth (rest.map (written depth))) := by
  have comma : Bytes.ofString ",\n" = [44, 10] := by decide
  induction rest generalizing v with
  | nil => simp [prettyItems_last, Bytes.ofString_append, lineStart, written, furtherLines]
  | cons w rest ih =>
    rw [List.map_cons, furtherLines, ← ih w, prettyItems_cons]
    simp [Bytes.ofString_append, comma, lineStart, written]

theorem ofString_prettyMembers (depth : Nat) (m : String × Json) (members : List (String × Json)) :
    10 :: Bytes.ofString (prettyMembers depth (m :: members)) = lineStart depth ++
      (writtenMember depth m ++ furtherLines depth (members.map (writtenMember depth))) := by
  have comma : Bytes.ofString ",\n" = [44, 10] := by decide
  have colon : Bytes.ofString ": " = [58, 32] := by decide
  induction members generalizing m with
  | nil =>
    simp [prettyMembers_last, Bytes.ofString_append, colon, lineStart, writtenMember, written,
      quoted, furtherLines]
  | cons m' members ih =>
    rw [List.map_cons, furtherLines, ← ih m', prettyMembers_cons]
    simp [Bytes.ofString_append, comma, colon, lineStart, writtenMember, written, quoted]

theorem enclosed_written_list {items : List Json} {as : List α}
    (each : List.Forall₂ (fun v a => Part (written (depth + 1) v) a) items as) :
    Enclosed false Part (written depth (.list items)) as := by
  have start : Bytes.ofString "[\n" = [91, 10] := by decide
  have line : Bytes.ofString "\n" = [10] := by decide
  have close : Bytes.ofString "]" = [93] := by decide
  cases each with
  | nil =>
    refine ⟨[], .nil isGap_nil, ?_⟩
    change Bytes.ofString "[]" = _
    decide
  | @cons v a rest as part each =>
    have form := enclosed_lines false part (List.forall₂_map_left_iff.mpr each) depth
    rw [← ofString_prettyItems] at form
    rw [written, pretty_list]
    simpa [Bytes.ofString_append, start, line, close, lineStart, opening, closing] using form

theorem memberOf_written (depth : Nat) (m : String × Json) :
    MemberOf IsText (writtenMember depth m) (m.1, written depth m.2) :=
  ⟨quoted m.1, [], [32], isText_quoted m.1, isGap_nil, isGap_of_all rfl, rfl⟩

theorem objectOf_written (depth : Nat) (members : List (String × Json)) :
    ObjectOf IsText (written depth (.object members))
      (members.map fun m => (m.1, written (depth + 1) m.2)) := by
  have start : Bytes.ofString "\x7b\n" = [123, 10] := by decide
  have line : Bytes.ofString "\n" = [10] := by decide
  have close : Bytes.ofString "\x7d" = [125] := by decide
  cases members with
  | nil =>
    refine ⟨[], .nil isGap_nil, ?_⟩
    change Bytes.ofString "\x7b\x7d" = _
    decide
  | cons m rest =>
    have each : List.Forall₂ (MemberOf IsText) (rest.map (writtenMember (depth + 1)))
        (rest.map fun m => (m.1, written (depth + 1) m.2)) :=
      List.forall₂_map_left_iff.mpr (List.forall₂_map_right_iff.mpr
        (List.forall₂_same.mpr fun m _ => memberOf_written (depth + 1) m))
    have form := enclosed_lines true (memberOf_written (depth + 1) m) each depth
    rw [← ofString_prettyMembers] at form
    rw [written, pretty_object]
    simpa [Bytes.ofString_append, start, line, close, lineStart, opening, closing] using form

end Json

namespace PatchRecord

open Json

variable {α : Type} {Form : Bytes → α → Prop} {depth : Nat}

theorem isWord_written (depth : Nat) (word : UInt32) :
    IsWord (written depth (.ofNat word.toNat)) word :=
  ⟨isWhole_numeral word.toNat, digitsValue_numeral word.toNat⟩

theorem isText_written (depth : Nat) (text : String) : IsText (written depth (.text text)) text :=
  isText_quoted text

theorem textOf_written {Means : String → α → Prop} {text : String} {a : α} (h : Means text a) :
    TextOf Means (written depth (.text text)) a :=
  ⟨text, isText_written depth text, h⟩

theorem orNull_written {text : α → String} {x : Option α}
    (h : ∀ a ∈ x, Form (written depth (.text (text a))) a) :
    OrNull Form (written depth (.ofText? (x.map text))) x := by
  cases x with
  | some a => exact .some (h a rfl)
  | none => exact .null

theorem isTexts_written (depth : Nat) (texts : List String) :
    IsTexts (written depth (.list (texts.map Json.text))) texts :=
  enclosed_written_list (List.forall₂_map_left_iff.mpr
    (List.forall₂_same.mpr fun text _ => isText_written (depth + 1) text))

/-- The words of the fields of a record. -/
def given (r : PatchRecord) : Given where
  version := some (written 1 (.ofNat r.version.toNat))
  previousSignature := some (written 1 (.ofText? (r.previousSignature.map Signature.text)))
  previousHash := some (written 1 (.ofText? (r.previousHash.map Digest.text)))
  removed := some (written 1 (.list (r.removed.map Json.text)))
  createdAt := r.createdAt.map fun t => written 1 (.text t.text)

def writtenMembers (r : PatchRecord) : List (String × Bytes) :=
  r.members.map fun m => (m.1, written 1 m.2)

theorem among_given (r : PatchRecord) : r.given.Among r.writtenMembers := by
  obtain ⟨version, signature, hash, removed, createdAt⟩ := r
  cases createdAt with
  | none => constructor <;> simp [valuesOf, writtenMembers, members, given]
  | some t => constructor <;> simp [valuesOf, writtenMembers, members, given]

theorem means_given (r : PatchRecord)
    (clock : ∀ t ∈ r.createdAt, Instant.parse t.text = .ok t) :
    r.given.Means Instant.IsTimestamp r where
  version := ⟨_, rfl, isWord_written 1 r.version⟩
  previousSignature := .given (orNull_written fun signature _ =>
    textOf_written (Signature.parse_eq_ok_iff.mp signature.parse_text))
  previousHash := .given (orNull_written fun digest _ =>
    textOf_written (Digest.parse_eq_ok_iff.mp digest.parse_text))
  removed := .given (isTexts_written 1 r.removed)
  createdAt := by
    unfold given
    cases e : r.createdAt with
    | none => exact .absent
    | some t =>
      exact .given (.some (textOf_written (Instant.parse_eq_ok_iff.mp (clock t e))))

theorem IfGiven.form {absent a : α} {w : Bytes} (h : IfGiven Form absent (some w) a) :
    Form w a := by
  cases h with
  | given form => exact form

theorem isValue_of_mem_writtenMembers {r : PatchRecord}
    (means : r.given.Means Instant.IsTimestamp r) {m : String × Bytes}
    (h : m ∈ r.writtenMembers) : IsValue IsLooseText m.2 := by
  obtain ⟨member, listed, rfl⟩ := List.mem_map.mp h
  dsimp only
  rcases List.mem_append.mp listed with listed | listed
  · simp only [List.mem_cons, List.not_mem_nil, or_false] at listed
    rcases listed with rfl | rfl | rfl | rfl
    · exact (isWord_written 1 r.version).value
    · exact means.previousSignature.form.value
    · exact means.previousHash.form.value
    · exact (isTexts_written 1 r.removed).value
  · split at listed
    · rename_i t _
      obtain rfl := List.mem_singleton.mp listed
      exact (isText_written 1 t.text).value
    · cases listed

theorem accepted_text (r : PatchRecord)
    (clock : ∀ t ∈ r.createdAt, Instant.parse t.text = .ok t) :
    Accepted (Bytes.ofString r.text) r :=
  ⟨[], _, [], isGap_nil, isGap_nil, .inl ⟨r.writtenMembers, r.given, objectOf_written 0 r.members,
    fun _ => isValue_of_mem_writtenMembers (means_given r clock), among_given r,
    means_given r clock⟩, (List.append_nil _).symm⟩

theorem parse_text_of_clock (r : PatchRecord)
    (clock : ∀ t, r.createdAt = some t → Instant.parse t.text = .ok t) :
    PatchRecord.parse (Bytes.ofString r.text) = .ok r :=
  parse_eq_ok_iff.mpr (accepted_text r clock)

def full (signature : Signature) (hash : Digest) (removed : List String) (time : Instant) :
    PatchRecord :=
  ⟨currentVersion, some signature, some hash, removed, some time⟩

theorem parse_text (signature : Signature) (hash : Digest) (removed : List String)
    {time : Instant} (clock : Instant.parse time.text = .ok time) :
    PatchRecord.parse (Bytes.ofString (full signature hash removed time).text) =
      .ok (full signature hash removed time) := by
  refine parse_text_of_clock _ fun t e => ?_
  cases e
  exact clock

end PatchRecord

end LayeredTree
