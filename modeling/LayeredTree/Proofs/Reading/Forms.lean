import LayeredTree.Proofs.Reading.Fields
import LayeredTree.Proofs.Reading.Moments

set_option autoImplicit false

namespace LayeredTree.PatchRecord

open Json

variable {α : Type} {s s' t w inner content : Bytes} {name name' : String} {a absent : α}
variable {Form : Bytes → α → Prop} {members : List (String × Bytes)} {draft draft' : Draft}
variable {m : PatchRecord} {first : Bool} {steps : Nat} {word : Option Bytes} {new old : Option α}

/-- The words of the fields, as far as they are given. -/
structure Given where
  version : Option Bytes
  previousSignature : Option Bytes
  previousHash : Option Bytes
  removed : Option Bytes
  createdAt : Option Bytes

/-- A value for what is absent, or what the word stands for. -/
inductive IfGiven {α : Type} (Form : Bytes → α → Prop) (absent : α) : Option Bytes → α → Prop
  | absent : IfGiven Form absent none absent
  | given {w : Bytes} {a : α} : Form w a → IfGiven Form absent (some w) a

def IsSignature : Bytes → Signature → Prop :=
  TextOf fun text signature => Hex.Spells (trimmedBytes text) signature.bytes

def IsDigest : Bytes → Digest → Prop :=
  TextOf fun text digest => Hex.Spells (trimmedBytes text) digest.bytes

/-- What the fields are. Only the version must be there. The form of a timestamp is given. -/
structure Given.Means (Time : List Char → Instant → Prop) (g : Given) (m : PatchRecord) :
    Prop where
  version : ∃ w, g.version = some w ∧ IsWord w m.version
  previousSignature : IfGiven (OrNull IsSignature) none g.previousSignature m.previousSignature
  previousHash : IfGiven (OrNull IsDigest) none g.previousHash m.previousHash
  removed : IfGiven IsTexts [] g.removed m.removed
  createdAt : IfGiven (OrNull (TextOf fun text => Time text.toList)) none g.createdAt m.createdAt

def valuesOf (name : String) (members : List (String × Bytes)) : List Bytes :=
  (members.filter fun m => m.1 = name).map Prod.snd

/-- The words of the fields are the values of the members with their names, none of which is there
twice. -/
structure Given.Among (g : Given) (members : List (String × Bytes)) : Prop where
  version : valuesOf "version" members = g.version.toList
  previousSignature : valuesOf "previous_signature" members = g.previousSignature.toList
  previousHash : valuesOf "previous_hash" members = g.previousHash.toList
  removed : valuesOf "removed" members = g.removed.toList
  createdAt : valuesOf "created_at" members = g.createdAt.toList

/-- An object with the fields of a record among its members. What counts as a text in the members
that are passed over is given, and the form of a timestamp. -/
def IsObject (Text : Bytes → Prop) (Time : List Char → Instant → Prop) (w : Bytes)
    (m : PatchRecord) : Prop :=
  ∃ members g, ObjectOf IsText w members ∧ (∀ member ∈ members, IsValue Text member.2) ∧
    Given.Among g members ∧ g.Means Time m

/-- A list with the fields of a record in their order; the last ones may be missing. -/
def IsList (Time : List Char → Instant → Prop) (w : Bytes) (m : PatchRecord) : Prop :=
  ∃ items, ListOf w items ∧ items.length ≤ 5 ∧
    (Given.mk items[0]? items[1]? items[2]? items[3]? items[4]?).Means Time m

/-- A record as it is taken: an object or a list, where texts that are passed over are looked at for
their form only, and timestamps are taken in a wider form. -/
def IsRecord (w : Bytes) (m : PatchRecord) : Prop :=
  IsObject IsLooseText Instant.IsTimestamp w m ∨ IsList Instant.IsTimestamp w m

/-- A form with nothing but gaps around it. -/
def Alone (Form : Bytes → PatchRecord → Prop) (content : Bytes) (m : PatchRecord) : Prop :=
  ∃ gap w gap', IsGap gap ∧ IsGap gap' ∧ Form w m ∧ content = gap ++ (w ++ gap')

/-- The documented form: an object with the fields of a record. -/
def Documented : Bytes → PatchRecord → Prop :=
  Alone (IsObject (fun w => ∃ text, IsText w text) Instant.IsStandardTimestamp)

/-- The accepted form. -/
def Accepted : Bytes → PatchRecord → Prop :=
  Alone IsRecord

theorem OrNull.imp {Form' : Bytes → α → Prop} {x : Option α} (h : OrNull Form w x)
    (forms : ∀ w a, Form w a → Form' w a) : OrNull Form' w x := by
  cases h with
  | null => exact .null
  | some form => exact .some (forms _ _ form)

theorem IfGiven.imp {Form' : Bytes → α → Prop} (h : IfGiven Form absent word a)
    (forms : ∀ w a, Form w a → Form' w a) : IfGiven Form' absent word a := by
  cases h with
  | absent => exact .absent
  | given form => exact .given (forms _ _ form)

theorem Documented.accepted (h : Documented content m) : Accepted content m := by
  obtain ⟨gap, w, gap', isGap, isGap', ⟨members, g, object, values, among, means⟩, e⟩ := h
  refine ⟨gap, w, gap', isGap, isGap', .inl ⟨members, g, object, fun member hm => ?_, among,
    { means with createdAt := ?_ }⟩, e⟩
  · exact (values member hm).imp fun w text => text.choose_spec.loose
  · refine means.createdAt.imp fun w x form => form.imp fun w t form => ?_
    obtain ⟨text, isText, standard⟩ := form
    exact ⟨text, isText, standard.timestamp⟩

theorem mapError_eq_ok_iff {ε ε' : Type} {f : ε → ε'} {x : Except ε α} :
    x.mapError f = .ok a ↔ x = .ok a := by
  cases x with
  | error e => exact ⟨nofun, nofun⟩
  | ok b => exact ⟨fun h => by cases h; rfl, fun h => by cases h; rfl⟩

theorem TextOf.start {Means : String → α → Prop} (h : TextOf Means w a) :
    ∃ b more, w = b :: more ∧ isGap b = false ∧ b ≠ 110 := by
  obtain ⟨text, isText, -⟩ := h
  obtain ⟨more, rfl⟩ := isText.head
  exact ⟨34, more, rfl, rfl, by decide⟩

theorem reads_signature : Reads readSignature (OrNull IsSignature) :=
  reads_optional (reads_parsed _ fun _ _ => mapError_eq_ok_iff.trans Signature.parse_eq_ok_iff)
    TextOf.start

theorem reads_digest : Reads readDigest (OrNull IsDigest) :=
  reads_optional (reads_parsed _ fun _ _ => mapError_eq_ok_iff.trans Digest.parse_eq_ok_iff)
    TextOf.start

abbrev IsTime : Bytes → Option Instant → Prop :=
  OrNull (TextOf fun text => Instant.IsTimestamp text.toList)

theorem reads_instant : Reads readInstant IsTime :=
  reads_optional (reads_parsed _ fun _ _ => mapError_eq_ok_iff.trans Instant.parse_eq_ok_iff)
    TextOf.start

theorem IsWord.value {word : UInt32} (h : IsWord w word) : IsValue IsLooseText w :=
  .number h.numeral

theorem OrNull.value {Means : String → α → Prop} {x : Option α} (h : OrNull (TextOf Means) w x) :
    IsValue IsLooseText w := by
  cases h with
  | null => exact .null
  | some form =>
    obtain ⟨text, isText, -⟩ := form
    exact isText.value

theorem IsTexts.value {texts : List String} (h : IsTexts w texts) : IsValue IsLooseText w := by
  obtain ⟨inner, parts, rfl⟩ := h
  obtain ⟨items, parts, texts⟩ := parts.exists_words
  exact .list ⟨inner, parts, rfl⟩ fun v hv => (texts v hv).choose_spec.value

/-- The words of the fields of a draft. -/
structure Given.Fills (g : Given) (draft : Draft) : Prop where
  version : Option.Rel IsWord g.version draft.version
  previousSignature : Option.Rel (OrNull IsSignature) g.previousSignature draft.previousSignature
  previousHash : Option.Rel (OrNull IsDigest) g.previousHash draft.previousHash
  removed : Option.Rel IsTexts g.removed draft.removed
  createdAt : Option.Rel IsTime g.createdAt draft.createdAt

theorem IfGiven.of_rel (h : Option.Rel Form word new) :
    IfGiven Form absent word (new.getD absent) := by
  cases h with
  | some form => exact .given form
  | none => exact .absent

theorem IfGiven.exists_rel (h : IfGiven Form absent word a) :
    ∃ new, Option.Rel Form word new ∧ new.getD absent = a := by
  cases h with
  | absent => exact ⟨none, .none, rfl⟩
  | given form => exact ⟨some a, .some form, rfl⟩

theorem join_eq_getD (x : Option (Option α)) : x.join = x.getD none := by
  cases x <;> rfl

theorem means_iff {g : Given} : g.Means Instant.IsTimestamp m ↔
    ∃ draft, g.Fills draft ∧ draft.record = .ok m := by
  constructor
  · rintro ⟨⟨w, version, form⟩, signature, hash, removed, createdAt⟩
    obtain ⟨signature', filled, e⟩ := signature.exists_rel
    obtain ⟨hash', filled', e'⟩ := hash.exists_rel
    obtain ⟨removed', filled'', e''⟩ := removed.exists_rel
    obtain ⟨createdAt', filled''', e'''⟩ := createdAt.exists_rel
    refine ⟨⟨some m.version, signature', hash', removed', createdAt'⟩,
      ⟨?_, filled, filled', filled'', filled'''⟩, ?_⟩
    · rw [version]
      exact .some form
    · rw [Draft.record]
      dsimp only
      rw [join_eq_getD, join_eq_getD, join_eq_getD, e, e', e'', e''']
  · rintro ⟨⟨version, signature, hash, removed, createdAt⟩, fills, record⟩
    cases version with
    | none => cases record
    | some version =>
      cases record
      obtain ⟨w, e, form⟩ : ∃ w, g.version = some w ∧ IsWord w version := by
        have filled := fills.version
        generalize g.version = word at filled
        cases filled with
        | some form => exact ⟨_, rfl, form⟩
      refine ⟨⟨w, e, form⟩, ?_, ?_, .of_rel fills.removed, ?_⟩
      · dsimp only
        rw [join_eq_getD]
        exact .of_rel fills.previousSignature
      · dsimp only
        rw [join_eq_getD]
        exact .of_rel fills.previousHash
      · dsimp only
        rw [join_eq_getD]
        exact .of_rel fills.createdAt

/-- What the members with a name make of a field: they leave it, or there is one of them, which
stands for what a field without a value gets. -/
def MakesField (name : String) (Form : Bytes → α → Prop) (members : List (String × Bytes))
    (old new : Option α) : Prop :=
  (valuesOf name members = [] ∧ new = old) ∨
    ∃ w a, valuesOf name members = [w] ∧ old = none ∧ new = some a ∧ Form w a

theorem valuesOf_cons (name : String) (member : String × Bytes) (members : List (String × Bytes)) :
    valuesOf name (member :: members) =
      (if member.1 = name then [member.2] else []) ++ valuesOf name members := by
  unfold valuesOf
  rw [List.filter_cons]
  by_cases same : member.1 = name <;> simp [same]

theorem MakesField.other (h : name' ≠ name) (w : Bytes) (old : Option α) :
    MakesField name Form [(name', w)] old old := by
  refine .inl ⟨?_, rfl⟩
  rw [valuesOf_cons, if_neg h]
  rfl

theorem MakesField.same (h : Form w a) : MakesField name Form [(name, w)] none (some a) := by
  refine .inr ⟨w, a, ?_, rfl, rfl, h⟩
  rw [valuesOf_cons, if_pos rfl]
  rfl

theorem MakesField.of_other (h : MakesField name Form [(name', w)] old new) (other : name' ≠ name) :
    new = old := by
  rcases h with ⟨-, e⟩ | ⟨_, _, values, -⟩
  · exact e
  · rw [valuesOf_cons, if_neg other] at values
    cases values

theorem MakesField.of_same (h : MakesField name Form [(name, w)] old new) :
    old = none ∧ ∃ a, new = some a ∧ Form w a := by
  rcases h with ⟨values, -⟩ | ⟨v, a, values, rfl, rfl, form⟩
  · rw [valuesOf_cons, if_pos rfl] at values
    cases values
  · rw [valuesOf_cons, if_pos rfl] at values
    cases values
    exact ⟨rfl, a, rfl, form⟩

theorem makesField_cons_iff {member : String × Bytes} :
    MakesField name Form (member :: members) old new ↔
    ∃ mid, MakesField name Form [member] old mid ∧ MakesField name Form members mid new := by
  obtain ⟨name', w⟩ := member
  by_cases same : name' = name
  · subst same
    have values : valuesOf name' ((name', w) :: members) = w :: valuesOf name' members := by
      rw [valuesOf_cons, if_pos rfl, List.singleton_append]
    constructor
    · rintro (⟨none, -⟩ | ⟨v, a, one, rfl, rfl, form⟩)
      · rw [values] at none
        cases none
      · rw [values, List.cons_eq_cons] at one
        obtain ⟨rfl, rest⟩ := one
        exact ⟨some a, .same form, .inl ⟨rest, rfl⟩⟩
    · rintro ⟨mid, taken, rest⟩
      obtain ⟨rfl, a, rfl, form⟩ := taken.of_same
      rcases rest with ⟨rest, rfl⟩ | ⟨_, _, _, none, -⟩
      · exact .inr ⟨w, a, by rw [values, rest], rfl, rfl, form⟩
      · cases none
  · have values : valuesOf name ((name', w) :: members) = valuesOf name members := by
      rw [valuesOf_cons, if_neg same, List.nil_append]
    have reach : MakesField name Form ((name', w) :: members) old new ↔
        MakesField name Form members old new := by
      unfold MakesField
      rw [values]
    rw [reach]
    constructor
    · exact fun h => ⟨old, .other same w old, h⟩
    · rintro ⟨mid, taken, rest⟩
      rwa [taken.of_other same] at rest

theorem makesField_none_iff : MakesField name Form members none new ↔
    ∃ word : Option Bytes, valuesOf name members = word.toList ∧ Option.Rel Form word new := by
  constructor
  · rintro (⟨missing, rfl⟩ | ⟨w, a, one, -, rfl, form⟩)
    · exact ⟨none, missing, .none⟩
    · exact ⟨some w, one, .some form⟩
  · rintro ⟨word, values, rel⟩
    cases rel with
    | none => exact .inl ⟨values, rfl⟩
    | some form => exact .inr ⟨_, _, values, rfl, rfl, form⟩

/-- What the members make of a draft. -/
structure Gathers (members : List (String × Bytes)) (draft draft' : Draft) : Prop where
  version : MakesField "version" IsWord members draft.version draft'.version
  previousSignature : MakesField "previous_signature" (OrNull IsSignature) members
    draft.previousSignature draft'.previousSignature
  previousHash : MakesField "previous_hash" (OrNull IsDigest) members draft.previousHash
    draft'.previousHash
  removed : MakesField "removed" IsTexts members draft.removed draft'.removed
  createdAt : MakesField "created_at" IsTime members draft.createdAt draft'.createdAt

theorem gathers_nil_iff : Gathers [] draft draft' ↔ draft' = draft := by
  have none : ∀ {β : Type} {Form : Bytes → β → Prop} {name : String} {old new : Option β},
      MakesField name Form [] old new ↔ new = old := by
    intro β Form name old new
    constructor
    · rintro (⟨-, e⟩ | ⟨_, _, ⟨⟩, -⟩)
      exact e
    · exact fun e => .inl ⟨rfl, e⟩
  obtain ⟨_, _, _, _, _⟩ := draft
  obtain ⟨_, _, _, _, _⟩ := draft'
  constructor
  · rintro ⟨h₁, h₂, h₃, h₄, h₅⟩
    cases none.mp h₁
    cases none.mp h₂
    cases none.mp h₃
    cases none.mp h₄
    cases none.mp h₅
    rfl
  · rintro ⟨⟩
    exact ⟨none.mpr rfl, none.mpr rfl, none.mpr rfl, none.mpr rfl, none.mpr rfl⟩

theorem gathers_cons_iff {member : String × Bytes} : Gathers (member :: members) draft draft' ↔
    ∃ mid, Gathers [member] draft mid ∧ Gathers members mid draft' := by
  constructor
  · rintro ⟨h₁, h₂, h₃, h₄, h₅⟩
    obtain ⟨version, one₁, rest₁⟩ := makesField_cons_iff.mp h₁
    obtain ⟨signature, one₂, rest₂⟩ := makesField_cons_iff.mp h₂
    obtain ⟨hash, one₃, rest₃⟩ := makesField_cons_iff.mp h₃
    obtain ⟨removed, one₄, rest₄⟩ := makesField_cons_iff.mp h₄
    obtain ⟨createdAt, one₅, rest₅⟩ := makesField_cons_iff.mp h₅
    exact ⟨⟨version, signature, hash, removed, createdAt⟩, ⟨one₁, one₂, one₃, one₄, one₅⟩,
      ⟨rest₁, rest₂, rest₃, rest₄, rest₅⟩⟩
  · rintro ⟨mid, one, rest⟩
    exact ⟨makesField_cons_iff.mpr ⟨_, one.version, rest.version⟩,
      makesField_cons_iff.mpr ⟨_, one.previousSignature, rest.previousSignature⟩,
      makesField_cons_iff.mpr ⟨_, one.previousHash, rest.previousHash⟩,
      makesField_cons_iff.mpr ⟨_, one.removed, rest.removed⟩,
      makesField_cons_iff.mpr ⟨_, one.createdAt, rest.createdAt⟩⟩

theorem gathers_empty_iff : Gathers members .empty draft ↔
    ∃ g : Given, g.Among members ∧ g.Fills draft := by
  constructor
  · rintro ⟨h₁, h₂, h₃, h₄, h₅⟩
    obtain ⟨version, among₁, fills₁⟩ := makesField_none_iff.mp h₁
    obtain ⟨signature, among₂, fills₂⟩ := makesField_none_iff.mp h₂
    obtain ⟨hash, among₃, fills₃⟩ := makesField_none_iff.mp h₃
    obtain ⟨removed, among₄, fills₄⟩ := makesField_none_iff.mp h₄
    obtain ⟨createdAt, among₅, fills₅⟩ := makesField_none_iff.mp h₅
    exact ⟨⟨version, signature, hash, removed, createdAt⟩, ⟨among₁, among₂, among₃, among₄, among₅⟩,
      ⟨fills₁, fills₂, fills₃, fills₄, fills₅⟩⟩
  · rintro ⟨g, among, fills⟩
    exact ⟨makesField_none_iff.mpr ⟨_, among.version, fills.version⟩,
      makesField_none_iff.mpr ⟨_, among.previousSignature, fills.previousSignature⟩,
      makesField_none_iff.mpr ⟨_, among.previousHash, fills.previousHash⟩,
      makesField_none_iff.mpr ⟨_, among.removed, fills.removed⟩,
      makesField_none_iff.mpr ⟨_, among.createdAt, fills.createdAt⟩⟩

end LayeredTree.PatchRecord
