import Mathlib.Data.List.Nodup
import LayeredTree.Proofs.Settings.SmallLetters
import LayeredTree.Settings.Setting

set_option autoImplicit false

namespace LayeredTree.Setting

@[simp] theorem entry_absent (name : String) : absent.entry name = absent := rfl

@[simp] theorem entry_empty (name : String) : (table []).entry name = absent := rfl

theorem entry_cons_self (e : String × Setting) (rest : List (String × Setting)) :
    (table (e :: rest)).entry e.1 = e.2 := by
  unfold entry
  rw [entries, List.lookup_cons, beq_self_eq_true]
  rfl

theorem entry_cons_of_ne {name : String} {e : String × Setting} {rest : List (String × Setting)}
    (other : e.1 ≠ name) : (table (e :: rest)).entry name = (table rest).entry name := by
  have differs : (name == e.1) = false := by simpa using fun same : name = e.1 => other same.symm
  unfold entry
  rw [entries, entries, List.lookup_cons, differs]

theorem lookup_of_fresh {name : String} {entries : List (String × Setting)}
    (fresh : name ∉ entries.map Prod.fst) : entries.lookup name = none := by
  rw [List.lookup_eq_none_iff]
  intro e mem
  simpa using fun same : name = e.1 => fresh (List.mem_map.mpr ⟨e, mem, same.symm⟩)

theorem lookup_place (name other : String) (value : Setting) (entries : List (String × Setting)) :
    (place name value entries).lookup other =
      if other = name then some value else entries.lookup other := by
  induction entries with
  | nil =>
    by_cases same : other = name
    · simp [place, same]
    · have differs : (other == name) = false := by simpa using same
      simp [place, List.lookup_cons, differs, same]
  | cons head rest ih =>
    obtain ⟨k, v⟩ := head
    unfold place
    by_cases here : k = name
    · rw [if_pos here, List.lookup_cons, List.lookup_cons, here]
      by_cases same : other = name
      · simp [same]
      · have differs : (other == name) = false := by simpa using same
        simp [differs, same]
    · rw [if_neg here, List.lookup_cons, List.lookup_cons, ih]
      by_cases same : other = name
      · have differs : (name == k) = false := by simpa using fun e : name = k => here e.symm
        simp [differs, same]
      · simp [same]

@[simp] theorem entry_withEntry (s value : Setting) (name other : String) :
    (s.withEntry name value).entry other = if other = name then value else s.entry other := by
  unfold entry withEntry
  rw [entries, lookup_place]
  split <;> rfl

theorem mem_place {name : String} {value : Setting} {entries : List (String × Setting)}
    {e : String × Setting} (mem : e ∈ place name value entries) :
    e = (name, value) ∨ e ∈ entries := by
  induction entries with
  | nil => exact .inl (List.mem_singleton.mp mem)
  | cons head rest ih =>
    obtain ⟨k, v⟩ := head
    unfold place at mem
    split at mem
    · exact (List.mem_cons.mp mem).imp_right (List.mem_cons_of_mem _)
    · obtain rfl | mem := List.mem_cons.mp mem
      · exact .inr List.mem_cons_self
      · exact (ih mem).imp_right (List.mem_cons_of_mem _)

theorem nodup_place {name : String} {value : Setting} {entries : List (String × Setting)}
    (nodup : (entries.map Prod.fst).Nodup) : ((place name value entries).map Prod.fst).Nodup := by
  induction entries with
  | nil => simp [place]
  | cons head rest ih =>
    obtain ⟨k, v⟩ := head
    obtain ⟨fresh, nodup⟩ := List.nodup_cons.mp nodup
    unfold place
    split
    · rename_i here
      exact List.nodup_cons.mpr ⟨here ▸ fresh, nodup⟩
    · rename_i elsewhere
      refine List.nodup_cons.mpr ⟨?_, ih nodup⟩
      intro mem
      obtain ⟨e, mem, same⟩ := List.mem_map.mp mem
      obtain rfl | mem := mem_place mem
      · exact elsewhere same.symm
      · exact fresh (List.mem_map.mpr ⟨e, mem, same⟩)

/-- The value at the end of a row of names. -/
def under (path : List String) (s : Setting) : Setting := path.foldl (fun s name => s.entry name) s

@[simp] theorem under_nil (s : Setting) : s.under [] = s := rfl

@[simp] theorem under_cons (name : String) (path : List String) (s : Setting) :
    s.under (name :: path) = (s.entry name).under path := rfl

@[simp] theorem under_absent (path : List String) : absent.under path = absent := by
  induction path with
  | nil => rfl
  | cons name path ih => exact ih

/-- What stands at a place of a tree: a setting that is a text or a truth value, a section, or what
no setting reads. -/
inductive Form
  | anything
  | text
  | truth
  | table (inner : String → Form)

namespace Form

/-- The form of the place at the end of a row of names. -/
def under : List String → Form → Form
  | [], form => form
  | name :: path, table inner => under path (inner name)
  | _ :: _, _ => anything

def IsSetting : Form → Prop
  | text | truth => True
  | anything | table _ => False

/-- The value in a source is of the form; names in it count in small letters. -/
def Allows : Form → Setting → Prop
  | anything, _ => True
  | text, s => ∃ t, s.asText = some t
  | truth, s => ∃ b, s.asBool = some b
  | table inner, s => ∃ entries, s = .table entries ∧
      ∀ e ∈ entries, (inner (Text.lowercase e.1)).Allows e.2

/-- The value in a tree is of the form: its names are in small letters and stand there once. -/
def Keeps : Form → Setting → Prop
  | anything, _ => True
  | text, s => ∃ t, s.asText = some t
  | truth, s => ∃ b, s.asBool = some b
  | table inner, s => ∃ entries, s = .table entries ∧ (entries.map Prod.fst).Nodup ∧
      ∀ e ∈ entries, Text.lowercase e.1 = e.1 ∧ (inner e.1).Keeps e.2

/-- Nothing stands at the place yet, or a value of the form. -/
def KeepsIfAny (form : Form) (s : Setting) : Prop := s = absent ∨ form.Keeps s

theorem not_isSetting_under_anything (path : List String) : ¬ (anything.under path).IsSetting := by
  cases path <;> exact id

theorem Allows.ne_table {form : Form} {s : Setting} (allows : form.Allows s)
    (setting : form.IsSetting) (entries : List (String × Setting)) : s ≠ .table entries := by
  rintro rfl
  cases form with
  | anything => exact setting
  | text =>
    obtain ⟨t, read⟩ := allows
    cases read
  | truth =>
    obtain ⟨b, read⟩ := allows
    cases read
  | table inner => exact setting

theorem keeps_iff_admits {form : Form} {s : Setting} (setting : form.IsSetting) :
    form.Keeps s ↔ form.Allows s := by
  cases form with
  | text | truth => exact Iff.rfl
  | anything | table _ => exact setting.elim

theorem Keeps.allows {form : Form} {s : Setting} (keeps : form.Keeps s) : form.Allows s := by
  induction form generalizing s with
  | anything => trivial
  | text | truth => exact keeps
  | table inner ih =>
    obtain ⟨entries, rfl, -, each⟩ := keeps
    refine ⟨entries, rfl, ?_⟩
    intro e mem
    obtain ⟨small, keeps⟩ := each e mem
    rw [small]
    exact ih e.1 keeps

theorem KeepsIfAny.absent (form : Form) : form.KeepsIfAny .absent := .inl rfl

theorem KeepsIfAny.entry {inner : String → Form} {s : Setting}
    (keepsIfAny : (table inner).KeepsIfAny s)
    (name : String) : (inner name).KeepsIfAny (s.entry name) := by
  obtain rfl | ⟨entries, rfl, -, each⟩ := keepsIfAny
  · exact .inl rfl
  · unfold Setting.entry
    rw [Setting.entries]
    cases found : entries.lookup name with
    | none => exact .inl rfl
    | some value =>
      obtain ⟨before, after, rfl, -⟩ := List.lookup_eq_some_iff.mp found
      exact .inr (each (name, value) (by simp)).2

theorem KeepsIfAny.withEntry {inner : String → Form} {s value : Setting} {name : String}
    (keepsIfAny : (table inner).KeepsIfAny s) (small : Text.lowercase name = name)
    (keeps : (inner name).Keeps value) : (table inner).Keeps (s.withEntry name value) := by
  have old : (s.entries.map Prod.fst).Nodup ∧
      ∀ e ∈ s.entries, Text.lowercase e.1 = e.1 ∧ (inner e.1).Keeps e.2 := by
    obtain rfl | ⟨entries, rfl, nodup, each⟩ := keepsIfAny
    · exact ⟨List.nodup_nil, by rintro e ⟨⟩⟩
    · exact ⟨nodup, each⟩
  refine ⟨place name value s.entries, rfl, nodup_place old.1, ?_⟩
  intro e mem
  obtain rfl | mem := mem_place mem
  · exact ⟨small, keeps⟩
  · exact old.2 e mem

end Form

/-- Values under a name, each given to the place at the end of a row of names. -/
def behind (name : String) (values : List String → List Setting) : List String → List Setting
  | [] => []
  | other :: path => if name = other then values path else []

/-- The values that a value in a source gives to the place at the end of a row of names. Names in
the source count in small letters. -/
def given : List String → Setting → List Setting
  | [], s => [s]
  | name :: path, s =>
    s.entries.flatMap fun e => if Text.lowercase e.1 = name then given path e.2 else []

/-- The values that a value under a key gives to the place at the end of a row of names. -/
def givenAt (value : Setting) : List Step → List String → List Setting
  | [] => fun path => given path value
  | .name name :: steps => behind (Text.lowercase name) (givenAt value steps)
  | .index _ :: _ => fun _ => []

/-- The values that a source gives to the place at the end of a row of names. -/
def givenBy (source : List (String × Setting)) (path : List String) : List Setting :=
  source.flatMap fun e => givenAt e.2 (stepsOf e.1) path

/-- A place shows one of the values that are given to it, or what it showed before if there is
none. -/
def Supersedes (values : List Setting) (old new : Setting) : Prop :=
  new ∈ values ∨ values = [] ∧ new = old

theorem Supersedes.trans {values values' : List Setting} {old mid new : Setting}
    (first : Supersedes values old mid) (second : Supersedes values' mid new) :
    Supersedes (values ++ values') old new := by
  obtain mem | ⟨rfl, rfl⟩ := second
  · exact .inl (List.mem_append_right _ mem)
  · rw [List.append_nil]
    exact first

/-- What laying values over a tree does to it: the form stays, and each setting shows what it is
given. -/
structure Lays (form : Form) (values : List String → List Setting) (old new : Setting) : Prop where
  keeps : form.Keeps new
  highest : ∀ path, (form.under path).IsSetting →
    Supersedes (values path) (old.under path) (new.under path)

variable {form : Form} {inner : String → Form} {values values' : List String → List Setting}
  {low mid high value : Setting}

theorem Lays.congr (lays : Lays form values low high)
    (same : ∀ path, (form.under path).IsSetting → values path = values' path) :
    Lays form values' low high :=
  ⟨lays.keeps, fun path setting => same path setting ▸ lays.highest path setting⟩

theorem Lays.trans (first : Lays form values low mid) (second : Lays form values' mid high) :
    Lays form (fun path => values path ++ values' path) low high :=
  ⟨second.keeps, fun path setting => (first.highest path setting).trans (second.highest path setting)⟩

theorem Lays.refl (keeps : form.Keeps low) : Lays form (fun _ => []) low low :=
  ⟨keeps, fun _ _ => .inr ⟨rfl, rfl⟩⟩

theorem lays_anything : Lays .anything values low high :=
  ⟨trivial, fun path setting => (Form.not_isSetting_under_anything path setting).elim⟩

theorem lays_setting (setting : form.IsSetting) (allows : form.Allows value) :
    Lays form (given · value) low value := by
  refine ⟨(Form.keeps_iff_admits setting).mpr allows, ?_⟩
  intro path under
  cases path with
  | nil => exact .inl (List.mem_singleton.mpr rfl)
  | cons name path =>
    cases form with
    | anything | table _ => exact setting.elim
    | text | truth => exact under.elim

theorem lays_entry {name : String} (keepsIfAny : (Form.table inner).KeepsIfAny low)
    (small : Text.lowercase name = name)
    (lays : Lays (inner name) values (low.entry name) value) :
    Lays (.table inner) (behind name values) low (low.withEntry name value) := by
  refine ⟨keepsIfAny.withEntry small lays.keeps, ?_⟩
  intro path setting
  cases path with
  | nil => exact setting.elim
  | cons other path =>
    rw [under_cons, under_cons, entry_withEntry]
    by_cases here : name = other
    · subst here
      rw [behind, if_pos rfl, if_pos rfl]
      exact lays.highest path setting
    · rw [behind, if_neg here, if_neg fun e : other = name => here e.symm]
      exact .inr ⟨rfl, rfl⟩

private theorem overlay_table (entries old : List (String × Setting)) :
    overlay absent (table entries) = overlayEntries (table []) entries ∧
      overlay (table old) (table entries) = overlayEntries (table old) entries := by
  constructor
  · rw [overlay]
  · rw [overlay]
    rintro ⟨⟩

private theorem overlayEntries_eq (low value : Setting) (name : String)
    (rest : List (String × Setting)) : overlayEntries low [] = low ∧
      overlayEntries low ((name, value) :: rest) =
        overlayEntries (low.withEntry (Text.lowercase name)
          (overlay (low.entry (Text.lowercase name)) value)) rest := by
  constructor <;> rw [overlayEntries]

theorem overlay_of_ne_table (plain : ∀ entries, value ≠ table entries) :
    overlay low value = value := by
  cases value with
  | table entries => exact absurd rfl (plain entries)
  | _ =>
    rw [overlay]
    rintro entries ⟨⟩

private theorem lays_overlayEntries
    (each : ∀ name low value, (inner name).KeepsIfAny low → (inner name).Allows value →
      Lays (inner name) (given · value) low (overlay low value))
    {entries : List (String × Setting)}
    (allows : ∀ e ∈ entries, (inner (Text.lowercase e.1)).Allows e.2)
    (keeps : (Form.table inner).Keeps low) :
    Lays (.table inner) (given · (table entries)) low (overlayEntries low entries) := by
  induction entries generalizing low with
  | nil =>
    rw [(overlayEntries_eq low low "" []).1]
    apply (Lays.refl keeps).congr
    intro path setting
    cases path with
    | nil => exact setting.elim
    | cons name path => rfl
  | cons e rest ih =>
    obtain ⟨name, value⟩ := e
    rw [(overlayEntries_eq low value name rest).2]
    have keepsIfAny : (Form.table inner).KeepsIfAny low := .inr keeps
    have laid := lays_entry keepsIfAny (Text.lowercase_lowercase name)
      (each _ _ value (keepsIfAny.entry _) (allows (name, value) List.mem_cons_self))
    apply (laid.trans (ih (fun e mem => allows e (List.mem_cons_of_mem _ mem)) laid.keeps)).congr
    intro path setting
    cases path with
    | nil => exact setting.elim
    | cons other path => rfl

theorem lays_overlay (keepsIfAny : form.KeepsIfAny low) (allows : form.Allows value) :
    Lays form (given · value) low (overlay low value) := by
  induction form generalizing low value with
  | anything => exact lays_anything
  | text | truth =>
    rw [overlay_of_ne_table (allows.ne_table trivial)]
    exact lays_setting trivial allows
  | table inner ih =>
    obtain ⟨entries, rfl, allows⟩ := allows
    have each : ∀ name low value, (inner name).KeepsIfAny low → (inner name).Allows value →
        Lays (inner name) (given · value) low (overlay low value) :=
      fun name _ _ keepsIfAny allows => ih name keepsIfAny allows
    obtain rfl | keeps := keepsIfAny
    · have empty : (Form.table inner).Keeps (table []) :=
        ⟨[], rfl, List.nodup_nil, by rintro e ⟨⟩⟩
      have laid := lays_overlayEntries each allows empty
      rw [(overlay_table entries []).1]
      refine ⟨laid.keeps, ?_⟩
      intro path setting
      cases path with
      | nil => exact setting.elim
      | cons name path => exact laid.highest (name :: path) setting
    · have laid := lays_overlayEntries each allows keeps
      obtain ⟨old, rfl, -⟩ := keeps
      rw [(overlay_table entries old).2]
      exact laid

/-- A step to a place that a list can have. -/
def Step.InRange : Step → Prop
  | name _ => True
  | index i => 0 ≤ i ∧ i < longest

/-- A value under some steps fits a form: they lead to a place whose form the value has. -/
def Form.TakesAt (value : Setting) : List Step → Form → Prop
  | [], form => form.Allows value
  | .name name :: steps, .table inner => TakesAt value steps (inner (Text.lowercase name))
  | step :: steps, .anything => step.InRange ∧ TakesAt value steps .anything
  | _ :: _, _ => False

private theorem withItem_of_inRange {i : Int} {change : Setting → Option Setting} {s : Setting}
    (inRange : 0 ≤ i ∧ i < longest) (changes : ∀ s, ∃ t, change s = some t) :
    ∃ t, s.withItem i change = some t := by
  cases i with
  | negSucc n => omega
  | ofNat n =>
    obtain ⟨item, changed⟩ := changes (s.items.getD n absent)
    have room : ¬ longest ≤ n := by
      have := Int.ofNat_lt.mp inRange.2
      omega
    refine ⟨list ((s.items ++ List.replicate (n + 1 - s.items.length) absent).set n item), ?_⟩
    unfold withItem
    simp only [inRange.1, if_true, if_neg room, changed]
    rfl

private theorem put_anything {steps : List Step} (takes : Form.TakesAt value steps .anything)
    (low : Setting) : ∃ high, put value steps low = some high := by
  induction steps generalizing low with
  | nil => exact ⟨_, rfl⟩
  | cons step rest ih =>
    cases step with
    | name name =>
      obtain ⟨-, takes⟩ := takes
      obtain ⟨high, put⟩ := ih takes (low.entry (Text.lowercase name))
      exact ⟨_, by rw [Setting.put, put]; rfl⟩
    | index i =>
      obtain ⟨inRange, takes⟩ := takes
      cases rest with
      | nil => exact withItem_of_inRange inRange fun _ => ⟨value, rfl⟩
      | cons step' rest => exact withItem_of_inRange inRange (ih takes)

theorem lays_put {steps : List Step} (keepsIfAny : form.KeepsIfAny low)
    (takes : Form.TakesAt value steps form) :
    ∃ high, put value steps low = some high ∧ Lays form (givenAt value steps) low high := by
  induction steps generalizing form low with
  | nil => exact ⟨_, rfl, lays_overlay keepsIfAny takes⟩
  | cons step rest ih =>
    cases form with
    | text | truth => cases step <;> exact False.elim takes
    | anything =>
      obtain ⟨high, put⟩ := put_anything takes low
      exact ⟨high, put, lays_anything⟩
    | table inner =>
      cases step with
      | index i => exact False.elim takes
      | name name =>
        obtain ⟨high, put, lays⟩ := ih (keepsIfAny.entry _) takes
        refine ⟨_, ?_, lays_entry keepsIfAny (Text.lowercase_lowercase name) lays⟩
        rw [Setting.put, put]
        rfl

end LayeredTree.Setting
