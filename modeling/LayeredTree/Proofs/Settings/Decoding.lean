import Mathlib.Data.List.Perm.Basic
import LayeredTree.Proofs.Settings.Precedence

set_option autoImplicit false

namespace LayeredTree.Setting

open Settings (Source builtIn)

variable {α β : Type} {name : String} {draft : α}
  {fields : List (String × (α → Setting → Option α))}
  {entries : List (String × Setting)} {s value : Setting}

/-- A part of what is read is read from a value, or the standard if there is no value. -/
structure ReadFrom (value : Setting) (read : Setting → Option β) (standard a : β) : Prop where
  present : value ≠ absent → read value = some a
  missing : value = absent → a = standard

def SetsPart (part : α → β) (read : Setting → Option β) (take : α → Setting → Option α) : Prop :=
  ∀ draft value new, take draft value = some new → read value = some (part new)

/-- Taking a field leaves a part of the draft as it is. -/
def SparesPart (part : α → β) (take : α → Setting → Option α) : Prop :=
  ∀ draft value new, take draft value = some new → part new = part draft

theorem setsPart_bind {part : α → β} {read : Setting → Option β} {set : α → β → α}
    (lens : ∀ s a, part (set s a) = a) :
    SetsPart part read (fun s v => do pure (set s (← read v))) := by
  intro draft value new taken
  obtain ⟨a, read, same⟩ := Option.bind_eq_some_iff.mp taken
  obtain rfl := Option.some.inj same
  rw [lens]
  exact read

theorem sparesPart_bind {γ : Type} {part : α → β} {read : Setting → Option γ} {set : α → γ → α}
    (apart : ∀ s a, part (set s a) = part s) :
    SparesPart part (fun s v => do pure (set s (← read v))) := by
  intro draft value new taken
  obtain ⟨a, -, same⟩ := Option.bind_eq_some_iff.mp taken
  obtain rfl := Option.some.inj same
  exact apart draft a

theorem exists_taken {read : Setting → Option β} {set : α → β → α} {a : β}
    (read_eq : read value = some a) (draft : α) :
    ∃ new, (do pure (set draft (← read value))) = some new :=
  ⟨set draft a, by rw [read_eq]; rfl⟩

/-- How a part of a record is read: from the field of its name, and no other field touches it. -/
structure ReadsField (fields : List (String × (α → Setting → Option α))) (name : String)
    (part : α → β) (read : Setting → Option β) : Prop where
  own : ∃ take, fields.lookup name = some take ∧ SetsPart part read take
  others : ∀ field ∈ fields, field.1 = name ∨ SparesPart part field.2

/-- Each field takes the value that stands for it in a table, whatever was read before. -/
def Suits (fields : List (String × (α → Setting → Option α))) (entries : List (String × Setting)) :
    Prop :=
  ∀ field ∈ fields, ∀ e ∈ entries, e.1 = field.1 →
    e.2 ≠ absent ∧ ∀ draft, ∃ new, field.2 draft e.2 = some new

private theorem asRecord_cons (fields : List (String × (α → Setting → Option α))) (draft : α)
    (e : String × Setting) (rest : List (String × Setting)) :
    asRecord fields draft (table (e :: rest)) =
      (match fields.lookup e.1 with
        | some take => take draft e.2
        | none => some draft) >>= fun mid => asRecord fields mid (table rest) := by
  rfl

theorem asRecord_table (nodup : (entries.map Prod.fst).Nodup) (suits : Suits fields entries) :
    ∃ new, asRecord fields draft (table entries) = some new ∧
      ∀ {β : Type} {name : String} {part : α → β} {read : Setting → Option β},
        ReadsField fields name part read →
          ReadFrom ((table entries).entry name) read (part draft) (part new) := by
  induction entries generalizing draft with
  | nil => exact ⟨draft, rfl, fun _ => ⟨fun present => absurd rfl present, fun _ => rfl⟩⟩
  | cons e rest ih =>
    obtain ⟨fresh, nodup⟩ := List.nodup_cons.mp nodup
    have suits' : Suits fields rest := fun field mem e mem' =>
      suits field mem e (List.mem_cons_of_mem _ mem')
    rw [asRecord_cons]
    cases field : fields.lookup e.1 with
    | none =>
      obtain ⟨new, read, parts⟩ := ih nodup suits'
      refine ⟨new, read, ?_⟩
      intro β name part read reads
      have other : e.1 ≠ name := by
        rintro rfl
        obtain ⟨take, own, -⟩ := reads.own
        rw [field] at own
        cases own
      rw [entry_cons_of_ne other]
      exact parts reads
    | some take =>
      have known : (e.1, take) ∈ fields := by
        obtain ⟨before, after, rfl, -⟩ := List.lookup_eq_some_iff.mp field
        simp
      obtain ⟨present, takes⟩ := suits _ known e List.mem_cons_self rfl
      obtain ⟨mid, taken⟩ : ∃ mid, take draft e.2 = some mid := takes draft
      obtain ⟨new, read, parts⟩ := ih nodup suits'
      refine ⟨new, by simpa [taken] using read, ?_⟩
      intro β name part read reads
      by_cases same : e.1 = name
      · subst same
        have none : (table rest).entry e.1 = absent := by
          unfold entry
          rw [Setting.entries, lookup_of_fresh fresh]
          rfl
        obtain ⟨take', own, reads'⟩ := reads.own
        obtain rfl : take = take' := Option.some.inj (field.symm.trans own)
        have kept := (parts reads).missing none
        rw [entry_cons_self]
        exact ⟨fun _ => kept ▸ reads' draft e.2 mid taken, fun gone => absurd gone present⟩
      · rw [entry_cons_of_ne same,
          ← (reads.others _ known).resolve_left same draft e.2 mid taken]
        exact parts reads

theorem exists_asRecord {P : α → Prop} (nodup : (entries.map Prod.fst).Nodup)
    (suits : Suits fields entries)
    (parts : ∀ new, (∀ {β : Type} {name : String} {part : α → β} {read : Setting → Option β},
      ReadsField fields name part read →
        ReadFrom ((table entries).entry name) read (part draft) (part new)) → P new) :
    ∃ new, asRecord fields draft (table entries) = some new ∧ P new := by
  obtain ⟨new, read, each⟩ := asRecord_table nodup suits
  exact ⟨new, read, parts new each⟩

theorem lookup_eq_some_iff_mem {l : List (String × β)} {k : String} {b : β}
    (nodup : (l.map Prod.fst).Nodup) : l.lookup k = some b ↔ (k, b) ∈ l := by
  induction l with
  | nil => simp
  | cons e rest ih =>
    obtain ⟨k', b'⟩ := e
    obtain ⟨fresh, nodup⟩ := List.nodup_cons.mp nodup
    rw [List.lookup_cons, List.mem_cons, Prod.mk.injEq]
    by_cases same : k = k'
    · subst same
      have gone : (k, b) ∉ rest := fun mem => fresh (List.mem_map.mpr ⟨(k, b), mem, rfl⟩)
      simp [gone, eq_comm]
    · have differs : (k == k') = false := by simpa using same
      simpa [differs, same] using ih nodup

theorem lookup_eq_of_perm {l l' : List (String × β)} (perm : l.Perm l')
    (nodup : (l'.map Prod.fst).Nodup) (k : String) : l.lookup k = l'.lookup k := by
  apply Option.ext
  intro b
  rw [lookup_eq_some_iff_mem nodup,
    lookup_eq_some_iff_mem ((perm.map Prod.fst).nodup_iff.mpr nodup), perm.mem_iff]

private theorem mapM_asText (each : ∀ e ∈ entries, ∃ t, e.2.asText = some t) :
    ∃ texts : List (String × String),
      (entries.mapM fun e => do pure (e.1, ← e.2.asText)) = some texts ∧
        texts.map Prod.fst = entries.map Prod.fst ∧
          ∀ name, texts.lookup name = ((table entries).entry name).asText := by
  induction entries with
  | nil => exact ⟨[], rfl, rfl, fun _ => rfl⟩
  | cons e rest ih =>
    obtain ⟨⟨t, here⟩, each⟩ := List.forall_mem_cons.mp each
    obtain ⟨texts, mapped, names, under⟩ := ih each
    refine ⟨(e.1, t) :: texts, ?_, by simp [names], ?_⟩
    · rw [List.mapM_cons, here, mapped]
      rfl
    · intro name
      rw [List.lookup_cons]
      by_cases same : e.1 = name
      · subst same
        simp [entry_cons_self, here]
      · have differs : (name == e.1) = false := by
          simpa using fun e' : name = e.1 => same e'.symm
        rw [differs, entry_cons_of_ne same]
        exact under name

theorem asTexts_of_keeps (keeps : (Form.table fun _ => .text).Keeps s) :
    ∃ texts, s.asTexts = some texts ∧ (texts.map Prod.fst).Nodup ∧
      ∀ name, texts.lookup name = (s.entry name).asText := by
  obtain ⟨entries, rfl, nodup, each⟩ := keeps
  obtain ⟨texts, mapped, names, under⟩ := mapM_asText fun e mem => (each e mem).2
  have sorted := List.mergeSort_perm texts fun a b => !decide (b.1 < a.1)
  rw [← names] at nodup
  refine ⟨texts.mergeSort fun a b => !decide (b.1 < a.1), ?_, ?_, ?_⟩
  · unfold asTexts
    dsimp only
    rw [mapped]
    rfl
  · exact (sorted.map Prod.fst).nodup_iff.mpr nodup
  · intro name
    rw [lookup_eq_of_perm sorted nodup, under]

theorem asPath_of_asText {t : String} (read : value.asText = some t) :
    value.asPath = some (Path.ofString t) := by
  unfold asPath
  rw [read]
  rfl

theorem asFile_of_asText {t : String} (read : value.asText = some t) (present : value ≠ absent) :
    value.asFile = some (some (Path.ofString t)) := by
  unfold asFile
  split
  · exact absurd rfl present
  · rw [asPath_of_asText read]
    rfl

private theorem text_of_keeps {form : Form} (keeps : form.Keeps value) (asks : form = .text) :
    value ≠ absent ∧ ∃ t, value.asText = some t := by
  subst asks
  exact ⟨keeps.allows.ne_absent trivial, keeps⟩

theorem Form.Keeps.ne_absent {inner : String → Form} (keeps : (Form.table inner).Keeps s) :
    s ≠ absent := by
  obtain ⟨entries, rfl, -⟩ := keeps
  rintro ⟨⟩

structure GivesPlaces (s : Setting) (places : StorageSettings) : Prop where
  dataPath : ReadFrom (s.entry "data_path") asPath StorageSettings.standard.dataPath places.dataPath
  tempDataPath : ReadFrom (s.entry "temp_data_path") asPath StorageSettings.standard.tempDataPath
    places.tempDataPath

theorem asStorage_of_keeps (keeps : Form.storage.Keeps s) :
    ∃ places, s.asStorage = some places ∧ GivesPlaces s places := by
  obtain ⟨entries, rfl, nodup, each⟩ := keeps
  have text : ∀ e ∈ entries, e.1 ∈ ["data_path", "temp_data_path"] →
      e.2 ≠ absent ∧ ∃ t, e.2.asText = some t :=
    fun e mem known => text_of_keeps (each e mem).2 (if_pos known)
  unfold asStorage
  apply exists_asRecord nodup
  · intro field mem e mem' same
    simp only [List.mem_cons, List.not_mem_nil, or_false] at mem
    obtain rfl | rfl := mem
    all_goals
      obtain ⟨present, t, read⟩ := text e mem' (by rw [same]; simp)
      exact ⟨present, exists_taken (asPath_of_asText read)⟩
  · intro places parts
    refine ⟨?_, ?_⟩
    all_goals
      refine parts ⟨⟨_, rfl, setsPart_bind fun _ _ => rfl⟩, ?_⟩
      intro field mem
      simp only [List.mem_cons, List.not_mem_nil, or_false] at mem
      obtain rfl | rfl := mem
      all_goals first | exact .inl rfl | exact .inr (sparesPart_bind fun _ _ => rfl)

structure Logs (s : Setting) (way : LoggingSettings) : Prop where
  level : ReadFrom (s.entry "level") asText LoggingSettings.standard.level way.level
  format : ReadFrom (s.entry "format") asText LoggingSettings.standard.format way.format
  output : ReadFrom (s.entry "output") asText LoggingSettings.standard.output way.output
  file : ReadFrom (s.entry "file") asFile LoggingSettings.standard.file way.file
  color : ReadFrom (s.entry "color") asBool LoggingSettings.standard.color way.color
  modules : ReadFrom (s.entry "modules") asTexts LoggingSettings.standard.modules way.modules

theorem asLogging_of_keeps (keeps : Form.logging.Keeps s) :
    ∃ way, s.asLogging = some way ∧ Logs s way := by
  obtain ⟨entries, rfl, nodup, each⟩ := keeps
  have text : ∀ e ∈ entries, e.1 ∈ ["level", "format", "output", "file"] →
      e.2 ≠ absent ∧ ∃ t, e.2.asText = some t :=
    fun e mem known => text_of_keeps (each e mem).2 (if_pos known)
  unfold asLogging
  apply exists_asRecord nodup
  · intro field mem e mem' same
    simp only [List.mem_cons, List.not_mem_nil, or_false] at mem
    obtain rfl | rfl | rfl | rfl | rfl | rfl := mem
    · obtain ⟨present, t, read⟩ := text e mem' (by rw [same]; simp)
      exact ⟨present, exists_taken read⟩
    · obtain ⟨present, t, read⟩ := text e mem' (by rw [same]; simp)
      exact ⟨present, exists_taken read⟩
    · obtain ⟨present, t, read⟩ := text e mem' (by rw [same]; simp)
      exact ⟨present, exists_taken read⟩
    · obtain ⟨present, t, read⟩ := text e mem' (by rw [same]; simp)
      exact ⟨present, exists_taken (asFile_of_asText read present)⟩
    · have allows := (each e mem').2.allows
      rw [same] at allows
      have present := Form.Allows.ne_absent allows trivial
      obtain ⟨b, read⟩ := allows
      exact ⟨present, exists_taken read⟩
    · have keeps := (each e mem').2
      rw [same] at keeps
      obtain ⟨texts, read, -⟩ := asTexts_of_keeps keeps
      exact ⟨Form.Keeps.ne_absent keeps, exists_taken read⟩
  · intro way parts
    refine ⟨?_, ?_, ?_, ?_, ?_, ?_⟩
    all_goals
      refine parts ⟨⟨_, rfl, setsPart_bind fun _ _ => rfl⟩, ?_⟩
      intro field mem
      simp only [List.mem_cons, List.not_mem_nil, or_false] at mem
      obtain rfl | rfl | rfl | rfl | rfl | rfl := mem
      all_goals first | exact .inl rfl | exact .inr (sparesPart_bind fun _ _ => rfl)

theorem asNode_of_keeps (keeps : Form.node.Keeps s) : ∃ node, s.asNode = some node ∧
    ReadFrom (s.entry "storage") asStorage NodeSettings.standard.storage node.storage ∧
      ReadFrom (s.entry "logging") asLogging NodeSettings.standard.logging node.logging := by
  obtain ⟨entries, rfl, nodup, each⟩ := keeps
  unfold asNode
  apply exists_asRecord nodup
  · intro field mem e mem' same
    have keeps := (each e mem').2
    simp only [List.mem_cons, List.not_mem_nil, or_false] at mem
    obtain rfl | rfl := mem
    all_goals rw [same] at keeps
    · obtain ⟨places, read, -⟩ := asStorage_of_keeps keeps
      exact ⟨Form.Keeps.ne_absent keeps, exists_taken read⟩
    · obtain ⟨way, read, -⟩ := asLogging_of_keeps keeps
      exact ⟨Form.Keeps.ne_absent keeps, exists_taken read⟩
  · intro node parts
    refine ⟨?_, ?_⟩
    all_goals
      refine parts ⟨⟨_, rfl, setsPart_bind fun _ _ => rfl⟩, ?_⟩
      intro field mem
      simp only [List.mem_cons, List.not_mem_nil, or_false] at mem
      obtain rfl | rfl := mem
      all_goals first | exact .inl rfl | exact .inr (sparesPart_bind fun _ _ => rfl)

/-- A setting is read from what the highest source gives it that gives it anything, or it is the
standard one. -/
def ReadFromHighest (path : List String) (sources : List Source) (read : Setting → Option β)
    (standard a : β) : Prop :=
  (∃ value, Decides path sources value ∧ read value = some a) ∨ Unset path sources ∧ a = standard

/-- Each setting of a node comes from the highest source that gives it a value; the sources stand
with the highest first. The level of each part of the program is a setting of its own. -/
structure TakesHighest (sources : List Source) (node : NodeSettings) : Prop where
  dataPath : ReadFromHighest ["storage", "data_path"] sources asPath
    NodeSettings.standard.storage.dataPath node.storage.dataPath
  tempDataPath : ReadFromHighest ["storage", "temp_data_path"] sources asPath
    NodeSettings.standard.storage.tempDataPath node.storage.tempDataPath
  level : ReadFromHighest ["logging", "level"] sources asText
    NodeSettings.standard.logging.level node.logging.level
  format : ReadFromHighest ["logging", "format"] sources asText
    NodeSettings.standard.logging.format node.logging.format
  output : ReadFromHighest ["logging", "output"] sources asText
    NodeSettings.standard.logging.output node.logging.output
  file : ReadFromHighest ["logging", "file"] sources asFile
    NodeSettings.standard.logging.file node.logging.file
  color : ReadFromHighest ["logging", "color"] sources asBool
    NodeSettings.standard.logging.color node.logging.color
  modules : ∀ name, ReadFromHighest ["logging", "modules", name] sources (fun s => some <$> s.asText)
    none (node.logging.modules.lookup name)
  distinct : (node.logging.modules.map Prod.fst).Nodup

variable {path : List String} {sources : List Source} {read : Setting → Option β} {standard a : β}

theorem ReadFromHighest.eq_standard (settles : ReadFromHighest path sources read standard a)
    (unset : Unset path sources) : a = standard := by
  obtain ⟨value, decides, -⟩ | ⟨-, same⟩ := settles
  · obtain ⟨source, mem, given⟩ := decides.exists_mem
    rw [unset source mem] at given
    cases given
  · exact same

theorem readFromHighest_of_fromHighest (layable : ∀ source ∈ sources, IsLayable source)
    (setting : (Form.node.under path).IsSetting)
    (highest : FromHighest path (sources ++ [builtIn]) absent value)
    (readFrom : ReadFrom value read standard a)
    (least : ∀ e ∈ builtInTexts, e.1 = path → read (.text e.2) = some standard) :
    ReadFromHighest path sources read standard a := by
  obtain decides | ⟨unset, missing⟩ := highest
  · have present : value ≠ absent := by
      obtain ⟨source, mem, given⟩ := decides.exists_mem
      have layable' : IsLayable source := by
        obtain mem | mem := List.mem_append.mp mem
        · exact layable source mem
        · exact List.mem_singleton.mp mem ▸ isLayable_builtIn
      exact (layable'.allows given).ne_absent setting
    obtain upper | ⟨unset, decides⟩ := decides.of_append
    · exact .inl ⟨value, upper, readFrom.present present⟩
    · cases decides with
      | here mem =>
        obtain ⟨t, known, rfl⟩ := of_mem_givenBy_builtIn mem
        have same := (readFrom.present present).symm.trans (least _ known rfl)
        exact .inr ⟨unset, Option.some.inj same⟩
      | lower _ decides => cases decides
  · exact .inr ⟨fun source mem => unset source (List.mem_append_left _ mem),
      readFrom.missing missing⟩

theorem readFrom_absent (read : Setting → Option β) (a : β) : ReadFrom absent read a a :=
  ⟨fun present => absurd rfl present, fun _ => rfl⟩

private theorem parts_of_readFrom {inner : String → Form} {readSection : Setting → Option α}
    {old new : α} {P : Setting → α → Prop} (keepsIfAny : (Form.table inner).KeepsIfAny s)
    (readFrom : ReadFrom s readSection old new) (missing : P absent old)
    (present : (Form.table inner).Keeps s → ∃ made, readSection s = some made ∧ P s made) :
    P s new := by
  obtain rfl | keeps := keepsIfAny
  · rw [readFrom.missing rfl]
    exact missing
  · obtain ⟨made, read, parts⟩ := present keeps
    have same := read.symm.trans (readFrom.present keeps.ne_absent)
    exact Option.some.inj same ▸ parts

private theorem modules_of_readFrom {modules : List (String × String)}
    (keepsIfAny : (Form.table fun _ => .text).KeepsIfAny s)
    (readFrom : ReadFrom s asTexts [] modules) :
    (∀ name, ReadFrom (s.entry name) (fun v => some <$> v.asText) none (modules.lookup name)) ∧
      (modules.map Prod.fst).Nodup := by
  apply parts_of_readFrom keepsIfAny readFrom
  · exact ⟨fun name => readFrom_absent _ none, List.nodup_nil⟩
  · intro keeps
    obtain ⟨texts, read, nodup, under⟩ := asTexts_of_keeps keeps
    refine ⟨texts, read, ?_, nodup⟩
    intro name
    rw [under]
    obtain gone | ⟨t, text⟩ := Form.KeepsIfAny.entry (.inr keeps) name
    · rw [gone]
      exact readFrom_absent _ none
    · rw [text]
      refine ⟨fun _ => by rw [text]; rfl, fun gone => ?_⟩
      rw [gone] at text
      cases text

theorem takesHighest_of_keeps {whole : Setting} (layable : ∀ source ∈ sources, IsLayable source)
    (keeps : Form.node.Keeps whole)
    (highest : ∀ path, (Form.node.under path).IsSetting →
      FromHighest path (sources ++ [builtIn]) absent (whole.under path)) :
    ∃ node, whole.asNode = some node ∧ TakesHighest sources node := by
  obtain ⟨node, read, storage, logging⟩ := asNode_of_keeps keeps
  have keepsIfAny : Form.storage.KeepsIfAny (whole.entry "storage") ∧
      Form.logging.KeepsIfAny (whole.entry "logging") :=
    ⟨Form.KeepsIfAny.entry (.inr keeps) "storage", Form.KeepsIfAny.entry (.inr keeps) "logging"⟩
  have stores : GivesPlaces (whole.entry "storage") node.storage :=
    parts_of_readFrom keepsIfAny.1 storage ⟨readFrom_absent _ _, readFrom_absent _ _⟩
      asStorage_of_keeps
  have logs : Logs (whole.entry "logging") node.logging := parts_of_readFrom keepsIfAny.2 logging
    ⟨readFrom_absent _ _, readFrom_absent _ _, readFrom_absent _ _, readFrom_absent _ _,
      readFrom_absent _ _, readFrom_absent _ _⟩ asLogging_of_keeps
  obtain ⟨modules, distinct⟩ := modules_of_readFrom (keepsIfAny.2.entry "modules") logs.modules
  have settles : ∀ {β : Type} {path : List String} {read : Setting → Option β} {standard a : β},
      (Form.node.under path).IsSetting → ReadFrom (whole.under path) read standard a →
        (∀ e ∈ builtInTexts, e.1 = path → read (.text e.2) = some standard) →
          ReadFromHighest path sources read standard a :=
    fun setting readFrom least =>
      readFromHighest_of_fromHighest layable setting (highest _ setting) readFrom least
  refine ⟨node, read, ?_, ?_, ?_, ?_, ?_, ?_, ?_, ?_, distinct⟩
  · exact settles trivial stores.dataPath (by decide)
  · exact settles trivial stores.tempDataPath (by decide)
  · exact settles trivial logs.level (by decide)
  · exact settles trivial logs.format (by decide)
  · exact settles trivial logs.output (by decide)
  · exact settles trivial logs.file (by decide)
  · exact settles trivial logs.color (by decide)
  · intro name
    exact settles trivial (modules name) (by simp [builtInTexts])

end LayeredTree.Setting
