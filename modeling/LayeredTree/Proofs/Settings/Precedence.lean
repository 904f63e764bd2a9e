import Mathlib.Data.List.TakeWhile
import LayeredTree.Proofs.Settings.Layers
import LayeredTree.Settings.Load

set_option autoImplicit false

namespace LayeredTree.Setting

open Settings (Source builtIn)

namespace Form

def storage : Form := .table fun name =>
  if name ∈ ["data_path", "temp_data_path"] then .text else .anything

def logging : Form := .table fun name =>
  if name ∈ ["level", "format", "output", "file"] then .text
  else if name = "color" then .truth
  else if name = "modules" then .table fun _ => .text
  else .anything

def node : Form := .table fun name =>
  if name = "storage" then .storage else if name = "logging" then .logging else .anything

end Form

/-- The first name of a key is one name in small letters too. It fails only where a letter beyond
ASCII turns into one of ASCII, so that the whole becomes a key of another form. -/
def IsSettled (key : String) : Prop :=
  ∀ name, (stepsOf key).head? = some (.name name) →
    stepsOf (Text.lowercase name) = [.name (Text.lowercase name)]

/-- The values of a source are of the kinds that the settings ask for. -/
def IsTyped (source : Source) : Prop := ∀ e ∈ source, Form.TakesAt e.2 (stepsOf e.1) .node

/-- A source that can be laid over a tree of settings. -/
structure IsLayable (source : Source) : Prop where
  typed : IsTyped source
  settled : ∀ e ∈ source, IsSettled e.1

theorem isLayable_nil : IsLayable [] := ⟨by rintro e ⟨⟩, by rintro e ⟨⟩⟩

/-- The value of a setting is given by the highest source that gives it one. The sources stand with
the highest first. -/
inductive Decides (path : List String) : List Source → Setting → Prop
  | here {source : Source} {lower : List Source} {value : Setting} :
    value ∈ givenBy source path → Decides path (source :: lower) value
  | lower {source : Source} {lower : List Source} {value : Setting} :
    givenBy source path = [] → Decides path lower value → Decides path (source :: lower) value

/-- No source gives the setting a value. -/
def Unset (path : List String) (sources : List Source) : Prop :=
  ∀ source ∈ sources, givenBy source path = []

/-- A setting shows what the highest source gives it, or its old value if none gives it one. -/
def FromHighest (path : List String) (sources : List Source) (old new : Setting) : Prop :=
  Decides path sources new ∨ Unset path sources ∧ new = old

variable {path : List String} {source : Source} {sources lower : List Source}
  {old mid new value tree : Setting} {form : Form}

theorem FromHighest.cons (highest : FromHighest path lower old mid)
    (laid : Supersedes (givenBy source path) mid new) :
    FromHighest path (source :: lower) old new := by
  obtain mem | ⟨none, rfl⟩ := laid
  · exact .inl (.here mem)
  · obtain decides | ⟨unset, same⟩ := highest
    · exact .inl (.lower none decides)
    · exact .inr ⟨List.forall_mem_cons.mpr ⟨none, unset⟩, same⟩

theorem decides_cons_of_mem {other : Setting} (only : ∀ v ∈ givenBy source path, v = value)
    (mem : value ∈ givenBy source path) : Decides path (source :: lower) other ↔ other = value := by
  constructor
  · intro decides
    cases decides with
    | here given => exact only other given
    | lower none _ =>
      rw [none] at mem
      cases mem
  · rintro rfl
    exact .here mem

theorem decides_cons_of_nil {other : Setting} (none : givenBy source path = []) :
    Decides path (source :: lower) other ↔ Decides path lower other := by
  refine ⟨?_, .lower none⟩
  intro decides
  cases decides with
  | here given =>
    rw [none] at given
    cases given
  | lower _ decides => exact decides

theorem Decides.append (decides : Decides path sources value) (lower : List Source) :
    Decides path (sources ++ lower) value := by
  induction decides with
  | here mem => exact .here mem
  | lower none _ ih => exact .lower none ih

theorem Decides.of_append (decides : Decides path (sources ++ lower) value) :
    Decides path sources value ∨ Unset path sources ∧ Decides path lower value := by
  induction sources with
  | nil => exact .inr ⟨by rintro source ⟨⟩, decides⟩
  | cons source sources ih =>
    cases decides with
    | here mem => exact .inl (.here mem)
    | lower none decides =>
      obtain upper | ⟨unset, decides⟩ := ih decides
      · exact .inl (.lower none upper)
      · exact .inr ⟨List.forall_mem_cons.mpr ⟨none, unset⟩, decides⟩

theorem FromHighest.append (unset : Unset path sources) (highest : FromHighest path lower old new) :
    FromHighest path (sources ++ lower) old new := by
  induction sources with
  | nil => exact highest
  | cons source sources ih =>
    obtain ⟨none, unset⟩ := List.forall_mem_cons.mp unset
    exact (ih unset).cons (.inr ⟨none, rfl⟩)

theorem Decides.exists_mem (decides : Decides path sources value) :
    ∃ source ∈ sources, value ∈ givenBy source path := by
  induction decides with
  | here mem => exact ⟨_, List.mem_cons_self, mem⟩
  | lower _ _ ih =>
    obtain ⟨source, mem, given⟩ := ih
    exact ⟨source, List.mem_cons_of_mem _ mem, given⟩

theorem Form.Allows.of_mem_given {s : Setting} (allows : form.Allows s)
    (mem : value ∈ given path s) : (form.under path).Allows value := by
  induction path generalizing form s with
  | nil =>
    obtain rfl := List.mem_singleton.mp mem
    exact allows
  | cons name path ih =>
    cases form with
    | anything | text | truth => trivial
    | table inner =>
      obtain ⟨entries, rfl, each⟩ := allows
      obtain ⟨e, here, mem⟩ := List.mem_flatMap.mp mem
      split at mem
      · rename_i same
        exact ih (same ▸ each e here) mem
      · cases mem

theorem Form.admits_anything (path : List String) (s : Setting) :
    (Form.anything.under path).Allows s := by
  cases path <;> trivial

theorem Form.TakesAt.of_mem_givenAt {s : Setting} {steps : List Step}
    (takes : Form.TakesAt s steps form) (mem : value ∈ givenAt s steps path) :
    (form.under path).Allows value := by
  induction steps generalizing form path with
  | nil => exact Form.Allows.of_mem_given takes mem
  | cons step rest ih =>
    cases step with
    | index i => cases mem
    | name name =>
      cases form with
      | text | truth => exact False.elim takes
      | anything => exact Form.admits_anything path value
      | table inner =>
        cases path with
        | nil => cases mem
        | cons other path =>
          rw [givenAt, behind] at mem
          split at mem
          · rename_i same
            subst same
            change (Form.under path (inner (Text.lowercase name))).Allows value
            exact ih takes mem
          · cases mem

theorem IsLayable.allows (layable : IsLayable source) (mem : value ∈ givenBy source path) :
    (Form.node.under path).Allows value := by
  obtain ⟨e, here, mem⟩ := List.mem_flatMap.mp mem
  exact (layable.typed e here).of_mem_givenAt mem

theorem Form.Allows.ne_absent (allows : form.Allows value) (setting : form.IsSetting) :
    value ≠ absent := by
  rintro rfl
  cases form with
  | anything | table _ => exact setting
  | text =>
    obtain ⟨t, read⟩ := allows
    cases read
  | truth =>
    obtain ⟨b, read⟩ := allows
    cases read

/-- A tree of settings whose sections can stand in a source as they are. -/
structure StandsAsSource (tree : Setting) : Prop where
  keeps : Form.node.Keeps tree
  single : ∀ e ∈ tree.entries, stepsOf e.1 = [.name e.1]

theorem standsAsSource_empty : StandsAsSource (table []) :=
  ⟨⟨[], rfl, List.nodup_nil, by rintro e ⟨⟩⟩, by rintro e ⟨⟩⟩

theorem stepsOf_cases (key : String) : stepsOf key = [.name key] ∨
    key.toList.takeWhile isNameChar ≠ [] ∧ ∃ rest,
      stepsOf key = .name (String.ofList (key.toList.takeWhile isNameChar)) :: rest := by
  unfold stepsOf
  dsimp only
  split
  · exact .inl rfl
  · rename_i named
    cases stepsAfter key.toList.length (key.toList.dropWhile isNameChar) with
    | none => exact .inl rfl
    | some steps => exact .inr ⟨named, steps, rfl⟩

theorem exists_stepsOf (key : String) : ∃ name rest, stepsOf key = .name name :: rest := by
  obtain single | ⟨-, rest, steps⟩ := stepsOf_cases key
  · exact ⟨key, [], single⟩
  · exact ⟨_, rest, steps⟩

theorem stepsOf_of_nameChars {name : List Char} (chars : ∀ c ∈ name, isNameChar c = true) :
    stepsOf (String.ofList name) = [.name (String.ofList name)] := by
  have all : name.takeWhile isNameChar = name ∧ name.dropWhile isNameChar = [] :=
    ⟨List.takeWhile_eq_self_iff.mpr chars, List.dropWhile_eq_nil_iff.mpr chars⟩
  unfold stepsOf
  rw [String.toList_ofList]
  dsimp only
  rw [all.1, all.2]
  split
  · rfl
  · cases name <;> rfl

theorem isSettled_of_small {key : String}
    (small : ∀ c ∈ key.toList, c ≠ 'Σ' ∧ Text.smallForm c = [c]) : IsSettled key := by
  have lowercase : ∀ s : List Char, (∀ c ∈ s, c ∈ key.toList) →
      Text.lowercase (String.ofList s) = String.ofList s := by
    intro s part
    unfold Text.lowercase
    rw [String.toList_ofList, Text.lowercaseAfter_of_small fun c mem => small c (part c mem)]
  intro name here
  obtain single | ⟨-, rest, steps⟩ := stepsOf_cases key
  · rw [single] at here
    obtain rfl : key = name := by simpa using here
    have same := lowercase key.toList fun _ mem => mem
    rw [String.ofList_toList] at same
    rw [same, single]
  · rw [steps] at here
    obtain rfl : String.ofList (key.toList.takeWhile isNameChar) = name := by simpa using here
    rw [lowercase _ fun c mem => (List.takeWhile_prefix _).subset mem]
    exact stepsOf_of_nameChars fun c mem => List.mem_takeWhile_imp mem

theorem lays_layer (sourced : StandsAsSource tree) (layable : IsLayable source) :
    ∃ new, tree.layer source = some new ∧ StandsAsSource new ∧
      Lays .node (givenBy source) tree new := by
  induction source generalizing tree with
  | nil => exact ⟨tree, rfl, sourced, Lays.refl sourced.keeps⟩
  | cons e source ih =>
    obtain ⟨key, s⟩ := e
    obtain ⟨typed, typed'⟩ := List.forall_mem_cons.mp layable.typed
    obtain ⟨settled, settled'⟩ := List.forall_mem_cons.mp layable.settled
    obtain ⟨mid, put, lays⟩ := lays_put (.inr sourced.keeps) typed
    have sourced' : StandsAsSource mid := by
      refine ⟨lays.keeps, ?_⟩
      obtain ⟨name, rest, steps⟩ := exists_stepsOf key
      rw [steps, Setting.put] at put
      obtain ⟨s', -, same⟩ := Option.bind_eq_some_iff.mp put
      obtain rfl := Option.some.inj same
      intro e mem
      obtain rfl | mem := mem_place mem
      · exact settled name (by rw [steps]; rfl)
      · exact sourced.single e mem
    obtain ⟨new, layered, sourced'', lays'⟩ := ih sourced' ⟨typed', settled'⟩
    refine ⟨new, ?_, sourced'', lays.trans lays'⟩
    unfold layer
    rw [List.foldlM_cons]
    simp only [put]
    exact layered

theorem fromHighest_layers (sourced : StandsAsSource tree)
    (layable : ∀ source ∈ sources, IsLayable source) :
    ∃ new, sources.reverse.foldlM layer tree = some new ∧ StandsAsSource new ∧
      ∀ path, (Form.node.under path).IsSetting →
        FromHighest path sources (tree.under path) (new.under path) := by
  induction sources with
  | nil => exact ⟨tree, rfl, sourced, fun _ _ => .inr ⟨by rintro source ⟨⟩, rfl⟩⟩
  | cons source sources ih =>
    obtain ⟨layable, layable'⟩ := List.forall_mem_cons.mp layable
    obtain ⟨mid, layered, sourced', highest⟩ := ih layable'
    obtain ⟨new, layer, sourced'', lays⟩ := lays_layer sourced' layable
    refine ⟨new, ?_, sourced'', ?_⟩
    · rw [List.reverse_cons, List.foldlM_append, layered]
      simp only [List.foldlM_cons, List.foldlM_nil]
      exact congrArg (· >>= pure) layer
    · intro path setting
      exact (highest path setting).cons (lays.highest path setting)

private theorem flatMap_lookup {entries : List (String × Setting)} {name : String}
    (nodup : (entries.map Prod.fst).Nodup) (values : Setting → List Setting) :
    (entries.flatMap fun e => if e.1 = name then values e.2 else []) =
      ((entries.lookup name).map values).getD [] := by
  induction entries with
  | nil => rfl
  | cons e rest ih =>
    obtain ⟨k, v⟩ := e
    obtain ⟨fresh, nodup⟩ := List.nodup_cons.mp nodup
    rw [List.flatMap_cons, ih nodup, List.lookup_cons]
    by_cases here : k = name
    · subst here
      simp [lookup_of_fresh fresh]
    · have differs : (name == k) = false := by simpa using fun e : name = k => here e.symm
      simp [here, differs]

theorem Form.Keeps.given_eq {s : Setting} (keeps : form.Keeps s)
    (setting : (form.under path).IsSetting) :
    given path s = [s.under path] ∧ (form.under path).Keeps (s.under path) ∨
      given path s = [] ∧ s.under path = absent := by
  induction path generalizing form s with
  | nil => exact .inl ⟨rfl, keeps⟩
  | cons name path ih =>
    cases form with
    | anything | text | truth => exact setting.elim
    | table inner =>
      obtain ⟨entries, rfl, nodup, each⟩ := keeps
      have small : given (name :: path) (Setting.table entries) =
          ((entries.lookup name).map (given path)).getD [] := by
        rw [← flatMap_lookup nodup]
        apply List.flatMap_congr
        intro e mem
        rw [(each e mem).1]
      rw [small, under_cons]
      unfold entry
      rw [Setting.entries]
      cases found : entries.lookup name with
      | none => exact .inr ⟨rfl, under_absent path⟩
      | some value =>
        obtain ⟨before, after, rfl, -⟩ := List.lookup_eq_some_iff.mp found
        exact ih (each (name, value) (by simp)).2 setting

theorem StandsAsSource.givenBy_eq (sourced : StandsAsSource tree)
    (setting : (Form.node.under path).IsSetting) :
    givenBy tree.entries path = given path tree := by
  cases path with
  | nil => exact setting.elim
  | cons name path =>
    apply List.flatMap_congr
    intro e mem
    rw [sourced.single e mem]
    rfl

theorem StandsAsSource.layable (sourced : StandsAsSource tree) : IsLayable tree.entries := by
  obtain ⟨entries, rfl, -, each⟩ := sourced.keeps
  refine ⟨?_, ?_⟩
  · intro e mem
    rw [sourced.single e mem]
    obtain ⟨small, keeps⟩ := each e mem
    exact Form.Keeps.allows (small.symm ▸ keeps)
  · intro e mem name here
    rw [sourced.single e mem] at here
    obtain rfl : e.1 = name := by simpa using here
    rw [(each e mem).1]
    exact sourced.single e mem

theorem Form.takesAt_names (small : ∀ name ∈ path, Text.lowercase name = name)
    (setting : (form.under path).IsSetting) (allows : (form.under path).Allows value) :
    Form.TakesAt value (path.map Step.name) form := by
  induction path generalizing form with
  | nil => exact allows
  | cons name path ih =>
    cases form with
    | anything | text | truth => exact setting.elim
    | table inner =>
      obtain ⟨here, small⟩ := List.forall_mem_cons.mp small
      change Form.TakesAt value (path.map Step.name) (inner (Text.lowercase name))
      rw [here]
      exact ih small setting allows

theorem isTyped_singleton {key : String} (steps : stepsOf key = path.map Step.name)
    (small : ∀ name ∈ path, Text.lowercase name = name) (setting : (Form.node.under path).IsSetting)
    (allows : (Form.node.under path).Allows value) : IsTyped [(key, value)] := by
  unfold IsTyped
  rw [List.forall_mem_singleton, steps]
  exact Form.takesAt_names small setting allows

theorem isLayable_texts {name : String} {inner : String → Form} (texts : List (String × String))
    (steps : stepsOf name = [.name name]) (small : Text.lowercase name = name)
    (section' : Form.node.under [name] = .table inner)
    (each : ∀ e ∈ texts, inner (Text.lowercase e.1) = .text) :
    IsLayable [(name, table (texts.map fun e => (e.1, text e.2)))] := by
  refine ⟨List.forall_mem_singleton.mpr ?_, List.forall_mem_singleton.mpr ?_⟩
  · rw [steps]
    change Form.Allows (Form.node.under [Text.lowercase name]) _
    rw [small, section']
    refine ⟨_, rfl, ?_⟩
    intro e mem
    obtain ⟨f, mem, same⟩ := List.mem_map.mp mem
    rw [← same, each f mem]
    exact ⟨f.2, rfl⟩
  · intro other here
    rw [steps] at here
    obtain rfl : name = other := by simpa using here
    rw [small]
    exact steps

theorem givenAt_names {names : List String} (small : ∀ n ∈ names, Text.lowercase n = n)
    (value : Setting) : givenAt value (names.map Step.name) names = [value] := by
  induction names with
  | nil => rfl
  | cons n names ih =>
    obtain ⟨here, small⟩ := List.forall_mem_cons.mp small
    rw [List.map_cons, givenAt, behind, if_pos here]
    exact ih small

def builtInTexts : List (List String × String) :=
  [(["storage", "data_path"], "data"), (["storage", "temp_data_path"], "data/_temp"),
    (["logging", "level"], "info"), (["logging", "format"], "text"),
    (["logging", "output"], "stdout")]

private theorem exists_builtInTexts : ∀ e ∈ builtIn, ∃ f ∈ builtInTexts,
    stepsOf e.1 = f.1.map Step.name ∧ e.2 = .text f.2 := by
  intro e mem
  simp only [builtIn, List.mem_cons, List.not_mem_nil, or_false] at mem
  obtain rfl | rfl | rfl | rfl | rfl := mem
  · exact ⟨(["storage", "data_path"], "data"), by decide, by decide, rfl⟩
  · exact ⟨(["storage", "temp_data_path"], "data/_temp"), by decide, by decide, rfl⟩
  · exact ⟨(["logging", "level"], "info"), by decide, by decide, rfl⟩
  · exact ⟨(["logging", "format"], "text"), by decide, by decide, rfl⟩
  · exact ⟨(["logging", "output"], "stdout"), by decide, by decide, rfl⟩

private theorem small_of_mem_builtInTexts : ∀ f ∈ builtInTexts,
    (∀ n ∈ f.1, Text.lowercase n = n) ∧ ∀ n ∈ f.1.head?, stepsOf n = [.name n] := by
  decide

private theorem under_of_mem_builtInTexts {f : List String × String} (mem : f ∈ builtInTexts) :
    Form.node.under f.1 = .text := by
  simp only [builtInTexts, List.mem_cons, List.not_mem_nil, or_false] at mem
  obtain rfl | rfl | rfl | rfl | rfl := mem <;> rfl

theorem isLayable_builtIn : IsLayable builtIn := by
  refine ⟨?_, ?_⟩
  · intro e mem
    obtain ⟨f, known, steps, text⟩ := exists_builtInTexts e mem
    rw [steps, text]
    apply Form.takesAt_names (small_of_mem_builtInTexts f known).1
    all_goals rw [under_of_mem_builtInTexts known]
    · trivial
    · exact ⟨f.2, rfl⟩
  · intro e mem name here
    obtain ⟨f, known, steps, -⟩ := exists_builtInTexts e mem
    obtain ⟨small, single⟩ := small_of_mem_builtInTexts f known
    rw [steps, List.head?_map, Option.map_eq_some_iff] at here
    obtain ⟨n, first, same⟩ := here
    obtain rfl : n = name := by simpa using same
    rw [small n (List.mem_of_mem_head? first)]
    exact single n first

private theorem of_mem_givenAt_text {names : List String} {t : String}
    (small : ∀ n ∈ names, Text.lowercase n = n)
    (mem : value ∈ givenAt (.text t) (names.map Step.name) path) :
    path = names ∧ value = .text t := by
  induction names generalizing path with
  | nil =>
    cases path with
    | nil => exact ⟨rfl, List.mem_singleton.mp mem⟩
    | cons name path => cases mem
  | cons n names ih =>
    obtain ⟨here, small⟩ := List.forall_mem_cons.mp small
    rw [List.map_cons, givenAt, here] at mem
    cases path with
    | nil => cases mem
    | cons name path =>
      rw [behind] at mem
      split at mem
      · rename_i same
        obtain ⟨rfl, text⟩ := ih small mem
        exact ⟨by rw [same], text⟩
      · cases mem

theorem of_mem_givenBy_builtIn (mem : value ∈ givenBy builtIn path) :
    ∃ t, (path, t) ∈ builtInTexts ∧ value = .text t := by
  obtain ⟨e, here, mem⟩ := List.mem_flatMap.mp mem
  obtain ⟨f, known, steps, text⟩ := exists_builtInTexts e here
  rw [steps, text] at mem
  obtain ⟨rfl, same⟩ := of_mem_givenAt_text (small_of_mem_builtInTexts f known).1 mem
  exact ⟨f.2, known, same⟩

theorem fromHighest_whole (layable : ∀ source ∈ sources, IsLayable source) :
    ∃ tree bottom whole, sources.reverse.foldlM layer (table []) = some tree ∧
      (table []).layer builtIn = some bottom ∧ bottom.layer tree.entries = some whole ∧
        Form.node.Keeps whole ∧ ∀ path, (Form.node.under path).IsSetting →
          FromHighest path (sources ++ [builtIn]) absent (whole.under path) := by
  obtain ⟨tree, layered, sourced, highest⟩ := fromHighest_layers standsAsSource_empty layable
  obtain ⟨bottom, laid, sourced', lays⟩ := lays_layer standsAsSource_empty isLayable_builtIn
  obtain ⟨whole, laid', sourced'', lays'⟩ := lays_layer sourced' sourced.layable
  refine ⟨tree, bottom, whole, layered, laid, laid', sourced''.keeps, ?_⟩
  intro path setting
  have start : (table []).under path = absent := by
    cases path with
    | nil => exact setting.elim
    | cons name path => exact under_absent path
  have upper := lays'.highest path setting
  rw [sourced.givenBy_eq setting] at upper
  have shown := highest path setting
  have least := lays.highest path setting
  rw [start] at shown least
  obtain ⟨given, keeps⟩ | ⟨given, missing⟩ := sourced.keeps.given_eq setting
  · rw [given] at upper
    obtain same | ⟨none, -⟩ := upper
    · obtain same := List.mem_singleton.mp same
      obtain decides | ⟨-, missing⟩ := shown
      · exact .inl (same ▸ decides.append [builtIn])
      · exact absurd missing (keeps.allows.ne_absent setting)
    · cases none
  · rw [given] at upper
    obtain mem | ⟨-, same⟩ := upper
    · cases mem
    · rw [missing] at shown
      rw [same]
      obtain decides | ⟨unset, -⟩ := shown
      · obtain ⟨source, mem, given⟩ := decides.exists_mem
        exact absurd rfl (((layable source mem).allows given).ne_absent setting)
      · exact FromHighest.append unset (FromHighest.cons (.inr ⟨by rintro source ⟨⟩, rfl⟩) least)

end LayeredTree.Setting
