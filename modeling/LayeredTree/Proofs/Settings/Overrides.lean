import LayeredTree.Proofs.Settings.Loading
import LayeredTree.Proofs.Tree.Addresses

set_option autoImplicit false

namespace LayeredTree.Setting

/-- What becomes of a text in a variable where a text is wanted. It is tried as a truth value, as a
whole number and as a number, and what it is read as is written out. -/
inductive Respells (v : String) : String → Prop
  | truth : Text.lowercase v ∈ ["true", "false"] → Respells v (Text.lowercase v)
  | whole {n : Int} : Text.lowercase v ∉ ["true", "false"] → wholeNumber? v = some n →
    Respells v (toString n)
  | real {x : Double} : Text.lowercase v ∉ ["true", "false"] → wholeNumber? v = none →
    Double.ofText? v = some x → Respells v x.plain
  | same : Text.lowercase v ∉ ["true", "false"] → wholeNumber? v = none →
    Double.ofText? v = none → Respells v v

theorem asText_ofText (v : String) : ∃ t, (ofText v).asText = some t ∧ Respells v t := by
  unfold ofText
  dsimp only
  split
  · rename_i isTrue
    exact ⟨"true", rfl, isTrue ▸ .truth (by simp [isTrue])⟩
  · rename_i notTrue
    split
    · rename_i isFalse
      exact ⟨"false", rfl, isFalse ▸ .truth (by simp [isFalse])⟩
    · rename_i notFalse
      have word : Text.lowercase v ∉ ["true", "false"] := by simp [notTrue, notFalse]
      split
      · rename_i n whole
        exact ⟨toString n, rfl, .whole word whole⟩
      · rename_i x whole real
        exact ⟨x.plain, rfl, .real word whole real⟩
      · rename_i whole real
        exact ⟨v, rfl, .same word whole real⟩

variable {v t : String} {rest : List Char}

private theorem lowercase_of_slash (slash : v.toList = '/' :: rest) :
    Text.lowercase v ∉ ["true", "false"] := by
  have small : (Text.lowercase v).toList = '/' :: Text.lowercaseAfter ['/'] rest := by
    unfold Text.lowercase
    rw [String.toList_ofList, slash]
    rfl
  intro mem
  simp only [List.mem_cons, List.not_mem_nil, or_false] at mem
  obtain same | same := mem
  · rw [same] at small
    exact absurd (congrArg List.head? small) (by rw [List.head?_cons]; decide)
  · rw [same] at small
    exact absurd (congrArg List.head? small) (by rw [List.head?_cons]; decide)

private theorem wholeNumber?_of_slash (slash : v.toList = '/' :: rest) : wholeNumber? v = none := by
  unfold wholeNumber?
  rw [slash]
  have sign : Double.takeSign ('/' :: rest) = (false, '/' :: rest) := rfl
  rw [sign]
  simp

private theorem ofText?_of_slash (slash : v.toList = '/' :: rest) : Double.ofText? v = none := by
  unfold Double.ofText?
  rw [slash]
  have sign : Double.takeSign ('/' :: rest) = (false, '/' :: rest) := rfl
  rw [sign]
  have word : ∀ name : String, name.toList.head? ≠ some '/' →
      String.ofList (('/' :: rest).map Char.toLower) ≠ name := by
    rintro name other rfl
    rw [String.toList_ofList, List.map_cons] at other
    exact other rfl
  dsimp only
  rw [if_neg (not_or.mpr ⟨word "inf" (by decide), word "infinity" (by decide)⟩),
    if_neg (word "nan" (by decide))]
  have digit : ('/').isDigit = false := by decide
  rw [List.takeWhile_cons_of_neg (by simp [digit]), List.dropWhile_cons_of_neg (by simp [digit])]
  rfl

private theorem exists_of_isAbsolute (absolute : (Path.ofString v).isAbsolute = true) :
    ∃ rest, v.toList = '/' :: rest := by
  have head := Path.isAbsolute_iff.mp absolute
  change (Bytes.ofString v).head? = some slash at head
  rw [Bytes.ofString_eq] at head
  cases chars : v.toList with
  | nil =>
    rw [chars] at head
    cases head
  | cons c rest =>
    rw [chars, List.flatMap_cons] at head
    cases encoded : String.utf8EncodeChar c with
    | nil => exact absurd encoded String.utf8EncodeChar_ne_nil
    | cons b bytes =>
      rw [encoded] at head
      obtain rfl := Option.some.inj head
      have mem : UInt8.ofNat ('/').toNat ∈ Bytes.ofString (String.ofList [c]) := by
        rw [Bytes.ofString_ofList, List.flatMap_singleton, encoded]
        exact List.mem_cons_self
      rw [Text.mem_ofString_iff '/' (by decide), String.toList_ofList] at mem
      exact ⟨rest, by rw [List.mem_singleton.mp mem]⟩

theorem Respells.eq_of_slash (respells : Respells v t) (slash : v.toList = '/' :: rest) :
    t = v := by
  cases respells with
  | truth word => exact absurd word (lowercase_of_slash slash)
  | whole _ whole => rw [wholeNumber?_of_slash slash] at whole; cases whole
  | real _ _ real => rw [ofText?_of_slash slash] at real; cases real
  | same => rfl

private theorem slash_notMem_toDigits (n : Nat) : '/' ∉ Nat.toDigits 10 n := by
  intro mem
  have digit := Nat.isDigit_of_mem_toDigits (by decide) (by decide) mem
  exact absurd digit (by decide)

private theorem slash_notMem_int (n : Int) : '/' ∉ (toString n).toList := by
  cases n with
  | ofNat n =>
    change '/' ∉ (Nat.repr n).toList
    rw [Nat.repr_eq_ofList_toDigits, String.toList_ofList]
    exact slash_notMem_toDigits n
  | negSucc n =>
    change '/' ∉ ("-" ++ Nat.repr (n + 1)).toList
    rw [Nat.repr_eq_ofList_toDigits, String.toList_append, List.mem_append]
    rintro (sign | digits)
    · exact absurd sign (by decide)
    · rw [String.toList_ofList] at digits
      exact slash_notMem_toDigits _ digits

private theorem slash_notMem_plainDigits {digits : List Char} (free : '/' ∉ digits) (point : Int) :
    '/' ∉ Double.plainDigits digits point := by
  unfold Double.plainDigits
  split
  · simp [List.mem_replicate, free]
  · split
    · simp [List.mem_replicate, free]
    · intro mem
      rw [List.mem_append, List.mem_cons] at mem
      obtain before | same | after := mem
      · exact free (List.mem_of_mem_take before)
      · cases same
      · exact free (List.mem_of_mem_drop after)

private theorem slash_notMem_plain (x : Double) : '/' ∉ x.plain.toList := by
  cases x with
  | nan => decide
  | infinite negative => cases negative <;> decide
  | finite negative m e =>
    have body : '/' ∉ Double.plainDigits (Double.layout m e).1 (Double.layout m e).2 :=
      slash_notMem_plainDigits (slash_notMem_toDigits _) _
    unfold Double.plain
    dsimp only
    rw [String.toList_ofList, List.mem_append]
    rintro (sign | rest)
    · cases negative <;> exact absurd sign (by decide)
    · split at rest
      · exact absurd rest (by decide)
      · exact body rest

theorem Respells.slash_notMem (respells : Respells v t) (changed : t ≠ v) : '/' ∉ t.toList := by
  cases respells with
  | truth word =>
    have free : ∀ name ∈ ["true", "false"], '/' ∉ name.toList := by decide
    exact free _ word
  | whole => exact slash_notMem_int _
  | real => exact slash_notMem_plain _
  | same => exact absurd rfl changed

theorem Respells.join_eq_iff (respells : Respells v t) (workspace : Path) :
    workspace.join (Path.ofString t) = workspace.join (Path.ofString v) ↔ t = v := by
  refine ⟨?_, fun same => by rw [same]⟩
  intro same
  by_contra changed
  have relative : (Path.ofString t).isAbsolute = false ∧ (Path.ofString v).isAbsolute = false := by
    constructor
    all_goals
      rw [Bool.eq_false_iff]
      intro absolute
      obtain ⟨rest, slash⟩ := exists_of_isAbsolute absolute
    · exact respells.slash_notMem changed (slash ▸ List.mem_cons_self)
    · exact changed (respells.eq_of_slash slash)
  apply changed
  apply Bytes.ofString_injective
  unfold Path.join at same
  rw [relative.1, relative.2] at same
  simp only [Bool.false_eq_true, if_false] at same
  split at same
  · exact List.append_cancel_left (Path.mk.inj same)
  · exact (List.cons.inj (List.append_cancel_left (Path.mk.inj same))).2

end LayeredTree.Setting

namespace LayeredTree.Settings

open Setting (IsLayable TakesHighest IsTyped Decides ReadFromHighest Respells givenBy ofText
  asText_ofText)

variable {w : World} {workspace : Path} {file : Option Path} {sources : List Source}

/-- The sources in the files that the settings of a run come from, the highest first. -/
inductive InFiles (w : World) (workspace : Path) : Option Path → List Source → Prop
  | workspace {user base overlay : Source} : FromFiles w workspace user base overlay →
    InFiles w workspace none [overlay, base, user]
  | named {path : Path} {source : Source} : HoldsSource w.disk path source →
    InFiles w workspace (some path) [source]

private theorem loadFor_of_faultless {node : NodeSettings} {v : World}
    (faultless : node.faults = []) :
    (load workspace w = .ok node v → loadFor workspace none w =
      .ok { node with storage := node.storage.resolve workspace } v) ∧
    ∀ path, loadFile path w = .ok node v → loadFor workspace (some path) w =
      .ok { node with storage := node.storage.resolve workspace } v := by
  constructor
  · intro run
    change (load workspace >>= _) w = _
    rw [bind_of_ok run]
    simp only [faultless, ne_eq, not_true_eq_false, if_false]
    rfl
  · intro path run
    change (loadFile path >>= _) w = _
    rw [bind_of_ok run]
    simp only [faultless, ne_eq, not_true_eq_false, if_false]
    rfl

theorem loadFor_takesHighest (files : InFiles w workspace file sources)
    (typed : IsTyped (ofEnvironment w.environment)) (layable : ∀ source ∈ sources, IsLayable source)
    (sound : ∀ node, TakesHighest (ofEnvironment w.environment :: sources) node → node.faults = []) :
    ∃ node v, loadFor workspace file w =
        .ok { node with storage := node.storage.resolve workspace } v ∧
      TakesHighest (ofEnvironment w.environment :: sources) node := by
  have layable' := List.forall_mem_cons.mpr ⟨isLayable_ofEnvironment typed, layable⟩
  cases files with
  | workspace inFiles =>
    obtain ⟨node, v, run, follows⟩ := load_of_fromFiles inFiles layable'
    exact ⟨node, v, (loadFor_of_faultless (sound node follows)).1 run, follows⟩
  | named holds =>
    obtain ⟨node, run, follows⟩ := loadFile_of_holdsSource holds layable'
    exact ⟨node, w, (loadFor_of_faultless (sound node follows)).2 _ run, follows⟩

inductive Hierarchy
  | data
  | temp
deriving DecidableEq

namespace Hierarchy

def path : Hierarchy → List String
  | data => ["storage", "data_path"]
  | temp => ["storage", "temp_data_path"]

def variableName : Hierarchy → String
  | data => "PATCHCHAIN__STORAGE__DATA_PATH"
  | temp => "PATCHCHAIN__STORAGE__TEMP_DATA_PATH"

def part : Hierarchy → StorageSettings → Path
  | data, s => s.dataPath
  | temp, s => s.tempDataPath

variable {place : Hierarchy} {node : NodeSettings} {value : Setting} {v : String} {p : Path}

theorem part_resolve (place : Hierarchy) (s : StorageSettings) (workspace : Path) :
    place.part (s.resolve workspace) = workspace.join (place.part s) := by
  cases place <;> rfl

theorem settles (place : Hierarchy) (follows : TakesHighest sources node) :
    ∃ standard,
      ReadFromHighest place.path sources Setting.asPath standard (place.part node.storage) := by
  cases place with
  | data => exact ⟨_, follows.dataPath⟩
  | temp => exact ⟨_, follows.tempDataPath⟩

theorem part_of_decides (follows : TakesHighest sources node)
    (decides : ∀ other, Decides place.path sources other ↔ other = value)
    (spells : value.asPath = some p) : place.part node.storage = p := by
  obtain ⟨standard, ⟨other, decided, read⟩ | ⟨unset, -⟩⟩ := place.settles follows
  · rw [(decides other).mp decided, spells] at read
    exact (Option.some.inj read).symm
  · obtain ⟨source, mem, given⟩ := ((decides value).mpr rfl).exists_mem
    rw [unset source mem] at given
    cases given

theorem mem_givenBy (place : Hierarchy) {environment : List (String × String)}
    (mem : (place.variableName, v) ∈ environment) :
    ofText v ∈ givenBy (ofEnvironment environment) place.path := by
  obtain ⟨key, made, steps, small⟩ : ∃ key,
      (∀ v, ofVariable place.variableName v = some (key, ofText v)) ∧
        Setting.stepsOf key = place.path.map Setting.Step.name ∧
          ∀ name ∈ place.path, Text.lowercase name = name := by
    cases place with
    | data => exact ⟨"storage.data_path", fun _ => rfl, by decide, by decide⟩
    | temp => exact ⟨"storage.temp_data_path", fun _ => rfl, by decide, by decide⟩
  refine List.mem_flatMap.mpr ⟨(key, ofText v), ?_, ?_⟩
  · exact List.mem_filterMap.mpr ⟨_, mem, made v⟩
  · rw [steps, Setting.givenAt_names small]
    exact List.mem_cons_self

end Hierarchy

theorem loadFor_of_decides {place : Hierarchy} {value : Setting} {p : Path}
    (files : InFiles w workspace file sources) (typed : IsTyped (ofEnvironment w.environment))
    (layable : ∀ source ∈ sources, IsLayable source)
    (sound : ∀ node, TakesHighest (ofEnvironment w.environment :: sources) node → node.faults = [])
    (decides : ∀ other,
      Decides place.path (ofEnvironment w.environment :: sources) other ↔ other = value)
    (spells : value.asPath = some p) : ∃ node v, loadFor workspace file w = .ok node v ∧
      place.part node.storage = workspace.join p := by
  obtain ⟨node, v, run, follows⟩ := loadFor_takesHighest files typed layable sound
  refine ⟨_, v, run, ?_⟩
  rw [place.part_resolve, Hierarchy.part_of_decides follows decides spells]

theorem logging_eq_standard {node : NodeSettings} (follows : TakesHighest sources node)
    (unset : ∀ path, Setting.Unset ("logging" :: path) sources) :
    node.logging = LoggingSettings.standard := by
  have level := follows.level.eq_standard (unset _)
  have format := follows.format.eq_standard (unset _)
  have output := follows.output.eq_standard (unset _)
  have file := follows.file.eq_standard (unset _)
  have color := follows.color.eq_standard (unset _)
  have modules : node.logging.modules = [] := by
    cases entries : node.logging.modules with
    | nil => rfl
    | cons e rest =>
      have none := (follows.modules e.1).eq_standard (unset _)
      rw [entries, List.lookup_cons, beq_self_eq_true] at none
      cases none
  obtain ⟨storage, logging⟩ := node
  obtain ⟨level', format', output', file', color', modules'⟩ := logging
  dsimp only at level format output file color modules
  rw [level, format, output, file, color, modules]
  rfl

theorem faults_of_data {node : NodeSettings} {value : Setting} {p : Path}
    (follows : TakesHighest sources node) (unset : ∀ path, Setting.Unset ("logging" :: path) sources)
    (unset' : Setting.Unset Hierarchy.temp.path sources)
    (decides : ∀ other, Decides Hierarchy.data.path sources other ↔ other = value)
    (spells : value.asPath = some p) (somewhere : p.isEmpty = false) : node.faults = [] := by
  have data : Hierarchy.data.part node.storage = p :=
    Hierarchy.part_of_decides follows decides spells
  change node.storage.dataPath = p at data
  have temp := follows.tempDataPath.eq_standard unset'
  unfold NodeSettings.faults StorageSettings.fault?
  rw [logging_eq_standard follows unset, data, temp, somewhere]
  rfl

/-- A variable places a hierarchy where its text says after it has been read as a value and written
out again: at the place that the text itself says only if it comes back as it was. A file that gives
the same text, and no variable, places it where the text says. -/
theorem override_respelled (place : Hierarchy) (v : String)
    (files : InFiles w workspace file sources) (typed : IsTyped (ofEnvironment w.environment))
    (layable : ∀ source ∈ sources, IsLayable source)
    (sound : ∀ node, TakesHighest (ofEnvironment w.environment :: sources) node → node.faults = []) :
    ((place.variableName, v) ∈ w.environment →
      (∀ value ∈ givenBy (ofEnvironment w.environment) place.path, value = ofText v) →
        ∃ node u t, loadFor workspace file w = .ok node u ∧ Respells v t ∧
          place.part node.storage = workspace.join (Path.ofString t) ∧
            (place.part node.storage = workspace.join (Path.ofString v) ↔ t = v)) ∧
    (givenBy (ofEnvironment w.environment) place.path = [] →
      (∀ value, Decides place.path sources value ↔ value = .text v) →
        ∃ node u, loadFor workspace file w = .ok node u ∧
          place.part node.storage = workspace.join (Path.ofString v)) := by
  refine ⟨?_, ?_⟩
  · intro mem only
    obtain ⟨t, text, respells⟩ := asText_ofText v
    obtain ⟨node, u, run, placed⟩ := loadFor_of_decides files typed layable sound
      (fun _ => Setting.decides_cons_of_mem only (place.mem_givenBy mem))
      (Setting.asPath_of_asText text)
    exact ⟨node, u, t, run, respells, placed, placed ▸ respells.join_eq_iff workspace⟩
  · intro none only
    exact loadFor_of_decides files typed layable sound
      (fun other => (Setting.decides_cons_of_nil none).trans (only other)) rfl

/-- A workspace without files, and a variable that places the data at `007`. -/
def numbered : World := { World.holding [] with
  environment := [("PATCHCHAIN__STORAGE__DATA_PATH", "007")] }

/-- A file that places the data at `007`. -/
def quoted : World := .holding [
  (Bytes.ofString "/n.toml", .file (Bytes.ofString "[storage]\ndata_path = \"007\"\n"))]

def quotedSource : Source := [("storage", .table [("data_path", .text "007")])]

private theorem numbered_source :
    ofEnvironment numbered.environment = [("storage.data_path", .integer 7)] := by
  decide +kernel

private theorem stepsOf_dataPath :
    Setting.stepsOf "storage.data_path" = Hierarchy.data.path.map .name := by
  decide

private theorem typed_numbered : IsTyped (ofEnvironment numbered.environment) := by
  rw [numbered_source]
  exact Setting.isTyped_singleton stepsOf_dataPath (by decide) trivial ⟨"7", rfl⟩

private theorem holdsSource_quoted :
    HoldsSource quoted.disk (Path.ofString "/n.toml") quotedSource := by
  have parsed : (Toml.parse? "[storage]\ndata_path = \"007\"\n").map Setting.ofTomlMembers =
      some quotedSource := by decide +kernel
  exact .of_map rfl rfl rfl parsed

private theorem isLayable_quoted : IsLayable quotedSource :=
  Setting.isLayable_texts [("data_path", "007")] (by decide) (by decide) rfl
    (List.forall_mem_singleton.mpr rfl)

/-- A source with nothing in it but where the data lies. -/
structure PlacesData (source : Source) (value : Setting) : Prop where
  logging : ∀ path, givenBy source ("logging" :: path) = []
  temp : givenBy source Hierarchy.temp.path = []
  data : givenBy source Hierarchy.data.path = [value]

namespace PlacesData

variable {source : Source} {lower : List Source} {value other : Setting} {p : Path}

theorem of_storage (values : List String → List Setting)
    (given : ∀ path, givenBy source path = Setting.behind "storage" values path)
    (temp : values ["temp_data_path"] = []) (data : values ["data_path"] = [value]) :
    PlacesData source value := by
  refine ⟨?_, ?_, ?_⟩
  · intro path
    rw [given, Setting.behind, if_neg (by decide)]
  · change givenBy source ["storage", "temp_data_path"] = []
    rw [given, Setting.behind, if_pos rfl, temp]
  · change givenBy source ["storage", "data_path"] = [value]
    rw [given, Setting.behind, if_pos rfl, data]

theorem decides (places : PlacesData source value) :
    Decides Hierarchy.data.path (source :: lower) other ↔ other = value := by
  apply Setting.decides_cons_of_mem
  · rw [places.data]
    exact fun v mem => List.mem_singleton.mp mem
  · rw [places.data]
    exact List.mem_cons_self

theorem faultless (places : PlacesData source value)
    (alone : ∀ other ∈ sources, other = [] ∨ other = source)
    (decides : ∀ other, Decides Hierarchy.data.path sources other ↔ other = value)
    (spells : value.asPath = some p) (somewhere : p.isEmpty = false) (node : NodeSettings)
    (follows : TakesHighest sources node) : node.faults = [] := by
  have unset : ∀ path, givenBy source path = [] → Setting.Unset path sources := by
    intro path none other mem
    obtain rfl | rfl := alone other mem
    · rfl
    · exact none
  exact faults_of_data follows (fun path => unset _ (places.logging path)) (unset _ places.temp)
    decides spells somewhere

end PlacesData

private theorem small_storage :
    Text.lowercase "storage" = "storage" ∧ Text.lowercase "data_path" = "data_path" := by
  decide

private theorem places_numbered : PlacesData (ofEnvironment numbered.environment) (.integer 7) := by
  apply PlacesData.of_storage (Setting.behind "data_path" (Setting.given · (.integer 7)))
  · intro path
    rw [numbered_source]
    unfold givenBy
    rw [List.flatMap_singleton, stepsOf_dataPath]
    change Setting.behind (Text.lowercase "storage")
      (Setting.behind (Text.lowercase "data_path") _) path = _
    rw [small_storage.1, small_storage.2]
    rfl
  · rw [Setting.behind, if_neg (by decide)]
  · rw [Setting.behind, if_pos rfl]
    rfl

private theorem places_quoted : PlacesData quotedSource (.text "007") := by
  have steps : Setting.stepsOf "storage" = [.name "storage"] := by decide
  apply PlacesData.of_storage (Setting.given · (.table [("data_path", .text "007")]))
  · intro path
    unfold givenBy quotedSource
    rw [List.flatMap_singleton, steps]
    change Setting.behind (Text.lowercase "storage") _ path = _
    rw [small_storage.1]
    rfl
  · change (if Text.lowercase "data_path" = "temp_data_path" then _ else []) ++ [] = _
    rw [small_storage.2]
    rfl
  · change (if Text.lowercase "data_path" = "data_path" then [Setting.text "007"] else []) ++ [] = _
    rw [small_storage.2]
    rfl

private theorem eq_of_respells_number {t : String} (respells : Respells "007" t) : t = "7" := by
  have number : Setting.wholeNumber? "007" = some 7 := by decide
  cases respells with
  | truth word => exact absurd word (by decide)
  | whole _ whole =>
    obtain rfl := Option.some.inj (number.symm.trans whole)
    rfl
  | real _ none => cases number.symm.trans none
  | same _ none => cases number.symm.trans none

/-- The same text places the data at `ws/7` where a variable gives it, and at `ws/007` where a file
does. -/
theorem respells_number :
    (∃ node u, loadFor (Path.ofString "ws") none numbered = .ok node u ∧
      node.storage.dataPath = Path.ofString "ws/7") ∧
    ∃ node u, loadFor (Path.ofString "ws") (some (Path.ofString "/n.toml")) quoted = .ok node u ∧
      node.storage.dataPath = Path.ofString "ws/007" := by
  constructor
  · have files : InFiles numbered (Path.ofString "ws") none [[], [], []] :=
      .workspace ⟨.inr ⟨rfl, rfl⟩, .absent rfl, .absent rfl⟩
    have empty : ∀ source ∈ ([[], [], []] : List Source), source = [] := by simp
    have sound : ∀ node, TakesHighest (ofEnvironment numbered.environment :: [[], [], []]) node →
        node.faults = [] :=
      places_numbered.faultless
        (List.forall_mem_cons.mpr ⟨.inr rfl, fun s mem => .inl (empty s mem)⟩)
        (fun _ => places_numbered.decides) rfl rfl
    obtain ⟨node, u, t, run, respells, placed, -⟩ := (override_respelled .data "007" files
      typed_numbered (fun s mem => empty s mem ▸ Setting.isLayable_nil) sound).1 List.mem_cons_self
        (by rw [places_numbered.data]; exact List.forall_mem_singleton.mpr rfl)
    rw [eq_of_respells_number respells] at placed
    exact ⟨node, u, run, placed⟩
  · have sound : ∀ node, TakesHighest [ofEnvironment quoted.environment, quotedSource] node →
        node.faults = [] :=
      places_quoted.faultless
        (List.forall_mem_cons.mpr ⟨.inl rfl, List.forall_mem_singleton.mpr (.inr rfl)⟩)
        (fun _ => (Setting.decides_cons_of_nil rfl).trans places_quoted.decides) rfl rfl
    exact (override_respelled .data "007" (.named holdsSource_quoted) (by rintro e ⟨⟩)
      (List.forall_mem_singleton.mpr isLayable_quoted) sound).2 rfl fun _ => places_quoted.decides

end LayeredTree.Settings
