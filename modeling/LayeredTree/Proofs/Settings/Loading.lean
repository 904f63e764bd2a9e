import LayeredTree.Proofs.Blindness
import LayeredTree.Proofs.Settings.Decoding

set_option autoImplicit false

namespace LayeredTree.Settings

open Setting (IsLayable TakesHighest IsTyped IsSettled)
open World (Alike)

variable {d : Disk} {path : Path} {source : Source} {w v : World} {ε : Type}

/-- A path means a file of settings, and the text in it gives the source. -/
inductive HoldsSource (d : Disk) (path : Path) : Source → Prop
  | intro {file : Path} {loc : Location} {content : Bytes} {text : String}
      {members : List (String × Toml)} :
    findFile path d = .ok file → d.openAt file = .ok (loc, .file content) →
      Bytes.toString? content = some text → Toml.parse? text = some members →
        HoldsSource d path (Setting.ofTomlMembers members)

/-- What a place for a file of settings brings in: nothing if no entry is there or none that can be
a file of settings, and else what the file holds. -/
inductive Serves (d : Disk) (path : Path) : Source → Prop
  | absent : d.hasEntry path = false → Serves d path []
  | unfit {e : SettingsError} : findFile path d = .error e → Serves d path []
  | present {source : Source} : d.hasFile path = true → HoldsSource d path source →
      Serves d path source

theorem HoldsSource.of_map {file : Path} {loc : Location} {content : Bytes} {text : String}
    (found : findFile path d = .ok file) (opens : d.openAt file = .ok (loc, .file content))
    (legible : Bytes.toString? content = some text)
    (parsed : (Toml.parse? text).map Setting.ofTomlMembers = some source) :
    HoldsSource d path source := by
  obtain ⟨members, read, rfl⟩ := Option.map_eq_some_iff.mp parsed
  exact .intro found opens legible read

theorem findFile_ne_malformed {p : Path} : findFile path d ≠ .error (.malformed p) := by
  unfold findFile
  extract_lets full
  split
  · split <;> rintro ⟨⟩
  · split
    · split <;> rintro ⟨⟩
    · rintro ⟨⟩

theorem fetchFile_of_openAt {file : Path} {loc : Location} {content : Bytes}
    (opens : d.openAt file = .ok (loc, .file content)) :
    Disk.fetchFile file d = .ok content d := by
  unfold Disk.fetchFile Disk.openToRead
  rw [bind_of_ok (Disk.ask_of_ok opens)]
  rfl

theorem fetchSource_of_holdsSource (holds : HoldsSource w.disk path source) :
    fetchSource path w = .ok source w := by
  obtain ⟨found, opens, decoded, parsed⟩ := holds
  unfold fetchSource
  rw [bind_of_ok (World.onDiskAsk_of_ok found),
    bind_of_ok (World.failingAs_of_ok (World.onDisk_of_ok (fetchFile_of_openAt opens)))]
  unfold sourceOf
  rw [decoded]
  dsimp only
  rw [parsed]
  rfl

theorem fetchSourceIfAny_of_holdsSource (holds : HoldsSource w.disk path source) :
    fetchSourceIfAny path w = .ok source w := by
  unfold fetchSourceIfAny
  rw [bind_of_ok (World.outcome_of_ok (fetchSource_of_holdsSource holds))]
  rfl

theorem fetchSourceIfAny_of_unfit {e : SettingsError} (unfit : findFile path w.disk = .error e) :
    fetchSourceIfAny path w = .ok [] w := by
  have fetch : fetchSource path w = .error e w := by
    unfold fetchSource
    exact bind_of_error (World.onDiskAsk_of_error unfit)
  unfold fetchSourceIfAny
  rw [bind_of_ok (World.outcome_of_error fetch)]
  cases e with
  | malformed p => exact absurd unfit findFile_ne_malformed
  | _ => rfl

def layFiles (files : List Path) (tree : Setting) : Action SettingsError Setting :=
  files.foldlM (fun tree path => do World.settle (lay tree (← fetchSourceIfAny path))) tree

/-- Going through some files lays one source over the tree. -/
def LaysSource (d : Disk) (files : List Path) (source : Source) : Prop :=
  ∀ w : World, w.disk = d → ∀ tree tree', tree.layer source = some tree' →
    layFiles files tree w = .ok tree' w

theorem lay_of_layer {tree tree' : Setting} (layer : tree.layer source = some tree') :
    lay tree source = .ok tree' := by
  unfold lay
  rw [layer]

theorem settle_lay {tree tree' : Setting} (layer : tree.layer source = some tree') :
    (World.settle (lay tree source) : Action SettingsError Setting) w = .ok tree' w := by
  rw [lay_of_layer layer]
  rfl

theorem laysSource_nil : LaysSource d [] [] := by
  intro w _ tree tree' layer
  obtain rfl := Option.some.inj layer
  rfl

theorem laysSource_singleton
    (fetch : ∀ w : World, w.disk = d → fetchSourceIfAny path w = .ok source w) :
    LaysSource d [path] source := by
  intro w same tree tree' layer
  have laid : (fetchSourceIfAny path >>= fun source => World.settle (lay tree source)) w =
      .ok tree' w := by
    rw [bind_of_ok (fetch w same)]
    exact settle_lay layer
  unfold layFiles
  rw [List.foldlM_cons, bind_of_ok laid]
  rfl

theorem layFiles_append {files files' : List Path} {tree mid : Setting}
    (laid : layFiles files tree w = .ok mid v) :
    layFiles (files ++ files') tree w = layFiles files' mid v := by
  unfold layFiles
  rw [List.foldlM_append]
  exact bind_of_ok laid

theorem Serves.gives (serves : Serves d path source) (there : d.hasEntry path = true) :
    LaysSource d [path] source := by
  apply laysSource_singleton
  rintro w rfl
  cases serves with
  | absent gone => rw [there] at gone; cases gone
  | unfit unfit => exact fetchSourceIfAny_of_unfit unfit
  | present _ holds => exact fetchSourceIfAny_of_holdsSource holds

theorem hasEntry_of_hasFile (file : d.hasFile path = true) : d.hasEntry path = true := by
  unfold Disk.hasFile at file
  unfold Disk.hasEntry
  cases found : d.entryAt path with
  | ok entry => rfl
  | error fault => rw [found] at file; cases file

theorem Serves.laysSource_filter (serves : Serves d path source) :
    LaysSource d ([path].filter d.hasFile) source := by
  cases there : d.hasFile path with
  | true =>
    rw [List.filter_cons_of_pos there, List.filter_nil]
    exact serves.gives (hasEntry_of_hasFile there)
  | false =>
    rw [List.filter_cons_of_neg (by simp [there]), List.filter_nil]
    cases serves with
    | absent => exact laysSource_nil
    | unfit => exact laysSource_nil
    | present file => rw [there] at file; cases file

/-- The user's file brings in a source: nothing if no place for it is known. -/
def ServesUser (w : World) (source : Source) : Prop :=
  (∃ path, userFile w = some path ∧ Serves w.disk path source) ∨ userFile w = none ∧ source = []

theorem Serves.eq_nil (serves : Serves d path source) (gone : d.hasEntry path = false) :
    source = [] := by
  cases serves with
  | absent => rfl
  | unfit => rfl
  | present file => rw [hasEntry_of_hasFile file] at gone; cases gone

theorem alike_note (w : World) (level : Level) (origin message : String)
    (fields : List (String × FieldValue)) : ∃ v,
      (World.note level origin message fields : Action ε Unit) w = .ok () v ∧ Alike w v :=
  ⟨_, World.note_eq level origin message fields, rfl, rfl, rfl, rfl⟩

theorem userLayers_laysSource (serves : ServesUser w source) :
    ∃ files v, userLayers w = .ok files v ∧ Alike w v ∧ LaysSource w.disk files source := by
  unfold userLayers
  rw [bind_of_ok (show (get : Action SettingsError World) w = .ok w w from rfl)]
  obtain ⟨path, place, serves⟩ | ⟨none, rfl⟩ := serves
  · simp only [place]
    cases there : w.disk.hasEntry path with
    | true => exact ⟨[path], w, rfl, Alike.refl w, serves.gives there⟩
    | false =>
      obtain ⟨v, noted, like⟩ := alike_note (ε := SettingsError) w .debug
        "patchchain::config::sources::global_file" "No global configuration file, using defaults"
        [("config_path", .shown path.shown)]
      refine ⟨[], v, ?_, like, serves.eq_nil there ▸ laysSource_nil⟩
      simp only [Bool.false_eq_true, if_false]
      rw [bind_of_ok noted]
      rfl
  · rw [none]
    exact ⟨[], w, rfl, Alike.refl w, laysSource_nil⟩

theorem alike_forM_note (files : List Path) (level : Level) (origin message : String)
    (fields : Path → List (String × FieldValue)) (w : World) : ∃ v,
      (files.forM fun path => World.note level origin message (fields path) : Action ε PUnit) w =
        .ok () v ∧ Alike w v := by
  induction files generalizing w with
  | nil => exact ⟨w, rfl, Alike.refl w⟩
  | cons path files ih =>
    obtain ⟨u, noted, like⟩ := alike_note (ε := ε) w level origin message (fields path)
    obtain ⟨v, rest, like'⟩ := ih u
    refine ⟨v, ?_, like.trans like'⟩
    rw [List.forM_eq_forM, List.forM_cons, bind_of_ok noted]
    exact rest

theorem workspaceLayers_laysSource {workspace base overlay : Path} {lesser upper : Source}
    (places : workspaceFiles workspace w = [base, overlay]) (serves : Serves w.disk base lesser)
    (serves' : Serves w.disk overlay upper) :
    ∃ files files' v, workspaceLayers workspace w = .ok (files ++ files') v ∧ Alike w v ∧
      LaysSource w.disk files lesser ∧ LaysSource w.disk files' upper := by
  obtain ⟨v, noted, like⟩ := alike_forM_note (ε := SettingsError)
    ((workspaceFiles workspace w).filter w.disk.hasFile) .debug
    "patchchain::config::sources::workspace_file" "Layering workspace configuration"
    (fun path => [("config_path", .shown path.shown)]) w
  refine ⟨[base].filter w.disk.hasFile, [overlay].filter w.disk.hasFile, v, ?_, like,
    serves.laysSource_filter, serves'.laysSource_filter⟩
  unfold workspaceLayers
  rw [bind_of_ok (show (get : Action SettingsError World) w = .ok w w from rfl)]
  rw [bind_of_ok noted, places, ← List.filter_append]
  rfl

private theorem conclude_of_layers {tree bottom whole : Setting} {node : NodeSettings}
    (least : (Setting.table []).layer builtIn = some bottom)
    (above : bottom.layer tree.entries = some whole) (read : whole.asNode = some node) :
    conclude tree = .ok node := by
  unfold conclude
  rw [lay_of_layer least]
  simp only [bind, Except.bind, lay_of_layer above, read]
  rfl

theorem conclude_takesHighest {sources : List Source} {tree : Setting}
    (layable : ∀ source ∈ sources, IsLayable source)
    (laid : sources.reverse.foldlM Setting.layer (.table []) = some tree) :
    ∃ node, conclude tree = .ok node ∧ TakesHighest sources node := by
  obtain ⟨tree', bottom, whole, laid', least, above, keeps, highest⟩ :=
    Setting.fromHighest_whole layable
  obtain rfl := Option.some.inj (laid.symm.trans laid')
  obtain ⟨node, read, follows⟩ := Setting.takesHighest_of_keeps layable keeps highest
  exact ⟨node, conclude_of_layers least above read, follows⟩

private theorem mem_withPoints {s : List Char} {c : Char} (mem : c ∈ withPoints s) :
    c = '.' ∨ c ∈ s := by
  induction s using withPoints.induct with
  | case1 rest ih =>
    rw [withPoints] at mem
    obtain rfl | mem := List.mem_cons.mp mem
    · exact .inl rfl
    · exact (ih mem).imp_right fun mem => List.mem_cons_of_mem _ (List.mem_cons_of_mem _ mem)
  | case2 c' rest other ih =>
    rw [withPoints] at mem
    · obtain rfl | mem := List.mem_cons.mp mem
      · exact .inr List.mem_cons_self
      · exact (ih mem).imp_right (List.mem_cons_of_mem _)
    · exact other
  | case3 => cases mem

theorem settled_ofEnvironment (environment : List (String × String)) :
    ∀ e ∈ ofEnvironment environment, IsSettled e.1 := by
  intro e mem
  obtain ⟨⟨name, value⟩, -, made⟩ := List.mem_filterMap.mp mem
  unfold ofVariable at made
  dsimp only at made
  split at made
  · obtain rfl := Option.some.inj made
    apply Setting.isSettled_of_small
    intro c mem
    rw [String.toList_ofList] at mem
    obtain rfl | mem := mem_withPoints mem
    · exact ⟨by decide, by decide⟩
    · have mem := List.mem_of_mem_drop mem
      unfold Text.lowercase at mem
      rw [String.toList_ofList] at mem
      exact Text.small_of_mem_lowercaseAfter mem
  · cases made

theorem isLayable_ofEnvironment {environment : List (String × String)}
    (typed : IsTyped (ofEnvironment environment)) : IsLayable (ofEnvironment environment) :=
  ⟨typed, settled_ofEnvironment environment⟩

/-- The sources in the files that the settings of a workspace come from: the file of the user, the
file of the workspace, and the one for the surroundings that the program runs in. -/
structure FromFiles (w : World) (workspace : Path) (user base overlay : Source) : Prop where
  user : ServesUser w user
  base : Serves w.disk ((workspace.child (Bytes.ofString "config")).child
    (Bytes.ofString "config.toml")) base
  overlay : Serves w.disk ((workspace.child (Bytes.ofString "config")).join
    (Path.ofString (surroundings w ++ ".toml"))) overlay

private theorem finish_of_layer {tree tree' : Setting} {node : NodeSettings}
    (layer : tree.layer (ofEnvironment w.environment) = some tree')
    (concluded : conclude tree' = .ok node) :
    (do
      let tree ← World.settle (lay tree (ofEnvironment (← get).environment))
      World.settle (conclude tree) : Action SettingsError NodeSettings) w = .ok node w := by
  rw [bind_of_ok (show (get : Action SettingsError World) w = .ok w w from rfl),
    bind_of_ok (settle_lay layer), concluded]
  rfl

private theorem load_eq (workspace : Path) : load workspace = (do
    let user ← userLayers
    let files ← workspaceLayers workspace
    let tree ← layFiles (user ++ files) (.table [])
    let tree ← World.settle (lay tree (ofEnvironment (← get).environment))
    World.settle (conclude tree)) := rfl

theorem load_of_fromFiles {workspace : Path} {user base overlay : Source}
    (inFiles : FromFiles w workspace user base overlay)
    (layable : ∀ source ∈ [ofEnvironment w.environment, overlay, base, user], IsLayable source) :
    ∃ node v, load workspace w = .ok node v ∧
      TakesHighest [ofEnvironment w.environment, overlay, base, user] node := by
  obtain ⟨tree, laid, -⟩ := Setting.fromHighest_layers Setting.standsAsSource_empty layable
  obtain ⟨node, concluded, follows⟩ := conclude_takesHighest layable laid
  obtain ⟨t₁, laid₁, laid⟩ := Option.bind_eq_some_iff.mp laid
  obtain ⟨t₂, laid₂, laid⟩ := Option.bind_eq_some_iff.mp laid
  obtain ⟨t₃, laid₃, laid⟩ := Option.bind_eq_some_iff.mp laid
  obtain ⟨t₄, laid₄, same⟩ := Option.bind_eq_some_iff.mp laid
  obtain rfl := Option.some.inj same
  obtain ⟨files, u, found, like, gives⟩ := userLayers_laysSource inFiles.user
  rw [like.disk] at gives
  have names : workspaceFiles workspace u = workspaceFiles workspace w := by
    unfold workspaceFiles surroundings World.environmentValue
    rw [like.environment]
  obtain ⟨files', files'', v, found', like', gives', gives''⟩ := workspaceLayers_laysSource
    (w := u) names (like.disk ▸ inFiles.base) (like.disk ▸ inFiles.overlay)
  rw [like'.disk] at gives gives' gives''
  have all : layFiles (files ++ (files' ++ files'')) (.table []) v = .ok t₃ v := by
    rw [layFiles_append (gives v rfl _ _ laid₁), layFiles_append (gives' v rfl _ _ laid₂),
      gives'' v rfl _ _ laid₃]
  rw [like.environment.trans like'.environment] at laid₄
  refine ⟨node, v, ?_, follows⟩
  rw [load_eq, bind_of_ok found, bind_of_ok found', bind_of_ok all]
  exact finish_of_layer laid₄ concluded

theorem loadFile_of_holdsSource (holds : HoldsSource w.disk path source)
    (layable : ∀ source' ∈ [ofEnvironment w.environment, source], IsLayable source') :
    ∃ node, loadFile path w = .ok node w ∧ TakesHighest [ofEnvironment w.environment, source] node := by
  obtain ⟨tree, laid, -⟩ := Setting.fromHighest_layers Setting.standsAsSource_empty layable
  obtain ⟨node, concluded, follows⟩ := conclude_takesHighest layable laid
  obtain ⟨t₁, laid₁, laid⟩ := Option.bind_eq_some_iff.mp laid
  obtain ⟨t₂, laid₂, same⟩ := Option.bind_eq_some_iff.mp laid
  obtain rfl := Option.some.inj same
  refine ⟨node, ?_, follows⟩
  unfold loadFile
  rw [bind_of_ok (fetchSource_of_holdsSource holds), bind_of_ok (settle_lay laid₁)]
  exact finish_of_layer laid₂ concluded

/-- Loading comes to settings, and each setting is the one of the highest source that gives it a
value: the environment, the file for the surroundings, the file of the workspace, the file of the
user, and last what is built in. A file that is named outright stands in for all files. Names count
in small letters, in the files as in the environment. -/
theorem highest_source_decides :
    (∀ (w : World) (workspace : Path) (user base overlay : Source),
      FromFiles w workspace user base overlay → IsTyped (ofEnvironment w.environment) →
        (∀ source ∈ [overlay, base, user], IsLayable source) →
          ∃ node v, load workspace w = .ok node v ∧
            TakesHighest [ofEnvironment w.environment, overlay, base, user] node) ∧
    ∀ (w : World) (path : Path) (source : Source),
      HoldsSource w.disk path source → IsTyped (ofEnvironment w.environment) → IsLayable source →
        ∃ node, loadFile path w = .ok node w ∧
          TakesHighest [ofEnvironment w.environment, source] node := by
  refine ⟨?_, ?_⟩
  · intro w workspace user base overlay inFiles typed layable
    exact load_of_fromFiles inFiles (List.forall_mem_cons.mpr ⟨isLayable_ofEnvironment typed, layable⟩)
  · intro w path source holds typed layable
    apply loadFile_of_holdsSource holds
    intro source' mem
    obtain rfl | mem := List.mem_cons.mp mem
    · exact isLayable_ofEnvironment typed
    · exact List.mem_singleton.mp mem ▸ layable

def layered : World := { World.holding [
    (Bytes.ofString "/ws", .directory), (Bytes.ofString "/ws/config", .directory),
    (Bytes.ofString "/ws/config/config.toml",
      .file (Bytes.ofString "[logging]\nlevel = \"debug\"\nformat = \"json\"\n")),
    (Bytes.ofString "/ws/config/development.toml",
      .file (Bytes.ofString "[logging]\nlevel = \"warn\"\n"))] with
  environment := [("PATCHCHAIN__STORAGE__DATA_PATH", "x")] }

def layeredBase : Source :=
  [("logging", .table [("level", .text "debug"), ("format", .text "json")])]

def layeredOverlay : Source := [("logging", .table [("level", .text "warn")])]

private theorem holdsSource_layered :
    HoldsSource layered.disk (Path.ofString "/ws/config/config.toml") layeredBase ∧
    HoldsSource layered.disk (Path.ofString "/ws/config/development.toml") layeredOverlay := by
  have base : (Toml.parse? "[logging]\nlevel = \"debug\"\nformat = \"json\"\n").map
      Setting.ofTomlMembers = some layeredBase := by decide +kernel
  have overlay : (Toml.parse? "[logging]\nlevel = \"warn\"\n").map
      Setting.ofTomlMembers = some layeredOverlay := by decide +kernel
  exact ⟨.of_map rfl rfl rfl base, .of_map rfl rfl rfl overlay⟩

private theorem fromFiles_layered :
    FromFiles layered (Path.ofString "/ws") [] layeredBase layeredOverlay :=
  ⟨.inr ⟨rfl, rfl⟩, .present rfl holdsSource_layered.1, .present rfl holdsSource_layered.2⟩

private theorem isLayable_logging (texts : List (String × String))
    (each : ∀ e ∈ texts, Text.lowercase e.1 ∈ ["level", "format", "output", "file"]) :
    IsLayable [("logging", .table (texts.map fun e => (e.1, .text e.2)))] :=
  Setting.isLayable_texts texts (by decide) (by decide) rfl fun e mem => if_pos (each e mem)

private theorem typed_layered : IsTyped (ofEnvironment layered.environment) := by
  have source : ofEnvironment layered.environment = [("storage.data_path", .text "x")] := by
    decide +kernel
  have steps : Setting.stepsOf "storage.data_path" = ["storage", "data_path"].map .name := by decide
  rw [source]
  exact Setting.isTyped_singleton steps (by decide) trivial ⟨"x", rfl⟩

/-- Both files and the variable have a say in the settings of the workspace. -/
theorem layered_decided : (∃ node v, load (Path.ofString "/ws") layered = .ok node v ∧
      TakesHighest [ofEnvironment layered.environment, layeredOverlay, layeredBase, []] node) ∧
    ∃ node, loadFile (Path.ofString "/ws/config/config.toml") layered = .ok node layered ∧
      TakesHighest [ofEnvironment layered.environment, layeredBase] node := by
  have layable : IsLayable layeredOverlay ∧ IsLayable layeredBase ∧ IsLayable [] :=
    ⟨isLayable_logging [("level", "warn")] (by decide),
      isLayable_logging [("level", "debug"), ("format", "json")] (by decide),
      Setting.isLayable_nil⟩
  refine ⟨highest_source_decides.1 layered _ [] layeredBase layeredOverlay fromFiles_layered
    typed_layered ?_, highest_source_decides.2 layered _ layeredBase holdsSource_layered.1 typed_layered
      layable.2.1⟩
  simp [layable]

/-- A file that gives a level to the part `Camel` of the program. -/
def capitals : World := .holding [
  (Bytes.ofString "/n.toml", .file (Bytes.ofString "[logging.modules]\nCamel = \"info\"\n"))]

/-- A variable that gives a level to the part `É` of the program. -/
def accented : World := { World.holding [] with
  environment := [("PATCHCHAIN__LOGGING__MODULES__É", "info")] }

/-- A file with one key at its top, which names a section only once its letters are small: the last
of them is the sign of the kelvin. -/
def kelvin : World := .holding [
  (Bytes.ofString "/n.toml", .file (Bytes.ofString "\"logging.modules.\u212a\" = \"info\"\n"))]

/-- Some names do not come through. The level that a file gives to the part `Camel` is not the level
of `Camel` in the settings, which know only `camel`; a variable whose name is not made of name
characters gives no level at all; and a key that is one name in a file gives a level if its small
letters spell three. -/
theorem loses_spellings :
    (Toml.parse? "[logging.modules]\nCamel = \"info\"\n").map (fun members =>
      ((Setting.table (Setting.ofTomlMembers members)).under
        ["logging", "modules", "Camel"]).asText) = some (some "info") ∧
    ((loadFile (Path.ofString "/n.toml")).run' capitals).map (fun node =>
      (node.logging.modules.lookup "Camel", node.logging.modules.lookup "camel")) =
        some (none, some "info") ∧
    ((load (Path.ofString "ws")).run' accented).map (fun node => node.logging.modules) =
      some [] ∧
    ((loadFile (Path.ofString "/n.toml")).run' kelvin).map (fun node => node.logging.modules) =
      some [("k", "info")] := by
  decide +kernel

end LayeredTree.Settings
