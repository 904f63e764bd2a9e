import LayeredTree.Toml.Moment

set_option autoImplicit false

namespace LayeredTree.Toml

/-- How a table came to be: by a statement of its own, as the way to a deeper one, or by a key with
points. -/
inductive Origin
  | stated
  | implied
  | dotted
deriving Repr, DecidableEq

/-- A value in the making: a finished one, a table, or the tables of one repeated statement. -/
inductive Draft
  | value (v : Toml)
  | table (origin : Origin) (members : List (String × Draft))
  | rows (tables : List (List (String × Draft)))

abbrev Members := List (String × Draft)

/-- Puts a member in the place of the one with its name, or behind all others. -/
def setDraft (name : String) (item : Draft) : Members → Members
  | [] => [(name, item)]
  | (k, v) :: rest => if k = name then (name, item) :: rest else (k, v) :: setDraft name item rest

/-- Gives a value to a key with points. The tables on its way are new ones or have come to be by
other such keys. -/
def addValue : List String → String → Toml → Members → Option Members
  | [], name, v, members =>
    match members.lookup name with
    | some _ => none
    | none => some (members ++ [(name, .value v)])
  | k :: path, name, v, members =>
    match members.lookup k with
    | none => do pure (members ++ [(k, .table .dotted (← addValue path name v []))])
    | some (.table .dotted inner) => do
      pure (setDraft k (.table .dotted (← addValue path name v inner)) members)
    | some (.table .implied inner) =>
      if path = [] then none
      else do pure (setDraft k (.table .implied (← addValue path name v inner)) members)
    | some (.rows tables) =>
      if path = [] then none
      else do
        let last ← addValue path name v (tables.getLast?.getD [])
        pure (setDraft k (.rows (tables.dropLast ++ [last])) members)
    | some (.table .stated _) | some (.value _) => none

/-- Works on the table that the names of a statement lead to. Missing tables on the way are made,
and of repeated ones the last is meant. -/
def atTable {α : Type} (work : Members → Option (α × Members)) :
    List String → Members → Option (α × Members)
  | [], members => work members
  | k :: path, members =>
    match members.lookup k with
    | none => do
      let (a, inner) ← atTable work path []
      pure (a, members ++ [(k, .table .implied inner)])
    | some (.table origin inner) => do
      let (a, inner) ← atTable work path inner
      pure (a, setDraft k (.table origin inner) members)
    | some (.rows tables) => do
      let (a, last) ← atTable work path (tables.getLast?.getD [])
      pure (a, setDraft k (.rows (tables.dropLast ++ [last])) members)
    | some (.value _) => none

mutual

def Draft.finish : Draft → Toml
  | .value v => v
  | .table _ members => .table (finishMembers members)
  | .rows tables => .list (finishRows tables)

def finishMembers : List (String × Draft) → List (String × Toml)
  | [] => []
  | (k, v) :: rest => (k, v.finish) :: finishMembers rest

def finishRows : List (List (String × Draft)) → List Toml
  | [] => []
  | members :: rest => .table (finishMembers members) :: finishRows rest

end

inductive Statement
  | table (path : List String)
  | row (path : List String)
  | entry (path : List String) (value : Toml)

/-- A document as far as its statements were taken: the finished tables, the statement that opened
the present table, if one did, and the members of that table. -/
structure Progress where
  root : Members
  header : Option Statement
  present : Members

namespace Progress

def start : Progress := ⟨[], none, []⟩

def close (p : Progress) : Option Members :=
  let put (path : List String) (item : Option Draft → Draft) : Option Members :=
    match path.getLast? with
    | none => none
    | some last =>
      (atTable (fun members =>
        some ((), setDraft last (item (members.lookup last)) members)) path.dropLast p.root).map
        Prod.snd
  match p.header with
  | some (.table path) => put path fun _ => .table .stated p.present
  | some (.row path) => put path fun
    | some (.rows tables) => .rows (tables ++ [p.present])
    | _ => .rows [p.present]
  | _ => some p.present

def opened (repeated : Bool) (last : String) (members : Members) : Option (Members × Members) :=
  match repeated, members.lookup last with
  | _, none => some ([], members)
  | false, some (.table .implied inner) => some (inner, members.filter fun m => m.1 != last)
  | true, some (.rows _) => some ([], members)
  | _, _ => none

def step (p : Progress) (s : Statement) : Option Progress := do
  let next (repeated : Bool) (path : List String) : Option Progress := do
    let (present, root) ← atTable (opened repeated (← path.getLast?)) path.dropLast (← p.close)
    pure ⟨root, some s, present⟩
  match s with
  | .entry path v =>
    let present ← addValue path.dropLast (← path.getLast?) v p.present
    pure { p with present := present }
  | .table path => next false path
  | .row path => next true path

end Progress

mutual

/-- Reads a value. The counts bound the steps and the levels of nesting. -/
def readValue : Nat → Nat → Reader Toml
  | 0, _ => failure
  | steps + 1, levels => do
    let s ← get
    match s with
    | '"' :: _ | '\'' :: _ => .text <$> readText
    | 't' :: _ => do expectWord "true"; pure (.bool true)
    | 'f' :: _ => do expectWord "false"; pure (.bool false)
    | '[' :: rest =>
      match levels with
      | 0 => failure
      | levels + 1 => do set rest; .list <$> readItems steps levels
    | '{' :: rest =>
      match levels with
      | 0 => failure
      | levels + 1 => do
        set rest
        skipGap
        match ← get with
        | '}' :: rest => do set rest; pure (.table [])
        | _ => .table <$> (finishMembers <$> readPairs steps levels [])
    | c :: _ =>
      if startsDate s then readDateTime
      else if startsTime s then .moment <$> readTime
      else if c.isDigit ∨ c = '+' ∨ c = '-' ∨ c = 'i' ∨ c = 'n' then readNumber
      else failure
    | [] => failure

def readItems : Nat → Nat → Reader (List Toml)
  | 0, _ => failure
  | steps + 1, levels => do
    skipRoom
    match ← get with
    | ']' :: s => do set s; pure []
    | _ =>
      let item ← readValue steps levels
      skipRoom
      match ← get with
      | ',' :: s => do
        set s
        let items ← readItems steps levels
        pure (item :: items)
      | _ => do expect ']'; pure [item]

def readPairs : Nat → Nat → Members → Reader Members
  | 0, _, _ => failure
  | steps + 1, levels, members => do
    let path ← readKey
    expect '='
    skipGap
    let value ← readValue steps levels
    skipGap
    let members ← (do addValue path.dropLast (← path.getLast?) value members : Option Members)
    match ← get with
    | ',' :: s => do set s; readPairs steps levels members
    | _ => do expect '}'; pure members

end

def readStatement : Reader Statement := do
  match ← get with
  | '[' :: '[' :: s => do
    set s
    let path ← readKey
    expect ']'
    expect ']'
    pure (.row path)
  | '[' :: s => do
    set s
    let path ← readKey
    expect ']'
    pure (.table path)
  | s => do
    let path ← readKey
    expect '='
    skipGap
    .entry path <$> readValue (2 * s.length + 2) deepest

/-- Reads the statements of a document, each on a line of its own. The count bounds the lines. -/
def readStatements : Nat → Reader (List Statement)
  | 0 => failure
  | lines + 1 => do
    skipGap
    match ← get with
    | [] => pure []
    | c :: _ =>
      if c = '#' ∨ c = '\n' ∨ c = '\r' then
        restOfLine
        readStatements lines
      else
        let statement ← readStatement
        restOfLine
        let statements ← readStatements lines
        pure (statement :: statements)

/-- The members of a document, unless it is not well formed or is no table as a whole. -/
def parse? (text : String) : Option (List (String × Toml)) := do
  let s := match text.toList with
    | '\ufeff' :: s => s
    | s => s
  let (statements, _) ← readStatements (s.length + 1) s
  let progress ← statements.foldlM Progress.step .start
  match ← momentsOfMembers (finishMembers (← progress.close)) with
  | .table members => some members
  | _ => none

end LayeredTree.Toml
