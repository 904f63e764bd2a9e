import LayeredTree.Pattern.Basic
import LayeredTree.Text.Category
import LayeredTree.Text.Letter

/-!
Reading patterns. Patterns speak of ASCII where all scripts would need tables of characters: cases,
digits, gaps and words are to be had only where the flag for all scripts is off. Repetitions with a
count are not read.
-/

set_option autoImplicit false

namespace LayeredTree

inductive PatternFault
  | badForm
  /-- The edges of the words of all scripts are asked for. -/
  | wideWordEdge
deriving Repr, DecidableEq

def PatternFault.message : PatternFault → String
  | badForm => "error building NFA"
  | wideWordEdge =>
    "unsupported regex feature for DFAs: cannot build DFAs for regexes with Unicode word " ++
      "boundaries; switch to ASCII word boundaries, or heuristically enable Unicode word " ++
      "boundaries or use a different regex engine"

namespace Pattern

structure Flags where
  anyCase : Bool
  /-- The edges of the text are those of its lines. -/
  lines : Bool
  /-- The point stands for line breaks as well. -/
  pointForAll : Bool
  /-- Greedy and other repetitions change places. -/
  swapped : Bool
  /-- Characters are those of all scripts. -/
  wide : Bool
  /-- Lines may end with a carriage return. -/
  loose : Bool
  /-- Gaps and comments do not count. -/
  spaced : Bool
deriving Repr, DecidableEq

namespace Flags

def standard : Flags := ⟨false, false, false, false, true, false, false⟩

def set (flags : Flags) (letter : Char) (on : Bool) : Option Flags :=
  match letter with
  | 'i' => some { flags with anyCase := on }
  | 'm' => some { flags with lines := on }
  | 's' => some { flags with pointForAll := on }
  | 'U' => some { flags with swapped := on }
  | 'u' => some { flags with wide := on }
  | 'R' => some { flags with loose := on }
  | 'x' => some { flags with spaced := on }
  | _ => none

end Flags

structure Source where
  rest : List Char
  flags : Flags
  /-- The names of groups so far. -/
  names : List String
  /-- An edge of words of all scripts was met. -/
  wideEdge : Bool

abbrev Reader := StateT Source Option

def goOn (rest : List Char) : Reader Unit := modify fun source => { source with rest := rest }

def next : Reader Char := do
  match (← get).rest with
  | c :: s => do goOn s; pure c
  | [] => failure

/-- What is left behind gaps and comments. The flag says that a comment is open; it ends with its
line. -/
def withoutGaps : Bool → List Char → List Char
  | _, [] => []
  | true, c :: s => withoutGaps (c != '\n') s
  | false, c :: s =>
    if Text.isBlank c then withoutGaps false s
    else if c = '#' then withoutGaps true s
    else c :: s

def skipGaps : Reader Unit := do
  let source ← get
  if source.flags.spaced then goOn (withoutGaps false source.rest)

def nextOver : Reader Char := do
  let c ← next
  skipGaps
  pure c

inductive Piece
  /-- A character; the flag says that it is written as a byte. -/
  | letter (c : Char) (asByte : Bool)
  | any
  | edge (edge : PatternEdge)
  | sort (codes : CodeSet) (negated : Bool)

def digitValue? (c : Char) : Option Nat :=
  if c.isDigit then some (c.toNat - 48)
  else if 'a' ≤ c.toLower ∧ c.toLower ≤ 'f' then some (c.toLower.toNat - 87)
  else none

def readDigits : Nat → Nat → Reader Nat
  | 0, n => pure n
  | width + 1, n => do readDigits width (n * 16 + (← digitValue? (← nextOver)))

def readNumbered (width : Nat) : Reader Char := do
  skipGaps
  let n ← readDigits width 0
  if n.isValidChar then pure (Char.ofNat n) else failure

def isMeta (c : Char) : Bool := "\\.+*?()|[]\x7b\x7d^$#&-~".contains c

def isEscapable (c : Char) : Bool :=
  isMeta c || (c.toNat < 128 && !c.isAlphanum && c != '<' && c != '>')

def readEscape : Reader Piece := do
  let c ← next
  match c with
  | 'x' => do pure (.letter (← readNumbered 2) true)
  | 'u' => do pure (.letter (← readNumbered 4) false)
  | 'U' => do pure (.letter (← readNumbered 8) false)
  | 'd' => pure (.sort .digits false)
  | 's' => pure (.sort .gaps false)
  | 'w' => pure (.sort .wordChars false)
  | 'D' => pure (.sort .digits true)
  | 'S' => pure (.sort .gaps true)
  | 'W' => pure (.sort .wordChars true)
  | 'a' => pure (.letter '\x07' false)
  | 'f' => pure (.letter '\x0c' false)
  | 't' => pure (.letter '\t' false)
  | 'n' => pure (.letter '\n' false)
  | 'r' => pure (.letter '\r' false)
  | 'v' => pure (.letter '\x0b' false)
  | 'A' => pure (.edge .textStart)
  | 'z' => pure (.edge .textEnd)
  | 'b' => pure (.edge .wordEdge)
  | 'B' => pure (.edge .noWordEdge)
  | '<' => pure (.edge .wordStart)
  | '>' => pure (.edge .wordEnd)
  | c => if isEscapable c then pure (.letter c false) else failure

structure ClassPart where
  codes : CodeSet
  depth : Nat

structure OpenClass where
  negated : Bool
  /-- The operator that waits for its second operand, with its first one. -/
  waiting : Option ((CodeSet → CodeSet → CodeSet) × ClassPart)
  /-- The parts of the present operand. -/
  parts : List ClassPart

namespace OpenClass

def push (o : OpenClass) (part : ClassPart) : OpenClass := { o with parts := part :: o.parts }

def content (o : OpenClass) : ClassPart :=
  let operand : ClassPart := match o.parts with
    | [] => ⟨.nothing, 0⟩
    | [part] => part
    | parts => ⟨.unionOf (parts.map ClassPart.codes), (parts.map ClassPart.depth).foldl max 0 + 1⟩
  match o.waiting with
  | none => operand
  | some (join, first) => ⟨join first.codes operand.codes, max first.depth operand.depth + 1⟩

def joined (o : OpenClass) (join : CodeSet → CodeSet → CodeSet) : OpenClass :=
  { o with waiting := some (join, o.content), parts := [] }

def closed (o : OpenClass) : ClassPart :=
  ⟨if o.negated then .others o.content.codes else o.content.codes, o.content.depth + 1⟩

end OpenClass

def classSet (codes : CodeSet) : Reader ClassPart := do
  let flags := (← get).flags
  if flags.anyCase then
    if flags.wide then failure else pure ⟨.anyCase codes, 0⟩
  else pure ⟨codes, 0⟩

/-- The characters from one to another in a class. Outside of all scripts there is only ASCII. -/
def classRange (first last : Char) : Reader ClassPart := do
  if !(← get).flags.wide && (127 < first.toNat || 127 < last.toNat) then failure
  if last < first then failure
  classSet (.range first last)

/-- Reads the hyphens at the start of a class, which stand for themselves. The count bounds them. -/
def readHyphens : Nat → OpenClass → Reader OpenClass
  | 0, o => pure o
  | most + 1, o => do
    match (← get).rest with
    | '-' :: _ => do
      discard nextOver
      readHyphens most (o.push (← classRange '-' '-'))
    | _ => pure o

/-- Reads the start of a class. A bracket that would close it at once stands for itself. -/
def openClass : Reader OpenClass := do
  discard nextOver
  let negated := (← get).rest.head? == some '^'
  if negated then discard nextOver
  let o ← readHyphens (← get).rest.length ⟨negated, none, []⟩
  if o.parts.isEmpty && (← get).rest.head? == some ']' then
    discard nextOver
    pure (o.push (← classRange ']' ']'))
  else pure o

def namedSet? : List Char → Option (CodeSet × Bool × List Char)
  | ':' :: s =>
    let (negated, s) := match s with
      | '^' :: s => (true, s)
      | s => (false, s)
    match s.dropWhile (· != ':') with
    | ':' :: ']' :: rest =>
      (CodeSet.named.lookup (String.ofList (s.takeWhile (· != ':')))).map (·, negated, rest)
    | _ => none
  | _ => none

def readClassPiece : Reader Piece := do
  match ← next with
  | '\\' => readEscape
  | c => pure (.letter c false)

def beyondGaps (spaced : Bool) (s : List Char) : Option Char :=
  if spaced then
    match s.dropWhile Text.isBlank with
    | '#' :: s => (s.dropWhile Text.isBlank).head?
    | s => s.head?
  else s.head?

/-- Reads one part of a class: a range, or a single piece. A hyphen in front of another one or of
the closing bracket makes no range. -/
def readClassPart : Reader ClassPart := do
  let first ← readClassPiece
  skipGaps
  let source ← get
  let single : Reader ClassPart := match first with
    | .letter c _ => classRange c c
    | .sort codes negated => if source.flags.wide || negated then failure else classSet codes
    | _ => failure
  match source.rest with
  | [] => failure
  | '-' :: s =>
    let beyond := beyondGaps source.flags.spaced s
    if beyond == some ']' || beyond == some '-' then single
    else do
      discard nextOver
      match first, ← readClassPiece with
      | .letter a _, .letter b _ => classRange a b
      | _, _ => failure
  | _ => single

/-- Reads a class up to its end; classes around it wait. The count bounds the steps. -/
def readClass : Nat → List OpenClass → OpenClass → Reader ClassPart
  | 0, _, _ => failure
  | steps + 1, outer, o => do
    skipGaps
    let source ← get
    match source.rest with
    | [] => failure
    | '[' :: s =>
      match namedSet? s with
      | some (codes, negated, rest) => do
        goOn rest
        let part ← classSet codes
        if negated && !source.flags.wide then failure
        readClass steps outer (o.push (if negated then ⟨.others part.codes, 0⟩ else part))
      | none => do readClass steps (o :: outer) (← openClass)
    | ']' :: s => do
      goOn s
      if o.negated && !source.flags.wide then failure
      match outer with
      | [] => pure o.closed
      | around :: outer => readClass steps outer (around.push o.closed)
    | '&' :: '&' :: s => do goOn s; readClass steps outer (o.joined .common)
    | '-' :: '-' :: s => do goOn s; readClass steps outer (o.joined .without)
    | '~' :: '~' :: s => do goOn s; readClass steps outer (o.joined .either)
    | _ => do readClass steps outer (o.push (← readClassPart))

structure Part where
  pattern : Pattern
  depth : Nat
  /-- It can be repeated. -/
  isOperand : Bool

structure OpenGroup where
  /-- The flags behind the group. -/
  after : Flags
  /-- The branches that are complete, the last one first. -/
  branches : List Part
  /-- The parts of the present branch, the last one first. -/
  parts : List Part

namespace OpenGroup

def push (g : OpenGroup) (part : Part) : OpenGroup := { g with parts := part :: g.parts }

/-- Several parts as one; the last one comes first. -/
def together (join : Pattern → Pattern → Pattern) (parts : List Part) : Part :=
  let rec chain : List Part → Pattern
    | [] => .empty
    | [part] => part.pattern
    | part :: rest => join (chain rest) part.pattern
  match parts with
  | [part] => part
  | parts =>
    let levels := if parts.isEmpty then 0 else (parts.map Part.depth).foldl max 0 + 1
    ⟨chain parts, levels, true⟩

def branch (g : OpenGroup) : Part := together .sequence g.parts

def branched (g : OpenGroup) : OpenGroup :=
  { g with branches := g.branch :: g.branches, parts := [] }

def content (g : OpenGroup) : Part := together .choice (g.branch :: g.branches)

end OpenGroup

/-- The flags that a group sets, their letters with the last one first, and what follows them. -/
def flagsOf (flags : Flags) (negated : Bool) (seen : List Char) :
    List Char → Option (Flags × List Char × List Char)
  | [] => none
  | c :: s =>
    if c = ':' ∨ c = ')' then if seen.head? = some '-' then none else some (flags, seen, c :: s)
    else if seen.contains c then none
    else if c = '-' then flagsOf flags true (c :: seen) s
    else do flagsOf (← flags.set c (!negated)) negated (c :: seen) s

/-- A name of a group: a letter or a low line, and then also digits, points and brackets. -/
def isGroupName : List Char → Bool
  | [] => false
  | c :: s => (c == '_' || Text.isLetter c) &&
      s.all fun c => c == '_' || c == '.' || c == '[' || c == ']' || Text.isAlphanumeric c

/-- Reads the name of a group with the bracket behind it; no two groups have the same. -/
def readGroupName : Reader Unit := do
  let source ← get
  let name := source.rest.takeWhile (· != '>')
  if source.names.contains (String.ofList name) || !isGroupName name then failure
  set { source with
    rest := source.rest.dropWhile (· != '>'), names := String.ofList name :: source.names }
  discard next

/-- Reads what stands behind an opening bracket, and whether a group follows. Else the bracket only
set flags, and is closed. -/
def readGroupStart : Reader Bool := do
  skipGaps
  let source ← get
  match source.rest with
  | '?' :: '=' :: _ | '?' :: '!' :: _ | '?' :: '<' :: '=' :: _ | '?' :: '<' :: '!' :: _ => failure
  | '?' :: 'P' :: '<' :: s | '?' :: '<' :: s => do goOn s; readGroupName; pure true
  | '?' :: s =>
    let (flags, seen, s) ← (flagsOf source.flags false [] s : Option _)
    set { source with flags := flags, rest := s.drop 1 }
    if s.head? = some ':' then pure true else if seen = [] then failure else pure false
  | _ => pure true

def partOf (piece : Piece) : Reader Part := do
  let flags := (← get).flags
  let one := fun codes => (pure ⟨.one codes, 0, true⟩ : Reader Part)
  match piece with
  | .letter c asByte =>
    if flags.wide then if flags.anyCase then failure else one (.single c)
    else if asByte && 127 < c.toNat then failure
    else one (if flags.anyCase then .anyCase (.single c) else .single c)
  | .any =>
    if !flags.wide then failure
    else if flags.pointForAll then one (.others .nothing)
    else if flags.loose then one (.others (.union (.single '\r') (.single '\n')))
    else one (.others (.single '\n'))
  | .edge e => do
    let ofWords := [PatternEdge.wordEdge, .noWordEdge, .wordStart, .wordEnd].contains e
    if ofWords && flags.wide then modify fun source => { source with wideEdge := true }
    pure ⟨.edge e, 0, true⟩
  | .sort codes negated => if flags.wide || negated then failure else one codes

def readPiece : Reader Piece := do
  let flags := (← get).flags
  match ← next with
  | '\\' => readEscape
  | '.' => pure .any
  | '^' => pure (.edge (if !flags.lines then .textStart
      else if flags.loose then .looseLineStart else .lineStart))
  | '$' => pure (.edge (if !flags.lines then .textEnd
      else if flags.loose then .looseLineEnd else .lineEnd))
  | c => pure (.letter c false)

def Part.under (part : Part) (sign : Char) (greedy : Bool) : Part :=
  let pattern := match sign with
    | '?' => Pattern.optional greedy part.pattern
    | '*' => .optional greedy (.repeated greedy part.pattern)
    | _ => .repeated greedy part.pattern
  ⟨pattern, part.depth + 1, true⟩

/-- Reads a group up to its end; groups around it wait. The outermost group ends with the pattern.
The count bounds the steps. -/
def readGroup : Nat → List OpenGroup → OpenGroup → Reader Part
  | 0, _, _ => failure
  | steps + 1, outer, g => do
    skipGaps
    let source ← get
    match source.rest with
    | [] => if outer.isEmpty then pure g.content else failure
    | '(' :: s => do
      goOn s
      if ← readGroupStart then readGroup steps (g :: outer) ⟨source.flags, [], []⟩
      else readGroup steps outer (g.push ⟨.empty, 0, false⟩)
    | ')' :: s =>
      match outer with
      | [] => failure
      | around :: outer => do
        set { source with rest := s, flags := g.after }
        readGroup steps outer (around.push ⟨g.content.pattern, g.content.depth + 1, true⟩)
    | '|' :: s => do goOn s; readGroup steps outer g.branched
    | '[' :: _ => do
      let part ← readClass (source.rest.length + 1) [] (← openClass)
      readGroup steps outer (g.push ⟨.one part.codes, part.depth, true⟩)
    | '\x7b' :: _ => failure
    | c :: s =>
      if c = '?' ∨ c = '*' ∨ c = '+' then
        match g.parts with
        | [] => failure
        | part :: parts => do
          if !part.isOperand then failure
          let reluctant := s.head? == some '?'
          goOn (if reluctant then s.drop 1 else s)
          let whole := part.under c (reluctant == source.flags.swapped)
          readGroup steps outer { g with parts := whole :: parts }
      else do readGroup steps outer (g.push (← partOf (← readPiece)))

def deepest : Nat := 250

def parse (s : String) : Except PatternFault Pattern :=
  let start : Source := ⟨s.toList, .standard, [], false⟩
  match readGroup (s.length + 1) [] ⟨.standard, [], []⟩ start with
  | none => .error .badForm
  | some (whole, source) =>
    if deepest < whole.depth then .error .badForm
    else if source.wideEdge then .error .wideWordEdge
    else .ok whole.pattern

end Pattern
end LayeredTree
