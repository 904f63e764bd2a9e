import LayeredTree.Bytes
import LayeredTree.Text.Quoted
import LayeredTree.Text.Utf8

/-!
Paths as texts. A path keeps the bytes it was written with, since a closing slash matters to the
operating system; its components are the reading in which repeated slashes and dots inside do not
count. Parent, last name and containment go by components.
-/

set_option autoImplicit false

namespace LayeredTree

structure Path where
  text : Bytes
deriving Repr, DecidableEq, Inhabited

/-- One step of a path. A dot is a step only where a relative path begins with it. -/
inductive Component
  | root
  | here
  | up
  | normal (name : Bytes)
deriving Repr, DecidableEq

namespace Path

def dot : Bytes := [46]

def dotDot : Bytes := [46, 46]

def ofString (s : String) : Path := ⟨Bytes.ofString s⟩

def shown (p : Path) : String := Text.shown p.text

def isEmpty (p : Path) : Bool := p.text.isEmpty

def isAbsolute (p : Path) : Bool := p.text.head? == some slash

/-- Segments that lead nowhere: the empty one and the single dot. -/
def isIdle (segment : Bytes) : Bool := segment == [] || segment == dot

def stepOf (segment : Bytes) : Component :=
  if segment = dotDot then .up else .normal segment

def components (p : Path) : List Component :=
  let segments := Bytes.splitOn slash p.text
  let start : List Component :=
    if p.isAbsolute then [.root] else if segments.head? == some dot then [.here] else []
  start ++ (segments.filter fun s => !isIdle s).map stepOf

/-- A second path read from the end of the first; an absolute one stands alone. -/
def join (p q : Path) : Path :=
  if q.isAbsolute then q
  else if p.text.isEmpty || p.text.getLast? == some slash then ⟨p.text ++ q.text⟩
  else ⟨p.text ++ slash :: q.text⟩

/-- A name read from the end of a path. -/
def child (p : Path) (name : Bytes) : Path := p.join ⟨name⟩

def fileName (p : Path) : Option Bytes :=
  match p.components.getLast? with
  | some (.normal name) => some name
  | _ => none

/-- What follows the last point of a name, if the point does not begin the name. -/
def extensionOf (name : Bytes) : Option Bytes :=
  match Bytes.splitOn 46 name with
  | [] | [_] => none
  | first :: rest => if rest.length = 1 ∧ first = [] then none else rest.getLast?

def extension? (p : Path) : Option Bytes := p.fileName.bind extensionOf

/-- The path with a text put behind its last step, if that is an ordinary name. -/
def extended? (p : Path) (text : Bytes) : Option Path :=
  if p.fileName.isNone then none
  else
    let segments := (Bytes.splitOn slash p.text).reverse.dropWhile isIdle
    some ⟨Bytes.joinWith slash segments.reverse ++ text⟩

def parent (p : Path) : Option Path :=
  let (lead, body) : Bytes × Bytes :=
    if p.isAbsolute then ([slash], p.text.drop 1)
    else if (Bytes.splitOn slash p.text).head? == some dot then (dot, p.text.drop 1)
    else ([], p.text)
  match (Bytes.splitOn slash body).reverse.dropWhile isIdle with
  | _ :: rest => some ⟨lead ++ Bytes.joinWith slash (rest.dropWhile isIdle).reverse⟩
  | [] => if lead == dot then some ⟨[]⟩ else none

def below? (root p : Path) : Option (List Component) :=
  if root.components.isPrefixOf p.components then
    some (p.components.drop root.components.length)
  else none

def isWithin (p root : Path) : Bool := root.components.isPrefixOf p.components

def same (p q : Path) : Bool := p.components == q.components

def quotedChar (c : Char) : List Char :=
  if c = '\'' then ['\\', c] else Text.quotedChar '"' c

def quoted (p : Path) : String := Text.quotedBytesBy quotedChar p.text

example : (ofString "a//b/./c/").parent = some (ofString "a//b") := by decide
example : (ofString "./a").parent = some (ofString ".") := by decide
example : (ofString "/..").fileName = none := by decide
example : (ofString "a/.b/").extended? [46] = some (ofString "a/.b.") := by decide
example : (ofString "a/.b").extension? = none := by decide
example : (ofString "a/b.c").extension? = some [99] := by decide

end Path
end LayeredTree
