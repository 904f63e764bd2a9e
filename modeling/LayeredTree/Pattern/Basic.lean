import LayeredTree.Pattern.CodeSet

set_option autoImplicit false

namespace LayeredTree

/-- A condition on a place of a text. Words are made of ASCII letters, digits and low lines. -/
inductive PatternEdge
  | textStart
  | textEnd
  | lineStart
  | lineEnd
  /-- The start of a line where lines may end with a carriage return, a line feed, or both. -/
  | looseLineStart
  | looseLineEnd
  | wordEdge
  | noWordEdge
  | wordStart
  | wordEnd
deriving Repr, DecidableEq

/-- A pattern. A repetition is greedy if it goes on as long as it can before it stops. -/
inductive Pattern
  | empty
  | one (codes : CodeSet)
  | edge (edge : PatternEdge)
  | sequence (a b : Pattern)
  /-- The first pattern, or else the second one. -/
  | choice (a b : Pattern)
  | optional (greedy : Bool) (p : Pattern)
  | repeated (greedy : Bool) (p : Pattern)
deriving Repr, DecidableEq

/-- A text by bytes: each character at the place of its first byte, and nothing at the others. -/
abbrev PatternText := Array (Option Char)

namespace PatternText

def ofString (s : String) : PatternText :=
  (s.toList.flatMap fun c => some c :: List.replicate (c.utf8Size - 1) none).toArray

def charAt? (t : PatternText) (place : Nat) : Option Char := t[place]?.join

def isAt (t : PatternText) (c : Char) (place : Nat) : Bool := t.charAt? place == some c

def isBefore (t : PatternText) (c : Char) (place : Nat) : Bool :=
  0 < place && t.isAt c (place - 1)

def hasWordAt (t : PatternText) (place : Nat) : Bool :=
  (t.charAt? place).any CodeSet.wordChars.contains

def hasWordBefore (t : PatternText) (place : Nat) : Bool :=
  0 < place && t.hasWordAt (place - 1)

end PatternText

def PatternEdge.holds (t : PatternText) (place : Nat) : PatternEdge → Bool
  | textStart => place == 0
  | textEnd => place == t.size
  | lineStart => place == 0 || t.isBefore '\n' place
  | lineEnd => place == t.size || t.isAt '\n' place
  | looseLineStart =>
    place == 0 || t.isBefore '\n' place || (t.isBefore '\r' place && !t.isAt '\n' place)
  | looseLineEnd =>
    place == t.size || t.isAt '\r' place || (t.isAt '\n' place && !t.isBefore '\r' place)
  | wordEdge => t.hasWordBefore place != t.hasWordAt place
  | noWordEdge => t.hasWordBefore place == t.hasWordAt place
  | wordStart => !t.hasWordBefore place && t.hasWordAt place
  | wordEnd => t.hasWordBefore place && !t.hasWordAt place

end LayeredTree
