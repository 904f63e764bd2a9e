set_option autoImplicit false

namespace LayeredTree

inductive CodeSet
  | nothing
  | range (first last : Char)
  | union (a b : CodeSet)
  | common (a b : CodeSet)
  | without (a b : CodeSet)
  /-- What is in one of two sets and not in the other. -/
  | either (a b : CodeSet)
  | others (a : CodeSet)
  /-- A set together with the ASCII letters of the other case. -/
  | anyCase (a : CodeSet)
deriving Repr, DecidableEq

namespace CodeSet

def contains : CodeSet → Char → Bool
  | nothing, _ => false
  | range first last, c => decide (first ≤ c ∧ c ≤ last)
  | union a b, c => a.contains c || b.contains c
  | common a b, c => a.contains c && b.contains c
  | without a b, c => a.contains c && !b.contains c
  | either a b, c => a.contains c != b.contains c
  | others a, c => !a.contains c
  | anyCase a, c => a.contains c || a.contains c.toLower || a.contains c.toUpper

def single (c : Char) : CodeSet := range c c

def unionOf : List CodeSet → CodeSet
  | [] => nothing
  | [a] => a
  | a :: rest => union a (unionOf rest)

def digits : CodeSet := range '0' '9'

def capitals : CodeSet := range 'A' 'Z'

def smalls : CodeSet := range 'a' 'z'

def letters : CodeSet := union capitals smalls

def wordChars : CodeSet := unionOf [digits, letters, single '_']

def gaps : CodeSet := union (range '\t' '\r') (single ' ')

def named : List (String × CodeSet) :=
  [("alnum", union digits letters), ("alpha", letters), ("ascii", range '\x00' '\x7f'),
    ("blank", union (single '\t') (single ' ')), ("cntrl", union (range '\x00' '\x1f')
      (single '\x7f')), ("digit", digits), ("graph", range '!' '~'), ("lower", smalls),
    ("print", range ' ' '~'),
    ("punct", unionOf [range '!' '/', range ':' '@', range '[' '\x60', range '\x7b' '~']),
    ("space", gaps), ("upper", capitals), ("word", wordChars),
    ("xdigit", unionOf [digits, range 'A' 'F', range 'a' 'f'])]

end CodeSet
end LayeredTree
