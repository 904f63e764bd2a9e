import LayeredTree.Pattern.Basic

/-!
Following patterns through texts. A pattern leads from each place of a text on several ways, and
these have an order: an earlier start goes before a later one, and from one start the pattern says
what it tries first. A pattern fits a text if the first way that ends at all ends where the text
ends.

A pattern is laid out as nodes, and all ways are followed side by side, byte by byte. At one place
no node is entered twice, so rounds without a character come to an end.
-/

set_option autoImplicit false

namespace LayeredTree

/-- A node of a pattern that is laid out, with the numbers of the nodes behind it. -/
inductive PatternNode
  | one (codes : CodeSet) (next : Nat)
  | edge (edge : PatternEdge) (next : Nat)
  /-- Two ways, the preferred one first. -/
  | fork (first second : Nat)
  | final
deriving Repr, DecidableEq

/-- A pattern laid out as nodes, which are known by their numbers. -/
abbrev PatternMachine := Array PatternNode

namespace Pattern

def forkOf (greedy : Bool) (inside behind : Nat) : PatternNode :=
  if greedy then .fork inside behind else .fork behind inside

/-- Lays out a pattern in front of a node, behind the nodes that there are, and gives the number of
its first node. A repetition has a fork behind it that leads back. -/
def layOut : Pattern → Nat → PatternMachine → Nat × PatternMachine
  | empty, next, nodes => (next, nodes)
  | one codes, next, nodes => (nodes.size, nodes.push (.one codes next))
  | edge e, next, nodes => (nodes.size, nodes.push (.edge e next))
  | sequence a b, next, nodes =>
    let (middle, nodes) := layOut b next nodes
    layOut a middle nodes
  | choice a b, next, nodes =>
    let (first, nodes) := layOut a next nodes
    let (second, nodes) := layOut b next nodes
    (nodes.size, nodes.push (.fork first second))
  | optional greedy p, next, nodes =>
    let (inside, nodes) := layOut p next nodes
    (nodes.size, nodes.push (forkOf greedy inside next))
  | repeated greedy p, next, nodes =>
    let back := nodes.size
    let (inside, nodes) := layOut p back (nodes.push .final)
    (inside, nodes.setIfInBounds back (forkOf greedy inside next))

end Pattern

/-- A way through a text: the node that it is to enter, and the bytes left until then. -/
structure PatternWay where
  node : Nat
  passing : Nat
deriving Repr, DecidableEq

namespace PatternMachine

/-- The ways that go on beyond a place, the preferred ones first, and whether one of all ways ends
there; those behind it do not count. The count bounds the steps. -/
def follow (nodes : PatternMachine) (holds : PatternEdge → Bool) :
    Nat → List PatternWay → List Nat → List PatternWay × Bool
  | 0, _, _ => ([], false)
  | _, [], _ => ([], false)
  | steps + 1, ⟨node, passing + 1⟩ :: ways, entered =>
    let (others, isFound) := nodes.follow holds steps ways entered
    (⟨node, passing + 1⟩ :: others, isFound)
  | steps + 1, ⟨node, 0⟩ :: ways, entered =>
    if entered.contains node then nodes.follow holds steps ways entered
    else
      match nodes[node]? with
      | some (.one _ _) =>
        let (others, isFound) := nodes.follow holds steps ways (node :: entered)
        (⟨node, 0⟩ :: others, isFound)
      | some (.edge e next) =>
        nodes.follow holds steps (if holds e then ⟨next, 0⟩ :: ways else ways) (node :: entered)
      | some (.fork first second) =>
        nodes.follow holds steps (⟨first, 0⟩ :: ⟨second, 0⟩ :: ways) (node :: entered)
      | some .final => ([], true)
      | none => nodes.follow holds steps ways (node :: entered)

/-- The way behind the next byte, with the character that begins there, if it can pass that. -/
def pass (nodes : PatternMachine) (c : Option Char) : PatternWay → Option PatternWay
  | ⟨node, passing + 1⟩ => some ⟨node, passing⟩
  | ⟨node, 0⟩ =>
    match nodes[node]?, c with
    | some (.one codes next), some c =>
      if codes.contains c then some ⟨next, c.utf8Size - 1⟩ else none
    | _, _ => none

/-- Follows ways from a place to the end of a text, and says whether one ends there. As long as no
way has ended, a new one begins at each place, behind all others. -/
def reachesEnd (nodes : PatternMachine) (first : Nat) (t : PatternText) :
    Nat → Nat → List PatternWay → Bool → Bool
  | left, place, ways, isOpen =>
    let ways := if isOpen then ways ++ [⟨first, 0⟩] else ways
    let steps := ways.length + 2 * nodes.size + 1
    let (ways, isFound) := nodes.follow (fun e => e.holds t place) steps ways []
    match left with
    | 0 => isFound
    | left + 1 =>
      nodes.reachesEnd first t left (place + 1) (ways.filterMap (nodes.pass (t.charAt? place)))
        (isOpen && !isFound)

end PatternMachine

def Pattern.fits (p : Pattern) (s : String) : Bool :=
  let t := PatternText.ofString s
  let (first, nodes) := p.layOut 0 #[.final]
  nodes.reachesEnd first t t.size 0 [] true

end LayeredTree
