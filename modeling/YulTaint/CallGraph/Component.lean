import YulTaint.Text.Order

/-!
Strongly connected components of a finite graph given as successor lists, by a
single depth-first search. Nodes are numbered in the order of discovery and
stay on a stack until their component is complete. The search from a node
tells the lowest number on the stack that it met; if this is the node's own,
then the node and all above it on the stack are a component. So every
component comes after those it leads to, and inside a component the node
discovered last comes first.
-/

namespace YulTaint

/-- Each node with its successors; a successor need not have an entry. -/
abbrev Successors := List (String × List String)

namespace Successors

def next (g : Successors) (v : String) : List String :=
  ascendingNames ((g.lookup v).getD [])

def names (g : Successors) : List String :=
  g.flatMap fun (v, targets) => v :: targets

/-- A search under way: the nodes discovered with their numbers, those of them
in no component yet, the latest first in both, and the components. -/
structure Search where
  numbers : List (String × Nat) := []
  stack : List String := []
  components : List (List String) := []
deriving DecidableEq, Repr

namespace Search

def number? (s : Search) (v : String) : Option Nat :=
  s.numbers.lookup v

def count (s : Search) : Nat :=
  s.numbers.length

def discover (s : Search) (v : String) : Search :=
  { s with numbers := (v, s.count) :: s.numbers, stack := v :: s.stack }

def close (s : Search) (v : String) : Search :=
  { s with
    stack := (s.stack.dropWhile (· ≠ v)).drop 1
    components := s.components ++ [s.stack.takeWhile (· ≠ v) ++ [v]] }

end Search

/-- Look at nodes in turn, and search from those not discovered yet. The lowest
number met on the stack is `low` to begin with. -/
def follow (visit : String → Search → Option (Nat × Search)) :
    List String → Nat → Search → Option (Nat × Search)
  | [], low, s => some (low, s)
  | w :: rest, low, s =>
      match s.number? w with
      | none => do
          let (reached, s) ← visit w s
          follow visit rest (Nat.min low reached) s
      | some number =>
          follow visit rest (if s.stack.contains w then Nat.min low number else low) s

/-- Search from a node, to a limited depth; none if this is exceeded. -/
def visit (g : Successors) : Nat → String → Search → Option (Nat × Search)
  | 0, _, _ => none
  | depth + 1, v, s => do
      let (low, s') ← follow (g.visit depth) (g.next v) s.count (s.discover v)
      return (low, if low = s.count then s'.close v else s')

/-- Search from every node in turn. Each level of the recursion discovers a
name, so their number limits the depth. -/
def search? (g : Successors) : Option Search :=
  (follow (g.visit g.names.length) (g.map (·.1)) 0 {}).map (·.2)

def components (g : Successors) : List (List String) :=
  (g.search?.map (·.components)).getD []

end Successors

end YulTaint
