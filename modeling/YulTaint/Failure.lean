import YulTaint.Fault
import YulTaint.Graph.Basic

/-!
How an operation fails. Either the program is at fault, which the analysis
reports, or something is referred to that is not there; such a failure is not
reported and ends the whole run.
-/

namespace YulTaint

/-- A reference to something that is not there: in a graph, or, for a field, in
a node of a program. -/
inductive Missing where
  | scope (name : String)
  | binding (scope name : String)
  | node (id : NodeId)
  | site (scope : String) (index : Nat)
  | copy (id : NodeId)
  | callChain (id : NodeId)
  | field (kind name : String)
deriving DecidableEq, Repr

inductive Failure where
  | fault (fault : Fault)
  | missing (what : Missing)

end YulTaint
