import YulTaint.Graph.Basic

/-!
What the walk of one scope records beside the graph: how each variable may
get its value, and the builtin applications whose effects wait until the
constants are known.
-/

namespace YulTaint

inductive Definition where
  | constant (target : NodeId) (value : Int)
  | copy (target source : NodeId)
  | application (target : NodeId) (name : String) (operands : List NodeId)
  | arbitrary (target : NodeId)
deriving DecidableEq, Repr

def Definition.target : Definition → NodeId
  | .constant target _ | .copy target _ | .application target _ _ | .arbitrary target => target

/-- An application of a builtin whose value is held by `node`. -/
structure Application where
  node : NodeId
  name : String
  operands : List NodeId
  block : NodeId
deriving DecidableEq, Repr

structure ScopeRecord where
  scope : String
  definitions : List Definition := []
  applications : List Application := []
deriving DecidableEq, Repr

end YulTaint
