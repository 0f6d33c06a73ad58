import YulTaint.Flow.Constant
import YulTaint.Memory

/-!
What is added to a scope once its constants are known: the constants
themselves, the edges and marks of its builtin applications, and the accesses
to memory. A storage address that is constant cannot be tainted.
-/

namespace YulTaint.Flow

def setConstant (g : Graph) (entry : NodeId × Knowledge) : Graph :=
  match entry.2 with
  | .constant value => g.modifyNode entry.1 fun n => { n with constant := some value }
  | _ => g

def constantOf (g : Graph) (id : NodeId) : Option Int :=
  (g.node? id).bind (·.constant)

def accessWidth (constants : List (Option Int)) : Extent → Option Int
  | .bytes width => some width
  | .operand index => (constants[index]?).join

def accessOffset (constants : List (Option Int)) (access : MemoryAccess) : Option Int :=
  (constants[access.offset]?).join

def applyRead (scope : String) (a : Application) (constants : List (Option Int)) (g : Graph)
    (access : MemoryAccess) : Graph :=
  (Memory.load g scope (a.operands.getD access.offset 0)
    (accessOffset constants access) (accessWidth constants access.extent) a.node).2

def applyWrite (scope : String) (a : Application) (constants : List (Option Int)) (g : Graph)
    (access : MemoryAccess) : Graph :=
  let value := match access.value? with
    | some index => a.operands.getD index 0
    | none => a.node
  (Memory.store g scope (a.operands.getD access.offset 0)
    (accessOffset constants access) (accessWidth constants access.extent) value (some a.block)).2

def applyEffect (scope : String) (g : Graph) (a : Application) : Graph :=
  let constants := a.operands.map (constantOf g)
  let effect := Builtin.effectFor a.name constants
  let g := if effect.taints then
      a.operands.foldl (fun g operand => g.addEdge scope operand a.node) g
    else g
  let g := if effect.source then g.modifyNode a.node fun n => { n with isSource := true } else g
  let g := effect.addresses.foldl (fun g index =>
    g.modifyNode (a.operands.getD index 0) fun n => { n with isProtected := true }) g
  let g := effect.reads.foldl (applyRead scope a constants) g
  effect.writes.foldl (applyWrite scope a constants) g

def markUntaintable (g : Graph) (id : NodeId) : Graph :=
  g.modifyNode id fun n =>
    if n.isProtected && n.constant.isSome then { n with isUntaintable := true } else n

def finishScope (g : Graph) (r : ScopeRecord) : Graph :=
  let g := (Constant.solve r.definitions).foldl setConstant g
  let g := r.applications.foldl (applyEffect r.scope) g
  (((g.scope? r.scope).map (·.nodes)).getD []).foldl markUntaintable g

end YulTaint.Flow
