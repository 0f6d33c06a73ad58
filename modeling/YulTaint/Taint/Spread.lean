import YulTaint.CallGraph.Embedding
import YulTaint.Taint.Config

/-!
The spread of taint along edges, breadth first, so that each tainted node is
reached over a shortest path. A node that cannot be tainted stops it.
-/

namespace YulTaint

/-- The outcome of a propagation. `parents` gives for each tainted node that
is no source the node it was reached from, the latest one first. -/
structure Taint where
  tainted : List NodeId := []
  sources : List NodeId := []
  parents : List (NodeId × NodeId) := []
deriving DecidableEq, Repr

namespace Taint

/-- Follow parents back to a source. A node is reached only from nodes reached
before it, so each step leaves a shorter list. -/
def walkBack (id : NodeId) : List (NodeId × NodeId) → List NodeId
  | [] => [id]
  | (child, parent) :: earlier =>
      if child = id then walkBack parent earlier ++ [id] else walkBack id earlier

/-- The nodes from a source to a tainted node, both included; none for
others. -/
def pathTo (t : Taint) (id : NodeId) : List NodeId :=
  if t.tainted.contains id then walkBack id t.parents else []

/-- A spread under way: the nodes whose successors are still to be looked at,
all nodes reached, and the parents, the latest one first. -/
structure Front where
  queue : List NodeId
  reached : List NodeId
  parents : List (NodeId × NodeId) := []

def isUntaintable? (g : Graph) (id : NodeId) : Except Missing Bool :=
  match g.node? id with
  | some n => .ok n.isUntaintable
  | none => .error (.node id)

/-- Reach the successors of a node that can be tainted and are not reached
yet. -/
def reachAll (g : Graph) (parent : NodeId) : Front → List NodeId → Except Missing Front
  | f, [] => .ok f
  | f, id :: rest =>
      if f.reached.contains id then reachAll g parent f rest
      else do
        if ← isUntaintable? g id then reachAll g parent f rest
        else
          reachAll g parent
            { queue := f.queue ++ [id], reached := f.reached ++ [id],
              parents := (id, parent) :: f.parents } rest

/-- Look at queued nodes in order, but at most `bound` of them. -/
def spread (g : Graph) : Nat → Front → Except Missing Front
  | 0, f => .ok f
  | bound + 1, f =>
      match f.queue with
      | [] => .ok f
      | id :: rest => do
          let f ← reachAll g id { f with queue := rest } (g.successors id)
          spread g bound f

def clear (g : Graph) : Graph :=
  { g with nodes := g.nodes.map fun n => { n with isTainted := false } }

def mark (g : Graph) (ids : List NodeId) : Graph :=
  ids.foldl (fun g id => g.modifyNode id fun n => { n with isTainted := true }) g

def taintable (g : Graph) (ids : List NodeId) : Except Missing (List NodeId) := do
  ids.filterM fun id => return !(← isUntaintable? g id)

/-- The taint that spreads from given nodes. Every node is queued at most
once, so the number of nodes bounds the rounds. -/
def ofSources (g : Graph) (ids : List NodeId) : Except Missing Taint := do
  let sources ← taintable g ids
  let f ← spread g g.size { queue := sources, reached := sources }
  return { tainted := f.reached, sources, parents := f.parents }

/-- The first node that is marked although it cannot be tainted. -/
def wrongMark? (g : Graph) : Option FlowNode :=
  g.nodes.find? fun n => n.isTainted && n.isUntaintable

/-- Recompute which nodes of a graph are tainted. Marks from before are
dropped even if the sources turn out to be undefined. -/
def propagate (c : TaintConfig) : EStateM Failure Graph Taint := fun g =>
  let g := clear g
  match initialSources c g with
  | .error fault => .error (.fault fault) g
  | .ok ids =>
      match ofSources g ids with
      | .error missing => .error (.missing missing) g
      | .ok t =>
          let g := mark g t.tainted
          match wrongMark? g with
          | some n => .error (.fault { cause := .taintInvariant n.name }) g
          | none => .ok t g

end Taint

end YulTaint
