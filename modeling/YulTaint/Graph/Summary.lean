import YulTaint.Graph.Basic
import YulTaint.Text.Quoted

/-!
Counts and one-line descriptions of graphs and their parts.
-/

namespace YulTaint

structure Statistics where
  nodes : Nat
  edges : Nat
  scopes : Nat
  blocks : Nat
  addresses : Nat
  memoryWords : Nat
  callSites : Nat
deriving DecidableEq, Repr

def FlowNode.flags (n : FlowNode) : String :=
  (if n.isTainted then "T" else "") ++ (if n.isUntaintable then "U" else "")
    ++ (if n.isProtected then "P" else "") ++ (if n.isSource then "S" else "")

def FlowNode.describe (n : FlowNode) (id : NodeId) : String :=
  let scope := n.scope.getD "None"
  s!"FlowNode({id}, {Text.quoted n.name}, {scope}, [{n.flags}])"

def CallSite.describe (site : CallSite) : String :=
  let state := if site.resolved then "resolved" else "unresolved"
  s!"CallSite({site.caller} -> {site.callee}, {state})"

namespace Graph

def protectedVariables (g : Graph) : List NodeId :=
  (List.range g.size).filter fun id =>
    match g.node? id with
    | some n => n.kind = .var && n.isProtected
    | none => false

def taintedNodes (g : Graph) : List NodeId :=
  (List.range g.size).filter fun id => (g.node? id).any (·.isTainted)

def statistics (g : Graph) : Statistics :=
  { nodes := g.size
    edges := g.edges.length
    scopes := g.scopes.length
    blocks := g.nodes.countP (·.kind = .block)
    addresses := g.protectedVariables.length
    memoryWords := g.globals.length
    callSites := g.scopes.foldl (fun n s => n + s.sites.length) 0 }

def describe (g : Graph) : String :=
  s!"FlowGraph({g.size} nodes, {g.edges.length} edges, {g.scopes.length} scopes)"

end Graph

end YulTaint
