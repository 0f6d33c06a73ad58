import YulTaint.CallGraph.Component
import YulTaint.Failure

/-!
Resolving calls by embedding. A call site is resolved by copying the callee's
part of the graph into the caller and wiring arguments, results and the
governing block to the copy. Sites whose callee has no open site of its own
come first, so every copy is complete when it is made; if sites remain and
none is ready, the calls are recursive.
-/

namespace YulTaint

structure SiteRef where
  scope : String
  index : Nat
deriving DecidableEq, Repr

/-- One embedding: its index, the site that it resolved, and the copies made,
each after the node it copies. -/
structure Embedding where
  index : Int
  site : SiteRef
  caller : String
  callee : String
  copies : List (NodeId × NodeId)
deriving DecidableEq, Repr

def Embedding.describe (e : Embedding) : String :=
  s!"Embedding(#{e.index} {e.callee} into {e.caller}, {e.copies.length} nodes)"

/-- A graph whose calls are being resolved, the next embedding index, and the
embeddings made so far. -/
structure Resolver where
  graph : Graph
  nextIndex : Int := 0
  embeddings : List Embedding := []

namespace Resolver

def openSites (scope : String) : Nat → List CallSite → List (SiteRef × CallSite)
  | _, [] => []
  | index, site :: rest =>
      if site.resolved then openSites scope (index + 1) rest
      else (⟨scope, index⟩, site) :: openSites scope (index + 1) rest

def pending (g : Graph) : List (SiteRef × CallSite) :=
  g.scopes.flatMap fun s => openSites s.name 0 s.sites

def isDone (g : Graph) : Bool :=
  (pending g).isEmpty

/-- The first open site whose callee has none. -/
def firstReady (g : Graph) : List (SiteRef × CallSite) → Except Missing (Option (SiteRef × CallSite))
  | [] => .ok none
  | (ref, site) :: rest =>
      match g.scope? site.callee with
      | none => .error (.scope site.callee)
      | some callee => if callee.isResolved then .ok (some (ref, site)) else firstReady g rest

def nextEligible (g : Graph) : Except Missing (Option (SiteRef × CallSite)) :=
  firstReady g (pending g)

def callGraph (g : Graph) : Successors :=
  g.scopes.map fun s => (s.name, ascendingNames (s.unresolved.map (·.callee)))

/-- The members of a component if it is a cycle. -/
def cycleOf (calls : Successors) : List String → Except Missing (List String)
  | [v] =>
      match calls.lookup v with
      | some callees => .ok (if callees.contains v then [v] else [])
      | none => .error (.scope v)
  | component => .ok component

def recursiveFunctions (g : Graph) : Except Missing (List String) := do
  let calls := callGraph g
  let cycles ← calls.components.mapM (cycleOf calls)
  return ascendingNames cycles.flatten

/-- Copy nodes of a scope, in order; pairs of a node and its copy. -/
def copyNodes (callee caller : String) (index : Int) :
    Graph → List NodeId → List (NodeId × NodeId) × Graph
  | g, [] => ([], g)
  | g, id :: rest =>
      match g.node? id with
      | none => copyNodes callee caller index g rest
      | some n =>
          let (copies, g') := copyNodes callee caller index
            (g.addCopy n id caller s!"{callee}#{index}/{n.name}" index) rest
          ((id, g.size) :: copies, g')

/-- The copy of a node, or the node itself if it was not copied. -/
def image (copies : List (NodeId × NodeId)) (id : NodeId) : NodeId :=
  (copies.lookup id).getD id

def copyEdges (caller : String) (copies : List (NodeId × NodeId)) (g : Graph) (edges : List Edge) :
    Graph :=
  edges.foldl
    (fun g e => g.addEdge caller (image copies e.source) (image copies e.target)) g

/-- The edges that tie a copy to its site: each argument to its parameter,
each return variable to its result, and the governing block to the root. On
the copied side a node without a copy is an error. -/
def wires (copies : List (NodeId × NodeId)) (site : CallSite) (callee : Scope) :
    List (Except Missing Edge) :=
  let copyOf (id : NodeId) : Except Missing NodeId :=
    match copies.lookup id with
    | some copy => .ok copy
    | none => .error (.copy id)
  (site.arguments.zip callee.params).map (fun (arg, param) => (copyOf param).map (⟨arg, ·⟩))
    ++ (callee.returns.zip site.results).map (fun (ret, result) => (copyOf ret).map (⟨·, result⟩))
    ++ [(copyOf callee.root).map (⟨site.block, ·⟩)]

/-- Add wires up to the first one that is an error. -/
def addWires (caller : String) : Graph → List (Except Missing Edge) → Option Missing × Graph
  | g, [] => (none, g)
  | g, .error missing :: _ => (some missing, g)
  | g, .ok e :: rest => addWires caller (g.addEdge caller e.source e.target) rest

def resolveSite (g : Graph) (ref : SiteRef) : Graph :=
  g.modifyScope ref.scope fun s =>
    { s with sites := s.sites.modify ref.index fun site => { site with resolved := true } }

def embed (ref : SiteRef) (site : CallSite) : EStateM Failure Resolver Embedding := fun r =>
  match r.graph.scope? site.caller, r.graph.scope? site.callee with
  | none, _ => .error (.missing (.scope site.caller)) r
  | _, none => .error (.missing (.scope site.callee)) r
  | some _, some callee =>
      if site.resolved then
        .error (.fault { cause := .internal (.embeddedTwice site.caller site.callee) }) r
      else if site.arguments.length ≠ callee.params.length
          ∨ site.results.length ≠ callee.returns.length then
        .error (.fault { cause := .internal (.signature site.caller site.callee) }) r
      else
        let index := r.nextIndex
        let (copies, g) := copyNodes callee.name site.caller index r.graph callee.nodes
        let g := copyEdges site.caller copies g callee.edges
        match addWires site.caller g (wires copies site callee) with
        | (some missing, g) => .error (.missing missing) { r with graph := g, nextIndex := index + 1 }
        | (none, g) =>
            let e : Embedding :=
              { index, site := ref, caller := site.caller, callee := site.callee, copies }
            .ok e
              { graph := resolveSite g ref
                nextIndex := index + 1
                embeddings := r.embeddings ++ [e] }

def step : EStateM Failure Resolver Bool := fun r =>
  if isDone r.graph then .ok false r
  else
    match nextEligible r.graph with
    | .error missing => .error (.missing missing) r
    | .ok none =>
        match recursiveFunctions r.graph with
        | .error missing => .error (.missing missing) r
        | .ok names => .error (.fault { cause := .recursion names }) r
    | .ok (some (ref, site)) =>
        match embed ref site r with
        | .ok _ r => .ok true r
        | .error failure r => .error failure r

def steps : Nat → EStateM Failure Resolver Unit
  | 0 => return ()
  | bound + 1 => do
      if ← step then steps bound

/-- Resolve all call sites; each step resolves one. -/
def resolve : EStateM Failure Resolver Unit := do
  steps ((pending (← get).graph).length + 1)

end Resolver

end YulTaint
