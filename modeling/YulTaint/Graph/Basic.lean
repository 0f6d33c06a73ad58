import YulTaint.Program.Loc
import YulTaint.Text.Order

/-!
The flow graph: an arena of nodes addressed by index, directed edges, and one
scope for each function and for the top-level code. A node is a variable or a
block; an edge from a block means that its target is defined on the control
path which the block governs. Nodes and edges are only ever added. A scope
remembers the edges it contributed, so that its part of the graph can be
copied into a caller.
-/

namespace YulTaint

abbrev NodeId := Nat

inductive NodeKind where
  | var
  | block
deriving DecidableEq, Repr

structure FlowNode where
  kind : NodeKind
  name : String
  /-- The owning scope; none for a memory word, which all scopes share. -/
  scope : Option String
  constant : Option Int := none
  isTainted : Bool := false
  isUntaintable : Bool := false
  isProtected : Bool := false
  isSource : Bool := false
  /-- The node this one is a copy of. -/
  origin : Option NodeId := none
  /-- The index of the embedding that made the copy. -/
  embedding : Option Int := none
  /-- The scopes from the owning one to the one that declared the node. -/
  callChain : List String := []
  loc : Option Loc := none
deriving DecidableEq, Repr

structure Edge where
  source : NodeId
  target : NodeId
deriving DecidableEq, Repr

def Edge.before (a b : Edge) : Bool :=
  a.source < b.source || (a.source = b.source && a.target < b.target)

/-- A call from one scope to a function; the nodes are the caller's. -/
structure CallSite where
  caller : String
  callee : String
  arguments : List NodeId
  results : List NodeId
  /-- The block that governs the call. -/
  block : NodeId
  loc : Option Loc := none
  resolved : Bool := false
deriving DecidableEq, Repr

structure Scope where
  name : String
  root : NodeId
  params : List NodeId := []
  returns : List NodeId := []
  nodes : List NodeId := []
  edges : List Edge := []
  sites : List CallSite := []
  /-- The variables by name, in the order in which names were first bound. -/
  names : List (String × NodeId) := []
deriving DecidableEq, Repr

def mainScope : String := "!!main"

def Scope.isMain (s : Scope) : Bool :=
  s.name = mainScope

def Scope.lookup? (s : Scope) (name : String) : Option NodeId :=
  s.names.lookup name

def Scope.unresolved (s : Scope) : List CallSite :=
  s.sites.filter fun site => !site.resolved

def Scope.isResolved (s : Scope) : Bool :=
  s.sites.all (·.resolved)

/-- Bind a name; a name bound before keeps its place. -/
def bindName (name : String) (id : NodeId) : List (String × NodeId) → List (String × NodeId)
  | [] => [(name, id)]
  | (other, old) :: rest =>
      if other = name then (name, id) :: rest else (other, old) :: bindName name id rest

structure Graph where
  nodes : Array FlowNode := #[]
  edges : List Edge := []
  scopes : List Scope := []
  /-- The memory words by name. -/
  globals : List (String × NodeId) := []
deriving DecidableEq, Repr

namespace Graph

def size (g : Graph) : Nat :=
  g.nodes.size

def node? (g : Graph) (id : NodeId) : Option FlowNode :=
  g.nodes[id]?

def scope? (g : Graph) (name : String) : Option Scope :=
  g.scopes.find? (·.name = name)

def scopeNames (g : Graph) : List String :=
  g.scopes.map (·.name)

def modifyNode (g : Graph) (id : NodeId) (f : FlowNode → FlowNode) : Graph :=
  { g with nodes := g.nodes.modify id f }

def modifyScope (g : Graph) (name : String) (f : Scope → Scope) : Graph :=
  { g with scopes := g.scopes.map fun s => if s.name = name then f s else s }

/-- Append a node; its id is the size before. -/
def push (g : Graph) (node : FlowNode) : Graph :=
  { g with nodes := g.nodes.push node }

/-- A scope of a name already in use takes its predecessor's place. -/
def putScope (scope : Scope) : List Scope → List Scope
  | [] => [scope]
  | other :: rest => if other.name = scope.name then scope :: rest else other :: putScope scope rest

/-- A new scope with its root block, whose id is the size before. -/
def addScope (g : Graph) (name : String) (loc : Option Loc) : Graph :=
  let root : FlowNode :=
    { kind := .block, name := name ++ ":body", scope := some name, callChain := [name], loc }
  { g.push root with
    scopes := putScope { name, root := g.size, nodes := [g.size] } g.scopes }

def addBlock (g : Graph) (scope name : String) (loc : Option Loc) : Graph :=
  (g.push { kind := .block, name, scope := some scope, callChain := [scope], loc }).modifyScope
    scope fun s => { s with nodes := s.nodes ++ [g.size] }

/-- A new variable of a scope, bound to its name; its id is the size before. -/
def addVariable (g : Graph) (scope name : String) (loc : Option Loc) : Graph :=
  (g.push { kind := .var, name, scope := some scope, callChain := [scope], loc }).modifyScope
    scope fun s => { s with nodes := s.nodes ++ [g.size], names := bindName name g.size s.names }

/-- The shared node of a name, made on first use. -/
def global (g : Graph) (name : String) : NodeId × Graph :=
  match g.globals.lookup name with
  | some id => (id, g)
  | none =>
      (g.size, { g.push { kind := .var, name, scope := none } with
        globals := g.globals ++ [(name, g.size)] })

/-- A copy of a node in a scope, made by an embedding; its id is the size
before. Taint is not copied. -/
def addCopy (g : Graph) (node : FlowNode) (id : NodeId) (into name : String)
    (embedding : Int) : Graph :=
  let copy : FlowNode :=
    { node with
      name, scope := some into, isTainted := false, origin := some id,
      embedding := some embedding, callChain := into :: node.callChain }
  (g.push copy).modifyScope into fun s =>
    { s with
      nodes := s.nodes ++ [g.size]
      names := if copy.kind = .var then bindName name g.size s.names else s.names }

def insertEdge (edge : Edge) (edges : List Edge) : List Edge :=
  insertBy Edge.before edge edges

def addLooseEdge (g : Graph) (source target : NodeId) : Graph :=
  { g with edges := insertEdge ⟨source, target⟩ g.edges }

def addEdge (g : Graph) (scope : String) (source target : NodeId) : Graph :=
  (g.addLooseEdge source target).modifyScope scope fun s =>
    { s with edges := insertEdge ⟨source, target⟩ s.edges }

def addSite (g : Graph) (site : CallSite) : Graph :=
  g.modifyScope site.caller fun s => { s with sites := s.sites ++ [site] }

def addParam (g : Graph) (scope : String) (id : NodeId) : Graph :=
  g.modifyScope scope fun s => { s with params := s.params ++ [id] }

def addReturn (g : Graph) (scope : String) (id : NodeId) : Graph :=
  g.modifyScope scope fun s => { s with returns := s.returns ++ [id] }

/-- Ascending, since the edges are. -/
def successors (g : Graph) (id : NodeId) : List NodeId :=
  (g.edges.filter (·.source = id)).map (·.target)

def predecessors (g : Graph) (id : NodeId) : List NodeId :=
  (g.edges.filter (·.target = id)).map (·.source)

def hasEdge (g : Graph) (source target : NodeId) : Bool :=
  g.edges.contains ⟨source, target⟩

/-- Follow the copies back to the node that the program declares. An origin
always comes before its copy in the arena. -/
def declared (g : Graph) (id : NodeId) : NodeId :=
  match (g.node? id).bind (·.origin) with
  | some earlier => if earlier < id then g.declared earlier else id
  | none => id
termination_by id

end Graph

end YulTaint
