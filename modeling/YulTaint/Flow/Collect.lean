import YulTaint.Flow.Finish
import YulTaint.Flow.Walk

/-!
The flow graph of a program. The top-level code is walked first, then the
functions in the order in which they were found; when all scopes stand, each
is finished in the same order.
-/

namespace YulTaint.Flow

/-- The records of the scope just walked; the next scope starts afresh. -/
def takeRecord (scope : String) : Walk ScopeRecord := do
  let s ← get
  set { s with definitions := [], applications := [], counter := 0 }
  return { scope, definitions := s.definitions, applications := s.applications }

def openScope (name : String) (functions : List FunctionFrame) (loc : Option Loc) :
    Walk Context := do
  let root := (← get).graph.size
  modifyGraph (·.addScope name loc)
  return { scope := name, root, functions, block := root }

def walkMain (items : List Node) : Walk ScopeRecord := do
  let ctx ← openScope mainScope [] none
  let inner ← enter ctx items
  let _ ← statements inner [] items
  takeRecord mainScope

/-- Parameters hold whatever the caller passes. -/
def declareParams (ctx : Context) (loc : Loc) : Variables → List String → Walk Variables
  | vars, [] => return vars
  | vars, name :: rest => do
      let id ← newLocal ctx vars name loc
      modifyGraph (·.addParam ctx.scope id)
      define (.arbitrary id)
      declareParams ctx loc ((name, id) :: vars) rest

/-- Return variables start at zero. -/
def declareReturns (ctx : Context) (loc : Loc) : Variables → List String → Walk Variables
  | vars, [] => return vars
  | vars, name :: rest => do
      let id ← newLocal ctx vars name loc
      modifyGraph (·.addReturn ctx.scope id)
      define (.constant id 0)
      declareReturns ctx loc ((name, id) :: vars) rest

def walkFunction (f : PendingFunction) : Walk ScopeRecord := do
  let e := f.entry
  let ctx ← openScope e.scope f.visible (some e.loc)
  let vars ← declareParams ctx e.loc [] e.params
  let vars ← declareReturns ctx e.loc vars e.returns
  governed ctx vars e.body
  takeRecord e.scope

/-- Walk queued functions, oldest first, but at most `bound` of them. -/
def walkPending : Nat → Walk (List ScopeRecord)
  | 0 => return []
  | bound + 1 => do
      let s ← get
      match s.pending with
      | [] => return []
      | f :: rest =>
          set { s with pending := rest }
          let r ← walkFunction f
          let rs ← walkPending bound
          return r :: rs

/-- Walk all scopes of a program; each of its functions is queued once. -/
def walkProgram (program : Node) : Walk (List ScopeRecord) :=
  match program with
  | .program _ items _ => do
      let main ← walkMain items
      let rest ← walkPending (functionCounts items)
      return main :: rest
  | other => reject { cause := .unknownNode other.kind }

/-- Add a program's flow to a graph. Scopes walked before a failure
stay in the graph. -/
def collectInto (program : Node) : EStateM Failure Graph Unit := fun g =>
  match walkProgram program { graph := g } with
  | .ok records s => .ok () (records.foldl finishScope s.graph)
  | .error failure s => .error failure s.graph

def collect (program : Node) : Except Failure Graph :=
  match collectInto program {} with
  | .ok _ g => .ok g
  | .error failure _ => .error failure

end YulTaint.Flow
