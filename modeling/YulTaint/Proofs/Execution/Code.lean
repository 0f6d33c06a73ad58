import YulTaint.Flow.Walk

/-!
Programs as they are executed. Names are resolved: a variable is the node that
the walk over the program gives it, a function is the scope it is walked under,
and a value that the program does not name has a node of its own. Nodes are
numbered here from the text alone, in the order in which the walk meets them.
-/

namespace YulTaint.Execution

open YulTaint.Flow (FunctionEntry FunctionFrame PendingFunction Variables)

/-- An expression. Whatever it yields is held by its node. -/
inductive Term where
  | literal (node : NodeId) (value : Int)
  | read (id : NodeId)
  | apply (node : NodeId) (name : String) (args : List Term)
  | call (node : NodeId) (function : String) (args : List Term) (loc : Loc)

def Term.node : Term → NodeId
  | .literal node _ | .read node | .apply node _ _ | .call node _ _ _ => node

mutual

/-- Statements. What a condition governs stands in a block of its own. -/
inductive Code where
  | skip
  | seq (first second : Code)
  | declare (targets : List NodeId)
  | constant (targets : List NodeId) (value : Int)
  | copy (targets : List NodeId) (source : NodeId)
  /-- The value of a builtin in a single variable. -/
  | compute (target : NodeId) (name : String) (args : List Term)
  /-- The value of a builtin in several variables, each in a way of its own. -/
  | scatter (value : Term) (targets : List NodeId)
  | call (function : String) (args : List Term) (targets : List NodeId) (loc : Loc)
  | branch (condition : Term) (block : NodeId) (body : Code)
  | switch (selector : Term) (cases : Cases)
  | loop (init : Code) (condition : Term) (block : NodeId) (body post : Code)
  | breakOut
  | continueOn
  | leave

inductive Cases where
  | nil
  | fallback (block : NodeId) (body : Code)
  | cons (value : Int) (block : NodeId) (body : Code) (rest : Cases)

end

structure Function where
  scope : String
  root : NodeId
  params : List NodeId := []
  returns : List NodeId := []
  body : Code

mutual

/-- Can a jump out of the surrounding loop, or to its next round, start here? -/
def Code.breaks : Code → Bool
  | .seq first second => first.breaks || second.breaks
  | .branch _ _ body => body.breaks
  | .switch _ cases => cases.breaks
  | .loop init _ _ _ _ => init.breaks
  | .breakOut | .continueOn => true
  | _ => false

def Cases.breaks : Cases → Bool
  | .nil => false
  | .fallback _ body => body.breaks
  | .cons _ _ body rest => body.breaks || rest.breaks

end

mutual

/-- Can the function be left here? -/
def Code.leaves : Code → Bool
  | .seq first second => first.leaves || second.leaves
  | .branch _ _ body => body.leaves
  | .switch _ cases => cases.leaves
  | .loop init _ _ body post => init.leaves || body.leaves || post.leaves
  | .leave => true
  | _ => false

def Cases.leaves : Cases → Bool
  | .nil => false
  | .fallback _ body => body.leaves
  | .cons _ _ body rest => body.leaves || rest.leaves

end

/-- The next node, the scope names in use, and the functions whose bodies are
still to come. -/
structure Numbering where
  next : NodeId := 0
  taken : List String := []
  queue : List PendingFunction := []

abbrev Label := StateM Numbering

/-- Where code stands: its scope, and the functions visible there, innermost
block first. -/
structure Surroundings where
  scope : String
  functions : List FunctionFrame

def Surroundings.function? (env : Surroundings) (name : String) : Option FunctionEntry :=
  env.functions.findSome? fun frame => frame.find? (·.name = name)

def literalValue (value : Literal) : Int :=
  match value.word? with
  | .ok word => word
  | .error _ => 0

def caseValue : Node → Int
  | .literal value _ => literalValue value
  | _ => 0

def variableOf (vars : Variables) (name : String) : NodeId :=
  (vars.lookup name).getD 0

namespace Label

def fresh : Label NodeId :=
  modifyGet fun n => (n.next, { n with next := n.next + 1 })

mutual

def term (env : Surroundings) (vars : Variables) : Node → Label Term
  | .literal value _ => do
    let node ← fresh
    return .literal node (literalValue value)
  | .identifier name _ => return .read (variableOf vars name)
  | .call name args loc => do
    let args ← terms env vars args
    let node ← fresh
    match env.function? name with
    | some entry => return .call node entry.scope args loc
    | none => return .apply node name args
  | _ => return .read 0

def terms (env : Surroundings) (vars : Variables) : List Node → Label (List Term)
  | [] => return []
  | e :: rest => do
    let first ← term env vars e
    let others ← terms env vars rest
    return first :: others

end

def callInto (env : Surroundings) (vars : Variables) (targets : List NodeId) (name : String)
    (args : List Node) (loc : Loc) : Label Code := do
  let args ← terms env vars args
  match env.function? name, targets with
  | some entry, targets => return .call entry.scope args targets loc
  | none, [target] => return .compute target name args
  | none, targets => do
    let node ← fresh
    return .scatter (.apply node name args) targets

def assign (env : Surroundings) (vars : Variables) (targets : List NodeId) : Node → Label Code
  | .call name args loc => callInto env vars targets name args loc
  | .literal value _ => return .constant targets (literalValue value)
  | .identifier name _ => return .copy targets (variableOf vars name)
  | _ => return .constant targets 0

def declare (vars : Variables) : List String → Label (Variables × List NodeId)
  | [] => return (vars, [])
  | name :: rest => do
    let id ← fresh
    let (after, ids) ← declare ((name, id) :: vars) rest
    return (after, id :: ids)

def nameFunctions (scope : String) : List FunctionEntry → Label FunctionFrame
  | [] => return []
  | entry :: rest => do
    let n ← get
    let name := Flow.uniqueScopeName n.taken scope entry.name
    set { n with taken := name :: n.taken }
    let frame ← nameFunctions scope rest
    return { entry with scope := name } :: frame

def enter (env : Surroundings) (items : List Node) : Label Surroundings := do
  let frame ← nameFunctions env.scope (Flow.definedFunctions items)
  let functions := frame :: env.functions
  modify fun n =>
    { n with queue := n.queue ++ frame.map fun entry => { entry, visible := functions } }
  return { env with functions }

mutual

def statement (env : Surroundings) (vars : Variables) : Node → Label (Code × Variables)
  | .declaration names value _ => do
    let (after, ids) ← declare vars names
    match value with
    | none => return (.seq (.declare ids) (.constant ids 0), after)
    | some value => do
      let code ← assign env vars ids value
      return (.seq (.declare ids) code, after)
  | .assignment names value _ => do
    let code ← assign env vars (names.map (variableOf vars)) value
    return (code, vars)
  | .expression value _ => do
    let code ← assign env vars [] value
    return (code, vars)
  | .branch condition body _ => do
    let condition ← term env vars condition
    let block ← fresh
    let body ← governed env vars body
    return (.branch condition block body, vars)
  | .switch selector arms fallback _ => do
    let selector ← term env vars selector
    let cases ← switchArms env vars (switchFallback env vars fallback) arms
    return (.switch selector cases, vars)
  | .loop init condition post body _ => do
    let (init, initVars) ← loopInit env vars init
    let condition ← term env initVars condition
    let block ← fresh
    let body ← governed env initVars body
    let post ← governed env initVars post
    return (.loop init condition block body post, vars)
  | .block items _ => do
    let inner ← enter env items
    let (code, _) ← statements inner vars items
    return (code, vars)
  | .breakOut _ => return (.breakOut, vars)
  | .continueOn _ => return (.continueOn, vars)
  | .leave _ => return (.leave, vars)
  | _ => return (.skip, vars)

def statements (env : Surroundings) (vars : Variables) : List Node → Label (Code × Variables)
  | [] => return (.skip, vars)
  | item :: rest => do
    let (first, after) ← statement env vars item
    let (others, last) ← statements env after rest
    return (.seq first others, last)

def governed (env : Surroundings) (vars : Variables) : Node → Label Code
  | .block items _ => do
    let inner ← enter env items
    let (code, _) ← statements inner vars items
    return code
  | _ => return .skip

def loopInit (env : Surroundings) (vars : Variables) : Node → Label (Code × Variables)
  | .block items _ | .program _ items _ => do
    let inner ← enter env items
    statements inner vars items
  | _ => return (.skip, vars)

def switchArms (env : Surroundings) (vars : Variables) (last : Label Cases) :
    List Node → Label Cases
  | [] => last
  | .caseArm value body _ :: rest => do
    let block ← fresh
    let body ← governed env vars body
    let rest ← switchArms env vars last rest
    return .cons (caseValue value) block body rest
  | _ :: rest => switchArms env vars last rest

def switchFallback (env : Surroundings) (vars : Variables) : Option Node → Label Cases
  | none => return .nil
  | some body => do
    let block ← fresh
    let body ← governed env vars body
    return .fallback block body

end

def main (items : List Node) : Label Function := do
  let root ← fresh
  let inner ← enter { scope := mainScope, functions := [] } items
  let (body, _) ← statements inner [] items
  return { scope := mainScope, root, body }

def function (f : PendingFunction) : Label Function := do
  let root ← fresh
  let (vars, params) ← declare [] f.entry.params
  let (vars, returns) ← declare vars f.entry.returns
  let body ← governed { scope := f.entry.scope, functions := f.visible } vars f.entry.body
  return { scope := f.entry.scope, root, params, returns, body }

def pending : Nat → Label (List Function)
  | 0 => return []
  | bound + 1 => do
    let n ← get
    match n.queue with
    | [] => return []
    | f :: rest =>
      set { n with queue := rest }
      let first ← function f
      let others ← pending bound
      return first :: others

end Label

/-- The scopes of a program, in the order in which they are walked. -/
def functions : Node → List Function
  | .program _ items _ =>
    let (main, n) := Label.main items {}
    main :: (Label.pending (functionCounts items) n).1
  | _ => []

end YulTaint.Execution
