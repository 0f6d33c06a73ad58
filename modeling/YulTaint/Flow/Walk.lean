import YulTaint.Builtin.Effect
import YulTaint.Failure
import YulTaint.Flow.Definition

/-!
The walk over one scope of a program. It creates the scope's variables and
blocks, the edges that do not depend on constants, and the call sites, and it
checks the rules of scoping on the way: no visible name is declared again,
functions are visible in the whole block that defines them and in everything
nested in it, and a function body sees no variables but its own. Bodies of
functions found on the way are queued.
-/

namespace YulTaint.Flow

structure FunctionEntry where
  name : String
  scope : String
  params : List String
  returns : List String
  body : Node
  loc : Loc

abbrev FunctionFrame := List FunctionEntry

/-- A function whose body is still to be walked, with the functions visible
in it, innermost block first. -/
structure PendingFunction where
  entry : FunctionEntry
  visible : List FunctionFrame

abbrev Variables := List (String × NodeId)

/-- What surrounds a statement: the scope and its root block, the visible
functions, the block that governs the statement and that of the innermost
loop. -/
structure Context where
  scope : String
  root : NodeId
  functions : List FunctionFrame := []
  block : NodeId
  loop : Option NodeId := none

def Context.function? (ctx : Context) (name : String) : Option FunctionEntry :=
  ctx.functions.findSome? fun frame => frame.find? (·.name = name)

structure WalkState where
  graph : Graph
  pending : List PendingFunction := []
  scopeNames : List String := []
  definitions : List Definition := []
  applications : List Application := []
  counter : Nat := 0

/-- A walk that fails still leaves what it built. -/
abbrev Walk := EStateM Failure WalkState

def reject {α : Type} (fault : Fault) : Walk α :=
  throw (.fault fault)

def require (condition : Bool) (fault : Fault) : Walk Unit :=
  if condition then return () else reject fault

def modifyGraph (f : Graph → Graph) : Walk Unit :=
  modify fun s => { s with graph := f s.graph }

def addEdge (ctx : Context) (source target : NodeId) : Walk Unit :=
  modifyGraph (·.addEdge ctx.scope source target)

def define (d : Definition) : Walk Unit :=
  modify fun s => { s with definitions := s.definitions ++ [d] }

def defineAll (ds : List Definition) : Walk Unit :=
  modify fun s => { s with definitions := s.definitions ++ ds }

def recordApplication (a : Application) : Walk Unit :=
  modify fun s => { s with applications := s.applications ++ [a] }

def newVariable (ctx : Context) (name : String) (loc : Loc) : Walk NodeId := do
  let id := (← get).graph.size
  modifyGraph (·.addVariable ctx.scope name (some loc))
  addEdge ctx ctx.block id
  return id

def isBound (g : Graph) (scope name : String) : Bool :=
  ((g.scope? scope).bind (·.lookup? name)).isSome

/-- The first of `base#start`, `base#(start+1)`, … that is free. Among as many
candidates as there are names in use, plus one, some candidate is free. -/
def freshSuffix (taken : String → Bool) (base : String) : Nat → Nat → Nat
  | 0, start => start
  | tries + 1, start =>
      if taken s!"{base}#{start}" then freshSuffix taken base tries (start + 1) else start

def boundCount (g : Graph) (scope : String) : Nat :=
  ((g.scope? scope).map (·.names.length)).getD 0

/-- A name that no variable of the scope has: the given one if it is free,
else with the first free suffix. -/
def uniqueName (g : Graph) (scope name : String) : String :=
  if isBound g scope name then
    s!"{name}#{freshSuffix (isBound g scope) name (boundCount g scope + 1) 1}"
  else name

/-- The scope name of a function: its own name at the top level, below that
of the enclosing scope otherwise, with a suffix if that is taken. -/
def uniqueScopeName (taken : List String) (enclosing name : String) : String :=
  let base := if enclosing = mainScope then name else s!"{enclosing}/{name}"
  let isTaken (candidate : String) : Bool := taken.contains candidate || candidate = mainScope
  if isTaken base then s!"{base}#{freshSuffix isTaken base (taken.length + 2) 1}"
  else base

def temporary (ctx : Context) (stem : String) (loc : Loc) : Walk NodeId := do
  let s ← get
  let isTaken := isBound s.graph ctx.scope
  let k := freshSuffix isTaken stem (boundCount s.graph ctx.scope + 1) (s.counter + 1)
  set { s with counter := k }
  newVariable ctx s!"{stem}#{k}" loc

def newBlock (ctx : Context) (stem : String) (loc : Loc) : Walk NodeId := do
  let s ← get
  let id := s.graph.size
  set { s with
    counter := s.counter + 1
    graph := s.graph.addBlock ctx.scope s!"{stem}#{s.counter + 1}" (some loc) }
  addEdge ctx ctx.block id
  return id

def newLocal (ctx : Context) (vars : Variables) (name : String) (loc : Loc) : Walk NodeId := do
  require (vars.lookup name).isNone ((Malformation.shadowsVariable name ctx.scope).located loc)
  require ((ctx.function? name).isNone && !Builtin.isBuiltin name)
    ((Malformation.shadowsFunction name).located loc)
  newVariable ctx (uniqueName (← get).graph ctx.scope name) loc

/-- Declare names one after the other; the variables visible afterwards, and
the new ones. -/
def declareAll (ctx : Context) (loc : Loc) : Variables → List String → Walk (Variables × List NodeId)
  | vars, [] => return (vars, [])
  | vars, name :: rest => do
      let id ← newLocal ctx vars name loc
      let (vars, ids) ← declareAll ctx loc ((name, id) :: vars) rest
      return (vars, id :: ids)

def resolveName (ctx : Context) (vars : Variables) (name : String) (loc : Loc) : Walk NodeId :=
  match vars.lookup name with
  | some id => return id
  | none => reject { cause := .undefinedIdentifier name ctx.scope, loc := some loc }

def resolveNames (ctx : Context) (vars : Variables) (loc : Loc) : List String → Walk (List NodeId)
  | [] => return []
  | name :: rest => do
      let id ← resolveName ctx vars name loc
      let ids ← resolveNames ctx vars loc rest
      return id :: ids

def literalWord (value : Literal) (loc : Loc) : Walk Nat :=
  match value.word? with
  | .ok word => return word
  | .error reason => reject ((Malformation.literal reason).located loc)

/-- What a call refers to: a function of the program, or else a builtin. -/
inductive Callee where
  | user (entry : FunctionEntry)
  | builtin

def requireCount (name what : String) (expected actual : Nat) (loc : Loc) : Walk Unit :=
  require (expected = actual) { cause := .arityMismatch name what expected actual, loc := some loc }

/-- The callee of a call, if the numbers of arguments and results are right.
A name that is neither a function nor a builtin takes any number. -/
def callee (ctx : Context) (name : String) (argumentCount resultCount : Nat) (loc : Loc) :
    Walk Callee :=
  match ctx.function? name with
  | some entry => do
      requireCount name "arguments" entry.params.length argumentCount loc
      requireCount name "return values" resultCount entry.returns.length loc
      return .user entry
  | none =>
      match Builtin.lookup? name with
      | some b => do
          requireCount name "arguments" b.arity argumentCount loc
          requireCount name "return values" resultCount b.returns loc
          return .builtin
      | none => return .builtin

/-- A call of a function of the program. Its results are left to the callee. -/
def callSite (ctx : Context) (entry : FunctionEntry) (arguments results : List NodeId)
    (loc : Loc) : Walk Unit := do
  defineAll (results.map .arbitrary)
  modifyGraph (·.addSite
    { caller := ctx.scope, callee := entry.scope, arguments, results,
      block := ctx.block, loc := some loc })

def application (ctx : Context) (name : String) (operands : List NodeId) (node : NodeId) :
    Walk Unit := do
  define (.application node name operands)
  recordApplication { node, name, operands, block := ctx.block }

def deliver (ctx : Context) (target : Callee) (name : String) (operands : List NodeId)
    (result : NodeId) (loc : Loc) : Walk Unit :=
  match target with
  | .user entry => callSite ctx entry operands [result] loc
  | .builtin => application ctx name operands result

def distribute (ctx : Context) (node : NodeId) (targets : List NodeId) : Walk Unit := do
  modifyGraph fun g => targets.foldl (fun g target => g.addEdge ctx.scope node target) g
  defineAll (targets.map .arbitrary)

/-- A call in statement position. A builtin's value goes straight into a
single target; otherwise it gets a variable of its own. -/
def deliverAll (ctx : Context) (target : Callee) (name : String) (operands : List NodeId)
    (results : List NodeId) (loc : Loc) : Walk Unit :=
  match target, results with
  | target, [result] => deliver ctx target name operands result loc
  | .user entry, results => callSite ctx entry operands results loc
  | .builtin, results => do
      let node ← temporary ctx "expr" loc
      application ctx name operands node
      distribute ctx node results

mutual

def operand (ctx : Context) (vars : Variables) : Node → Walk NodeId
  | .literal value loc => do
      let id ← temporary ctx "lit" loc
      let word ← literalWord value loc
      define (.constant id word)
      return id
  | .identifier name loc => resolveName ctx vars name loc
  | .call name args loc => do
      let target ← callee ctx name args.length 1 loc
      let ids ← operands ctx vars args
      let id ← temporary ctx "expr" loc
      deliver ctx target name ids id loc
      return id
  | other => reject { cause := .unknownNode other.kind, loc := other.loc? }

def operands (ctx : Context) (vars : Variables) : List Node → Walk (List NodeId)
  | [] => return []
  | e :: rest => do
      let id ← operand ctx vars e
      let ids ← operands ctx vars rest
      return id :: ids

end

def callInto (ctx : Context) (vars : Variables) (results : List NodeId) (name : String)
    (args : List Node) (loc : Loc) : Walk Unit := do
  let target ← callee ctx name args.length results.length loc
  let ids ← operands ctx vars args
  deliverAll ctx target name ids results loc

def assignOne (ctx : Context) (vars : Variables) (target : NodeId) (loc : Loc) : Node → Walk Unit
  | .literal value literalLoc => do
      let word ← literalWord value literalLoc
      define (.constant target word)
  | .identifier name nameLoc => do
      let source ← resolveName ctx vars name nameLoc
      addEdge ctx source target
      define (.copy target source)
  | other => reject { cause := .unknownNode other.kind, loc := some loc }

/-- Give variables the value of an expression. Only a call has several. -/
def assign (ctx : Context) (vars : Variables) (targets : List NodeId) (loc : Loc) :
    Node → Walk Unit
  | .call name args callLoc => callInto ctx vars targets name args callLoc
  | value =>
      match targets with
      | [target] => assignOne ctx vars target loc value
      | _ =>
          reject
            { cause := .arityMismatch "assignment" "values" targets.length 1, loc := some loc }

def definedFunctions : List Node → List FunctionEntry
  | [] => []
  | .function name params returns body loc :: rest =>
      { name, scope := "", params, returns, body, loc } :: definedFunctions rest
  | _ :: rest => definedFunctions rest

def bindFunctions (ctx : Context) : FunctionFrame → List FunctionEntry → Walk FunctionFrame
  | frame, [] => return frame
  | frame, entry :: rest => do
      require ((frame.find? (·.name = entry.name)).isNone && (ctx.function? entry.name).isNone)
        { cause := .duplicateDefinition entry.name "function", loc := some entry.loc }
      require (!Builtin.isBuiltin entry.name)
        ((Malformation.redefinesBuiltin entry.name).located entry.loc)
      let s ← get
      let scope := uniqueScopeName s.scopeNames ctx.scope entry.name
      set { s with scopeNames := scope :: s.scopeNames }
      bindFunctions ctx (frame ++ [{ entry with scope }]) rest

/-- The context inside a list of statements, whose functions are bound and
queued first. -/
def enter (ctx : Context) (statements : List Node) : Walk Context := do
  let frame ← bindFunctions ctx [] (definedFunctions statements)
  let visible := frame :: ctx.functions
  modify fun s => { s with pending := s.pending ++ frame.map fun entry => { entry, visible } }
  return { ctx with functions := visible }

/-- New variables start with the value given for them, or with zero. -/
def initialise (ctx : Context) (vars : Variables) (ids : List NodeId) (loc : Loc) :
    Option Node → Walk Unit
  | none => defineAll (ids.map (.constant · 0))
  | some value => assign ctx vars ids loc value

/-- The value of a declaration does not see the names that it declares. -/
def declaration (ctx : Context) (vars : Variables) (names : List String) (value : Option Node)
    (loc : Loc) : Walk Variables := do
  require (!names.isEmpty) (Malformation.declarationWithoutNames.located loc)
  require (decide names.Nodup) (Malformation.repeatedName.located loc)
  let (after, ids) ← declareAll ctx loc vars names
  initialise ctx vars ids loc value
  return after

def assignment (ctx : Context) (vars : Variables) (names : List String) (value : Node) (loc : Loc) :
    Walk Unit := do
  require (!names.isEmpty) (Malformation.assignmentWithoutTargets.located loc)
  let targets ← resolveNames ctx vars loc names
  require (decide targets.Nodup) (Malformation.repeatedTarget.located loc)
  modifyGraph fun g => targets.foldl (fun g id => g.addEdge ctx.scope ctx.block id) g
  assign ctx vars targets loc value

/-- An expression stands alone only if it is a call without results. -/
def expressionStatement (ctx : Context) (vars : Variables) (loc : Loc) : Node → Walk Unit
  | .call name args callLoc => callInto ctx vars [] name args callLoc
  | _ => reject (Malformation.expressionNotCall.located loc)

def newGoverned (ctx : Context) (stem : String) (condition : NodeId) (loc : Loc) : Walk NodeId := do
  let block ← newBlock ctx stem loc
  addEdge ctx condition block
  return block

/-- Tie the current block to the one that a jump goes to. -/
def jump (ctx : Context) (target : NodeId) : Walk Unit :=
  if ctx.block = target then return () else addEdge ctx ctx.block target

def loopJump (ctx : Context) (keyword : String) (loc : Loc) : Walk Unit :=
  match ctx.loop with
  | some block => jump ctx block
  | none => reject ((Malformation.jumpOutsideLoop keyword).located loc)

def armValue (seen : List Nat) (loc : Loc) : Node → Walk Nat
  | .literal value literalLoc => do
      let word ← literalWord value literalLoc
      require (!seen.contains word) ((Malformation.repeatedArm word).located loc)
      return word
  | _ => reject (Malformation.armValueNotLiteral.located loc)

/-- An arm that is no case is taken for one as far as its fields go. -/
def strayArm (ctx : Context) (selector : NodeId) (seen : List Nat) (arm : Node) : Walk Unit :=
  match arm with
  | .literal _ loc | .declaration _ none loc => reject (Malformation.armValueNotLiteral.located loc)
  | .declaration _ (some value) loc | .assignment _ value loc => do
      let _ ← armValue seen loc value
      let _ ← newGoverned ctx "case" selector loc
      throw (.missing (.field arm.kind "body"))
  | _ => throw (.missing (.field arm.kind "value"))

mutual

def statement (ctx : Context) (vars : Variables) : Node → Walk Variables
  | .declaration names value loc => declaration ctx vars names value loc
  | .assignment names value loc => do
      assignment ctx vars names value loc
      return vars
  | .expression value loc => do
      expressionStatement ctx vars loc value
      return vars
  | .branch condition body loc => do
      let id ← operand ctx vars condition
      let block ← newGoverned ctx "if" id loc
      governed { ctx with block } vars body
      return vars
  | .switch selector arms fallback loc => do
      require (!arms.isEmpty || fallback.isSome) (Malformation.switchWithoutCases.located loc)
      let id ← operand ctx vars selector
      switchArms ctx vars id [] arms
      switchFallback ctx vars id loc fallback
      return vars
  | .loop init condition post body loc => do
      let initVars ← loopInit ctx vars init
      let id ← operand ctx initVars condition
      let block ← newGoverned ctx "for" id loc
      governed { ctx with block, loop := some block } initVars body
      governed { ctx with block, loop := some block } initVars post
      return vars
  | .block items _ => do
      let inner ← enter ctx items
      let _ ← statements inner vars items
      return vars
  | .function .. => return vars
  | .breakOut loc => do
      loopJump ctx "break" loc
      return vars
  | .continueOn loc => do
      loopJump ctx "continue" loc
      return vars
  | .leave loc => do
      require (ctx.scope != mainScope) (Malformation.leaveOutsideFunction.located loc)
      jump ctx ctx.root
      return vars
  | other => reject { cause := .unknownNode other.kind, loc := other.loc? }

def statements (ctx : Context) (vars : Variables) : List Node → Walk Variables
  | [] => return vars
  | s :: rest => do
      let vars ← statement ctx vars s
      statements ctx vars rest

/-- Walk what must be a block. -/
def governed (ctx : Context) (vars : Variables) : Node → Walk Unit
  | .block items _ => do
      let inner ← enter ctx items
      let _ ← statements inner vars items
      return ()
  | other => reject { cause := .unknownNode other.kind }

/-- Walk the statements of a loop's first part, which any node with statements may
hold. The variables visible after them. -/
def loopInit (ctx : Context) (vars : Variables) : Node → Walk Variables
  | .block items _ | .program _ items _ => do
      let inner ← enter ctx items
      statements inner vars items
  | other => throw (.missing (.field other.kind "statements"))

def switchArms (ctx : Context) (vars : Variables) (selector : NodeId) :
    List Nat → List Node → Walk Unit
  | _, [] => return ()
  | seen, .caseArm value body loc :: rest => do
      let word ← armValue seen loc value
      let block ← newGoverned ctx "case" selector loc
      governed { ctx with block } vars body
      switchArms ctx vars selector (word :: seen) rest
  | seen, stray :: _ => strayArm ctx selector seen stray

def switchFallback (ctx : Context) (vars : Variables) (selector : NodeId) (loc : Loc) :
    Option Node → Walk Unit
  | none => return ()
  | some body => do
      let block ← newGoverned ctx "default" selector loc
      governed { ctx with block } vars body

end

end YulTaint.Flow
