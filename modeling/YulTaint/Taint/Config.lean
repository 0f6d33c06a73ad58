import YulTaint.Fault
import YulTaint.Graph.Basic

/-!
Where taint starts: at function parameters, at values that come from outside
the program, and at variables named one by one. Naming functions restricts
the first kind to their parameters.
-/

namespace YulTaint

structure TaintConfig where
  taintParameters : Bool := true
  /-- The functions whose parameters are tainted; all of them without a
  list. -/
  functions : Option (List String) := none
  /-- Scope and name of further tainted variables. -/
  namedVariables : List (String × String) := []
  builtinSources : Bool := true
  stopAtFirst : Bool := false
deriving DecidableEq, Repr

namespace TaintConfig

def addFunction (c : TaintConfig) (name : String) : TaintConfig :=
  { c with functions := some (c.functions.getD [] ++ [name]) }

def addVariable (c : TaintConfig) (scope name : String) : TaintConfig :=
  { c with namedVariables := c.namedVariables ++ [(scope, name)] }

def taintsParametersOf (c : TaintConfig) (function : String) : Bool :=
  c.taintParameters && (match c.functions with
    | none => true
    | some names => names.contains function)

def functionNames (c : TaintConfig) : Option (List String) :=
  c.functions.map ascendingNames

def variablePrecedes (a b : String × String) : Bool :=
  Text.precedes a.1 b.1 || (a.1 = b.1 && Text.precedes a.2 b.2)

def variableNames (c : TaintConfig) : List (String × String) :=
  ascending variablePrecedes c.namedVariables

def undefinedFunctions (c : TaintConfig) (g : Graph) : List String :=
  (c.functionNames.getD []).filter fun name => !g.scopeNames.contains name

end TaintConfig

def parameterSources (c : TaintConfig) (g : Graph) : List NodeId :=
  (g.scopes.filter fun s => !s.isMain && c.taintsParametersOf s.name).flatMap (·.params)

def builtinSources (c : TaintConfig) (g : Graph) : List NodeId :=
  if c.builtinSources then
    (List.range g.size).filter fun id => (g.node? id).any (·.isSource)
  else []

def namedSource (g : Graph) (v : String × String) : Except Fault NodeId :=
  match (g.scope? v.1).bind (·.lookup? v.2) with
  | some id => .ok id
  | none => .error { cause := .undefinedIdentifier v.2 v.1 }

def initialSources (c : TaintConfig) (g : Graph) : Except Fault (List NodeId) := do
  let named ← c.variableNames.mapM (namedSource g)
  return ascendingIds (parameterSources c g ++ builtinSources c g ++ named)

end YulTaint
