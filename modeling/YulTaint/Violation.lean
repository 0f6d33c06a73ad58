import YulTaint.Graph.Summary
import YulTaint.Taint.Spread
import YulTaint.Text.Json

/-!
Violations: storage addresses that untrusted input can influence. Each names
the variable as the program declares it, the scopes it was embedded through,
and a way in which taint reaches it.
-/

namespace YulTaint

structure Violation where
  /-- The name that the program declares. -/
  variableName : String
  /-- The scopes from the analysed one to the declaring one. -/
  scopeChain : List String
  message : String
  /-- The name of the node in the resolved graph. -/
  embeddedName : String := ""
  /-- The declared names of the nodes that taint went through. -/
  taintPath : List String := []
  node : Int := -1
  loc : Option Loc := none
deriving DecidableEq, Repr

namespace Violation

def errorId : String := "dynamicStateAccess"

def function (v : Violation) : String :=
  v.scopeChain.getLastD ""

def toJson (v : Violation) : Json :=
  .object <|
    [("errorId", .text errorId), ("variable", .text v.variableName),
      ("scopeChain", .list (v.scopeChain.map .text)), ("message", .text v.message),
      ("embeddedName", .text v.embeddedName), ("taintPath", .list (v.taintPath.map .text))]
    ++ match Loc.known? v.loc with
      | some loc =>
          [("file", .text loc.file), ("linenr", .number loc.line), ("column", .number loc.column)]
      | none => []

def render (v : Violation) : String :=
  let place := match Loc.known? v.loc with
    | some loc => loc.render ++ ": "
    | none => ""
  s!"{place}warning: {v.message} [{errorId}]"

def messageFor (name declaredIn : String) (chain : List String) : String :=
  let base := s!"storage address '{name}' in '{declaredIn}' depends on untrusted input"
  if 1 < chain.length then
    let via := String.intercalate " -> " chain
    s!"{base} (inlined via {via})"
  else base

def declaredName (g : Graph) (id : NodeId) : Except Missing String :=
  match g.node? (g.declared id) with
  | some n => .ok n.name
  | none => .error (.node id)

def ofNode (g : Graph) (taint : Option Taint) (id : NodeId) : Except Missing Violation :=
  match g.node? id with
  | none => .error (.node id)
  | some n => do
      let name ← declaredName g id
      match n.callChain.getLast? with
      | none => .error (.callChain id)
      | some declaredIn =>
          let path ← match taint with
            | some t => (t.pathTo id).mapM (declaredName g)
            | none => .ok []
          return {
            variableName := name
            scopeChain := n.callChain
            message := messageFor name declaredIn n.callChain
            embeddedName := n.name
            taintPath := path
            node := id
            loc := n.loc }

def taintedAddresses (g : Graph) : List NodeId :=
  g.protectedVariables.filter fun id => (g.node? id).any (·.isTainted)

def check (c : TaintConfig) (g : Graph) (taint : Option Taint) : Except Missing (List Violation) :=
  let ids := taintedAddresses g
  (if c.stopAtFirst then ids.take 1 else ids).mapM (ofNode g taint)

end Violation

end YulTaint
