import YulTaint.Program.Literal
import YulTaint.Program.Loc

/-!
Program trees. A tree is built by a reader or handed in by a caller, so a
position may hold a node of the wrong sort: an expression where a statement
belongs, or an object that is no node at all. The analysis decides what is
well formed.
-/

namespace YulTaint

inductive Node where
  | literal (value : Literal) (loc : Loc)
  | identifier (name : String) (loc : Loc)
  | call (name : String) (args : List Node) (loc : Loc)
  | block (statements : List Node) (loc : Loc)
  | declaration (names : List String) (value : Option Node) (loc : Loc)
  | assignment (names : List String) (value : Node) (loc : Loc)
  | expression (value : Node) (loc : Loc)
  | branch (condition body : Node) (loc : Loc)
  | switch (selector : Node) (arms : List Node) (fallback : Option Node) (loc : Loc)
  | caseArm (value body : Node) (loc : Loc)
  | loop (init condition post body : Node) (loc : Loc)
  | function (name : String) (params returns : List String) (body : Node) (loc : Loc)
  | breakOut (loc : Loc)
  | continueOn (loc : Loc)
  | leave (loc : Loc)
  | program (name : String) (statements : List Node) (loc : Loc)
  | foreign (kind : String)

instance : Inhabited Node := ⟨.foreign ""⟩

/-- A foreign object carries no location. -/
def Node.loc? : Node → Option Loc
  | .literal _ loc | .identifier _ loc | .call _ _ loc | .block _ loc | .declaration _ _ loc
  | .assignment _ _ loc | .expression _ loc | .branch _ _ loc | .switch _ _ _ loc
  | .caseArm _ _ loc | .loop _ _ _ _ loc | .function _ _ _ _ loc | .breakOut loc
  | .continueOn loc | .leave loc | .program _ _ loc => some loc
  | .foreign _ => none

/-- The sort of a node, as diagnostics call it. -/
def Node.kind : Node → String
  | .literal .. => "Literal"
  | .identifier .. => "Identifier"
  | .call .. => "FunctionCall"
  | .block .. => "Block"
  | .declaration .. => "VariableDeclaration"
  | .assignment .. => "Assignment"
  | .expression .. => "ExpressionStatement"
  | .branch .. => "If"
  | .switch .. => "Switch"
  | .caseArm .. => "Case"
  | .loop .. => "ForLoop"
  | .function .. => "FunctionDefinition"
  | .breakOut .. => "Break"
  | .continueOn .. => "Continue"
  | .leave .. => "Leave"
  | .program .. => "Program"
  | .foreign kind => kind

mutual

/-- How many functions a tree defines, at any depth. -/
def Node.functionCount : Node → Nat
  | .block statements _ | .program _ statements _ => functionCounts statements
  | .branch _ body _ | .caseArm _ body _ => body.functionCount
  | .switch _ arms fallback _ => functionCounts arms + fallbackFunctionCount fallback
  | .loop init _ post body _ => init.functionCount + post.functionCount + body.functionCount
  | .function _ _ _ body _ => body.functionCount + 1
  | _ => 0

def functionCounts : List Node → Nat
  | [] => 0
  | s :: rest => s.functionCount + functionCounts rest

def fallbackFunctionCount : Option Node → Nat
  | none => 0
  | some body => body.functionCount

end

end YulTaint
