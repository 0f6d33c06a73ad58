import YulTaint.Program.Node
import YulTaint.Sexp.Printer
import YulTaint.Sexp.Reader
import YulTaint.Text.Order

/-!
What can go wrong with a program, and how it is told. A fault has a cause and
possibly a place; its code and its kind follow from the cause unless a code
is given. All wording is in the `message` functions.
-/

namespace YulTaint

inductive FaultKind where
  | structural
  | unsupported
  | internal
deriving DecidableEq, Repr

def FaultKind.render : FaultKind → String
  | .structural => "structural"
  | .unsupported => "unsupported"
  | .internal => "internal"

inductive FaultCode where
  | unreadable
  | malformed
  | unknownNode
  | undefinedIdentifier
  | duplicateDefinition
  | arityMismatch
  | recursion
  | internal
  | taintInvariant
deriving DecidableEq, Repr

def FaultCode.number : FaultCode → Nat
  | .unreadable => 1001
  | .malformed => 1002
  | .unknownNode => 1003
  | .undefinedIdentifier => 1004
  | .duplicateDefinition => 1005
  | .arityMismatch => 1006
  | .recursion => 2001
  | .internal => 9000
  | .taintInvariant => 9001

def FaultCode.kind : FaultCode → FaultKind
  | .unreadable | .malformed | .unknownNode | .undefinedIdentifier | .duplicateDefinition
  | .arityMismatch => .structural
  | .recursion => .unsupported
  | .internal | .taintInvariant => .internal

def FaultCode.summary : FaultCode → String
  | .unreadable => "unreadable IR text"
  | .malformed => "malformed IR"
  | .unknownNode => "unknown node kind"
  | .undefinedIdentifier => "undefined identifier"
  | .duplicateDefinition => "duplicate definition"
  | .arityMismatch => "arity mismatch"
  | .recursion => "recursive call graph"
  | .internal => "internal error"
  | .taintInvariant => "untaintable variable tainted"

def FaultCode.render (code : FaultCode) : String :=
  s!"DSA-{code.number}"

def FaultCode.describe (code : FaultCode) : String :=
  s!"ErrorCode({Text.quoted code.render}, {code.kind.render.toUpper})"

inductive Unreadable where
  | text (reason : Sexp.ReadError)
  | file (path reason : String)
  | notAForm (found : Sexp)
  | notAName (expected : String) (found : Sexp)
  | notAnExpression (found : Sexp)
  | notOneExpression
  | unknownStatement (head : String)
  | functionWithoutName
  | declarationShape
  | assignmentShape
  | expressionShape
  | branchWithoutCondition
  | switchWithoutSelector
  | armWithoutValue
  | armValueNotLiteral
  | secondDefault
  | unexpectedClause (head : String)
  | loopShape
  | loopClauses
  | operandsAfter (head : String)
  | other (message : String)

def Unreadable.message : Unreadable → String
  | .text reason => "failed to parse IR text: " ++ reason.message
  | .file path reason => s!"cannot read {path}: {reason}"
  | .notAForm found => s!"expected a form, got {found.print}"
  | .notAName expected found => s!"expected {expected}, got {found.print}"
  | .notAnExpression found => s!"unsupported expression {found.print}"
  | .notOneExpression => "expected exactly one expression"
  | .unknownStatement head => s!"unknown statement '{head}'"
  | .functionWithoutName => "'function' needs a name"
  | .declarationShape => "'let' takes names and an optional value"
  | .assignmentShape => "'set' takes targets and a value"
  | .expressionShape => "'expr' takes exactly one expression"
  | .branchWithoutCondition => "'if' needs a condition"
  | .switchWithoutSelector => "'switch' needs a selector"
  | .armWithoutValue => "'case' needs a value"
  | .armValueNotLiteral => "case value must be a literal"
  | .secondDefault => "'switch' has more than one default"
  | .unexpectedClause head => s!"unexpected '{head}' in switch"
  | .loopShape => "'for' needs init, condition and post"
  | .loopClauses => "'for' expects (init ...) cond (post ...)"
  | .operandsAfter head => s!"'{head}' takes no operands"
  | .other message => message

inductive Malformation where
  | declarationWithoutNames
  | repeatedName
  | shadowsVariable (name scope : String)
  | shadowsFunction (name : String)
  | redefinesBuiltin (name : String)
  | expressionNotCall
  | jumpOutsideLoop (keyword : String)
  | leaveOutsideFunction
  | assignmentWithoutTargets
  | repeatedTarget
  | switchWithoutCases
  | armValueNotLiteral
  | repeatedArm (value : Nat)
  | literal (reason : LiteralError)
  | other (message : String)

def Malformation.message : Malformation → String
  | .declarationWithoutNames => "declaration without names"
  | .repeatedName => "duplicate name in declaration"
  | .shadowsVariable name scope => s!"'{name}' shadows a visible variable in '{scope}'"
  | .shadowsFunction name => s!"variable '{name}' shadows a function"
  | .redefinesBuiltin name => s!"function '{name}' redefines a builtin"
  | .expressionNotCall => "expression statement must be a call"
  | .jumpOutsideLoop keyword => s!"'{keyword}' outside of a loop"
  | .leaveOutsideFunction => "'leave' outside of a function"
  | .assignmentWithoutTargets => "assignment without targets"
  | .repeatedTarget => "duplicate assignment target"
  | .switchWithoutCases => "switch without cases"
  | .armValueNotLiteral => "case value must be a literal"
  | .repeatedArm value => s!"duplicate case {Text.hexNat value}"
  | .literal reason => reason.message
  | .other message => message

inductive Misfit where
  | embeddedTwice (caller callee : String)
  | signature (caller callee : String)
  | other (message : String)

def Misfit.message : Misfit → String
  | .embeddedTwice caller callee =>
      s!"call site CallSite({caller} -> {callee}, resolved) embedded twice"
  | .signature caller callee =>
      s!"call site CallSite({caller} -> {callee}, unresolved) does not match {callee}"
  | .other message => message

inductive Cause where
  | unclassified (message : String)
  | structural (message : String)
  | unreadable (reason : Unreadable)
  | malformed (reason : Malformation)
  | unknownNode (kind : String)
  | undefinedIdentifier (name scope : String)
  | duplicateDefinition (name what : String)
  | arityMismatch (name what : String) (expected actual : Int)
  | unsupported (message : String)
  | recursion (functions : List String)
  | internal (reason : Misfit)
  | taintInvariant (name : String)

def Cause.message : Cause → String
  | .unclassified message | .structural message | .unsupported message => message
  | .unreadable reason => reason.message
  | .malformed reason => reason.message
  | .unknownNode kind => s!"unknown IR node kind {kind}"
  | .undefinedIdentifier name scope => s!"identifier '{name}' is not declared in '{scope}'"
  | .duplicateDefinition name what => s!"{what} '{name}' is already defined"
  | .arityMismatch name what expected actual => s!"'{name}' expects {expected} {what}, got {actual}"
  | .recursion functions =>
      "recursive call graph is not supported: " ++ String.intercalate ", " (ascendingNames functions)
  | .internal reason => reason.message
  | .taintInvariant name => s!"untaintable variable '{name}' was tainted"

def Cause.code : Cause → FaultCode
  | .unclassified _ | .internal _ => .internal
  | .structural _ | .malformed _ => .malformed
  | .unreadable _ => .unreadable
  | .unknownNode _ => .unknownNode
  | .undefinedIdentifier .. => .undefinedIdentifier
  | .duplicateDefinition .. => .duplicateDefinition
  | .arityMismatch .. => .arityMismatch
  | .unsupported _ | .recursion _ => .recursion
  | .taintInvariant _ => .taintInvariant

structure Fault where
  cause : Cause
  loc : Option Loc := none
  givenCode : Option FaultCode := none

def Fault.code (fault : Fault) : FaultCode :=
  fault.givenCode.getD fault.cause.code

def Fault.kind (fault : Fault) : FaultKind :=
  fault.code.kind

def Fault.message (fault : Fault) : String :=
  fault.cause.message

/-- A known place, then the code and the message. -/
def Fault.render (fault : Fault) : String :=
  let place := match Loc.known? fault.loc with
    | some loc => loc.render ++ ": "
    | none => ""
  s!"{place}error[{fault.code.render}]: {fault.message}"

def Unreadable.located (reason : Unreadable) (loc : Loc) : Fault :=
  { cause := .unreadable reason, loc := some loc }

def Unreadable.fault (reason : Unreadable) : Fault :=
  { cause := .unreadable reason }

def Malformation.located (reason : Malformation) (loc : Loc) : Fault :=
  { cause := .malformed reason, loc := some loc }

end YulTaint
