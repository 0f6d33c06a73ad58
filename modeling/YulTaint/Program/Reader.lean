import YulTaint.Fault
import YulTaint.Sexp.Position

/-!
Programs from S-expression text. Every form carries the place where it opens;
an atom carries the place of the form being read. A form with a wrong head or
a name that is no symbol is reported without a place.
-/

namespace YulTaint

open Sexp (readForms openings locateAll)

def Position.loc (file : String) (start : Position) : Loc :=
  ⟨file, start.line, start.column⟩

namespace Reader

def symbolName (expected : String) : Sexp → Except Fault String
  | .symbol name => .ok name
  | found => .error (Unreadable.notAName expected found).fault

def symbolNames (expected : String) (items : List Sexp) : Except Fault (List String) :=
  items.mapM (symbolName expected)

def formHead : Sexp → Except Fault String
  | .list _ (head :: _) => symbolName "a form name" head
  | found => .error (Unreadable.notAForm found).fault

def variableNames : Sexp → Except Fault (List String)
  | .list _ items => symbolNames "a variable name" items
  | item => symbolNames "a variable name" [item]

/-- A symbol of the form `0x…`, with an optional minus sign, is an integer. -/
def hexSymbol? (name : String) : Option Int :=
  match name.toList with
  | '-' :: '0' :: 'x' :: digits => (Text.ofHexDigits? digits).map fun n => -(n : Int)
  | '0' :: 'x' :: digits => (Text.ofHexDigits? digits).map fun n => (n : Int)
  | _ => none

def symbolNode (loc : Loc) (name : String) : Node :=
  if name = "true" then .literal (.truth true) loc
  else if name = "false" then .literal (.truth false) loc
  else match hexSymbol? name with
    | some n => .literal (.integer n) loc
    | none => .identifier name loc

mutual

def expression (file : String) (here : Loc) : Sexp → Except Fault Node
  | .list start (head :: args) => do
      let name ← symbolName "a form name" head
      let args ← expressions file (start.loc file) args
      return .call name args (start.loc file)
  | .symbol name => .ok (symbolNode here name)
  | .integer value => .ok (.literal (.integer value) here)
  | .text value => .ok (.literal (.text value) here)
  | .list start [] => .error (Unreadable.notAForm (.list start [])).fault
  | found => .error ((Unreadable.notAnExpression found).located here)

def expressions (file : String) (here : Loc) : List Sexp → Except Fault (List Node)
  | [] => .ok []
  | item :: rest => do
      let node ← expression file here item
      let nodes ← expressions file here rest
      return node :: nodes

end

/-- The signature clauses at the start of a function's body. A later clause
of one kind replaces an earlier one. -/
structure Signature where
  params : List String := []
  returns : List String := []
  /-- How many items the clauses take up. -/
  clauses : Nat := 0

def signature (found : Signature) : List Sexp → Except Fault Signature
  | .list _ (.symbol head :: names) :: rest =>
      if head = "params" then do
        let params ← symbolNames "a parameter name" names
        signature { found with params, clauses := found.clauses + 1 } rest
      else if head = "returns" then do
        let returns ← symbolNames "a parameter name" names
        signature { found with returns, clauses := found.clauses + 1 } rest
      else .ok found
  | _ => .ok found

def bare (head : String) (node : Loc → Node) (here : Loc) (args : List Sexp) : Except Fault Node :=
  if args.isEmpty then .ok (node here)
  else .error ((Unreadable.operandsAfter head).located here)

def declaration (file : String) (here : Loc) : List Sexp → Except Fault Node
  | [names] => do
      return .declaration (← variableNames names) none here
  | [names, value] => do
      let names ← variableNames names
      let value ← expression file here value
      return .declaration names (some value) here
  | _ => .error (Unreadable.declarationShape.located here)

def assignment (file : String) (here : Loc) : List Sexp → Except Fault Node
  | [names, value] => do
      let names ← variableNames names
      let value ← expression file here value
      return .assignment names value here
  | _ => .error (Unreadable.assignmentShape.located here)

def expressionStatement (file : String) (here : Loc) : List Sexp → Except Fault Node
  | [value] => do
      return .expression (← expression file here value) here
  | _ => .error (Unreadable.expressionShape.located here)

def armValue (file : String) (here : Loc) (item : Sexp) : Except Fault Node := do
  match ← expression file here item with
  | .literal value loc => return .literal value loc
  | _ => .error (Unreadable.armValueNotLiteral.located here)

def loopHeads (here : Loc) (init post : Sexp) : Except Fault Unit := do
  if (← formHead init) = "init" then
    if (← formHead post) = "post" then
      return ()
  .error (Unreadable.loopClauses.located here)

mutual

def statement (file : String) : Sexp → Except Fault Node
  | .list start (.symbol head :: args) =>
      let here := start.loc file
      match head with
      | "function" =>
          match args with
          | [] => .error (Unreadable.functionWithoutName.located here)
          | name :: rest => do
              let name ← symbolName "a function name" name
              let s ← signature {} rest
              let body ← statements file s.clauses rest
              return .function name s.params s.returns (.block body here) here
      | "let" => declaration file here args
      | "set" => assignment file here args
      | "expr" => expressionStatement file here args
      | "if" =>
          match args with
          | [] => .error (Unreadable.branchWithoutCondition.located here)
          | condition :: rest => do
              let condition ← expression file here condition
              let body ← statements file 0 rest
              return .branch condition (.block body here) here
      | "switch" =>
          match args with
          | [] => .error (Unreadable.switchWithoutSelector.located here)
          | selector :: clauses => do
              let selector ← expression file here selector
              let (arms, fallback) ← switchClauses file here none clauses
              return .switch selector arms fallback here
      | "for" =>
          match args with
          | init :: condition :: post :: rest => do
              loopHeads here init post
              let init ← clauseBody file init
              let condition ← expression file here condition
              let post ← clauseBody file post
              let body ← statements file 0 rest
              return .loop (.block init here) condition (.block post here) (.block body here) here
          | _ => .error (Unreadable.loopShape.located here)
      | "block" => do
          return .block (← statements file 0 args) here
      | "break" => bare head .breakOut here args
      | "continue" => bare head .continueOn here args
      | "leave" => bare head .leave here args
      | _ => .error ((Unreadable.unknownStatement head).located here)
  | .list _ (head :: _) => .error (Unreadable.notAName "a form name" head).fault
  | found => .error (Unreadable.notAForm found).fault

/-- The statements after the first `skip` items. -/
def statements (file : String) : Nat → List Sexp → Except Fault (List Node)
  | _, [] => .ok []
  | skip + 1, _ :: rest => statements file skip rest
  | 0, item :: rest => do
      let node ← statement file item
      let nodes ← statements file 0 rest
      return node :: nodes

def clauseBody (file : String) : Sexp → Except Fault (List Node)
  | .list _ (_ :: items) => statements file 0 items
  | _ => .ok []

/-- The clauses of a switch, given the default body read so far. -/
def switchClauses (file : String) (here : Loc) (fallback : Option Node) :
    List Sexp → Except Fault (List Node × Option Node)
  | [] => .ok ([], fallback)
  | .list start (.symbol head :: items) :: rest =>
      if head = "case" then
        match items with
        | [] => .error (Unreadable.armWithoutValue.located here)
        | value :: body => do
            let value ← armValue file here value
            let body ← statements file 0 body
            let loc := start.loc file
            let (arms, fallback) ← switchClauses file here fallback rest
            return (.caseArm value (.block body loc) loc :: arms, fallback)
      else if head = "default" then
        if fallback.isSome then .error (Unreadable.secondDefault.located here)
        else do
          let body ← statements file 0 items
          switchClauses file here (some (.block body here)) rest
      else .error ((Unreadable.unexpectedClause head).located here)
  | .list _ (head :: _) :: _ => .error (Unreadable.notAName "a form name" head).fault
  | found :: _ => .error (Unreadable.notAForm found).fault

end

def forms (text : String) : Except Fault (List Sexp) :=
  match readForms text.toList with
  | .ok items => .ok (locateAll (openings text.toList) items).1
  | .error reason => .error (Unreadable.text reason).fault

end Reader

def Node.ofText? (file text : String) : Except Fault Node := do
  let items ← Reader.forms text
  let nodes ← Reader.statements file 0 items
  return .program file nodes ⟨file, 0, 0⟩

def Node.expressionOfText? (text : String) : Except Fault Node := do
  match ← Reader.forms text with
  | [item] => Reader.expression "<string>" ⟨"<string>", 0, 0⟩ item
  | _ => .error Unreadable.notOneExpression.fault

end YulTaint
