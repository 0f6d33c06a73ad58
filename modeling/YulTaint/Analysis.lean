import YulTaint.Flow.Collect
import YulTaint.Program.Reader
import YulTaint.Violation

/-!
A whole run: collect the flow graph, resolve the calls, propagate taint and
check the storage addresses. A fault of the program ends the run and becomes
its result; the phases entered are kept as a trace. Whatever is missing ends the
run without a result.
-/

namespace YulTaint

inductive Phase where
  | collecting
  | resolving
  | propagating
  | checking
  | clean
  | violations
  | fatal
deriving DecidableEq, Repr

def Phase.render : Phase → String
  | .collecting => "collecting"
  | .resolving => "resolving"
  | .propagating => "propagating"
  | .checking => "checking"
  | .clean => "clean"
  | .violations => "violations"
  | .fatal => "fatal"

inductive Status where
  | clean
  | violations
  | fatal
deriving DecidableEq, Repr

def Status.render : Status → String
  | .clean => "clean"
  | .violations => "violations"
  | .fatal => "fatal"

inductive Notice where
  | undefinedFunction (name : String)
  | aborted (fault : Fault)

def Notice.message : Notice → String
  | .undefinedFunction name => s!"tainted function {name} is not defined"
  | .aborted fault => s!"analysis aborted: {fault.render}"

structure Result where
  status : Status
  violations : List Violation := []
  fault : Option Fault := none
  phases : List Phase := []
  graph : Option Graph := none
  taint : Option Taint := none
  embeddings : List Embedding := []
  notices : List Notice := []

def Result.isClean (r : Result) : Bool :=
  r.status = .clean

def Result.isFatal (r : Result) : Bool :=
  r.status = .fatal

namespace Analysis

def aborted (phases : List Phase) (graph : Option Graph) (embeddings : List Embedding)
    (notices : List Notice) (fault : Fault) : Result :=
  { status := .fatal
    fault := some fault
    phases := phases ++ [.fatal]
    graph
    embeddings
    notices := notices ++ [.aborted fault] }

/-- Resolve sites one by one, at most `bound` of them; the number of steps
begun. -/
def resolveCalls : Nat → Nat → EStateM (Failure × Nat) Resolver Nat
  | 0, begun => return begun
  | bound + 1, begun => fun r =>
      if Resolver.isDone r.graph then .ok begun r
      else
        match Resolver.step r with
        | .ok _ r => resolveCalls bound (begun + 1) r
        | .error failure r => .error (failure, begun + 1) r

def sourceNotices (c : TaintConfig) (g : Graph) : List Notice :=
  (c.undefinedFunctions g).map .undefinedFunction

def judge (c : TaintConfig) (phases : List Phase) (r : Resolver) : Except Missing Result :=
  let phases := phases ++ [.propagating]
  let notices := sourceNotices c r.graph
  match Taint.propagate c r.graph with
  | .error (.missing what) _ => .error what
  | .error (.fault fault) g => .ok (aborted phases (some g) r.embeddings notices fault)
  | .ok taint g => do
      let violations ← Violation.check c g (some taint)
      let status : Status := if violations.isEmpty then .clean else .violations
      let last : Phase := if violations.isEmpty then .clean else .violations
      return {
        status
        violations
        phases := phases ++ [.checking, last]
        graph := some g
        taint := some taint
        embeddings := r.embeddings
        notices }

def run (c : TaintConfig) (program : Node) : Except Missing Result :=
  match Flow.collect program with
  | .error (.missing what) => .error what
  | .error (.fault fault) => .ok (aborted [.collecting] none [] [] fault)
  | .ok g =>
      let trace (steps : Nat) : List Phase := .collecting :: List.replicate steps .resolving
      match resolveCalls (Resolver.pending g).length 0 { graph := g } with
      | .ok steps r => judge c (trace steps) r
      | .error (.missing what, _) _ => .error what
      | .error (.fault fault, steps) r =>
          .ok (aborted (trace steps) (some r.graph) r.embeddings [] fault)

/-- Analyse a program given as text. A text that cannot be read ends the run
before its first phase. -/
def runText (c : TaintConfig) (text : String) : Except Missing Result :=
  match Node.ofText? "<string>" text with
  | .ok program => run c program
  | .error fault => .ok (aborted [] none [] [] fault)

end Analysis

end YulTaint
