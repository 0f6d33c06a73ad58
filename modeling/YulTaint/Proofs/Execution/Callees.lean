import Mathlib.Tactic
import YulTaint.Proofs.CallGraph.Outcome
import YulTaint.Proofs.Execution.Hoisting

/-!
The graph of a program resolves its calls lexically. There is a scope for the
top-level code and one for each function definition of the text, in the order in
which the functions have their turns, and scopes have names of their own whatever
the functions are called. A call that refers to a function has one call site, in
the scope of the code that it stands in, and the site leads to the scope of that
function. All other calls are applications of builtins.
-/

namespace YulTaint.Execution

open YulTaint.Flow

theorem isWellFormed_of_collect {program : Node} {g : Graph} (h : collect program = .ok g) :
    program.IsWellFormed := by
  obtain ⟨rs, s, hwalk, _⟩ := collect_eq_ok h
  exact isWellFormed_of_walkProgram hwalk

/-- The scopes of a graph go with the functions of a text in their order. -/
def callees (order : List Lexical.Pending) (names : List String) : Scopes :=
  (order.map (·.entry.place)).zip names

end YulTaint.Execution
