import YulTaint.Builtin.Effect
import YulTaint.Flow.Definition

/-!
Constant propagation. The value of a variable is the join of all its
definitions, whatever the order in which they run. Rounds over the
definitions raise values until nothing changes; a value rises at most twice,
so the number of rounds is bounded by the definitions.
-/

namespace YulTaint

/-- What is known of a variable: nothing yet, one constant, or several
values. -/
inductive Knowledge where
  | undefined
  | constant (value : Int)
  | varying
deriving DecidableEq, Repr

def Knowledge.join : Knowledge → Knowledge → Knowledge
  | .undefined, b => b
  | a, .undefined => a
  | .constant a, .constant b => if a = b then .constant a else .varying
  | _, _ => .varying

def Knowledge.ofOption : Option Int → Knowledge
  | some value => .constant value
  | none => .varying

def Knowledge.value? : Knowledge → Option Int
  | .constant value => some value
  | _ => none

namespace Constant

/-- The knowledge of each variable with a definition. -/
abbrev Assignment := List (NodeId × Knowledge)

def Assignment.get (a : Assignment) (id : NodeId) : Knowledge :=
  (a.lookup id).getD .varying

def Assignment.set (a : Assignment) (id : NodeId) (k : Knowledge) : Assignment :=
  a.map fun (other, old) => if other = id then (other, k) else (other, old)

def constants? (operands : List Knowledge) : Option (List Int) :=
  operands.mapM Knowledge.value?

/-- The value of an application. It varies as soon as an operand does, and is
undefined as long as an operand is. -/
def applied (name : String) (operands : List Knowledge) : Knowledge :=
  if operands.contains .varying then .varying
  else match constants? operands with
    | some values => .ofOption (Builtin.effectFor name (values.map some)).constant
    | none => .undefined

def transfer (a : Assignment) : Definition → Knowledge
  | .constant _ value => .constant value
  | .copy _ source => a.get source
  | .application _ name operands => applied name (operands.map a.get)
  | .arbitrary _ => .varying

def raise (a : Assignment) (d : Definition) : Assignment :=
  a.set d.target ((a.get d.target).join (transfer a d))

def round (definitions : List Definition) (a : Assignment) : Assignment :=
  definitions.foldl raise a

/-- Rounds until one changes nothing, but at most `bound` of them. -/
def rounds (definitions : List Definition) : Nat → Assignment → Assignment
  | 0, a => a
  | bound + 1, a =>
      let next := round definitions a
      if next = a then a else rounds definitions bound next

/-- Every defined variable once, with nothing known. -/
def start (definitions : List Definition) : Assignment :=
  ((definitions.map (·.target)).eraseDups).map (·, .undefined)

def solve (definitions : List Definition) : Assignment :=
  rounds definitions (2 * definitions.length + 1) (start definitions)

end Constant

end YulTaint
