import YulTaint.Builtin.Table
import YulTaint.Fault

/-!
What one application of a builtin does, given which of its operands are
constant. A name that is no builtin is taken for a function that mixes all
its operands, and for a source unless they are all constant.
-/

namespace YulTaint

structure Effect where
  name : String
  /-- Operand values flow into the application's value. -/
  taints : Bool
  /-- The value comes from outside the program. -/
  source : Bool
  constant : Option Int := none
  addresses : List Nat := []
  reads : List MemoryAccess := []
  writes : List MemoryAccess := []
  known : Bool := true

def allConstant? (operands : List (Option Int)) : Option (List Int) :=
  operands.mapM id

/-- Why an application has no effect: the number of operands is wrong, or the
value is undefined. -/
inductive Inapplicable where
  | fault (fault : Fault)
  | undefined (reason : Word.Undefined)

namespace Builtin

/-- The folded value of an application; none unless all operands are constant.
A builtin that reads memory has none. -/
def folded (b : Builtin) (operands : List (Option Int)) : Except Word.Undefined (Option Int) :=
  match allConstant? operands, b.fold? with
  | some values, some fold => if b.reads.isEmpty then fold.eval values else .ok none
  | _, _ => .ok none

def effectWith (b : Builtin) (operands : List (Option Int)) (constant : Option Int) : Effect :=
  { name := b.name
    taints := b.propagates && (allConstant? operands).isNone
    source := b.kind = .source
    constant
    addresses := b.addresses
    reads := b.reads
    writes := b.writes }

def unknownEffect (name : String) (operands : List (Option Int)) : Effect :=
  { name, taints := true, source := (allConstant? operands).isNone, known := false }

/-- The effect of an application with as many operands as the builtin takes.
An undefined value is no constant; on words every value is defined. -/
def effectFor (name : String) (operands : List (Option Int)) : Effect :=
  match lookup? name with
  | some b => b.effectWith operands (b.folded operands).toOption.join
  | none => unknownEffect name operands

/-- The effect of an application, if the number of operands is right and the
value is defined. -/
def resolve (name : String) (operands : List (Option Int)) : Except Inapplicable Effect :=
  match lookup? name with
  | some b =>
      if b.arity = operands.length then
        match b.folded operands with
        | .ok constant => .ok (b.effectWith operands constant)
        | .error reason => .error (.undefined reason)
      else
        .error (.fault { cause := .arityMismatch name "arguments" b.arity operands.length })
  | none => .ok (unknownEffect name operands)

end Builtin

end YulTaint
