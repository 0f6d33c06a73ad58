import YulTaint.Builtin.Table
import YulTaint.Program.Node

/-!
Which trees are well-formed programs. Every place of a program sees functions and
variables. The functions of a block are seen in all of it and in everything
nested in it, the bodies of functions included; a variable is seen from its
declaration on to the end of the block, but in no other function. What is said
here looks at the tree alone.
-/

namespace YulTaint

/-- Does a literal denote a word? Negative integers wrap around. -/
def Literal.Fits : Literal → Prop
  | .truth _ => True
  | .integer value => value < wordSpan
  | .text value => value.toUTF8.toList.length ≤ 32

/-- A function, as those who may call it see it. -/
structure Signature where
  name : String
  params : Nat
  returns : Nat

/-- What a place of a program sees, and whether it stands in a loop and in a
function. -/
structure Sight where
  functions : List Signature := []
  locals : List String := []
  inLoop : Bool := false
  inFunction : Bool := false

namespace Sight

/-- A name that can be declared: neither a variable nor a function that is seen,
nor a builtin. -/
structure IsFree (v : Sight) (name : String) : Prop where
  isNoVariable : name ∉ v.locals
  isNoFunction : ∀ f ∈ v.functions, f.name ≠ name
  isNoBuiltin : Builtin.lookup? name = none

/-- The numbers of arguments and results with which a name can be called. A name
that is neither a function nor a builtin takes any. -/
structure Admits (v : Sight) (name : String) (arguments results : Nat) : Prop where
  function : ∀ f ∈ v.functions, f.name = name → f.params = arguments ∧ f.returns = results
  builtin : ∀ b, Builtin.lookup? name = some b → b.arity = arguments ∧ b.returns = results

def declaring (v : Sight) (names : List String) : Sight :=
  { v with locals := names ++ v.locals }

def defining (v : Sight) (functions : List Signature) : Sight :=
  { v with functions := functions ++ v.functions }

def looping (v : Sight) : Sight :=
  { v with inLoop := true }

def inside (v : Sight) (names : List String) : Sight :=
  { functions := v.functions, locals := names, inFunction := true }

mutual

def IsOperand (v : Sight) : Node → Prop
  | .literal value _ => value.Fits
  | .identifier name _ => name ∈ v.locals
  | .call name args _ => v.Admits name args.length 1 ∧ v.AreOperands args
  | _ => False

def AreOperands (v : Sight) : List Node → Prop
  | [] => True
  | e :: rest => v.IsOperand e ∧ v.AreOperands rest

end

/-- An expression with a number of values. Only a call has more or less than one. -/
def Gives (v : Sight) (count : Nat) : Node → Prop
  | .call name args _ => v.Admits name args.length count ∧ v.AreOperands args
  | value => count = 1 ∧ v.IsOperand value

end Sight

def signatures : List Node → List Signature
  | [] => []
  | .function name params returns _ _ :: rest =>
    { name, params := params.length, returns := returns.length } :: signatures rest
  | _ :: rest => signatures rest

def Node.IsCall : Node → Prop
  | .call .. => True
  | _ => False

def Node.IsFunction : Node → Prop
  | .function .. => True
  | _ => False

def Node.declares : Node → List String
  | .declaration names _ _ => names
  | _ => []

def Node.items : Node → List Node
  | .block items _ | .program _ items _ => items
  | _ => []

/-- The word of a case, if its value is a literal that denotes one. -/
def Node.word? : Node → Option Nat
  | .caseArm (.literal value _) _ _ => value.word?.toOption
  | _ => none

/-- The cases of a switch have words, and no two the same. -/
def HaveDistinctWords (arms : List Node) : Prop :=
  ∃ words : List Nat, arms.map Node.word? = words.map some ∧ words.Nodup

namespace Sight

structure Introduces (v : Sight) (fs : List Signature) : Prop where
  distinct : (fs.map (·.name)).Nodup
  unseen : ∀ f ∈ fs, ∀ other ∈ v.functions, other.name ≠ f.name
  isNoBuiltin : ∀ f ∈ fs, Builtin.lookup? f.name = none

mutual

def IsStatement (v : Sight) : Node → Prop
  | .declaration names value _ =>
    names ≠ [] ∧ names.Nodup ∧ (∀ name ∈ names, v.IsFree name) ∧
      ∀ e ∈ value, v.Gives names.length e
  | .assignment names value _ =>
    names ≠ [] ∧ names.Nodup ∧ (∀ name ∈ names, name ∈ v.locals) ∧
      v.Gives names.length value
  | .expression value _ => v.Gives 0 value
  | .branch condition body _ => v.IsOperand condition ∧ v.IsBlock body
  | .switch selector arms fallback _ =>
    (arms ≠ [] ∨ fallback ≠ none) ∧ v.IsOperand selector ∧ HaveDistinctWords arms ∧
      v.AreArms arms ∧ v.IsFallback fallback
  | .loop init condition post body _ =>
    v.IsInit init ∧ (v.declaring (init.items.flatMap Node.declares)).IsOperand condition ∧
      (v.declaring (init.items.flatMap Node.declares)).looping.IsBlock body ∧
      (v.declaring (init.items.flatMap Node.declares)).looping.IsBlock post
  | .block items _ =>
    v.Introduces (signatures items) ∧ (v.defining (signatures items)).AreStatements items
  | .function _ params returns body _ =>
    (params ++ returns).Nodup ∧ (∀ name ∈ params ++ returns, (v.inside []).IsFree name) ∧
      (v.inside (params ++ returns)).IsBlock body
  | .breakOut _ | .continueOn _ => v.inLoop = true
  | .leave _ => v.inFunction = true
  | _ => False

def AreStatements (v : Sight) : List Node → Prop
  | [] => True
  | item :: rest => v.IsStatement item ∧ (v.declaring item.declares).AreStatements rest

def IsBlock (v : Sight) : Node → Prop
  | .block items _ =>
    v.Introduces (signatures items) ∧ (v.defining (signatures items)).AreStatements items
  | _ => False

/-- A loop starts with statements, and it does not matter whether they stand in a
block or in a program. -/
def IsInit (v : Sight) : Node → Prop
  | .block items _ | .program _ items _ =>
    v.Introduces (signatures items) ∧ (v.defining (signatures items)).AreStatements items
  | _ => False

def AreArms (v : Sight) : List Node → Prop
  | [] => True
  | .caseArm _ body _ :: rest => v.IsBlock body ∧ v.AreArms rest
  | _ => False

def IsFallback (v : Sight) : Option Node → Prop
  | none => True
  | some body => v.IsBlock body

end

def IsScope (v : Sight) (items : List Node) : Prop :=
  v.Introduces (signatures items) ∧ (v.defining (signatures items)).AreStatements items

end Sight

def Node.IsWellFormed : Node → Prop
  | .program _ items _ => Sight.IsScope {} items
  | _ => False

theorem Sight.Introduces.nodup {v : Sight} {fs : List Signature} (h : v.Introduces fs)
    (hv : (v.functions.map (·.name)).Nodup) : ((fs ++ v.functions).map (·.name)).Nodup := by
  rw [List.map_append, List.nodup_append]
  refine ⟨h.distinct, hv, fun name hnew name' hold heq => ?_⟩
  obtain ⟨f, hf, rfl⟩ := List.mem_map.mp hnew
  obtain ⟨other, hother, rfl⟩ := List.mem_map.mp hold
  exact h.unseen f hf other hother heq.symm

end YulTaint
