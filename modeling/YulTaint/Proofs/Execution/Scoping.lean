import Mathlib.Tactic
import YulTaint.Proofs.Execution.Code
import YulTaint.Proofs.Lists

/-!
The code of a program reads a variable only where it has a value: as a parameter
or return variable, or because it was declared with a value before. A name that
is not bound would be numbered as node 0, which is no variable; this is the one
other node that code may read.
-/

namespace YulTaint.Execution

open YulTaint.Flow (PendingFunction Variables)

mutual

def Term.Reads (known : NodeId → Prop) : Term → Prop
  | .literal _ _ => True
  | .read id => known id
  | .apply _ _ args | .call _ _ args _ => Term.ReadsAll known args

def Term.ReadsAll (known : NodeId → Prop) : List Term → Prop
  | [] => True
  | t :: rest => t.Reads known ∧ Term.ReadsAll known rest

end

def Code.assigned : Code → List NodeId
  | .seq first second => first.assigned ++ second.assigned
  | .constant targets _ | .copy targets _ | .scatter _ targets | .call _ _ targets _ => targets
  | .compute target _ _ => [target]
  | .loop init _ _ _ _ => init.assigned
  | _ => []

mutual

def Code.Reads (known : NodeId → Prop) : Code → Prop
  | .seq first second =>
    first.Reads known ∧ second.Reads fun id => known id ∨ id ∈ first.assigned
  | .copy _ source => known source
  | .compute _ _ args | .call _ args _ _ => Term.ReadsAll known args
  | .scatter value _ => value.Reads known
  | .branch condition _ body => condition.Reads known ∧ body.Reads known
  | .switch selector cases => selector.Reads known ∧ cases.Reads known
  | .loop init condition _ body post =>
    init.Reads known ∧ condition.Reads (fun id => known id ∨ id ∈ init.assigned) ∧
      body.Reads (fun id => known id ∨ id ∈ init.assigned) ∧
      post.Reads fun id => known id ∨ id ∈ init.assigned
  | _ => True

def Cases.Reads (known : NodeId → Prop) : Cases → Prop
  | .nil => True
  | .fallback _ body => body.Reads known
  | .cons _ _ body rest => body.Reads known ∧ rest.Reads known

end

namespace Label

variable {α β : Type}

/-- Whatever the numbers, the result has a property. -/
def Yields (m : Label α) (P : α → Prop) : Prop :=
  ∀ n, P (m n).1

theorem Yields.bind {m : Label α} {f : α → Label β} {P : α → Prop} {Q : β → Prop}
    (hm : m.Yields P) (hf : ∀ a, P a → (f a).Yields Q) : (m >>= f).Yields Q :=
  fun n => hf _ (hm n) _

theorem yields_pure {a : α} {P : α → Prop} (h : P a) : (pure a : Label α).Yields P :=
  fun _ => h

theorem yields_any (m : Label α) : m.Yields fun _ => True :=
  fun _ => trivial

/-- All visible variables are known, and so is the node of unbound names. -/
structure Binds (known : NodeId → Prop) (vars : Variables) : Prop where
  unbound : known 0
  bound : ∀ entry ∈ vars, known entry.2

variable {env : Surroundings} {vars : Variables} {known : NodeId → Prop}

theorem Binds.variableOf (h : Binds known vars) (name : String) : known (variableOf vars name) := by
  unfold Execution.variableOf
  cases hlookup : vars.lookup name with
  | none => exact h.unbound
  | some id => exact h.bound _ (mem_of_lookup_eq_some hlookup)

mutual

/-- An expression reads visible variables only. -/
theorem yields_term (h : Binds known vars) (e : Node) :
    (term env vars e).Yields (Term.Reads known) := by
  cases e with
  | literal value loc => exact (yields_any fresh).bind fun _ _ => yields_pure trivial
  | identifier name loc => exact yields_pure (h.variableOf name)
  | call name args loc =>
    rw [term]
    refine (yields_terms h args).bind fun terms hterms => (yields_any fresh).bind fun _ _ => ?_
    cases env.function? name with
    | some entry => exact yields_pure hterms
    | none => exact yields_pure hterms
  | _ => exact yields_pure h.unbound

theorem yields_terms (h : Binds known vars) (es : List Node) :
    (terms env vars es).Yields (Term.ReadsAll known) := by
  cases es with
  | nil => exact yields_pure trivial
  | cons e rest =>
    rw [terms]
    exact (yields_term h e).bind fun _ hfirst => (yields_terms h rest).bind fun _ hothers =>
      yields_pure ⟨hfirst, hothers⟩

end

def Assigns (known : NodeId → Prop) (targets : List NodeId) (code : Code) : Prop :=
  code.Reads known ∧ targets ⊆ code.assigned

theorem yields_callInto (h : Binds known vars) (targets : List NodeId) (name : String)
    (args : List Node) (loc : Loc) :
    (callInto env vars targets name args loc).Yields (Assigns known targets) := by
  rw [callInto]
  refine (yields_terms h args).bind fun terms hterms => ?_
  cases env.function? name with
  | some entry => exact yields_pure ⟨hterms, List.Subset.refl _⟩
  | none =>
    match targets with
    | [target] => exact yields_pure ⟨hterms, List.Subset.refl _⟩
    | [] => exact (yields_any fresh).bind fun _ _ => yields_pure ⟨hterms, List.Subset.refl _⟩
    | _ :: _ :: _ =>
      exact (yields_any fresh).bind fun _ _ => yields_pure ⟨hterms, List.Subset.refl _⟩

theorem yields_assign (h : Binds known vars) (targets : List NodeId) (value : Node) :
    (assign env vars targets value).Yields (Assigns known targets) := by
  cases value with
  | call name args loc => exact yields_callInto h targets name args loc
  | literal value loc => exact yields_pure ⟨trivial, List.Subset.refl _⟩
  | identifier name loc => exact yields_pure ⟨h.variableOf name, List.Subset.refl _⟩
  | _ => exact yields_pure ⟨trivial, List.Subset.refl _⟩

/-- The variables visible afterwards were visible before or are new. -/
theorem yields_declare (names : List String) (vars : Variables) :
    (declare vars names).Yields fun r => ∀ entry ∈ r.1, entry ∈ vars ∨ entry.2 ∈ r.2 := by
  induction names generalizing vars with
  | nil => exact yields_pure fun _ hentry => Or.inl hentry
  | cons name rest ih =>
    rw [declare]
    refine (yields_any fresh).bind fun id _ => (ih ((name, id) :: vars)).bind fun r hr => ?_
    refine yields_pure fun entry hentry => ?_
    rcases hr entry hentry with hold | hnew
    · rcases List.mem_cons.mp hold with rfl | hold
      · exact Or.inr List.mem_cons_self
      · exact Or.inl hold
    · exact Or.inr (List.mem_cons_of_mem _ hnew)

def Leaves (known : NodeId → Prop) (r : Code × Variables) : Prop :=
  r.1.Reads known ∧ Binds (fun id => known id ∨ id ∈ r.1.assigned) r.2

theorem Binds.leaves (h : Binds known vars) {code : Code} (hcode : code.Reads known) :
    Leaves known (code, vars) :=
  ⟨hcode, Or.inl h.unbound, fun entry hentry => Or.inl (h.bound entry hentry)⟩

theorem yields_declaration (h : Binds known vars) (names : List String) (value : Option Node)
    (loc : Loc) : (statement env vars (.declaration names value loc)).Yields (Leaves known) := by
  rw [statement]
  refine (yields_declare names vars).bind fun r hr => ?_
  -- the new variables are the targets of the code that follows
  have hafter {code : Code} (hcode : Assigns known r.2 code) :
      Leaves known (.seq (.declare r.2) code, r.1) := by
    refine ⟨⟨trivial, ?_⟩, Or.inl h.unbound, fun entry hentry => ?_⟩
    · simpa [Code.assigned] using hcode.1
    · rcases hr entry hentry with hold | hnew
      · exact Or.inl (h.bound entry hold)
      · exact Or.inr (List.mem_append_right _ (hcode.2 hnew))
  cases value with
  | none => exact yields_pure (hafter ⟨trivial, List.Subset.refl _⟩)
  | some value =>
    exact (yields_assign h r.2 value).bind fun _ hcode => yields_pure (hafter hcode)

mutual

/-- A statement reads what is known before it and leaves its own variables known. -/
theorem yields_statement (item : Node) {env : Surroundings} {vars : Variables}
    {known : NodeId → Prop} (h : Binds known vars) :
    (statement env vars item).Yields (Leaves known) := by
  cases item with
  | declaration names value loc => exact yields_declaration h names value loc
  | assignment names value loc =>
    rw [statement]
    exact (yields_assign h _ value).bind fun _ hcode => yields_pure (h.leaves hcode.1)
  | expression value loc =>
    rw [statement]
    exact (yields_assign h [] value).bind fun _ hcode => yields_pure (h.leaves hcode.1)
  | branch condition body loc =>
    rw [statement]
    exact (yields_term h condition).bind fun _ hcondition => (yields_any fresh).bind fun _ _ =>
      (yields_governed body h).bind fun _ hbody => yields_pure (h.leaves ⟨hcondition, hbody⟩)
  | switch selector arms fallback loc =>
    rw [statement]
    exact (yields_term h selector).bind fun _ hselector =>
      (yields_switchArms arms h (yields_switchFallback fallback h)).bind fun _ hcases =>
        yields_pure (h.leaves ⟨hselector, hcases⟩)
  | loop init condition post body loc =>
    rw [statement]
    refine (yields_loopInit init h).bind fun r hinit => ?_
    exact (yields_term hinit.2 condition).bind fun _ hcondition =>
      (yields_any fresh).bind fun _ _ => (yields_governed body hinit.2).bind fun _ hbody =>
        (yields_governed post hinit.2).bind fun _ hpost =>
          yields_pure (h.leaves ⟨hinit.1, hcondition, hbody, hpost⟩)
  | block items loc =>
    rw [statement]
    exact (yields_any _).bind fun _ _ => (yields_statements items h).bind fun _ hcode =>
      yields_pure (h.leaves hcode.1)
  | _ => exact yields_pure (h.leaves trivial)

theorem yields_statements (items : List Node) {env : Surroundings} {vars : Variables}
    {known : NodeId → Prop} (h : Binds known vars) :
    (statements env vars items).Yields (Leaves known) := by
  cases items with
  | nil => exact yields_pure (h.leaves trivial)
  | cons item rest =>
    rw [statements]
    refine (yields_statement item h).bind fun first hfirst =>
      (yields_statements rest hfirst.2).bind fun others hothers => yields_pure ?_
    refine ⟨⟨hfirst.1, hothers.1⟩, Or.inl h.unbound, fun entry hentry => ?_⟩
    rcases hothers.2.bound entry hentry with (hknown | hassigned) | hassigned
    · exact Or.inl hknown
    · exact Or.inr (List.mem_append_left _ hassigned)
    · exact Or.inr (List.mem_append_right _ hassigned)

theorem yields_governed (body : Node) {env : Surroundings} {vars : Variables}
    {known : NodeId → Prop} (h : Binds known vars) :
    (governed env vars body).Yields (Code.Reads known) := by
  cases body with
  | block items loc =>
    rw [governed]
    exact (yields_any _).bind fun _ _ => (yields_statements items h).bind fun _ hcode =>
      yields_pure hcode.1
  | _ => exact yields_pure trivial

theorem yields_loopInit (init : Node) {env : Surroundings} {vars : Variables}
    {known : NodeId → Prop} (h : Binds known vars) :
    (loopInit env vars init).Yields (Leaves known) := by
  cases init with
  | block items loc | program name items loc =>
    rw [loopInit]
    exact (yields_any _).bind fun _ _ => yields_statements items h
  | _ => exact yields_pure (h.leaves trivial)

theorem yields_switchArms (arms : List Node) {env : Surroundings} {vars : Variables}
    {known : NodeId → Prop} (h : Binds known vars) {last : Label Cases}
    (hlast : last.Yields (Cases.Reads known)) :
    (switchArms env vars last arms).Yields (Cases.Reads known) := by
  cases arms with
  | nil => exact hlast
  | cons arm rest =>
    have hothers : (switchArms env vars last rest).Yields (Cases.Reads known) :=
      yields_switchArms rest h hlast
    cases arm with
    | caseArm value body loc =>
      rw [switchArms]
      exact (yields_any fresh).bind fun _ _ => (yields_governed body h).bind fun _ hbody =>
        hothers.bind fun _ hrest => yields_pure ⟨hbody, hrest⟩
    | _ => exact hothers

theorem yields_switchFallback (fallback : Option Node) {env : Surroundings} {vars : Variables}
    {known : NodeId → Prop} (h : Binds known vars) :
    (switchFallback env vars fallback).Yields (Cases.Reads known) := by
  cases fallback with
  | none => exact yields_pure trivial
  | some body =>
    rw [switchFallback]
    exact (yields_any fresh).bind fun _ _ => (yields_governed body h).bind fun _ hbody =>
      yields_pure hbody

end

end Label

def Function.Knows (f : Function) (id : NodeId) : Prop :=
  id = 0 ∨ id ∈ f.params ∨ id ∈ f.returns

namespace Label

/-- The body of a function reads the function's own variables only. -/
theorem yields_function (f : PendingFunction) :
    (function f).Yields fun code => code.body.Reads code.Knows := by
  rw [function]
  refine (yields_any fresh).bind fun root _ => (yields_declare f.entry.params []).bind fun p hp =>
    (yields_declare f.entry.returns p.1).bind fun r hr => ?_
  have hbinds : Binds (fun id => id = 0 ∨ id ∈ p.2 ∨ id ∈ r.2) r.1 := by
    refine ⟨Or.inl rfl, fun entry hentry => Or.inr ?_⟩
    rcases hr entry hentry with hparam | hreturn
    · rcases hp entry hparam with hnone | hparam
      · cases hnone
      · exact Or.inl hparam
    · exact Or.inr hreturn
  exact (yields_governed f.entry.body hbinds).bind fun _ hbody => yields_pure hbody

theorem yields_main (items : List Node) :
    (main items).Yields fun code => code.body.Reads code.Knows := by
  have hbinds : Binds (fun id => id = 0 ∨ id ∈ [] ∨ id ∈ []) [] :=
    ⟨Or.inl rfl, fun _ h => nomatch h⟩
  rw [main]
  exact (yields_any fresh).bind fun _ _ => (yields_any _).bind fun _ _ =>
    (yields_statements items hbinds).bind fun _ hcode => yields_pure hcode.1

theorem yields_pending (bound : Nat) :
    (pending bound).Yields fun codes => ∀ code ∈ codes, code.body.Reads code.Knows := by
  induction bound with
  | zero => exact yields_pure fun _ h => nomatch h
  | succ bound ih =>
    rw [pending]
    refine (yields_any _).bind fun n _ => ?_
    cases n.queue with
    | nil => exact yields_pure fun _ h => nomatch h
    | cons f rest =>
      refine (yields_any _).bind fun _ _ => (yields_function f).bind fun first hfirst =>
        ih.bind fun others hothers => yields_pure ?_
      exact List.forall_mem_cons.mpr ⟨hfirst, hothers⟩

end Label

/-- The functions of a program read only variables that have a value. -/
theorem reads_of_mem_functions {program : Node} {f : Function} (hf : f ∈ functions program) :
    f.body.Reads f.Knows := by
  cases program with
  | program name items loc =>
    rcases List.mem_cons.mp hf with rfl | hf
    · exact Label.yields_main items {}
    · exact Label.yields_pending _ _ f hf
  | _ => cases hf

end YulTaint.Execution
