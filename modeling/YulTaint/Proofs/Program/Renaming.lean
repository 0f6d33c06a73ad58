import Mathlib.SetTheory.Cardinal.Arithmetic
import Mathlib.Tactic
import YulTaint.Proofs.Program.WellFormed

/-!
Other names for the variables of a program. A renaming keeps the names of
functions and builtins. As long as it keeps the variables apart from each other
and from those names, a well-formed program stays well formed.
-/

namespace YulTaint

inductive Mention where
  | variable (name : String)
  | function (name : String)
  | call (name : String)
deriving DecidableEq, Repr

mutual

/-- The variables and functions that a tree declares, and the names that it
uses. -/
def Node.mentions : Node → List Mention
  | .identifier name _ => [.variable name]
  | .call name args _ => .call name :: mentionsOf args
  | .block items _ | .program _ items _ => mentionsOf items
  | .declaration names value _ => names.map .variable ++ mentionsOfOption value
  | .assignment names value _ => names.map .variable ++ value.mentions
  | .expression value _ => value.mentions
  | .branch condition body _ => condition.mentions ++ body.mentions
  | .switch selector arms fallback _ =>
    selector.mentions ++ mentionsOf arms ++ mentionsOfOption fallback
  | .caseArm value body _ => value.mentions ++ body.mentions
  | .loop init condition post body _ =>
    init.mentions ++ condition.mentions ++ post.mentions ++ body.mentions
  | .function name params returns body _ =>
    .function name :: (params ++ returns).map .variable ++ body.mentions
  | .literal .. | .breakOut _ | .continueOn _ | .leave _ | .foreign _ => []

def mentionsOf : List Node → List Mention
  | [] => []
  | n :: rest => n.mentions ++ mentionsOf rest

def mentionsOfOption : Option Node → List Mention
  | none => []
  | some n => n.mentions

end

mutual

def Node.rename (ρ : String → String) : Node → Node
  | .identifier name loc => .identifier (ρ name) loc
  | .call name args loc => .call name (renameAll ρ args) loc
  | .block items loc => .block (renameAll ρ items) loc
  | .program name items loc => .program name (renameAll ρ items) loc
  | .declaration names value loc => .declaration (names.map ρ) (renameOption ρ value) loc
  | .assignment names value loc => .assignment (names.map ρ) (value.rename ρ) loc
  | .expression value loc => .expression (value.rename ρ) loc
  | .branch condition body loc => .branch (condition.rename ρ) (body.rename ρ) loc
  | .switch selector arms fallback loc =>
    .switch (selector.rename ρ) (renameAll ρ arms) (renameOption ρ fallback) loc
  | .caseArm value body loc => .caseArm (value.rename ρ) (body.rename ρ) loc
  | .loop init condition post body loc =>
    .loop (init.rename ρ) (condition.rename ρ) (post.rename ρ) (body.rename ρ) loc
  | .function name params returns body loc =>
    .function name (params.map ρ) (returns.map ρ) (body.rename ρ) loc
  | .literal value loc => .literal value loc
  | .breakOut loc => .breakOut loc
  | .continueOn loc => .continueOn loc
  | .leave loc => .leave loc
  | .foreign kind => .foreign kind

def renameAll (ρ : String → String) : List Node → List Node
  | [] => []
  | n :: rest => n.rename ρ :: renameAll ρ rest

def renameOption (ρ : String → String) : Option Node → Option Node
  | none => none
  | some n => some (n.rename ρ)

end

section Congruence

variable {ρ σ : String → String}

mutual

/-- Only the names of the variables of a tree matter. -/
theorem Node.rename_congr (n : Node) (h : ∀ name, .variable name ∈ n.mentions → ρ name = σ name) :
    n.rename ρ = n.rename σ := by
  cases n with
  | identifier name loc =>
    rw [Node.rename, Node.rename, h name (by simp [Node.mentions])]
  | call name args loc =>
    rw [Node.rename, Node.rename, renameAll_congr args fun x hx => h x (by simp [Node.mentions, hx])]
  | block items loc | program name items loc =>
    rw [Node.rename, Node.rename, renameAll_congr items fun x hx => h x (by simp [Node.mentions, hx])]
  | declaration names value loc =>
    rw [Node.rename, Node.rename,
      renameOption_congr value fun x hx => h x (by simp [Node.mentions, hx]),
      List.map_congr_left fun x hx => h x (by simp [Node.mentions, hx])]
  | assignment names value loc =>
    rw [Node.rename, Node.rename, value.rename_congr fun x hx => h x (by simp [Node.mentions, hx]),
      List.map_congr_left fun x hx => h x (by simp [Node.mentions, hx])]
  | expression value loc =>
    rw [Node.rename, Node.rename, value.rename_congr fun x hx => h x (by simp [Node.mentions, hx])]
  | branch condition body loc =>
    rw [Node.rename, Node.rename,
      condition.rename_congr fun x hx => h x (by simp [Node.mentions, hx]),
      body.rename_congr fun x hx => h x (by simp [Node.mentions, hx])]
  | switch selector arms fallback loc =>
    rw [Node.rename, Node.rename,
      selector.rename_congr fun x hx => h x (by simp [Node.mentions, hx]),
      renameAll_congr arms fun x hx => h x (by simp [Node.mentions, hx]),
      renameOption_congr fallback fun x hx => h x (by simp [Node.mentions, hx])]
  | caseArm value body loc =>
    rw [Node.rename, Node.rename, value.rename_congr fun x hx => h x (by simp [Node.mentions, hx]),
      body.rename_congr fun x hx => h x (by simp [Node.mentions, hx])]
  | loop init condition post body loc =>
    rw [Node.rename, Node.rename,
      init.rename_congr fun x hx => h x (by simp [Node.mentions, hx]),
      condition.rename_congr fun x hx => h x (by simp [Node.mentions, hx]),
      post.rename_congr fun x hx => h x (by simp [Node.mentions, hx]),
      body.rename_congr fun x hx => h x (by simp [Node.mentions, hx])]
  | function name params returns body loc =>
    have hparams : params.map ρ = params.map σ :=
      List.map_congr_left fun x hx => h x (by simp [Node.mentions, hx])
    have hreturns : returns.map ρ = returns.map σ :=
      List.map_congr_left fun x hx => h x (by simp [Node.mentions, hx])
    rw [Node.rename, Node.rename, hparams, hreturns,
      body.rename_congr fun x hx => h x (by simp [Node.mentions, hx])]
  | literal | breakOut | continueOn | leave | foreign => rfl

theorem renameAll_congr (ns : List Node)
    (h : ∀ name, .variable name ∈ mentionsOf ns → ρ name = σ name) :
    renameAll ρ ns = renameAll σ ns := by
  cases ns with
  | nil => rfl
  | cons n rest =>
    rw [renameAll, renameAll, n.rename_congr fun x hx => h x (by simp [mentionsOf, hx]),
      renameAll_congr rest fun x hx => h x (by simp [mentionsOf, hx])]

theorem renameOption_congr (n? : Option Node)
    (h : ∀ name, .variable name ∈ mentionsOfOption n? → ρ name = σ name) :
    renameOption ρ n? = renameOption σ n? := by
  cases n? with
  | none => rfl
  | some n =>
    rw [renameOption, renameOption,
      n.rename_congr fun x hx => h x (by simp [mentionsOfOption, hx])]

end

end Congruence

mutual

theorem Node.rename_id (n : Node) : n.rename id = n := by
  cases n with
  | identifier name loc => rfl
  | call name args loc => rw [Node.rename, renameAll_id args]
  | block items loc | program name items loc => rw [Node.rename, renameAll_id items]
  | declaration names value loc => rw [Node.rename, renameOption_id value, List.map_id]
  | assignment names value loc => rw [Node.rename, value.rename_id, List.map_id]
  | expression value loc => rw [Node.rename, value.rename_id]
  | branch condition body loc => rw [Node.rename, condition.rename_id, body.rename_id]
  | switch selector arms fallback loc =>
    rw [Node.rename, selector.rename_id, renameAll_id arms, renameOption_id fallback]
  | caseArm value body loc => rw [Node.rename, value.rename_id, body.rename_id]
  | loop init condition post body loc =>
    rw [Node.rename, init.rename_id, condition.rename_id, post.rename_id, body.rename_id]
  | function name params returns body loc =>
    rw [Node.rename, body.rename_id, List.map_id, List.map_id]
  | literal | breakOut | continueOn | leave | foreign => rfl

theorem renameAll_id (ns : List Node) : renameAll id ns = ns := by
  cases ns with
  | nil => rfl
  | cons n rest => rw [renameAll, n.rename_id, renameAll_id rest]

theorem renameOption_id (n? : Option Node) : renameOption id n? = n? := by
  cases n? with
  | none => rfl
  | some n => rw [renameOption, n.rename_id]

end

section Trees

variable (ρ : String → String)

@[simp]
theorem length_renameAll (ns : List Node) : (renameAll ρ ns).length = ns.length := by
  induction ns with
  | nil => rfl
  | cons n rest ih => rw [renameAll, List.length_cons, List.length_cons, ih]

@[simp]
theorem signatures_renameAll (ns : List Node) : signatures (renameAll ρ ns) = signatures ns := by
  induction ns with
  | nil => rfl
  | cons n rest ih => cases n <;> simp [renameAll, Node.rename, signatures, ih]

@[simp]
theorem Node.declares_rename (n : Node) : (n.rename ρ).declares = n.declares.map ρ := by
  cases n <;> rfl

theorem Node.items_rename (n : Node) : (n.rename ρ).items = renameAll ρ n.items := by
  cases n <;> rfl

theorem declares_renameAll (ns : List Node) :
    (renameAll ρ ns).flatMap Node.declares = (ns.flatMap Node.declares).map ρ := by
  induction ns with
  | nil => rfl
  | cons n rest ih => simp [renameAll, ih]

mutual

theorem Node.functionCount_rename (n : Node) : (n.rename ρ).functionCount = n.functionCount := by
  cases n with
  | block items loc | program name items loc => exact functionCounts_renameAll items
  | branch condition body loc | caseArm value body loc => exact body.functionCount_rename
  | switch selector arms fallback loc =>
    rw [Node.rename, Node.functionCount, Node.functionCount, functionCounts_renameAll arms,
      fallbackFunctionCount_renameOption fallback]
  | loop init condition post body loc =>
    rw [Node.rename, Node.functionCount, Node.functionCount, init.functionCount_rename,
      post.functionCount_rename, body.functionCount_rename]
  | function name params returns body loc =>
    rw [Node.rename, Node.functionCount, Node.functionCount, body.functionCount_rename]
  | _ => rfl

theorem functionCounts_renameAll (ns : List Node) :
    functionCounts (renameAll ρ ns) = functionCounts ns := by
  cases ns with
  | nil => rfl
  | cons n rest =>
    rw [renameAll, functionCounts, functionCounts, n.functionCount_rename,
      functionCounts_renameAll rest]

theorem fallbackFunctionCount_renameOption (n? : Option Node) :
    fallbackFunctionCount (renameOption ρ n?) = fallbackFunctionCount n? := by
  cases n? with
  | none => rfl
  | some n => exact n.functionCount_rename

end

/-- The values of cases name no variables. -/
theorem Node.word?_rename (arm : Node) : (arm.rename ρ).word? = arm.word? := by
  cases arm with
  | caseArm value body loc => cases value <;> rfl
  | _ => rfl

theorem word?_renameAll {arms : List Node} {words : List Nat}
    (h : arms.map Node.word? = words.map some) :
    (renameAll ρ arms).map Node.word? = words.map some := by
  induction arms generalizing words with
  | nil => exact h
  | cons arm rest ih =>
    cases words with
    | nil => cases h
    | cons word words =>
      simp only [List.map_cons, List.cons.injEq] at h
      rw [renameAll, List.map_cons, List.map_cons, Node.word?_rename, h.1, ih h.2]

theorem function_mem_mentionsOf {ns : List Node} {f : Signature} (h : f ∈ signatures ns) :
    .function f.name ∈ mentionsOf ns := by
  induction ns with
  | nil => cases h
  | cons n rest ih =>
    cases n with
    | function name params returns body loc =>
      rcases List.mem_cons.mp h with rfl | h
      · simp [mentionsOf, Node.mentions]
      · exact List.mem_append_right _ (ih h)
    | _ => exact List.mem_append_right _ (ih h)

end Trees

/-- A renaming gives the variables among some names neither the name of a builtin
nor that of a function of a program which defines all functions among them. -/
structure Spares (ρ : String → String) (functions : List String) (ms : List Mention) : Prop where
  builtin : ∀ x, .variable x ∈ ms → Builtin.lookup? (ρ x) = none
  function : ∀ x, .variable x ∈ ms → ρ x ∉ functions
  defined : ∀ f, .function f ∈ ms → f ∈ functions

theorem Spares.mono {ρ : String → String} {functions : List String} {ms ms' : List Mention}
    (h : Spares ρ functions ms) (hsub : ms' ⊆ ms) : Spares ρ functions ms' :=
  ⟨fun x hx => h.builtin x (hsub hx), fun x hx => h.function x (hsub hx),
    fun f hf => h.defined f (hsub hf)⟩

namespace Sight

def rename (ρ : String → String) (v : Sight) : Sight :=
  { v with locals := v.locals.map ρ }

def SeesOnly (v : Sight) (functions : List String) : Prop :=
  ∀ f ∈ v.functions, f.name ∈ functions

variable {ρ : String → String} {functions : List String} {v : Sight}

theorem rename_declaring (ρ : String → String) (v : Sight) (names : List String) :
    (v.declaring names).rename ρ = (v.rename ρ).declaring (names.map ρ) := by
  simp [rename, declaring]

theorem SeesOnly.defining (h : v.SeesOnly functions) {ns : List Node}
    (hns : Spares ρ functions (mentionsOf ns)) :
    (v.defining (signatures ns)).SeesOnly functions := by
  intro f hf
  rcases List.mem_append.mp hf with hf | hf
  · exact hns.defined f.name (function_mem_mentionsOf hf)
  · exact h f hf

theorem IsFree.rename (hρ : Function.Injective ρ) (h : v.SeesOnly functions) {name : String}
    (hbuiltin : Builtin.lookup? (ρ name) = none) (hfunction : ρ name ∉ functions)
    (hfree : v.IsFree name) : (v.rename ρ).IsFree (ρ name) := by
  refine ⟨fun hmem => ?_, fun f hf heq => hfunction (heq ▸ h f hf), hbuiltin⟩
  obtain ⟨other, hother, heq⟩ := List.mem_map.mp hmem
  exact hfree.isNoVariable (hρ heq ▸ hother)

theorem Admits.rename {name : String} {arguments results : Nat}
    (h : v.Admits name arguments results) : (v.rename ρ).Admits name arguments results :=
  ⟨h.function, h.builtin⟩

theorem Introduces.rename {fs : List Signature} (h : v.Introduces fs) :
    (v.rename ρ).Introduces fs :=
  ⟨h.distinct, h.unseen, h.isNoBuiltin⟩

mutual

theorem IsOperand.rename (e : Node) (h : v.IsOperand e) : (v.rename ρ).IsOperand (e.rename ρ) := by
  cases e with
  | literal value loc => exact h
  | identifier name loc => exact List.mem_map_of_mem h
  | call name args loc =>
    rw [Node.rename, IsOperand, length_renameAll]
    exact ⟨h.1.rename, AreOperands.rename args h.2⟩
  | _ => exact h.elim

theorem AreOperands.rename (es : List Node) (h : v.AreOperands es) :
    (v.rename ρ).AreOperands (renameAll ρ es) := by
  cases es with
  | nil => trivial
  | cons e rest => exact ⟨IsOperand.rename e h.1, AreOperands.rename rest h.2⟩

end

theorem Gives.rename {count : Nat} {value : Node} (h : v.Gives count value) :
    (v.rename ρ).Gives count (value.rename ρ) := by
  cases value with
  | call name args loc =>
    rw [Node.rename, Gives, length_renameAll]
    exact ⟨h.1.rename, AreOperands.rename args h.2⟩
  | _ => exact ⟨h.1, IsOperand.rename _ h.2⟩

mutual

/-- A statement stays well formed under a renaming that spares its functions. -/
theorem IsStatement.rename (hρ : Function.Injective ρ) (n : Node) {v : Sight}
    (hv : v.SeesOnly functions) (hn : Spares ρ functions n.mentions) (h : v.IsStatement n) :
    (v.rename ρ).IsStatement (n.rename ρ) := by
  cases n with
  | declaration names value loc =>
    obtain ⟨hnonempty, hnodup, hfree, hvalue⟩ := h
    refine ⟨by simpa using hnonempty, hnodup.map hρ, ?_, ?_⟩
    · intro name hname
      obtain ⟨x, hx, rfl⟩ := List.mem_map.mp hname
      have hmention : .variable x ∈ (Node.declaration names value loc).mentions := by
        simp [Node.mentions, hx]
      exact (hfree x hx).rename hρ hv (hn.builtin x hmention) (hn.function x hmention)
    · intro e he
      cases value with
      | none => cases he
      | some value =>
        cases he
        rw [List.length_map]
        exact (hvalue value rfl).rename
  | assignment names value loc =>
    obtain ⟨hnonempty, hnodup, hseen, hvalue⟩ := h
    refine ⟨by simpa using hnonempty, hnodup.map hρ, ?_, ?_⟩
    · intro name hname
      obtain ⟨x, hx, rfl⟩ := List.mem_map.mp hname
      exact List.mem_map_of_mem (hseen x hx)
    · rw [List.length_map]
      exact hvalue.rename
  | expression value loc => exact Gives.rename h
  | branch condition body loc =>
    exact ⟨IsOperand.rename condition h.1,
      IsBlock.rename hρ body hv (hn.mono fun m hm => by simp [Node.mentions, hm]) h.2⟩
  | switch selector arms fallback loc =>
    obtain ⟨hcases, hselector, ⟨words, hwords, hnodup⟩, harms, hfallback⟩ := h
    refine ⟨?_, IsOperand.rename selector hselector,
      ⟨words, word?_renameAll ρ hwords, hnodup⟩,
      AreArms.rename hρ arms hv (hn.mono fun m hm => by simp [Node.mentions, hm]) harms,
      IsFallback.rename hρ fallback hv (hn.mono fun m hm => by simp [Node.mentions, hm]) hfallback⟩
    cases arms <;> cases fallback <;> simp_all [renameAll, renameOption]
  | loop init condition post body loc =>
    obtain ⟨hinit, hcondition, hbody, hpost⟩ := h
    have hlocals := rename_declaring ρ v (init.items.flatMap Node.declares)
    rw [← declares_renameAll, ← Node.items_rename] at hlocals
    refine ⟨IsInit.rename hρ init hv (hn.mono fun m hm => by simp [Node.mentions, hm]) hinit,
      ?_, ?_, ?_⟩
    · rw [← hlocals]
      exact IsOperand.rename condition hcondition
    · rw [← hlocals]
      exact IsBlock.rename hρ body (v := (v.declaring _).looping) hv
        (hn.mono fun m hm => by simp [Node.mentions, hm]) hbody
    · rw [← hlocals]
      exact IsBlock.rename hρ post (v := (v.declaring _).looping) hv
        (hn.mono fun m hm => by simp [Node.mentions, hm]) hpost
  | block items loc =>
    have hspares : Spares ρ functions (mentionsOf items) := hn
    have hinner := AreStatements.rename hρ items (hv.defining hspares) hspares h.2
    rw [Node.rename, IsStatement, signatures_renameAll]
    exact ⟨h.1.rename, hinner⟩
  | function name params returns body loc =>
    obtain ⟨hnodup, hfree, hbody⟩ := h
    have hinner := IsBlock.rename hρ body (v := v.inside (params ++ returns)) hv
      (hn.mono fun m hm => by simp [Node.mentions, hm]) hbody
    refine ⟨?_, ?_, ?_⟩
    · rw [← List.map_append]
      exact hnodup.map hρ
    · intro y hy
      rw [← List.map_append] at hy
      obtain ⟨x, hx, rfl⟩ := List.mem_map.mp hy
      have hmention : .variable x ∈ (Node.function name params returns body loc).mentions := by
        rw [Node.mentions, List.cons_append]
        exact List.mem_cons_of_mem _ (List.mem_append_left _ (List.mem_map_of_mem hx))
      exact (hfree x hx).rename (v := v.inside []) hρ hv (hn.builtin x hmention)
        (hn.function x hmention)
    · rw [← List.map_append]
      exact hinner
  | breakOut | continueOn | leave => exact h
  | _ => exact h.elim

theorem AreStatements.rename (hρ : Function.Injective ρ) (ns : List Node) {v : Sight}
    (hv : v.SeesOnly functions) (hns : Spares ρ functions (mentionsOf ns))
    (h : v.AreStatements ns) : (v.rename ρ).AreStatements (renameAll ρ ns) := by
  cases ns with
  | nil => trivial
  | cons n rest =>
    refine ⟨IsStatement.rename hρ n hv (hns.mono fun m hm => by simp [mentionsOf, hm]) h.1, ?_⟩
    rw [Node.declares_rename, ← rename_declaring]
    exact AreStatements.rename hρ rest (v := v.declaring _) hv
      (hns.mono fun m hm => by simp [mentionsOf, hm]) h.2

theorem IsBlock.rename (hρ : Function.Injective ρ) (n : Node) {v : Sight}
    (hv : v.SeesOnly functions) (hn : Spares ρ functions n.mentions) (h : v.IsBlock n) :
    (v.rename ρ).IsBlock (n.rename ρ) := by
  cases n with
  | block items loc =>
    have hspares : Spares ρ functions (mentionsOf items) := hn
    have hinner := AreStatements.rename hρ items (hv.defining hspares) hspares h.2
    rw [Node.rename, IsBlock, signatures_renameAll]
    exact ⟨h.1.rename, hinner⟩
  | _ => exact h.elim

theorem IsInit.rename (hρ : Function.Injective ρ) (n : Node) {v : Sight}
    (hv : v.SeesOnly functions) (hn : Spares ρ functions n.mentions) (h : v.IsInit n) :
    (v.rename ρ).IsInit (n.rename ρ) := by
  cases n with
  | block items loc | program name items loc =>
    have hspares : Spares ρ functions (mentionsOf items) := hn
    have hinner := AreStatements.rename hρ items (hv.defining hspares) hspares h.2
    rw [Node.rename, IsInit, signatures_renameAll]
    exact ⟨h.1.rename, hinner⟩
  | _ => exact h.elim

theorem AreArms.rename (hρ : Function.Injective ρ) (arms : List Node) {v : Sight}
    (hv : v.SeesOnly functions) (harms : Spares ρ functions (mentionsOf arms))
    (h : v.AreArms arms) : (v.rename ρ).AreArms (renameAll ρ arms) := by
  cases arms with
  | nil => trivial
  | cons arm rest =>
    cases arm with
    | caseArm value body loc =>
      have hbody : Spares ρ functions body.mentions :=
        harms.mono fun m hm => by simp [mentionsOf, Node.mentions, hm]
      exact ⟨IsBlock.rename hρ body hv hbody h.1,
        AreArms.rename hρ rest hv (harms.mono fun m hm => by simp [mentionsOf, hm]) h.2⟩
    | _ => exact h.elim

theorem IsFallback.rename (hρ : Function.Injective ρ) (n? : Option Node) {v : Sight}
    (hv : v.SeesOnly functions) (hn : Spares ρ functions (mentionsOfOption n?))
    (h : v.IsFallback n?) : (v.rename ρ).IsFallback (renameOption ρ n?) := by
  cases n? with
  | none => trivial
  | some n => exact IsBlock.rename hρ n hv hn h

end

end Sight

/-- A renaming that keeps variables apart keeps programs well formed. -/
theorem Node.IsWellFormed.rename {program : Node} {ρ : String → String}
    {functions : List String} (h : program.IsWellFormed) (hρ : Function.Injective ρ)
    (hspares : Spares ρ functions program.mentions) : (program.rename ρ).IsWellFormed := by
  cases program with
  | program name items loc =>
    exact Sight.IsBlock.rename hρ (.block items loc) (v := {}) (fun f hf => by cases hf) hspares h
  | _ => exact h.elim

/-- Finitely many names can be kept apart by a renaming of all names. -/
theorem exists_injective_extension {ρ : String → String} {names : List String}
    (h : Set.InjOn ρ {name | name ∈ names}) :
    ∃ σ : String → String, Function.Injective σ ∧ ∀ name ∈ names, σ name = ρ name := by
  let f : {name | name ∈ names} ↪ String :=
    ⟨fun x => ρ x, fun x y heq => Subtype.ext (h x.2 y.2 heq)⟩
  have hfinite : Cardinal.mk {name | name ∈ names} < Cardinal.mk String :=
    (Cardinal.lt_aleph0_iff_set_finite.mpr names.finite_toSet).trans_le
      (Cardinal.aleph0_le_mk String)
  obtain ⟨σ, hσ⟩ := Cardinal.extend_function_of_lt f hfinite ⟨.refl String⟩
  exact ⟨σ, σ.injective, fun name hname => hσ ⟨name, hname⟩⟩

end YulTaint
