import Mathlib.Tactic
import YulTaint.Proofs.Flow.LeastSolution

/-!
Constants and runs of a scope. A run executes the definitions that the walk has
recorded, in any order and as often as it likes, as long as the variables that a
definition uses have values. Whatever it does, a variable that the graph calls
constant holds its constant: every value in the store is one that the solved
definitions allow.
-/

namespace YulTaint

open Relation (ReflTransGen)

/-- The values of variables; a variable that was never written has none. -/
abbrev Store := NodeId → Option Int

/-- What a definition may write. Its operands have values; an application that can
be folded has the folded value, and any other value is some word. -/
inductive Definition.Writes (store : Store) : Definition → Int → Prop
  | constant {target : NodeId} {value : Int} : Writes store (.constant target value) value
  | copy {target source : NodeId} {value : Int} (hsource : store source = some value) :
      Writes store (.copy target source) value
  | folded {target : NodeId} {name : String} {operands : List NodeId} {values : List Int}
      {b : Builtin} {fold : Fold} {value : Int} (hoperands : operands.mapM store = some values)
      (hb : Builtin.lookup? name = some b) (hfold : b.fold? = some fold)
      (hvalue : fold.eval values = .ok (some value)) :
      Writes store (.application target name operands) value
  | unfolded {target : NodeId} {name : String} {operands : List NodeId} {values : List Int}
      {value : Int} (hoperands : operands.mapM store = some values)
      (hfold : ∀ b, Builtin.lookup? name = some b → b.fold? = none) (hvalue : IsWord value) :
      Writes store (.application target name operands) value
  | arbitrary {target : NodeId} {value : Int} (hvalue : IsWord value) :
      Writes store (.arbitrary target) value

inductive Executes (definitions : List Definition) : Store → Store → Prop
  | step {store : Store} {d : Definition} {value : Int} (hd : d ∈ definitions)
      (hwrites : d.Writes store value) :
      Executes definitions store (Function.update store d.target (some value))

/-- The stores of the runs that start with no values. -/
def Reaches (definitions : List Definition) (store : Store) : Prop :=
  ReflTransGen (Executes definitions) (fun _ => none) store

namespace Constant

/-- Every value in the store is one that the solved definitions allow for a
variable that they define. -/
def Agrees (definitions : List Definition) (store : Store) : Prop :=
  ∀ id value, store id = some value →
    id ∈ definitions.map (·.target) ∧ ((solve definitions).get id).Allows value

section Agrees

variable {definitions : List Definition} {store store' : Store}

theorem Agrees.operands (h : Agrees definitions store) {operands : List NodeId}
    {values : List Int} (hvalues : operands.mapM store = some values) :
    List.Forall₂ Knowledge.Allows (operands.map (solve definitions).get) values := by
  induction operands generalizing values with
  | nil =>
    cases hvalues
    exact .nil
  | cons id rest ih =>
    rw [List.mapM_cons] at hvalues
    obtain ⟨value, hvalue, hvalues⟩ := Option.bind_eq_some_iff.mp hvalues
    obtain ⟨others, hothers, hvalues⟩ := Option.bind_eq_some_iff.mp hvalues
    cases hvalues
    exact .cons (h id value hvalue).2 (ih hothers)

/-- A known constant of a folded application is the folded value. -/
theorem constant_of_fold {name : String} {b : Builtin} {fold : Fold} {values : List Int}
    {value known : Int} (hb : Builtin.lookup? name = some b) (hfold : b.fold? = some fold)
    (hvalue : fold.eval values = .ok (some value))
    (hknown : (Builtin.effectFor name (values.map some)).constant = some known) :
    value = known := by
  simp only [Builtin.effectFor, hb, Builtin.effectWith, Builtin.folded, Builtin.allConstant?_map_some,
    hfold] at hknown
  split at hknown
  · rw [hvalue] at hknown
    exact Option.some.inj hknown
  · cases hknown

/-- Where nothing can be folded, no constant is known. -/
theorem constant_of_unfolded {name : String} {operands : List (Option Int)}
    (h : ∀ b, Builtin.lookup? name = some b → b.fold? = none) :
    (Builtin.effectFor name operands).constant = none := by
  unfold Builtin.effectFor
  cases hb : Builtin.lookup? name with
  | none => rfl
  | some b =>
    simp only [Builtin.effectWith, Builtin.folded, h b hb]
    cases allConstant? operands <;> rfl

/-- What a definition writes is what the solution expects of it. -/
theorem Agrees.transfer_allows (h : Agrees definitions store) {d : Definition} {value : Int}
    (hwrites : d.Writes store value) : (transfer (solve definitions) d).Allows value := by
  cases hwrites with
  | constant => exact Knowledge.allows_constant value
  | copy hsource => exact (h _ value hsource).2
  | folded hoperands hb hfold hvalue =>
    exact applied_allows (h.operands hoperands) fun known hknown =>
      constant_of_fold hb hfold hvalue hknown
  | unfolded hoperands hfold _ =>
    refine applied_allows (h.operands hoperands) fun known hknown => ?_
    rw [constant_of_unfolded hfold] at hknown
    cases hknown
  | arbitrary _ => exact Knowledge.allows_varying value

/-- A definition that is executed keeps the store in agreement. -/
theorem Agrees.executes (h : Agrees definitions store)
    (hstep : Executes definitions store store') : Agrees definitions store' := by
  cases hstep with
  | @step d written hd hwrites =>
    intro id value hvalue
    by_cases hid : id = d.target
    · subst hid
      rw [Function.update_self] at hvalue
      cases hvalue
      exact ⟨List.mem_map_of_mem hd, solve_allows hd (h.transfer_allows hwrites)⟩
    · rw [Function.update_of_ne hid] at hvalue
      exact h id value hvalue

theorem agrees_of_reaches (h : Reaches definitions store) : Agrees definitions store := by
  induction h with
  | refl => exact fun _ _ hvalue => nomatch hvalue
  | tail _ hstep ih => exact ih.executes hstep

end Agrees

end Constant

namespace Flow

/-- Each scope of an accepted program has its recorded definitions. However they
are executed, and however often, every variable with a value that the graph
calls constant holds that constant. -/
theorem holds_constant {program : Node} {g : Graph} (h : collect program = .ok g) :
    ∃ rs s, walkProgram program { graph := {} } = .ok rs s ∧
      rs.map (·.scope) = g.scopeNames ∧
      ∀ r ∈ rs, ∀ store, Reaches r.definitions store →
        ∀ id value known, store id = some value → constantOf g id = some known →
          value = known := by
  obtain ⟨hscopes, hlaid⟩ := Execution.laid_of_collect h
  obtain ⟨rs, s, hwalk, hg⟩ := collect_eq_ok h
  have hlays := Execution.walkProgram_lays hwalk
  refine ⟨rs, s, hwalk, (Execution.Lays.map_scope hlays).symm.trans hscopes, ?_⟩
  intro r hr store hreaches id value known hvalue hknown
  obtain ⟨f, hf, hrecord⟩ := exists_of_mem_right hlays hr
  obtain ⟨_, _, _, rfl⟩ := hrecord
  obtain ⟨htarget, hallows⟩ := Constant.agrees_of_reaches hreaches id value hvalue
  obtain ⟨d, hd, rfl⟩ := List.mem_map.mp htarget
  have howns := ((hlaid f hf).defined d hd).1
  rw [(hlaid f hf).constants _ known howns hknown] at hallows
  exact hallows.value_eq rfl

/-- The loop's variables and its condition after some definitions have run. -/
def turnedStore : Store :=
  Function.update (Function.update (Function.update (Function.update (fun _ => none)
    1 (some 5)) 2 (some 5)) 4 (some 9)) 5 (some 1)

theorem reaches_turnedStore : Reaches Constant.turningDefinitions turnedStore := by
  have hlt : ∃ b fold, Builtin.lookup? "lt" = some b ∧ b.fold? = some fold ∧
      fold.eval [5, 9] = .ok (some 1) := ⟨_, _, rfl, rfl, rfl⟩
  obtain ⟨b, fold, hb, hfold, heval⟩ := hlt
  refine (((ReflTransGen.refl.tail
    (.step (d := .constant 1 5) (by decide) .constant)).tail
    (.step (d := .copy 2 1) (by decide) (.copy rfl))).tail
    (.step (d := .constant 4 9) (by decide) .constant)).tail
    (.step (d := .application 5 "lt" [2, 4]) (by decide) (.folded rfl hb hfold heval))

theorem collect_turningProgram : (collect Constant.turningProgram).toOption.any fun g =>
    decide (constantOf g 5 = some 1) && decide (constantOf g 3 = none) := by
  decide +kernel

theorem holds_constant_turning :
    ∃ g, collect Constant.turningProgram = .ok g ∧ constantOf g 5 = some 1 ∧
      constantOf g 3 = none ∧ Reaches Constant.turningDefinitions turnedStore ∧
      ∀ value, turnedStore 5 = some value → value = 1 := by
  obtain ⟨g, hg, hchecks⟩ := Flow.exists_collect collect_turningProgram
  obtain ⟨hknown, hsum⟩ := Bool.and_eq_true_iff.mp hchecks
  obtain ⟨rs, s, hwalk, hrecords⟩ := Constant.walk_turningProgram
  obtain ⟨rs', s', hwalk', _, hholds⟩ := holds_constant hg
  obtain ⟨rfl, rfl⟩ : rs = rs' ∧ s = s' := by
    rw [hwalk] at hwalk'
    cases hwalk'
    exact ⟨rfl, rfl⟩
  have hmem : (mainScope, Constant.turningDefinitions) ∈ rs.map fun r => (r.scope, r.definitions) :=
    hrecords ▸ List.mem_cons_self
  obtain ⟨r, hr, heq⟩ := List.mem_map.mp hmem
  have hdefinitions : r.definitions = Constant.turningDefinitions := congrArg Prod.snd heq
  refine ⟨g, hg, of_decide_eq_true hknown, of_decide_eq_true hsum, reaches_turnedStore, ?_⟩
  intro value hvalue
  exact hholds r hr turnedStore (hdefinitions ▸ reaches_turnedStore) 5 value 1 hvalue
    (of_decide_eq_true hknown)

end Flow

end YulTaint
