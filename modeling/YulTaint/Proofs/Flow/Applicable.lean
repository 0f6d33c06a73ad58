import Mathlib.Tactic
import YulTaint.Proofs.Taint.Sources

/-!
The applications of an accepted program never fail. The walk has counted the
operands of each, and every constant is a word, on which all folds are defined;
so the effect that an application has in the graph is the checked one.
-/

namespace YulTaint

def Fold.DefinedOnWords : Fold → Prop
  | .binary f => ∀ a b, IsWord a → IsWord b → ∃ v, f a b = .ok v
  | .unary _ | .ternary _ => True

theorem Fold.DefinedOnWords.eval {fold : Fold} (h : fold.DefinedOnWords) {values : List Int}
    (hvalues : ∀ x ∈ values, IsWord x) : ∃ v, fold.eval values = .ok v := by
  unfold Fold.eval
  split
  · exact ⟨_, rfl⟩
  · rename_i f a b
    obtain ⟨v, hv⟩ := h a b (hvalues a (by simp)) (hvalues b (by simp))
    rw [hv]
    exact ⟨_, rfl⟩
  · exact ⟨_, rfl⟩
  · exact ⟨_, rfl⟩

namespace Word

variable {a b : Int}

theorem exists_exp (hb : IsWord b) : ∃ v, exp a b = .ok v := by
  rw [exp, if_pos hb.1]
  exact ⟨_, rfl⟩

/-- An operation that refuses negative shifts only. -/
theorem exists_of_shift {shift x : Int} (h : IsWord shift) {p : Prop} [Decidable p]
    {e : Except Undefined Int} (he : ∃ v, e = .ok v) :
    ∃ v, (if p then .ok x else if shift < 0 then .error .negativeShift else e) = .ok v := by
  rw [if_neg (Int.not_lt.mpr h.1)]
  split
  · exact ⟨x, rfl⟩
  · exact he

theorem exists_signextend (ha : IsWord a) : ∃ v, signextend a b = .ok v := by
  refine exists_of_shift ha ?_
  dsimp only
  split
  · exact ⟨_, rfl⟩
  · exact ⟨_, rfl⟩

end Word

namespace Builtin

def FoldsDefined (b : Builtin) : Prop :=
  ∀ fold, b.fold? = some fold → fold.DefinedOnWords

theorem foldsDefined_unary (name : String) (f : Int → Int) : (unary name f).FoldsDefined := by
  rintro _ ⟨⟩
  trivial

theorem foldsDefined_guardedBinary (name : String) {f : Int → Int → Except Word.Undefined Int}
    (h : ∀ a b, IsWord a → IsWord b → ∃ v, f a b = .ok v) :
    (guardedBinary name f).FoldsDefined := by
  rintro _ ⟨⟩
  exact h

theorem foldsDefined_binary (name : String) (f : Int → Int → Int) :
    (binary name f).FoldsDefined :=
  foldsDefined_guardedBinary name fun a b _ _ => ⟨f a b, rfl⟩

theorem foldsDefined_ternary (name : String) (f : Int → Int → Int → Int) :
    (ternary name f).FoldsDefined := by
  rintro _ ⟨⟩
  trivial

/-- Every computation has a value at words. -/
theorem foldsDefined_arithmetic : ∀ b ∈ arithmetic, b.FoldsDefined := by
  simp only [arithmetic, List.forall_mem_cons, foldsDefined_unary, foldsDefined_binary,
    foldsDefined_ternary, true_and]
  exact ⟨foldsDefined_guardedBinary _ fun _ _ _ hb => Word.exists_exp hb,
    foldsDefined_guardedBinary _ fun _ _ ha _ => Word.exists_of_shift ha ⟨_, rfl⟩,
    foldsDefined_guardedBinary _ fun _ _ ha _ => Word.exists_of_shift ha ⟨_, rfl⟩,
    foldsDefined_guardedBinary _ fun _ _ ha _ => Word.exists_of_shift ha ⟨_, rfl⟩,
    foldsDefined_guardedBinary _ fun _ _ ha _ => Word.exists_signextend ha,
    List.forall_mem_nil _⟩

theorem foldsDefined_of_mem {b : Builtin} (hb : b ∈ table) : b.FoldsDefined :=
  fun _ hfold => forall_fold_of_arithmetic foldsDefined_arithmetic hb hfold

theorem mem_of_allConstant? {operands : List (Option Int)} {values : List Int}
    (h : allConstant? operands = some values) {v : Int} (hv : v ∈ values) : some v ∈ operands := by
  unfold allConstant? at h
  induction operands generalizing values with
  | nil =>
    cases h
    cases hv
  | cons operand rest ih =>
    rw [List.mapM_cons] at h
    obtain ⟨value, hvalue, h⟩ := Option.bind_eq_some_iff.mp h
    obtain ⟨others, hothers, h⟩ := Option.bind_eq_some_iff.mp h
    cases h
    rcases List.mem_cons.mp hv with rfl | hv
    · exact hvalue ▸ List.mem_cons_self
    · exact List.mem_cons_of_mem _ (ih hothers hv)

/-- An application to words can be folded. -/
theorem exists_folded {b : Builtin} (hb : b ∈ table) {operands : List (Option Int)}
    (hwords : ∀ v, some v ∈ operands → IsWord v) : ∃ value, b.folded operands = .ok value := by
  unfold folded
  split
  · rename_i values fold hvalues hfold
    split
    · exact (foldsDefined_of_mem hb fold hfold).eval fun v hv =>
        hwords v (mem_of_allConstant? hvalues hv)
    · exact ⟨_, rfl⟩
  · exact ⟨_, rfl⟩

/-- With the right number of operands, of which the known ones are words, the
check of an application succeeds. -/
theorem resolve_eq_effectFor {name : String} {operands : List (Option Int)}
    (harity : ∀ b, lookup? name = some b → operands.length = b.arity)
    (hwords : ∀ v, some v ∈ operands → IsWord v) :
    resolve name operands = .ok (effectFor name operands) := by
  unfold resolve effectFor
  cases hb : lookup? name with
  | none => rfl
  | some b =>
    obtain ⟨value, hvalue⟩ := exists_folded (mem_table hb) hwords
    simp only [harity b hb, if_true, hvalue]
    rfl

end Builtin

/-- The check of the application succeeds whatever words its operands are known
to be. -/
def Application.AppliesToWords (a : Application) : Prop :=
  ∀ operands : List (Option Int), operands.length = a.operands.length →
    (∀ v, some v ∈ operands → IsWord v) →
    Builtin.resolve a.name operands = .ok (Builtin.effectFor a.name operands)

namespace Execution

open YulTaint.Flow

/-- The check of an application that a program has never fails on words. -/
theorem appliesToWords_of_collect {program : Node} {g : Graph} (h : collect program = .ok g)
    {f : Function} (hf : f ∈ functions program) {a : Application}
    (ha : a ∈ f.layout.applications) : a.AppliesToWords := by
  obtain ⟨rs, s, hwalk, rfl⟩ := collect_eq_ok h
  obtain ⟨_, _, _, _, hrecords⟩ := walkProgram_spec hwalk
  obtain ⟨r, hr, hlays⟩ := exists_of_mem_left (walkProgram_lays hwalk) hf
  obtain ⟨_, _, _, rfl⟩ := hlays
  have hfits := (hrecords _ hr).applications a ha
  intro operands hlength hwords
  exact Builtin.resolve_eq_effectFor (fun b hb => hlength.trans (hfits.arity b hb)) hwords

end Execution

end YulTaint
