import Mathlib.Tactic
import YulTaint.Proofs.Flow.Confined

/-!
Which nodes are protected: the addresses of loads from storage and of stores to
it, and no others. Nothing else that is done to finish a scope protects a node,
so the protected nodes of a program can be read off its applications.
-/

namespace YulTaint

namespace Builtin

/-- An access to storage has its address as first operand. -/
def accessesStorage (name : String) : Bool :=
  name = "sload" || name = "sstore"

theorem addresses_table : ∀ b ∈ table,
    b.addresses = if accessesStorage b.name then [0] else [] := by
  decide

/-- The first operand of a storage access is its only address. -/
theorem addresses_effectFor (name : String) (constants : List (Option Int)) :
    (effectFor name constants).addresses = if accessesStorage name then [0] else [] := by
  unfold effectFor
  cases hb : lookup? name with
  | some b =>
    have hname : b.name = name := by simpa using List.find?_some hb
    exact hname ▸ addresses_table b (mem_table hb)
  | none =>
    have hother : accessesStorage name = false := by
      rw [Bool.eq_false_iff]
      intro haccess
      simp only [accessesStorage, Bool.or_eq_true, decide_eq_true_eq] at haccess
      rcases haccess with rfl | rfl
      · cases hb
      · cases hb
    rw [hother]
    rfl

end Builtin

def Application.UsesAddress (a : Application) (id : NodeId) : Prop :=
  Builtin.accessesStorage a.name = true ∧ a.operands.head? = some id

namespace Graph

variable {P Q : NodeId → Prop} {g g' g'' : Graph}

/-- No nodes become protected but some. -/
def Shields (P : NodeId → Prop) (g g' : Graph) : Prop :=
  ∀ id n', g'.node? id = some n' → n'.isProtected = true →
    (∃ n, g.node? id = some n ∧ n.isProtected = true) ∨ P id

theorem Shields.refl (P : NodeId → Prop) (g : Graph) : Shields P g g :=
  fun _ n hn hprotected => Or.inl ⟨n, hn, hprotected⟩

theorem Shields.trans (h : Shields P g g') (h' : Shields P g' g'') : Shields P g g'' := by
  intro id n hn hprotected
  rcases h' id n hn hprotected with ⟨n', hn', hprotected'⟩ | hid
  · exact h id n' hn' hprotected'
  · exact Or.inr hid

theorem Shields.imp (h : Shields P g g') (hPQ : ∀ id, P id → Q id) : Shields Q g g' :=
  fun id n hn hprotected => (h id n hn hprotected).imp_right (hPQ id)

theorem Shields.foldl {α : Type} {f : Graph → α → Graph} (items : List α)
    (hf : ∀ x ∈ items, ∀ g, Shields P g (f g x)) (g : Graph) : Shields P g (items.foldl f g) := by
  induction items generalizing g with
  | nil => exact Shields.refl P g
  | cons x rest ih =>
    exact (hf x List.mem_cons_self g).trans
      (ih (fun y hy => hf y (List.mem_cons_of_mem _ hy)) (f g x))

theorem Extends.shields (h : Extends g g') : Shields P g g' := by
  intro id n hn hprotected
  rcases Nat.lt_or_ge id g.size with hlt | hge
  · exact Or.inl ⟨n, (h.old id hlt).symm.trans hn, hprotected⟩
  · rw [h.new id n hge hn] at hprotected
    cases hprotected

theorem shields_modifyNode (g : Graph) (id : NodeId) {f : FlowNode → FlowNode}
    (hf : ∀ n, (f n).isProtected = true → n.isProtected = true ∨ P id) :
    Shields P g (g.modifyNode id f) := by
  intro other n hn hprotected
  rw [node?_modifyNode] at hn
  split at hn
  · rename_i heq
    obtain ⟨m, hm, rfl⟩ := Option.map_eq_some_iff.mp hn
    subst heq
    exact (hf m hprotected).imp_left fun h => ⟨m, hm, h⟩
  · exact Or.inl ⟨n, hn, hprotected⟩

end Graph

namespace Flow

open YulTaint.Graph (Extends Shields shields_modifyNode)

variable {g : Graph} {a : Application} {r : ScopeRecord}

theorem usesAddress_of_mem {i : Nat} (hi : i ∈ (effectOf g a).addresses)
    (ha : ∀ b, Builtin.lookup? a.name = some b → a.operands.length = b.arity) :
    a.UsesAddress (a.operands.getD i 0) := by
  have hlt := (Builtin.effectFor_within (constantsOf g a) ha).1 i hi
  rw [effectOf, Builtin.addresses_effectFor] at hi
  split at hi
  · rename_i haccess
    obtain rfl := List.mem_singleton.mp hi
    refine ⟨haccess, ?_⟩
    rw [List.head?_eq_getElem?, List.getD_eq_getElem?_getD, List.getElem?_eq_getElem hlt]
    rfl
  · cases hi

/-- An application protects its storage address and nothing else. -/
theorem applyEffect_shields (sc : String) (g : Graph)
    (ha : ∀ b, Builtin.lookup? a.name = some b → a.operands.length = b.arity) :
    Shields a.UsesAddress g (applyEffect sc g a) := by
  let e := effectOf g a
  let g₁ := drawOperands sc a e g
  let g₂ := markSource a e g₁
  let g₃ := markAddresses a e g₂
  let g₄ := e.reads.foldl (applyRead sc a (constantsOf g a)) g₃
  have h₁ : Shields a.UsesAddress g g₁ := (extends_drawOperands sc a e g).shields
  have h₂ : Shields a.UsesAddress g₁ g₂ := by
    change Shields a.UsesAddress g₁ (markSource a e g₁)
    unfold markSource
    split
    · exact shields_modifyNode g₁ _ fun _ h => Or.inl h
    · exact Shields.refl _ g₁
  have h₃ : Shields a.UsesAddress g₂ g₃ :=
    Shields.foldl e.addresses (fun i hi g' => shields_modifyNode g' _ fun _ _ =>
      Or.inr (usesAddress_of_mem hi ha)) g₂
  have h₄ : Shields a.UsesAddress g₃ g₄ :=
    (Extends.foldl (fun g' access => extends_applyRead (constantsOf g a) access g') _ g₃).shields
  have h₅ : Shields a.UsesAddress g₄ (applyEffect sc g a) :=
    (Extends.foldl (fun g' access => extends_applyWrite (constantsOf g a) access g') _ g₄).shields
  exact (((h₁.trans h₂).trans h₃).trans h₄).trans h₅

def UsedAddress (r : ScopeRecord) (id : NodeId) : Prop :=
  ∃ a ∈ r.applications, a.UsesAddress id

theorem setConstant_shields (P : NodeId → Prop) (entry : NodeId × Knowledge) (g : Graph) :
    Shields P g (setConstant g entry) := by
  unfold setConstant
  split
  · exact shields_modifyNode g _ fun _ h => Or.inl h
  · exact Shields.refl P g

theorem markUntaintable_shields (P : NodeId → Prop) (id : NodeId) (g : Graph) :
    Shields P g (markUntaintable g id) := by
  refine shields_modifyNode g id fun n h => Or.inl ?_
  split at h <;> exact h

theorem finishScope_shields (g : Graph)
    (hr : ∀ a ∈ r.applications, ∀ b, Builtin.lookup? a.name = some b →
      a.operands.length = b.arity) : Shields (UsedAddress r) g (finishScope g r) := by
  have hset : Shields (UsedAddress r) g (withConstants g r) :=
    Shields.foldl (Constant.solve r.definitions) (fun entry _ => setConstant_shields _ entry) g
  have happly : Shields (UsedAddress r) (withConstants g r) (withEffects g r) :=
    Shields.foldl r.applications (fun a ha g =>
      (applyEffect_shields r.scope g (hr a ha)).imp fun _ h => ⟨a, ha, h⟩) _
  rw [finishScope_eq]
  exact (hset.trans happly).trans
    (Shields.foldl _ (fun id _ => markUntaintable_shields _ id) _)

/-- In the graph of a program only the storage addresses of its applications are
protected. -/
theorem usesAddress_of_isProtected {program : Node} {rs : List ScopeRecord} {s : WalkState}
    (hwalk : walkProgram program { graph := {} } = .ok rs s) {id : NodeId} {n : FlowNode}
    (hn : (rs.foldl finishScope s.graph).node? id = some n) (hprotected : n.isProtected = true) :
    ∃ r ∈ rs, UsedAddress r id := by
  obtain ⟨_, hstands, _, _, hrecords⟩ := walkProgram_spec hwalk
  have hall : Shields (fun id => ∃ r ∈ rs, UsedAddress r id) s.graph
      (rs.foldl finishScope s.graph) := by
    refine Shields.foldl rs (fun r hr g => ?_) s.graph
    refine (finishScope_shields g fun a ha => ((hrecords r hr).applications a ha).arity).imp ?_
    exact fun _ h => ⟨r, hr, h⟩
  rcases hall id n hn hprotected with ⟨m, hm, hold⟩ | hid
  · cases (hstands.walked.nodes id m hm).isProtected.symm.trans hold
  · exact hid

end Flow

end YulTaint
