import Mathlib.Tactic
import YulTaint.Proofs.Memory.Words

/-!
What applications do to a graph once the constants are known. Each effect is a
chain of three kinds of changes: more edges and memory words, the mark of a
source on the application's value, and the mark of an address on an operand.
So constants stay, only nodes of a scope are ever protected, only protected
constants are kept free of taint, and every word that an application writes
depends on the block around it.
-/

namespace YulTaint

open Relation (ReflTransGen)

/-- The marks of a node: a protected one belongs to a scope, and an untaintable
one is protected and constant. -/
structure FlowNode.IsGuarded (n : FlowNode) : Prop where
  address : n.isProtected = true → n.scope ≠ none
  untaintable : n.isUntaintable = true → n.isProtected = true ∧ n.constant.isSome = true

namespace Graph

theorem retains_modifyNode (g : Graph) (id : NodeId) (f : FlowNode → FlowNode) :
    Retains g (g.modifyNode id f) :=
  ⟨fun _ _ h => h, fun _ he => he, fun _ s hs => ⟨s, hs, fun _ he => he⟩⟩

/-- Only nodes of scopes are protected, and taint is kept out of protected
constants alone. -/
def Guarded (g : Graph) : Prop :=
  ∀ id n, g.node? id = some n → n.IsGuarded

theorem Extends.guarded {g g' : Graph} (h : Extends g g') (hg : g.Guarded) : g'.Guarded := by
  intro id n hn
  rcases Nat.lt_or_ge id g.size with hlt | hge
  · rw [h.old id hlt] at hn
    exact hg id n hn
  · rw [h.new id n hge hn]
    exact ⟨fun h => (nomatch h), fun h => (nomatch h)⟩

theorem Guarded.modifyNode {g : Graph} (hg : g.Guarded) (id : NodeId) {f : FlowNode → FlowNode}
    (hf : ∀ n, n.IsGuarded → (f n).IsGuarded) : (g.modifyNode id f).Guarded := by
  intro other n hn
  rw [node?_modifyNode] at hn
  split at hn
  · obtain ⟨m, hm, rfl⟩ := Option.map_eq_some_iff.mp hn
    exact hf m (hg other m hm)
  · exact hg other n hn

end Graph

namespace Flow

open YulTaint.Graph (Extends Retains extends_addEdge)

variable {g g' : Graph} {sc : String} {a : Application}

/-- One change that an application makes. -/
inductive Touch (a : Application) : Graph → Graph → Prop
  | extend {g g' : Graph} (h : Extends g g') : Touch a g g'
  | source (g : Graph) : Touch a g (g.modifyNode a.node fun n => { n with isSource := true })
  | protect (g : Graph) {i : Nat} (hi : i < a.operands.length) :
      Touch a g (g.modifyNode (a.operands.getD i 0) fun n => { n with isProtected := true })

theorem touches_foldl {α : Type} {f : Graph → α → Graph} (items : List α)
    (hf : ∀ x ∈ items, ∀ g, ReflTransGen (Touch a) g (f g x)) (g : Graph) :
    ReflTransGen (Touch a) g (items.foldl f g) := by
  induction items generalizing g with
  | nil => exact .refl
  | cons x rest ih =>
    refine (hf x List.mem_cons_self g).trans (ih ?_ (f g x))
    exact fun y hy => hf y (List.mem_cons_of_mem _ hy)

theorem extends_applyRead (constants : List (Option Int)) (access : MemoryAccess) (g : Graph) :
    Extends g (applyRead sc a constants g access) :=
  Memory.extends_load g _ _ _ _ _

theorem extends_applyWrite (constants : List (Option Int)) (access : MemoryAccess) (g : Graph) :
    Extends g (applyWrite sc a constants g access) :=
  (Memory.store_spec g _ _ _ _ _ _ rfl).1

def drawOperands (sc : String) (a : Application) (e : Effect) (g : Graph) : Graph :=
  if e.taints then a.operands.foldl (fun g operand => g.addEdge sc operand a.node) g else g

def markSource (a : Application) (e : Effect) (g : Graph) : Graph :=
  if e.source then g.modifyNode a.node fun n => { n with isSource := true } else g

def markAddresses (a : Application) (e : Effect) (g : Graph) : Graph :=
  e.addresses.foldl (fun g index =>
    g.modifyNode (a.operands.getD index 0) fun n => { n with isProtected := true }) g

def constantsOf (g : Graph) (a : Application) : List (Option Int) :=
  a.operands.map (constantOf g)

def effectOf (g : Graph) (a : Application) : Effect :=
  Builtin.effectFor a.name (constantsOf g a)

theorem applyEffect_eq (sc : String) (g : Graph) (a : Application) :
    applyEffect sc g a =
      (effectOf g a).writes.foldl (applyWrite sc a (constantsOf g a))
        ((effectOf g a).reads.foldl (applyRead sc a (constantsOf g a))
          (markAddresses a (effectOf g a)
            (markSource a (effectOf g a) (drawOperands sc a (effectOf g a) g)))) := rfl

theorem extends_drawOperands (sc : String) (a : Application) (e : Effect) (g : Graph) :
    Extends g (drawOperands sc a e g) := by
  unfold drawOperands
  split
  · exact Extends.foldl (fun g operand => extends_addEdge g sc operand a.node) _ g
  · exact Extends.refl g

theorem touches_markSource (a : Application) (e : Effect) (g : Graph) :
    ReflTransGen (Touch a) g (markSource a e g) := by
  unfold markSource
  split
  · exact .single (.source g)
  · exact .refl

theorem touches_markAddresses {e : Effect} (he : ∀ i ∈ e.addresses, i < a.operands.length)
    (g : Graph) : ReflTransGen (Touch a) g (markAddresses a e g) :=
  touches_foldl e.addresses (fun i hi g => .single (.protect g (he i hi))) g

/-- The changes that an application makes, one by one. -/
theorem applyEffect_touches (sc : String) (g : Graph)
    (ha : ∀ b, Builtin.lookup? a.name = some b → a.operands.length = b.arity) :
    ReflTransGen (Touch a) g (applyEffect sc g a) := by
  obtain ⟨haddresses, _, _⟩ := Builtin.effectFor_within (constantsOf g a) ha
  let g₁ := drawOperands sc a (effectOf g a) g
  let g₂ := markSource a (effectOf g a) g₁
  let g₃ := markAddresses a (effectOf g a) g₂
  let g₄ := (effectOf g a).reads.foldl (applyRead sc a (constantsOf g a)) g₃
  have h₁ : Touch a g g₁ := .extend (extends_drawOperands sc a (effectOf g a) g)
  have h₂ : ReflTransGen (Touch a) g₁ g₃ :=
    (touches_markSource a (effectOf g a) g₁).trans (touches_markAddresses haddresses g₂)
  have h₃ : Touch a g₃ g₄ :=
    .extend (Extends.foldl (fun g' access => extends_applyRead (constantsOf g a) access g') _ g₃)
  have h₄ : Touch a g₄ (applyEffect sc g a) :=
    .extend (Extends.foldl (fun g' access => extends_applyWrite (constantsOf g a) access g') _ g₄)
  exact ((ReflTransGen.head h₁ h₂).tail h₃).tail h₄

theorem constantOf_modifyNode (g : Graph) (id : NodeId) (f : FlowNode → FlowNode)
    (hf : ∀ n, (f n).constant = n.constant) (other : NodeId) :
    constantOf (g.modifyNode id f) other = constantOf g other := by
  unfold constantOf
  rw [Graph.node?_modifyNode]
  split
  · cases g.node? other with
    | none => rfl
    | some n => exact hf n
  · rfl

theorem constantOf_extends (h : Extends g g') (id : NodeId) : constantOf g' id = constantOf g id := by
  unfold constantOf
  rcases Nat.lt_or_ge id g.size with hlt | hge
  · rw [h.old id hlt]
  · have hnone : g.node? id = none := Array.getElem?_eq_none hge
    rw [hnone]
    cases hn : g'.node? id with
    | none => rfl
    | some n =>
      rw [h.new id n hge hn]
      rfl

theorem constantOf_touches (h : ReflTransGen (Touch a) g g') (id : NodeId) :
    constantOf g' id = constantOf g id := by
  induction h with
  | refl => rfl
  | tail _ hstep ih =>
    rw [← ih]
    cases hstep with
    | extend h => exact constantOf_extends h id
    | source => exact constantOf_modifyNode _ _ _ (by intro _; rfl) id
    | protect => exact constantOf_modifyNode _ _ _ (by intro _; rfl) id

/-- A node keeps its scope. -/
theorem Touch.scope (h : Touch a g g') {id : NodeId} {n : FlowNode} (hn : g.node? id = some n) :
    ∃ n', g'.node? id = some n' ∧ n'.scope = n.scope := by
  have hmodify (other : NodeId) (f : FlowNode → FlowNode) (hf : ∀ n, (f n).scope = n.scope) :
      ∃ n', (g.modifyNode other f).node? id = some n' ∧ n'.scope = n.scope := by
    rw [Graph.node?_modifyNode, hn]
    split
    · exact ⟨f n, rfl, hf n⟩
    · exact ⟨n, rfl, rfl⟩
  cases h with
  | extend h => exact ⟨n, (h.old id (Graph.lt_size_of_node? hn)).trans hn, rfl⟩
  | source => exact hmodify _ _ fun _ => rfl
  | protect => exact hmodify _ _ fun _ => rfl

/-- No change that an application makes protects a memory word. -/
theorem guarded_of_touches (h : ReflTransGen (Touch a) g g')
    (hoperands : ∀ id ∈ a.operands, ∃ n, g.node? id = some n ∧ n.scope ≠ none)
    (hg : g.Guarded) : g'.Guarded := by
  induction h using ReflTransGen.head_induction_on with
  | refl => exact hg
  | @head g₀ g₁ hstep _ ih =>
    have hkept (id : NodeId) (hid : id ∈ a.operands) :
        ∃ n, g₁.node? id = some n ∧ n.scope ≠ none := by
      obtain ⟨n, hn, hscope⟩ := hoperands id hid
      obtain ⟨n', hn', hsame⟩ := hstep.scope hn
      exact ⟨n', hn', hsame ▸ hscope⟩
    refine ih hkept ?_
    cases hstep with
    | extend h => exact h.guarded hg
    | source => exact hg.modifyNode _ fun _ h => ⟨h.address, h.untaintable⟩
    | protect hi =>
      intro id n hn
      rw [Graph.node?_modifyNode] at hn
      split at hn
      · rename_i heq
        obtain ⟨m, hm, rfl⟩ := Option.map_eq_some_iff.mp hn
        have hmem : id ∈ a.operands := by
          rw [heq, List.getD_eq_getElem?_getD, List.getElem?_eq_getElem hi]
          exact List.getElem_mem hi
        obtain ⟨m', hm', hscope⟩ := hoperands id hmem
        cases hm.symm.trans hm'
        exact ⟨fun _ => hscope, fun h => ⟨rfl, ((hg id m hm).untaintable h).2⟩⟩
      · exact hg id n hn

theorem applyEffect_guarded (hg : g.Coherent) (ha : a.Fits g sc) (hguarded : g.Guarded) :
    (applyEffect sc g a).Guarded := by
  refine guarded_of_touches (applyEffect_touches sc g ha.arity) ?_ hguarded
  intro id hid
  obtain ⟨s, hs, hmem⟩ := (ha.operands id hid).owns
  obtain ⟨n, hn, hscope⟩ := ((hg.scopes sc s hs).owns id).mp hmem
  exact ⟨n, hn, by simp [hscope]⟩

theorem foldl_guarded {α : Type} {f : Graph → α → Graph} (items : List α)
    (hf : ∀ x g, g.Guarded → (f g x).Guarded) (hg : g.Guarded) : (items.foldl f g).Guarded := by
  induction items generalizing g with
  | nil => exact hg
  | cons x rest ih => exact ih (hf x g hg)

theorem applyEffects_guarded (apps : List Application) (hg : g.Coherent)
    (happs : ∀ a ∈ apps, a.Fits g sc) (hguarded : g.Guarded) :
    (apps.foldl (applyEffect sc) g).Guarded := by
  induction apps generalizing g with
  | nil => exact hguarded
  | cons a rest ih =>
    have ha := happs a List.mem_cons_self
    have hfinish := applyEffect_finishing hg ha
    refine ih hfinish.coherent ?_ (applyEffect_guarded hg ha hguarded)
    exact fun b hb => (happs b (List.mem_cons_of_mem _ hb)).finishing hfinish

theorem setConstant_guarded (entry : NodeId × Knowledge) (g : Graph) (hg : g.Guarded) :
    (setConstant g entry).Guarded := by
  unfold setConstant
  split
  · exact hg.modifyNode _ fun _ h => ⟨h.address, fun hu => ⟨(h.untaintable hu).1, rfl⟩⟩
  · exact hg

theorem markUntaintable_guarded (id : NodeId) (g : Graph) (hg : g.Guarded) :
    (markUntaintable g id).Guarded := by
  refine hg.modifyNode _ fun n h => ?_
  split
  · rename_i hmark
    exact ⟨h.address, fun _ => Bool.and_eq_true_iff.mp hmark⟩
  · exact h

theorem finishScope_guarded (hg : g.Coherent) {r : ScopeRecord} (hr : Records g r)
    (hguarded : g.Guarded) : (finishScope g r).Guarded := by
  have hconstants : Graph.Finishing g ((Constant.solve r.definitions).foldl setConstant g) :=
    Graph.Finishing.foldl _ hg fun entry _ g' hg' => setConstant_finishing hg'.coherent entry
  refine foldl_guarded _ markUntaintable_guarded ?_
  refine applyEffects_guarded _ hconstants.coherent ?_ ?_
  · exact fun a ha => (hr.applications a ha).finishing hconstants
  · exact foldl_guarded _ setConstant_guarded hguarded

theorem finishAll_guarded (rs : List ScopeRecord) (hg : g.Coherent)
    (hrs : ∀ r ∈ rs, Records g r) (hguarded : g.Guarded) : (rs.foldl finishScope g).Guarded := by
  induction rs generalizing g with
  | nil => exact hguarded
  | cons r rest ih =>
    have hr := hrs r List.mem_cons_self
    have hfinish := finishScope_finishing hg hr
    refine ih hfinish.coherent ?_ (finishScope_guarded hg hr hguarded)
    exact fun r' hr' => (hrs r' (List.mem_cons_of_mem _ hr')).mono hfinish.keeps

/-- In the graph of a program only protected constants are kept free of taint. -/
theorem guarded_of_collect {program : Node} (h : collect program = .ok g) : g.Guarded := by
  obtain ⟨rs, s, hwalk, rfl⟩ := collect_eq_ok h
  obtain ⟨_, hstands, _, _, hrecords⟩ := walkProgram_spec hwalk
  refine finishAll_guarded rs hstands.walked.coherent hrecords ?_
  intro id n hn
  have hnew := hstands.walked.nodes id n hn
  refine ⟨fun h => ?_, fun h => ?_⟩
  · cases hnew.isProtected.symm.trans h
  · cases hnew.isUntaintable.symm.trans h

end Flow

end YulTaint
