import Mathlib.Tactic
import YulTaint.Proofs.CallGraph.Completion
import YulTaint.Proofs.Flow.Touch
import YulTaint.Proofs.Taint.Addresses

/-!
The order of embeddings does not matter. Two runs that embed every site, each
when its callee has no open site, number their copies differently; but both
have one node for each way of calls and each node declared at its end. Nodes
at the same way are twins: they have the same attributes, and edges join twins
in both graphs alike. So taint reaches twins together, and the violations
differ in nothing that concerns the program.
-/

namespace YulTaint

open Relation (ReflTransGen)

namespace Resolver

variable {g : Graph} {k k₁ k₂ : Int} {r r' r₁ r₂ : Resolver} {c : TaintConfig}

/-- Two nodes of a scope in two runs that stand at the same way of calls, or are
the same memory word. -/
def Twins (g : Graph) (r₁ r₂ : Resolver) (name : String) (a b : NodeId) : Prop :=
  (∃ path chain last id, g.CallPath name path chain last ∧ g.Owns last id ∧
    a = r₁.place path id ∧ b = r₂.place path id) ∨ g.IsShared a ∧ a = b

theorem Twins.symm {name : String} {a b : NodeId} (h : Twins g r₁ r₂ name a b) :
    Twins g r₂ r₁ name b a := by
  rcases h with ⟨path, chain, last, id, hpath, hid, ha, hb⟩ | ⟨hshared, rfl⟩
  · exact Or.inl ⟨path, chain, last, id, hpath, hid, hb, ha⟩
  · exact Or.inr ⟨hshared, rfl⟩

theorem Twins.own {name : String} {s : Scope} {id : NodeId} (hs : g.scope? name = some s)
    (hid : id ∈ s.nodes) : Twins g r₁ r₂ name id id :=
  Or.inl ⟨[], [name], name, id, .here name, ⟨s, hs, hid⟩, rfl, rfl⟩

section Twins

variable {name : String} {ref : SiteRef} {site : CallSite} {a b : NodeId} {id : NodeId} {x : Edge}

/-- The copies that two runs make of twins are twins. -/
theorem Twins.image (h : Twins g r₁ r₂ site.callee a b) (h₁ : Inlined g k₁ r₁)
    (h₂ : Inlined g k₂ r₂) (hsite : g.site? ref = some site) :
    Twins g r₁ r₂ ref.scope (image (r₁.copiesAt ref) a) (image (r₂.copiesAt ref) b) := by
  rcases h with ⟨path, chain, last, id, hpath, hid, rfl, rfl⟩ | ⟨hshared, rfl⟩
  · exact Or.inl ⟨ref :: path, _, last, id, .call hsite hpath, hid, rfl, rfl⟩
  · have hsame {k : Int} {r : Resolver} (h : Inlined g k r) :
        Resolver.image (r.copiesAt ref) a = a := by
      obtain ⟨e, _, _, f, hinlines⟩ := h.exists_embedding hsite
      obtain ⟨n, hn, hnone⟩ := hshared
      exact (h.copiesAt_spec hsite hinlines.callee).2 a ⟨n, h.inlining.old a n hn, hnone⟩
    rw [hsame h₁, hsame h₂]
    exact Or.inr ⟨hshared, rfl⟩

/-- A copy comes after the node that it copies. -/
theorem Inlined.lt_image (h : Inlined g k r) (hsite : g.site? ref = some site) {f : Scope}
    (hf : r.graph.scope? site.callee = some f) (hid : id ∈ f.nodes) :
    id < Resolver.image (r.copiesAt ref) id := by
  obtain ⟨e, he, rfl, f', hinlines⟩ := h.exists_embedding hsite
  cases hf.symm.trans hinlines.callee
  obtain ⟨n, _, _, hcopy⟩ := hinlines.copies _ (hinlines.image hid)
  rw [h.resolving.copiesAt he]
  exact h.resolving.coherent.origins _ _ _ hcopy rfl

/-- An edge lies above the one it copies, which an induction over edges descends on. -/
theorem Inlined.image_sum_lt (h : Inlined g k r) (hsite : g.site? ref = some site) {f : Scope}
    (hf : r.graph.scope? site.callee = some f) (hx : x ∈ f.edges) :
    x.source + x.target < (x.map (Resolver.image (r.copiesAt ref))).source +
      (x.map (Resolver.image (r.copiesAt ref))).target := by
  have hatt := ((h.resolving.coherent.scopes _ f hf).edges x hx).2
  have hle {id : NodeId} (hid : id ∈ f.nodes ∨ r.graph.IsShared id) :
      id ≤ Resolver.image (r.copiesAt ref) id := by
    rcases hid with hid | hid
    · exact Nat.le_of_lt (h.lt_image hsite hf hid)
    · exact Nat.le_of_eq ((h.copiesAt_spec hsite hf).2 id hid).symm
  rcases hatt.own with hown | hown
  · exact Nat.add_lt_add_of_lt_of_le (h.lt_image hsite hf hown) (hle hatt.target)
  · exact Nat.add_lt_add_of_le_of_lt (hle hatt.source) (h.lt_image hsite hf hown)

/-- Wires of the same site join twins. -/
theorem exists_twin_wire (h₁ : Inlined g k₁ r₁) (h₂ : Inlined g k₂ r₂)
    (hsite : g.site? ref = some site) {f₁ f₂ : Scope} (hf₁ : r₁.graph.scope? site.callee = some f₁)
    (hf₂ : r₂.graph.scope? site.callee = some f₂) (hx : x ∈ wireEdges (r₁.copiesAt ref) site f₁) :
    ∃ y ∈ wireEdges (r₂.copiesAt ref) site f₂,
      Twins g r₁ r₂ ref.scope x.source y.source ∧ Twins g r₁ r₂ ref.scope x.target y.target := by
  obtain ⟨s₀, hs₀, hindex⟩ := Option.bind_eq_some_iff.mp hsite
  have hown := (h₁.collected.coherent.scopes _ s₀ hs₀).sites site (List.mem_of_getElem? hindex)
  obtain ⟨f₀, hf₀, hroot₁, hparams₁, hreturns₁, _⟩ := h₁.resolving.scope _ f₁ hf₁
  obtain ⟨f₀', hf₀', hroot₂, hparams₂, hreturns₂, _⟩ := h₂.resolving.scope _ f₂ hf₂
  cases hf₀.symm.trans hf₀'
  have hcallee := h₁.collected.coherent.scopes _ f₀ hf₀
  have hcopy {id : NodeId} (hid : id ∈ f₀.nodes) :=
    (Twins.own hf₀ hid : Twins g r₁ r₂ _ id id).image h₁ h₂ hsite
  simp only [wireEdges, hparams₁, hreturns₁, hroot₁, hparams₂, hreturns₂, hroot₂,
    List.mem_append, List.mem_map, List.mem_singleton] at hx ⊢
  rcases hx with (⟨⟨arg, param⟩, hmem, rfl⟩ | ⟨⟨ret, result⟩, hmem, rfl⟩) | rfl
  · obtain ⟨harg, hparam⟩ := List.of_mem_zip hmem
    exact ⟨_, Or.inl (Or.inl ⟨(arg, param), hmem, rfl⟩),
      Twins.own hs₀ (hown.arguments arg harg), hcopy (hcallee.params param hparam)⟩
  · obtain ⟨hret, hresult⟩ := List.of_mem_zip hmem
    exact ⟨_, Or.inl (Or.inr ⟨(ret, result), hmem, rfl⟩),
      hcopy (hcallee.returns ret hret), Twins.own hs₀ (hown.results result hresult)⟩
  · exact ⟨_, Or.inr rfl, Twins.own hs₀ hown.block, hcopy hcallee.root⟩

/-- Edges of a scope join twins in both runs alike. -/
theorem exists_twin_edge (h₁ : Inlined g k₁ r₁) (h₂ : Inlined g k₂ r₂) {s₁ s₂ : Scope}
    (hs₁ : r₁.graph.scope? name = some s₁) (hs₂ : r₂.graph.scope? name = some s₂)
    (hx : x ∈ s₁.edges) :
    ∃ y ∈ s₂.edges, Twins g r₁ r₂ name x.source y.source ∧
      Twins g r₁ r₂ name x.target y.target := by
  -- the ends of a copied edge lie before those of the copy
  induction hsum : x.source + x.target using Nat.strong_induction_on generalizing name s₁ s₂ x with
  | _ sum ih =>
    subst hsum
    obtain ⟨s₀, hs₀, _⟩ := h₁.resolving.scope name s₁ hs₁
    rcases (h₁.mem_edges hs₀ hs₁ x).mp hx with hx | ⟨i, site, f₁, hindex, hf₁, hx⟩
    · have hatt := ((h₁.collected.coherent.scopes name s₀ hs₀).edges x hx).2
      have hend {id : NodeId} (hid : id ∈ s₀.nodes ∨ g.IsShared id) :
          Twins g r₁ r₂ name id id := by
        rcases hid with hid | hid
        · exact Twins.own hs₀ hid
        · exact Or.inr ⟨hid, rfl⟩
      exact ⟨x, (h₂.mem_edges hs₀ hs₂ x).mpr (Or.inl hx), hend hatt.source, hend hatt.target⟩
    · have hsite : g.site? ⟨name, i⟩ = some site := (Graph.site?_of_scope? hs₀).trans hindex
      obtain ⟨e, _, _, f₂, hinlines⟩ := h₂.exists_embedding hsite
      have hf₂ := hinlines.callee
      rcases hx with hx | hx
      · obtain ⟨x', hx', rfl⟩ := List.mem_map.mp hx
        obtain ⟨y', hy', hsource, htarget⟩ :=
          ih _ (h₁.image_sum_lt hsite hf₁ hx') hf₁ hf₂ hx' rfl
        refine ⟨y'.map (Resolver.image (r₂.copiesAt ⟨name, i⟩)), ?_,
          hsource.image h₁ h₂ hsite, htarget.image h₁ h₂ hsite⟩
        exact (h₂.mem_edges hs₀ hs₂ _).mpr
          (Or.inr ⟨i, site, f₂, hindex, hf₂, Or.inl (List.mem_map_of_mem hy')⟩)
      · obtain ⟨y, hy, htwins⟩ := exists_twin_wire h₁ h₂ hsite hf₁ hf₂ hx
        exact ⟨y, (h₂.mem_edges hs₀ hs₂ y).mpr
          (Or.inr ⟨i, site, f₂, hindex, hf₂, Or.inr hy⟩), htwins⟩

theorem Inlined.scope_place (h : Inlined g k r) {last : String} {path : List SiteRef}
    {chain : List String} (hpath : g.CallPath name path chain last) (hid : g.Owns last id) :
    ∃ m, r.graph.node? (r.place path id) = some m ∧ m.scope = some name := by
  obtain ⟨s, _, _, hs, hmem, _⟩ := h.place_spec hpath (h.declares.mpr hid)
  obtain ⟨m, hm, hscope⟩ := ((h.resolving.coherent.scopes _ s hs).owns _).mp hmem
  exact ⟨m, hm, hscope.trans (congrArg some (Graph.name_of_scope? hs))⟩

/-- The node at a way is a copy, and a violation there names the original and the
scopes passed. -/
theorem Inlined.keyAt_place (h : Inlined g k r) {last : String} {path : List SiteRef}
    {chain : List String} {n : FlowNode} (hpath : g.CallPath name path chain last)
    (hid : g.Owns last id) (hn : g.node? id = some n) :
    ∃ m, r.graph.node? (r.place path id) = some m ∧ m.Resembles n ∧
      Violation.keyAt r.graph (r.place path id) = (n.name, chain, n.loc) := by
  obtain ⟨s, m, n', _, _, hn', hm, hdeclared, hchain, hres⟩ :=
    h.place_spec hpath (h.declares.mpr hid)
  obtain rfl : n' = n := Option.some.inj (hn'.symm.trans (h.inlining.old id n hn))
  refine ⟨m, hm, hres, ?_⟩
  simp [Violation.keyAt, hdeclared, hn', hm, hchain, hres.loc]

/-- Twins look alike, and a violation says the same of both. -/
theorem Twins.resembles (h : Twins g r₁ r₂ name a b) (h₁ : Inlined g k₁ r₁)
    (h₂ : Inlined g k₂ r₂) :
    ∃ m₁ m₂, r₁.graph.node? a = some m₁ ∧ r₂.graph.node? b = some m₂ ∧ m₁.Resembles m₂ ∧
      Violation.keyAt r₁.graph a = Violation.keyAt r₂.graph b := by
  have hlike {k : Int} {r : Resolver} (h : Inlined g k r) {n : FlowNode} {id : NodeId}
      (hn : g.node? id = some n) : r.graph.node? id = some n :=
    h.inlining.old id n hn
  rcases h with ⟨path, chain, last, id, hpath, hid, rfl, rfl⟩ | ⟨⟨n, hn, hnone⟩, rfl⟩
  · obtain ⟨n, hn⟩ := Graph.node?_isSome (hid.lt_size h₁.collected.coherent)
    obtain ⟨m₁, hm₁, hres₁, hkey₁⟩ := h₁.keyAt_place hpath hid hn
    obtain ⟨m₂, hm₂, hres₂, hkey₂⟩ := h₂.keyAt_place hpath hid hn
    exact ⟨m₁, m₂, hm₁, hm₂, hres₁.trans hres₂.symm, hkey₁.trans hkey₂.symm⟩
  · have hkey {k : Int} {r : Resolver} (h : Inlined g k r) :
        Violation.keyAt r.graph a = (n.name, n.callChain, n.loc) := by
      have hdeclared := Graph.declared_of_none (hlike h hn) (h₁.collected.nodes a n hn).1
      simp [Violation.keyAt, hdeclared, hlike h hn]
    exact ⟨n, n, hlike h₁ hn, hlike h₂ hn, ⟨rfl, rfl, rfl, rfl, rfl, rfl⟩,
      (hkey h₁).trans (hkey h₂).symm⟩

/-- A node has at most one twin. -/
theorem Twins.unique {name' : String} {b' : NodeId} (h : Twins g r₁ r₂ name a b)
    (h' : Twins g r₁ r₂ name' a b') (h₁ : Inlined g k₁ r₁) : b = b' := by
  have hplace {name last : String} {path : List SiteRef} {chain : List String} {id : NodeId}
      (hpath : g.CallPath name path chain last) (hid : g.Owns last id)
      (ha : a = r₁.place path id) {n : FlowNode} (hn : r₁.graph.node? a = some n) :
      n.scope = some name := by
    obtain ⟨m, hm, hscope⟩ := h₁.scope_place hpath hid
    rwa [Option.some.inj (hn.symm.trans (ha ▸ hm))]
  have hshared (ha : g.IsShared a) {n : FlowNode} (hn : r₁.graph.node? a = some n) :
      n.scope = none := by
    obtain ⟨m, hm, hnone⟩ := ha
    rwa [Option.some.inj (hn.symm.trans (h₁.inlining.old a m hm))]
  rcases h with ⟨path, chain, last, id, hpath, hid, ha, rfl⟩ | ⟨ha, rfl⟩
  · obtain ⟨n, hn, hscope⟩ := h₁.scope_place hpath hid
    rw [← ha] at hn
    rcases h' with ⟨path', chain', last', id', hpath', hid', ha', rfl⟩ | ⟨ha', rfl⟩
    · obtain rfl : name = name' :=
        Option.some.inj (hscope.symm.trans (hplace hpath' hid' ha' hn))
      obtain ⟨rfl, rfl⟩ := h₁.place_injective hpath (h₁.declares.mpr hid) hpath'
        (h₁.declares.mpr hid') (ha.symm.trans ha')
      rfl
    · rw [hshared ha' hn] at hscope
      cases hscope
  · rcases h' with ⟨path', chain', last', id', hpath', hid', ha', rfl⟩ | ⟨_, rfl⟩
    · obtain ⟨n, hn, hscope⟩ := h₁.scope_place hpath' hid'
      rw [← ha'] at hn
      rw [hshared ha hn] at hscope
      cases hscope
    · rfl

/-- Every node of one run has a twin in any other. -/
theorem Completes.exists_twin (h₁ : Completes g k₁ r₁) (r₂ : Resolver) (hg : g.Collected)
    {n : FlowNode} (hn : r₁.graph.node? a = some n) : ∃ name b, Twins g r₁ r₂ name a b := by
  rcases h₁.place_or_shared hg hn with
    ⟨name, path, chain, last, id, _, hpath, hid, ha⟩ | ⟨_, hshared⟩
  · exact ⟨name, r₂.place path id, Or.inl ⟨path, chain, last, id, hpath, hid, ha, rfl⟩⟩
  · exact ⟨"", a, Or.inr ⟨hshared, rfl⟩⟩

theorem Twins.canTaint (h : Twins g r₁ r₂ name a b) (h₁ : Inlined g k₁ r₁)
    (h₂ : Inlined g k₂ r₂) (ha : Taint.CanTaint r₁.graph a) : Taint.CanTaint r₂.graph b := by
  obtain ⟨m₁, m₂, hm₁, hm₂, hres, _⟩ := h.resembles h₁ h₂
  exact ha.of_eq hm₁ hm₂ hres.isUntaintable.symm

/-- Twins are sources together. -/
theorem Twins.source (h : Twins g r₁ r₂ name a b) (h₁ : Inlined g k₁ r₁) (h₂ : Inlined g k₂ r₂)
    {c : TaintConfig}
    (ha : a ∈ parameterSources c r₁.graph ++ builtinSources c r₁.graph) :
    b ∈ parameterSources c r₂.graph ++ builtinSources c r₂.graph := by
  rcases List.mem_append.mp ha with hparam | hbuiltin
  · -- parameters are declared, so they are their own twins
    obtain ⟨s₁, hs₁, hparam⟩ := List.mem_flatMap.mp hparam
    obtain ⟨hmem₁, htaints⟩ := List.mem_filter.mp hs₁
    have hscope₁ := Graph.scope?_of_mem h₁.resolving.coherent.names hmem₁
    obtain ⟨s₀, hs₀, _, hparams₁, _⟩ := h₁.resolving.scope _ s₁ hscope₁
    rw [hparams₁] at hparam
    have hown := (h₁.collected.coherent.scopes _ s₀ hs₀).params a hparam
    obtain rfl := (Twins.own hs₀ hown).unique h h₁
    obtain ⟨s₂, hs₂⟩ := Graph.mem_scopeNames.mp
      (h₂.resolving.scopeNames ▸ Graph.mem_scopeNames.mpr ⟨s₀, hs₀⟩)
    obtain ⟨s₀', hs₀', _, hparams₂, _⟩ := h₂.resolving.scope _ s₂ hs₂
    cases hs₀.symm.trans hs₀'
    refine List.mem_append_left _ (List.mem_flatMap.mpr ⟨s₂, List.mem_filter.mpr ⟨?_, ?_⟩, ?_⟩)
    · exact Graph.mem_scopes_of_scope? hs₂
    · simpa [Scope.isMain, Graph.name_of_scope? hs₂] using htaints
    · rw [hparams₂]
      exact hparam
  · obtain ⟨m₁, m₂, hm₁, hm₂, hres, _⟩ := h.resembles h₁ h₂
    apply List.mem_append_right
    exact Taint.builtinSources_of_eq hbuiltin hm₁ hm₂ hres.isSource.symm

/-- Taint that reaches a node in one run reaches its twin in the other. -/
theorem exists_twin_reached (h₁ : Completes g k₁ r₁) (h₂ : Completes g k₂ r₂) (hg : g.Collected)
    {c : TaintConfig} {ids₁ ids₂ : List NodeId}
    (hids₁ : ∀ id, id ∈ ids₁ ↔ id ∈ parameterSources c r₁.graph ++ builtinSources c r₁.graph)
    (hids₂ : ∀ id, id ∈ ids₂ ↔ id ∈ parameterSources c r₂.graph ++ builtinSources c r₂.graph)
    (h : Taint.Reaches r₁.graph ids₁ a) :
    ∃ name b, Twins g r₁ r₂ name a b ∧ Taint.Reaches r₂.graph ids₂ b := by
  have hin₁ := h₁.inlined hg
  have hin₂ := h₂.inlined hg
  induction h with
  | @source id hid hcan =>
    have hnode := hcan
    obtain ⟨n, hn, _⟩ := hnode
    obtain ⟨name, b, htwins⟩ := h₁.exists_twin r₂ hg hn
    refine ⟨name, b, htwins, .source ?_ (htwins.canTaint hin₁ hin₂ hcan)⟩
    exact (hids₂ b).mpr (htwins.source hin₁ hin₂ ((hids₁ _).mp hid))
  | @edge a b _ hedge hcan ih =>
    obtain ⟨_, a', htwins, hreach⟩ := ih
    obtain ⟨name, s₁, hs₁, hx⟩ := hin₁.resolving.coherent.edges _ hedge
    obtain ⟨s₂, hs₂⟩ := Graph.mem_scopeNames.mp (hin₂.resolving.scopeNames ▸
      hin₁.resolving.scopeNames ▸ Graph.mem_scopeNames.mpr ⟨s₁, hs₁⟩)
    obtain ⟨y, hy, hsource, htarget⟩ := exists_twin_edge hin₁ hin₂ hs₁ hs₂ hx
    obtain rfl := htwins.unique hsource hin₁
    have hyedge := ((hin₂.resolving.coherent.scopes name s₂ hs₂).edges y hy).1
    exact ⟨name, y.target, htarget, .edge hreach hyedge (htarget.canTaint hin₁ hin₂ hcan)⟩

end Twins

theorem initialSources_unnamed (hnamed : c.namedVariables = []) (g : Graph) :
    ∃ ids, initialSources c g = .ok ids ∧
      ∀ id, id ∈ ids ↔ id ∈ parameterSources c g ++ builtinSources c g := by
  refine ⟨ascendingIds (parameterSources c g ++ builtinSources c g ++ []), ?_, ?_⟩
  · simp only [initialSources, TaintConfig.variableNames, hnamed]
    rfl
  · intro id
    rw [mem_ascendingIds, List.append_nil]

theorem Completes.callChain_ne_nil (h : Completes g k r) (hg : g.Collected)
    (hguarded : g.Guarded) {id : NodeId} {n : FlowNode} (hn : r.graph.node? id = some n)
    (hprotected : n.isProtected = true) : n.callChain ≠ [] := by
  have hin := h.inlined hg
  obtain ⟨name, _, htwins⟩ := h.exists_twin r hg hn
  rcases htwins with ⟨path, chain, last, d, hpath, hd, rfl, _⟩ | ⟨⟨m, hm, hnone⟩, _⟩
  · obtain ⟨_, m, _, _, _, _, hm, _, hchain, _⟩ := hin.place_spec hpath (hin.declares.mpr hd)
    cases hn.symm.trans hm
    rw [hchain]
    cases hpath with
    | here => exact List.cons_ne_nil _ _
    | call => exact List.cons_ne_nil _ _
  · obtain rfl : n = m := Option.some.inj (hn.symm.trans (hin.inlining.old id m hm))
    exact absurd hnone ((hguarded id n hm).address hprotected)

/-- What is reported of a run: the storage addresses that taint reaches. -/
structure Finds (c : TaintConfig) (r : Resolver) (ids addresses : List NodeId)
    (vs : List Violation) : Prop where
  sources : ∀ id, id ∈ ids ↔ id ∈ parameterSources c r.graph ++ builtinSources c r.graph
  nodup : addresses.Nodup
  mem : ∀ id, id ∈ addresses ↔ Taint.Reaches r.graph ids id ∧
    ∃ n, r.graph.node? id = some n ∧ n.kind = .var ∧ n.isProtected = true
  keys : vs.map Violation.key = addresses.map (Violation.keyAt r.graph)

/-- A completed run leads to a report. -/
theorem Completes.exists_finds (h : Completes g k r) (hg : g.Collected) (hguarded : g.Guarded)
    (hnamed : c.namedVariables = []) (hstop : c.stopAtFirst = false) :
    ∃ t g' vs ids addresses, Taint.propagate c r.graph = .ok t g' ∧
      Violation.check c g' (some t) = .ok vs ∧ Finds c r ids addresses vs := by
  have hwf := (h.inlined hg).resolving.coherent.wellFormed
  obtain ⟨ids, hids, hsources⟩ := initialSources_unnamed hnamed r.graph
  obtain ⟨t, hrun, _, hreach⟩ := Taint.propagate_spec hwf c hids
  obtain ⟨vs, hkeys, _, hcheck⟩ := Violation.check_spec (Taint.propagate_parents hwf hrun)
    fun id n hn hprotected => h.callChain_ne_nil hg hguarded hn hprotected
  refine ⟨t, _, vs, ids, _, hrun, ?_, hsources, Violation.nodup_taintedAddresses _, ?_, hkeys⟩
  · rw [hcheck, hstop]
    rfl
  · intro id
    rw [Violation.mem_taintedAddresses, hreach]

/-- Of a reported address the twin is reported too. -/
theorem Finds.exists_twin {ids₁ ids₂ as₁ as₂ : List NodeId} {vs₁ vs₂ : List Violation}
    (hr₁ : Finds c r₁ ids₁ as₁ vs₁) (hr₂ : Finds c r₂ ids₂ as₂ vs₂) (h₁ : Completes g k₁ r₁)
    (h₂ : Completes g k₂ r₂) (hg : g.Collected) {a : NodeId} (ha : a ∈ as₁) :
    ∃ b ∈ as₂, ∃ name, Twins g r₁ r₂ name a b := by
  obtain ⟨hreach, n, hn, hkind, hprotected⟩ := (hr₁.mem a).mp ha
  obtain ⟨name, b, htwins, hreach'⟩ :=
    exists_twin_reached h₁ h₂ hg hr₁.sources hr₂.sources hreach
  obtain ⟨m₁, m₂, hm₁, hm₂, hres, _⟩ := htwins.resembles (h₁.inlined hg) (h₂.inlined hg)
  cases hn.symm.trans hm₁
  exact ⟨b, (hr₂.mem b).mpr ⟨hreach', m₂, hm₂, hres.kind ▸ hkind, hres.isProtected ▸ hprotected⟩,
    name, htwins⟩

/-- Whatever the order in which the calls of a program without recursion are
embedded, each when its callee has no open site, propagation and check report
the same violations; resolution is one such order. -/
theorem violations_perm {program : Node} {g : Graph} (hg : Flow.collect program = .ok g)
    (hacyclic : ∀ f, ¬ g.IsRecursive f) {c : TaintConfig} (hnamed : c.namedVariables = [])
    (hstop : c.stopAtFirst = false) :
    (∀ k, ∃ r, resolve { graph := g, nextIndex := k } = .ok () r ∧ Completes g k r) ∧
    ∀ k₁ k₂ r₁ r₂, Completes g k₁ r₁ → Completes g k₂ r₂ →
      ∃ t₁ g₁ vs₁ t₂ g₂ vs₂,
        Taint.propagate c r₁.graph = .ok t₁ g₁ ∧ Violation.check c g₁ (some t₁) = .ok vs₁ ∧
        Taint.propagate c r₂.graph = .ok t₂ g₂ ∧ Violation.check c g₂ (some t₂) = .ok vs₂ ∧
        (vs₁.map Violation.key).Perm (vs₂.map Violation.key) := by
  have hcollected := Flow.collected_of_collect hg
  have hguarded := Flow.guarded_of_collect hg
  refine ⟨exists_completes hcollected hacyclic, ?_⟩
  intro k₁ k₂ r₁ r₂ h₁ h₂
  obtain ⟨t₁, g₁, vs₁, ids₁, as₁, hrun₁, hcheck₁, hr₁⟩ :=
    h₁.exists_finds hcollected hguarded hnamed hstop
  obtain ⟨t₂, g₂, vs₂, ids₂, as₂, hrun₂, hcheck₂, hr₂⟩ :=
    h₂.exists_finds hcollected hguarded hnamed hstop
  refine ⟨t₁, g₁, vs₁, t₂, g₂, vs₂, hrun₁, hcheck₁, hrun₂, hcheck₂, ?_⟩
  have hin₁ := h₁.inlined hcollected
  have hin₂ := h₂.inlined hcollected
  rw [hr₁.keys, hr₂.keys]
  refine perm_map_of_matching (R := fun a b => ∃ name, Twins g r₁ r₂ name a b)
    hr₁.nodup hr₂.nodup ?_ ?_ ?_ ?_ ?_
  · exact fun a ha => hr₁.exists_twin hr₂ h₁ h₂ hcollected ha
  · intro b hb
    obtain ⟨a, ha, name, htwins⟩ := hr₂.exists_twin hr₁ h₂ h₁ hcollected hb
    exact ⟨a, ha, name, htwins.symm⟩
  · rintro a b b' ⟨_, h⟩ ⟨_, h'⟩
    exact h.unique h' hin₁
  · rintro a a' b ⟨_, h⟩ ⟨_, h'⟩
    exact h.symm.unique h'.symm hin₂
  · rintro a b ⟨_, h⟩
    obtain ⟨_, _, _, _, _, hkey⟩ := h.resembles hin₁ hin₂
    exact hkey

/-- Embed given sites in turn, each of them open and with a resolved callee. -/
def embedAll : List SiteRef → Resolver → Option Resolver
  | [], r => some r
  | ref :: rest, r =>
    match r.graph.site? ref with
    | none => none
    | some site =>
      if !site.resolved && (r.graph.scope? site.callee).all (·.isResolved) then
        match embed ref site r with
        | .ok _ r => embedAll rest r
        | .error .. => none
      else none

theorem embedsReady_of_embedAll {refs : List SiteRef} (h : embedAll refs r = some r') :
    ReflTransGen EmbedsReady r r' := by
  induction refs generalizing r with
  | nil =>
    cases h
    exact .refl
  | cons ref rest ih =>
    rw [embedAll] at h
    split at h
    · cases h
    · rename_i site hsite
      split at h
      · rename_i hready
        simp only [Bool.and_eq_true, Bool.not_eq_true'] at hready
        cases hembed : embed ref site r with
        | error failure next =>
          simp only [hembed] at h
          cases h
        | ok e next =>
          simp only [hembed] at h
          refine .head ⟨ref, site, e, hsite, hready.1, ?_, hembed⟩ (ih h)
          intro s hs
          simpa [hs] using hready.2
      · cases h

/-- A function that stores to the address it is given, called twice. -/
def storingProgram : Node :=
  .program "storing" [
    .function "f" ["p"] [] (.block [.expression
      (.call "sstore" [.identifier "p" {}, .literal (.integer 0) {}] {}) {}] {}) {},
    .expression (.call "f" [.call "calldataload" [.literal (.integer 0) {}] {}] {}) {},
    .expression (.call "f" [.literal (.integer 1) {}] {}) {}] {}

def storingOrders : List SiteRef × List SiteRef :=
  ([⟨mainScope, 0⟩, ⟨mainScope, 1⟩], [⟨mainScope, 1⟩, ⟨mainScope, 0⟩])

theorem runs_storingProgram : (Flow.collect storingProgram).toOption.any fun g =>
    (g.scopes.all fun s => s.sites.all fun site =>
      decide (s.name = mainScope ∧ site.callee = "f")) &&
    (embedAll storingOrders.1 { graph := g }).any (fun r => isDone r.graph) &&
    (embedAll storingOrders.2 { graph := g }).any (fun r => isDone r.graph) := by
  decide +kernel

theorem violations_perm_storingProgram :
    ∃ g r₁ r₂ t₁ g₁ vs₁ t₂ g₂ vs₂, Flow.collect storingProgram = .ok g ∧
      embedAll storingOrders.1 { graph := g } = some r₁ ∧
      embedAll storingOrders.2 { graph := g } = some r₂ ∧
      Taint.propagate {} r₁.graph = .ok t₁ g₁ ∧ Violation.check {} g₁ (some t₁) = .ok vs₁ ∧
      Taint.propagate {} r₂.graph = .ok t₂ g₂ ∧ Violation.check {} g₂ (some t₂) = .ok vs₂ ∧
      (vs₁.map Violation.key).Perm (vs₂.map Violation.key) := by
  obtain ⟨g, hg, hruns⟩ := Flow.exists_collect runs_storingProgram
  simp only [Bool.and_eq_true] at hruns
  obtain ⟨⟨hcalls, hrun₁⟩, hrun₂⟩ := hruns
  have hacyclic : ∀ f, ¬ g.IsRecursive f := by
    apply @Graph.not_isRecursive_of_rank g fun name => if name = mainScope then 0 else 1
    rintro a b ⟨s, hs, site, hsite, rfl⟩
    have hscope := List.all_eq_true.mp hcalls s (Graph.mem_scopes_of_scope? hs)
    obtain ⟨hmain, hcallee⟩ := of_decide_eq_true (List.all_eq_true.mp hscope site hsite)
    rw [Graph.name_of_scope? hs] at hmain
    simp [hmain, hcallee, mainScope]
  obtain ⟨r₁, hr₁, hdone₁⟩ := (Option.any_eq_true _ _).mp hrun₁
  obtain ⟨r₂, hr₂, hdone₂⟩ := (Option.any_eq_true _ _).mp hrun₂
  obtain ⟨_, hperm⟩ := violations_perm hg hacyclic (c := {}) rfl rfl
  obtain ⟨t₁, g₁, vs₁, t₂, g₂, vs₂, h⟩ := hperm 0 0 r₁ r₂
    ⟨embedsReady_of_embedAll hr₁, List.isEmpty_iff.mp hdone₁⟩
    ⟨embedsReady_of_embedAll hr₂, List.isEmpty_iff.mp hdone₂⟩
  exact ⟨g, r₁, r₂, t₁, g₁, vs₁, t₂, g₂, vs₂, hg, hr₁, hr₂, h⟩

end Resolver

end YulTaint
