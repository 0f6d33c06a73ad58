import Mathlib.Tactic
import YulTaint.Proofs.CallGraph.Places
import YulTaint.Proofs.CallGraph.Representation

/-!
Variables named one by one as sources, in a graph whose calls are resolved. A name
is looked up in the table of its scope once all embeddings are made, so it stands
for one node: the variable that the scope declares, unless a copy has taken the
name. Copies of a named variable are no sources on that account. What comes from
outside the program is different: the mark is copied, so taint that reaches a
variable from there reaches each of its copies.
-/

namespace YulTaint

open Relation (ReflTransGen)

namespace Resolver

section Copies

variable {g : Graph} {k : Int} {r : Resolver} {ref : SiteRef} {site : CallSite} {c : TaintConfig}
  {name last : String} {path : List SiteRef} {chain : List String} {s₀ s f : Scope} {a id : NodeId}

theorem size_le_of_run (h : ReflTransGen Advances { graph := g, nextIndex := k } r) :
    g.size ≤ r.graph.size := by
  induction h with
  | refl => exact Nat.le_refl _
  | tail _ hstep ih =>
    obtain ⟨_, _, _, _, _, hstep⟩ := hstep
    exact ih.trans hstep.embeds.growth.size

/-- A name stands for what it stood for at the start, or for a copy of that name. -/
theorem rebinds_of_run (h : ReflTransGen Advances { graph := g, nextIndex := k } r)
    (hs₀ : g.scope? name = some s₀) (hs : r.graph.scope? name = some s) :
    s₀.Rebinds s g r.graph := by
  induction h generalizing s with
  | refl =>
    cases hs₀.symm.trans hs
    exact fun _ => Or.inl rfl
  | tail hrun hstep ih =>
    obtain ⟨ref, _, _, _, _, hstep⟩ := hstep
    have hgrowth := hstep.embeds.growth
    by_cases hname : name = ref.scope
    · subst hname
      exact (ih hstep.caller).trans (hstep.embeds.names s hs) (size_le_of_run hrun)
        fun _ _ => hgrowth.node?
    · rw [hgrowth.others name hname] at hs
      exact (ih hs).trans (fun _ => Or.inl rfl) (size_le_of_run hrun) fun _ _ => hgrowth.node?

/-- A node that was made by embeddings is a copy. -/
theorem Inlined.exists_origin (h : Inlined g k r) (hs : r.graph.scope? name = some s)
    (hid : id ∈ s.nodes) (hnew : g.size ≤ id) :
    ∃ n o, r.graph.node? id = some n ∧ n.origin = some o := by
  obtain ⟨n, hn, _⟩ := ((h.resolving.coherent.scopes name s hs).owns id).mp hid
  cases horigin : n.origin with
  | some o => exact ⟨n, o, hn, horigin⟩
  | none =>
    obtain ⟨s₀, hs₀, hmem⟩ := h.declares.mp ⟨s, n, hs, hid, hn, horigin⟩
    have hlt := Graph.Coherent.lt_size (h.collected.coherent.scopes name s₀ hs₀) hmem
    exact absurd hlt (Nat.not_lt.mpr hnew)

/-- The name of a declared variable stands for that variable, or for a copy that
has taken the name. -/
theorem Completes.namedSource (h : Completes g k r) (hg : g.Collected)
    (hs₀ : g.scope? name = some s₀) {x : String} (hid : s₀.lookup? x = some id) :
    ∃ b, YulTaint.namedSource r.graph (name, x) = .ok b ∧
      (b = id ∨ ∃ n o, r.graph.node? b = some n ∧ n.name = x ∧ n.origin = some o) := by
  have hin := h.inlined hg
  obtain ⟨s, hs⟩ := hin.scope hs₀
  have hnamed (b : NodeId) (hb : s.lookup? x = some b) :
      YulTaint.namedSource r.graph (name, x) = .ok b := by
    simp [YulTaint.namedSource, hs, hb]
  rcases rebinds_of_run (advances_of_embedsReady hg h.run) hs₀ hs x with
    hsame | ⟨b, n, hb, hnew, hn, hname⟩
  · exact ⟨id, hnamed id (hsame.trans hid), Or.inl rfl⟩
  · have hmem := (hin.resolving.coherent.scopes name s hs).names _ (mem_of_lookup_eq_some hb)
    obtain ⟨n', o, hn', horigin⟩ := hin.exists_origin hs hmem hnew
    cases hn.symm.trans hn'
    exact ⟨b, hnamed b hb, Or.inr ⟨n, o, hn, hname, horigin⟩⟩

/-- The copies of a node stand at the ways of calls to its scope. -/
theorem Completes.exists_place (h : Completes g k r) (hg : g.Collected) (hid : g.Owns last id)
    (ha : r.graph.declared a = id) :
    ∃ name path chain, g.CallPath name path chain last ∧ a = r.place path id := by
  have hin := h.inlined hg
  cases hnode : r.graph.node? a with
  | none =>
    -- what is no node is its own declaration, but the declaration is a node
    have hself : r.graph.declared a = a := by rw [Graph.declared, hnode, Option.bind_none]
    obtain ⟨n, hn⟩ := Graph.node?_isSome (hid.lt_size hg.coherent)
    rw [← ha, hself] at hn
    cases hnode.symm.trans (hin.inlining.old a n hn)
  | some n =>
    rcases h.place_or_shared hg hnode with
      ⟨name, path, chain, last', id', _, hpath, hid', rfl⟩ | ⟨_, m, hm, hnone⟩
    · obtain ⟨_, _, _, _, _, _, _, hdeclared, _⟩ := hin.place_spec hpath (hin.declares.mpr hid')
      obtain rfl : id' = id := hdeclared.symm.trans ha
      obtain rfl : last' = last := hid'.unique hid hg.coherent
      exact ⟨name, path, chain, hpath, rfl⟩
    · -- a memory word is its own declaration, but no scope has it
      have hself := Graph.declared_of_none (hin.inlining.old a m hm) (hg.nodes a m hm).1
      obtain rfl : a = id := hself.symm.trans ha
      obtain ⟨t, ht, hmem⟩ := hid
      exact absurd hmem (Graph.IsShared.not_mem (hg.coherent.scopes _ t ht) ⟨m, hm, hnone⟩)

/-- Parameters are declared. -/
theorem Inlined.declared_of_parameter (h : Inlined g k r) (ha : a ∈ parameterSources c r.graph) :
    r.graph.declared a = a := by
  obtain ⟨s, hs, hparam⟩ := List.mem_flatMap.mp ha
  have hscope := Graph.scope?_of_mem h.resolving.coherent.names (List.mem_filter.mp hs).1
  obtain ⟨s₀, hs₀, _, hparams, _⟩ := h.resolving.scope _ s hscope
  have hmem := (h.collected.coherent.scopes _ s₀ hs₀).params a (hparams ▸ hparam)
  obtain ⟨n, hn, _⟩ := ((h.collected.coherent.scopes _ s₀ hs₀).owns a).mp hmem
  exact Graph.declared_of_none (h.inlining.old a n hn) (h.collected.nodes a n hn).1

/-- An edge into a node of a scope is an edge of the scope. -/
theorem mem_edges_of_target (h : r.graph.Coherent) (hf : f ∈ r.graph.scopes) {x : Edge}
    (hx : x ∈ r.graph.edges) (htarget : x.target ∈ f.nodes) : x ∈ f.edges := by
  obtain ⟨name, s, hs, hmem⟩ := h.edges x hx
  rcases ((h.scopes name s hs).edges x hmem).2.target with hown | hshared
  · rwa [h.scope_unique (Graph.mem_scopes_of_scope? hs) hf hown htarget]
  · exact absurd htarget (hshared.not_mem (h.scope hf))

theorem Inlined.image_resembles (h : Inlined g k r) (hsite : g.site? ref = some site)
    (hf : r.graph.scope? site.callee = some f) (ha : a ∈ f.nodes) :
    ∃ n m, r.graph.node? a = some n ∧ r.graph.node? (image (r.copiesAt ref) a) = some m ∧
      m.Resembles n := by
  have hplace : r.place [] a ∈ f.nodes := ha
  obtain ⟨_, _, _, _, n, _, _, _, hn, hcopy⟩ := h.place_cons hsite hf hplace
  exact ⟨n, _, hn, hcopy, ⟨rfl, rfl, rfl, rfl, rfl, rfl⟩⟩

theorem Inlined.image_eq_self (h : Inlined g k r) (hsite : g.site? ref = some site)
    (hf : r.graph.scope? site.callee = some f) (ha : a ∉ f.nodes) :
    image (r.copiesAt ref) a = a := by
  rw [← (h.copiesAt_spec hsite hf).1] at ha
  rw [image, lookup_eq_none_of_not_mem ha, Option.getD_none]

theorem Inlined.canTaint_image (h : Inlined g k r) (hsite : g.site? ref = some site)
    (hf : r.graph.scope? site.callee = some f) (ha : Taint.CanTaint r.graph a) :
    Taint.CanTaint r.graph (image (r.copiesAt ref) a) := by
  by_cases hmem : a ∈ f.nodes
  · obtain ⟨n, m, hn, hm, hlike⟩ := h.image_resembles hsite hf hmem
    exact ha.of_eq hn hm hlike.isUntaintable
  · rwa [h.image_eq_self hsite hf hmem]

theorem Inlined.source_image (h : Inlined g k r) (hsite : g.site? ref = some site)
    (hf : r.graph.scope? site.callee = some f) (ha : a ∈ builtinSources c r.graph) :
    image (r.copiesAt ref) a ∈ builtinSources c r.graph := by
  by_cases hmem : a ∈ f.nodes
  · obtain ⟨n, m, hn, hm, hlike⟩ := h.image_resembles hsite hf hmem
    exact Taint.builtinSources_of_eq ha hn hm hlike.isSource
  · rwa [h.image_eq_self hsite hf hmem]

/-- Taint from outside that reaches a node of a callee reaches its copy at each
call: sources are copied as sources, and edges as edges. -/
theorem Inlined.reaches_image (h : Inlined g k r) (hsite : g.site? ref = some site)
    (ha : Taint.Reaches r.graph (builtinSources c r.graph) a) :
    Taint.Reaches r.graph (builtinSources c r.graph) (image (r.copiesAt ref) a) := by
  obtain ⟨_, _, _, f, hinlines⟩ := h.exists_embedding hsite
  have hf := hinlines.callee
  induction ha with
  | source hb hcan => exact .source (h.source_image hsite hf hb) (h.canTaint_image hsite hf hcan)
  | @edge b d hb hedge hcan ih =>
    by_cases hmem : d ∈ f.nodes
    · obtain ⟨s₀, hs₀, _⟩ := Option.bind_eq_some_iff.mp hsite
      obtain ⟨s, hs⟩ := h.scope hs₀
      have hcoh := h.resolving.coherent
      have hlocal : ⟨b, d⟩ ∈ f.edges :=
        mem_edges_of_target hcoh (Graph.mem_scopes_of_scope? hf) hedge hmem
      have himage := h.edge_place (.call hsite (.here site.callee)) hs hf hlocal
      exact .edge ih ((hcoh.scopes _ s hs).edges _ himage).1 (h.canTaint_image hsite hf hcan)
    · rw [h.image_eq_self hsite hf hmem]
      exact .edge hb hedge hcan

/-- Taint from outside that reaches a node reaches its copy at each way of calls. -/
theorem Inlined.reaches_place (h : Inlined g k r) (hpath : g.CallPath name path chain last)
    (ha : Taint.Reaches r.graph (builtinSources c r.graph) a) :
    Taint.Reaches r.graph (builtinSources c r.graph) (r.place path a) := by
  induction hpath with
  | here name => exact ha
  | call hsite _ ih => exact h.reaches_image hsite ih

end Copies

open YulTaint.Taint (CanTaint Reaches marked clear propagate)

/-- What it does to name a variable of a scope as a source, given the variable's
node. -/
structure NamesSource (r : Resolver) (c : TaintConfig) (t : Taint) (v : String × String)
    (id : NodeId) : Prop where
  /-- Taint starts at the node that the name stands for in the end. -/
  starts : ∃ b, namedSource r.graph v = .ok b ∧
    (b = id ∨ ∃ n o, r.graph.node? b = some n ∧ n.name = v.2 ∧ n.origin = some o) ∧
    (CanTaint r.graph b → b ∈ t.sources ∧ b ∈ t.tainted)
  /-- It starts at a copy only if the copy comes from outside or is named itself. -/
  copies : ∀ a, r.graph.declared a = id → a ≠ id →
    (a ∈ t.sources ↔ CanTaint r.graph a ∧
      (a ∈ builtinSources c r.graph ∨ ∃ v ∈ c.namedVariables, namedSource r.graph v = .ok a))
  /-- Taint from outside taints the copies along with the variable. -/
  inherited : Reaches r.graph (builtinSources c r.graph) id →
    ∀ a, r.graph.declared a = id → a ∈ t.tainted

/-- In a completed graph the variable itself is a source, and its copies are none for that. -/
theorem Completes.namesSource {g : Graph} {k : Int} {r : Resolver} (h : Completes g k r)
    (hg : g.Collected) {c : TaintConfig} {ids : List NodeId}
    (hids : initialSources c r.graph = .ok ids) {t : Taint}
    (hsources : t.sources = ids.filter (Taint.isTaintable r.graph))
    (htainted : ∀ id, id ∈ t.tainted ↔ Reaches r.graph ids id) {f x : String} {s : Scope}
    {id : NodeId} (hv : (f, x) ∈ c.namedVariables) (hs : g.scope? f = some s)
    (hid : s.lookup? x = some id) : NamesSource r c t (f, x) id := by
  have hin := h.inlined hg
  have hown : g.Owns f id :=
    ⟨s, hs, (hg.coherent.scopes f s hs).names _ (mem_of_lookup_eq_some hid)⟩
  have hsource (a : NodeId) : a ∈ t.sources ↔ a ∈ ids ∧ CanTaint r.graph a := by
    rw [hsources, List.mem_filter, Taint.isTaintable_iff]
  refine ⟨?_, ?_, ?_⟩
  · obtain ⟨b, hb, hwhich⟩ := h.namedSource hg hs hid
    refine ⟨b, hb, hwhich, fun hcan => ?_⟩
    have hmem : b ∈ ids := (Taint.mem_initialSources hids).mpr (Or.inr (Or.inr ⟨_, hv, hb⟩))
    exact ⟨(hsource b).mpr ⟨hmem, hcan⟩, (htainted b).mpr (.source hmem hcan)⟩
  · intro a ha hne
    have hnoparam : a ∉ parameterSources c r.graph := fun hparam =>
      hne ((hin.declared_of_parameter hparam).symm.trans ha)
    rw [hsource, Taint.mem_initialSources hids, and_comm]
    simp only [hnoparam, false_or]
  · intro hreach a ha
    obtain ⟨name, path, chain, hpath, rfl⟩ := h.exists_place hg hown ha
    rw [htainted]
    exact (hin.reaches_place hpath hreach).mono fun b hb =>
      (Taint.mem_initialSources hids).mpr (Or.inr (Or.inl hb))

/-- Naming variables as sources once the calls of a program are resolved. A name
that is not defined is reported. Else taint starts at the one node that each name
stands for; it starts at a copy of a named variable only if the copy comes from
outside or is named itself, and where it reaches the variable from outside it
reaches every copy. -/
theorem propagate_named {program : Node} {g : Graph} (hg : Flow.collect program = .ok g)
    (hacyclic : ∀ f, ¬ g.IsRecursive f) (k : Int) :
    ∃ r, resolve { graph := g, nextIndex := k } = .ok () r ∧ ∀ c : TaintConfig,
      (∃ v ∈ c.namedVariables, ∃ fault, namedSource r.graph v = .error fault ∧
        propagate c r.graph = .error (.fault fault) (clear r.graph)) ∨
      ∃ t, propagate c r.graph = .ok t (marked r.graph t.tainted) ∧
        ∀ f x s id, (f, x) ∈ c.namedVariables → g.scope? f = some s → s.lookup? x = some id →
          NamesSource r c t (f, x) id := by
  have hcollected := Flow.collected_of_collect hg
  obtain ⟨r, hrun, hcompletes⟩ := exists_completes hcollected hacyclic k
  refine ⟨r, hrun, fun c => ?_⟩
  cases hids : initialSources c r.graph with
  | error fault =>
    obtain ⟨v, hv, hfault⟩ := Taint.initialSources_eq_error hids
    refine Or.inl ⟨v, hv, fault, hfault, ?_⟩
    simp only [propagate, Taint.initialSources_clear, hids]
  | ok ids =>
    have hwf := (hcompletes.inlined hcollected).resolving.coherent.wellFormed
    obtain ⟨t, hpropagate, hsources, htainted⟩ := Taint.propagate_spec hwf c hids
    refine Or.inr ⟨t, hpropagate, fun f x s id hv hs hid => ?_⟩
    exact hcompletes.namesSource hcollected hids hsources htainted hv hs hid

/-- A function that returns one of its variables, which is the value of a builtin;
another function that returns what it gets from the first; and a storage address
that comes from the latter. -/
def forwardingProgram (builtin : String) : Node :=
  .program "forwarding" [
    .function "f" [] ["r"] (.block [
      .declaration ["k"] (some (.call builtin [] {})) {},
      .assignment ["r"] (.identifier "k" {}) {}] {}) {},
    .function "h" [] ["q"] (.block [.assignment ["q"] (.call "f" [] {}) {}] {}) {},
    .declaration ["y"] (some (.call "h" [] {})) {},
    .expression (.call "sstore" [.identifier "y" {}, .literal (.integer 0) {}] {}) {}] {}

/-- The variable of the first function is named as a source. -/
def forwardingConfig : TaintConfig :=
  { namedVariables := [("f", "k")] }

def forwardingRank (name : String) : Nat :=
  [mainScope, "h", "f"].idxOf name

/-- A check on a graph once its calls are resolved and its taint is propagated. -/
def forwards (g : Graph) (p : Resolver → Taint → Bool) : Bool :=
  match resolve { graph := g, nextIndex := 0 } with
  | .error _ _ => false
  | .ok _ r =>
    match propagate forwardingConfig r.graph with
    | .error _ _ => false
    | .ok t _ => p r t

theorem exists_forwards {g : Graph} {p : Resolver → Taint → Bool} (h : forwards g p = true) :
    ∃ r t g', resolve { graph := g, nextIndex := 0 } = .ok () r ∧
      propagate forwardingConfig r.graph = .ok t g' ∧ p r t = true := by
  unfold forwards at h
  split at h
  · cases h
  · rename_i r hresolve
    split at h
    · cases h
    · rename_i t g' hpropagate
      exact ⟨r, t, g', hresolve, hpropagate, h⟩

theorem runs_caller : (Flow.collect (forwardingProgram "caller")).toOption.any fun g =>
    g.isRanked forwardingRank && (g.scope? "f").any (fun s => decide (s.lookup? "k" = some 6)) &&
      forwards g fun r _ => decide (r.graph.declared 16 = 6) && Taint.isTaintable r.graph 6 &&
        (r.graph.node? 6).any (·.isSource) := by
  decide +kernel

theorem propagate_named_caller :
    ∃ g r t g', Flow.collect (forwardingProgram "caller") = .ok g ∧ (∀ f, ¬ g.IsRecursive f) ∧
      resolve { graph := g, nextIndex := 0 } = .ok () r ∧
      propagate forwardingConfig r.graph = .ok t g' ∧
      NamesSource r forwardingConfig t ("f", "k") 6 ∧
      r.graph.declared 16 = 6 ∧ 16 ∈ t.tainted := by
  obtain ⟨g, hg, hruns⟩ := Flow.exists_collect runs_caller
  simp only [Bool.and_eq_true] at hruns
  obtain ⟨⟨hrank, hscope⟩, hforwards⟩ := hruns
  obtain ⟨s, hs, hlookup⟩ := (Option.any_eq_true _ _).mp hscope
  obtain ⟨r, t, g', hresolve, hpropagate, hchecks⟩ := exists_forwards hforwards
  simp only [Bool.and_eq_true, decide_eq_true_eq] at hchecks
  obtain ⟨⟨hdeclared, hcan⟩, hsource⟩ := hchecks
  have hacyclic := Graph.not_isRecursive_of_isRanked hrank
  obtain ⟨r', hresolve', hnamed⟩ := propagate_named hg hacyclic 0
  obtain rfl : r = r' := by
    rw [hresolve] at hresolve'
    cases hresolve'
    rfl
  have hnames : NamesSource r forwardingConfig t ("f", "k") 6 := by
    rcases hnamed forwardingConfig with ⟨v, _, fault, _, hfails⟩ | ⟨t', hsucceeds, hall⟩
    · cases hpropagate.symm.trans hfails
    · cases hpropagate.symm.trans hsucceeds
      exact hall "f" "k" s 6 List.mem_cons_self hs (of_decide_eq_true hlookup)
  have hreaches : Reaches r.graph (builtinSources forwardingConfig r.graph) 6 := by
    obtain ⟨n, hn, hmark⟩ := (Option.any_eq_true _ _).mp hsource
    exact .source (Taint.mem_builtinSources.mpr ⟨rfl, n, hn, hmark⟩)
      ((Taint.isTaintable_iff _ _).mp hcan)
  exact ⟨g, r, t, g', hg, hacyclic, hresolve, hpropagate, hnames, hdeclared,
    hnames.inherited hreaches 16 hdeclared⟩

theorem runs_address : (Flow.collect (forwardingProgram "address")).toOption.any fun g =>
    g.isRanked forwardingRank && (g.scope? "f").any (fun s => decide (s.lookup? "k" = some 6)) &&
      forwards g fun r t => decide (r.graph.declared 16 = 6) && Taint.isTaintable r.graph 16 &&
        !t.tainted.contains 16 := by
  decide +kernel

/-- A named variable may have a copy that can be tainted and is not. -/
theorem exists_untainted_copy :
    ∃ g r t g' s a, Flow.collect (forwardingProgram "address") = .ok g ∧
      (∀ f, ¬ g.IsRecursive f) ∧ resolve { graph := g, nextIndex := 0 } = .ok () r ∧
      propagate forwardingConfig r.graph = .ok t g' ∧ ("f", "k") ∈ forwardingConfig.namedVariables ∧
      g.scope? "f" = some s ∧ s.lookup? "k" = some (r.graph.declared a) ∧
      CanTaint r.graph a ∧ a ∉ t.tainted := by
  obtain ⟨g, hg, hruns⟩ := Flow.exists_collect runs_address
  simp only [Bool.and_eq_true] at hruns
  obtain ⟨⟨hrank, hscope⟩, hforwards⟩ := hruns
  obtain ⟨s, hs, hlookup⟩ := (Option.any_eq_true _ _).mp hscope
  obtain ⟨r, t, g', hresolve, hpropagate, hchecks⟩ := exists_forwards hforwards
  simp only [Bool.and_eq_true, decide_eq_true_eq, Bool.not_eq_true'] at hchecks
  obtain ⟨⟨hdeclared, hcan⟩, huntainted⟩ := hchecks
  refine ⟨g, r, t, g', s, 16, hg, Graph.not_isRecursive_of_isRanked hrank, hresolve, hpropagate,
    List.mem_cons_self, hs, ?_, (Taint.isTaintable_iff _ _).mp hcan, ?_⟩
  · rw [hdeclared]
    exact of_decide_eq_true hlookup
  · simpa using huntainted

end Resolver

end YulTaint
