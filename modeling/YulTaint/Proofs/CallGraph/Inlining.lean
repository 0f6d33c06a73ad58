import Mathlib.Tactic
import YulTaint.Proofs.CallGraph.Outcome

/-!
Resolution as inlining. A callee is embedded only when it is resolved, and a
resolved scope stays as it is; so each embedding copies its callee's final
part of the graph, copies of copies included. In the end a scope holds one node
for each way of calls out of it and each node declared where the way ends.
-/

namespace YulTaint

open Relation (ReflTransGen)

/-- What a node shares with its copies, beside its name and scope. -/
structure FlowNode.Resembles (m n : FlowNode) : Prop where
  kind : m.kind = n.kind
  constant : m.constant = n.constant
  isUntaintable : m.isUntaintable = n.isUntaintable
  isProtected : m.isProtected = n.isProtected
  isSource : m.isSource = n.isSource
  loc : m.loc = n.loc

theorem FlowNode.Resembles.symm {m n : FlowNode} (h : m.Resembles n) : n.Resembles m :=
  ⟨h.kind.symm, h.constant.symm, h.isUntaintable.symm, h.isProtected.symm, h.isSource.symm,
    h.loc.symm⟩

theorem FlowNode.Resembles.trans {l m n : FlowNode} (h : l.Resembles m) (h' : m.Resembles n) :
    l.Resembles n :=
  ⟨h.kind.trans h'.kind, h.constant.trans h'.constant, h.isUntaintable.trans h'.isUntaintable,
    h.isProtected.trans h'.isProtected, h.isSource.trans h'.isSource, h.loc.trans h'.loc⟩

namespace Graph

def Declares (g : Graph) (name : String) (id : NodeId) : Prop :=
  ∃ s n, g.scope? name = some s ∧ id ∈ s.nodes ∧ g.node? id = some n ∧ n.origin = none

/-- A way of calls out of a scope: each site lies in the callee of the site
before. The last two arguments are the scopes passed and the one reached. -/
inductive CallPath (g : Graph) : String → List SiteRef → List String → String → Prop
  | here (name : String) : CallPath g name [] [name] name
  | call {ref : SiteRef} {site : CallSite} {rest : List SiteRef} {chain : List String}
      {last : String} (hsite : g.site? ref = some site)
      (hrest : CallPath g site.callee rest chain last) :
      CallPath g ref.scope (ref :: rest) (ref.scope :: chain) last

theorem CallPath.of_cons {g : Graph} {name last : String} {ref : SiteRef} {rest : List SiteRef}
    {chain : List String} (h : g.CallPath name (ref :: rest) chain last) :
    ∃ site chain', g.site? ref = some site ∧ g.CallPath site.callee rest chain' last := by
  cases h with
  | call hsite hrest => exact ⟨_, _, hsite, hrest⟩

theorem declared_of_origin {g : Graph} {id o : NodeId} {n : FlowNode} (hn : g.node? id = some n)
    (ho : n.origin = some o) (hlt : o < id) : g.declared id = g.declared o := by
  rw [declared, hn, Option.bind_some, ho]
  exact if_pos hlt

theorem declared_of_none {g : Graph} {id : NodeId} {n : FlowNode} (hn : g.node? id = some n)
    (ho : n.origin = none) : g.declared id = id := by
  rw [declared, hn, Option.bind_some, ho]

end Graph

namespace Resolver

def copiesAt (r : Resolver) (ref : SiteRef) : List (NodeId × NodeId) :=
  ((r.embeddings.find? (·.site = ref)).map (·.copies)).getD []

/-- Where a node stands once the calls of a way are inlined. -/
def place (r : Resolver) : List SiteRef → NodeId → NodeId
  | [], id => id
  | ref :: rest, id => image (r.copiesAt ref) (r.place rest id)

/-- What an embedding made, seen from a later state: a copy of each node that
the callee has. -/
structure Inlines (g : Graph) (r : Resolver) (e : Embedding) (site : CallSite) (f : Scope) :
    Prop where
  original : g.site? e.site = some site
  callee : r.graph.scope? site.callee = some f
  ready : f.isResolved = true
  keys : ∃ start, e.copies = copyList f.nodes start
  copies : ∀ entry ∈ e.copies, ∃ n name, r.graph.node? entry.1 = some n ∧
    r.graph.node? entry.2 = some (n.copied entry.1 e.site.scope name e.index)

/-- An edge that an embedding made: the image of an edge of the callee, or a
wire between the copy and the site. -/
def Contributes (g : Graph) (r : Resolver) (e : Embedding) (x : Edge) : Prop :=
  ∃ site f, Inlines g r e site f ∧
    (x ∈ f.edges.map (Edge.map (image e.copies)) ∨ x ∈ wireEdges e.copies site f)

/-- The nodes and edges of a scope are those collected and those that the
embeddings into it made. -/
structure Inlining (g : Graph) (r : Resolver) : Prop where
  old : ∀ id n, g.node? id = some n → r.graph.node? id = some n
  embeddings : ∀ e ∈ r.embeddings, ∃ site f, Inlines g r e site f
  nodes : ∀ name s₀ s, g.scope? name = some s₀ → r.graph.scope? name = some s →
    ∀ id, id ∈ s.nodes ↔
      id ∈ s₀.nodes ∨ ∃ e ∈ r.embeddings, e.site.scope = name ∧ id ∈ e.copies.map (·.2)
  edges : ∀ name s₀ s, g.scope? name = some s₀ → r.graph.scope? name = some s →
    ∀ x, x ∈ s.edges ↔
      x ∈ s₀.edges ∨ ∃ e ∈ r.embeddings, e.site.scope = name ∧ Contributes g r e x

section Runs

variable {g : Graph} {k : Int} {r r' : Resolver} {ref : SiteRef} {site : CallSite} {c f : Scope}
  {e : Embedding}

theorem inlining_start (g : Graph) (k : Int) : Inlining g { graph := g, nextIndex := k } := by
  refine ⟨fun _ _ hn => hn, List.forall_mem_nil _, ?_, ?_⟩
  · intro name s₀ s hs₀ hs id
    cases hs₀.symm.trans hs
    simp
  · intro name s₀ s hs₀ hs x
    cases hs₀.symm.trans hs
    simp

/-- What an embedding made stays, its callee included. -/
theorem Inlines.step (h : Inlines g r e site f) {ref' : SiteRef} {site' : CallSite} {c' f' : Scope}
    {e' : Embedding} (hstep : Step ref' site' c' f' e' r r') : Inlines g r' e site f := by
  have hresolved : r.graph.IsResolved site.callee := by
    intro t ht
    cases h.callee.symm.trans ht
    exact h.ready
  refine ⟨h.original, (hstep.isResolved hresolved).1.trans h.callee, h.ready, h.keys, ?_⟩
  intro entry hentry
  obtain ⟨n, name, hn, hcopy⟩ := h.copies entry hentry
  have hgrowth := hstep.embeds.growth
  exact ⟨n, name, hgrowth.node? hn, hgrowth.node? hcopy⟩

theorem Inlines.contributes (h : Inlines g r e site f) {x : Edge} :
    Contributes g r e x ↔
      x ∈ f.edges.map (Edge.map (image e.copies)) ∨ x ∈ wireEdges e.copies site f := by
  constructor
  · rintro ⟨site', f', h', hx⟩
    cases h.original.symm.trans h'.original
    cases h.callee.symm.trans h'.callee
    exact hx
  · exact fun hx => ⟨site, f, h, hx⟩

theorem Step.site_eq (h : Step ref site c f e r r') : e.site = ref := by
  rw [h.embeds.embedding]

theorem Step.copies_eq (h : Step ref site c f e r r') :
    e.copies = copyList f.nodes r.graph.size := by
  rw [h.embeds.embedding]

/-- A step inlines the callee, which is complete by then. -/
theorem Step.inlines (h : Step ref site c f e r r') (hr : Resolving g k r) :
    Inlines g r' e site f := by
  have hresolved : r.graph.IsResolved site.callee := by
    intro t ht
    cases h.callee.symm.trans ht
    exact h.ready
  refine ⟨?_, (h.isResolved hresolved).1.trans h.callee, h.ready, ⟨_, h.copies_eq⟩, ?_⟩
  · have hopen : openSite site = site := by simp [openSite, ← h.isOpen]
    rw [h.site_eq, hr.site? ref, Graph.site?, h.caller, Option.bind_some, h.place,
      Option.map_some, hopen]
  · intro entry hentry
    have hkey : entry.1 ∈ f.nodes := by
      rw [← map_fst_copyList f.nodes r.graph.size, ← h.copies_eq]
      exact List.mem_map_of_mem hentry
    obtain ⟨n, hn⟩ := Graph.node?_isSome
      (Graph.Coherent.lt_size (hr.coherent.scopes _ f h.callee) hkey)
    rw [h.site_eq]
    exact ⟨n, _, h.embeds.growth.node? hn, h.embeds.copies entry hentry n hn⟩

theorem map_snd_copyList (ids : List NodeId) (start : Nat) :
    (copyList ids start).map (·.2) = List.range' start ids.length := by
  apply List.map_snd_zip
  simp

/-- Embeddings into other scopes do not count for a scope. -/
theorem exists_embedding_append {embeddings : List Embedding} {name : String}
    {P : Embedding → Prop} :
    (∃ e' ∈ embeddings ++ [e], e'.site.scope = name ∧ P e') ↔
      (∃ e' ∈ embeddings, e'.site.scope = name ∧ P e') ∨ e.site.scope = name ∧ P e := by
  constructor
  · rintro ⟨e', hmem, h⟩
    rcases List.mem_append.mp hmem with hmem | hmem
    · exact Or.inl ⟨e', hmem, h⟩
    · obtain rfl := List.mem_singleton.mp hmem
      exact Or.inr h
  · rintro (⟨e', hmem, h⟩ | h)
    · exact ⟨e', List.mem_append_left _ hmem, h⟩
    · exact ⟨e, List.mem_append_right _ List.mem_cons_self, h⟩

theorem Inlining.nodes_step (h : Inlining g r) (hstep : Step ref site c f e r r') {name : String}
    {s₀ s : Scope} (hs₀ : g.scope? name = some s₀) (hs : r'.graph.scope? name = some s)
    (id : NodeId) : id ∈ s.nodes ↔
      id ∈ s₀.nodes ∨ ∃ e' ∈ r'.embeddings, e'.site.scope = name ∧ id ∈ e'.copies.map (·.2) := by
  have hgrowth := hstep.embeds.growth
  rw [hstep.embeds.embeddings, exists_embedding_append, ← or_assoc, hstep.site_eq]
  by_cases hname : name = ref.scope
  · subst hname
    obtain ⟨t, ht, _, hnodes, _⟩ := hgrowth.scope c hstep.caller
    cases hs.symm.trans ht
    rw [← h.nodes _ s₀ c hs₀ hstep.caller id, hnodes, List.mem_append, hstep.copies_eq,
      map_snd_copyList, hstep.embeds.size, Nat.add_sub_cancel_left]
    simp
  · rw [hgrowth.others name hname] at hs
    rw [← h.nodes name s₀ s hs₀ hs id]
    simp [Ne.symm hname]

theorem Inlining.edges_step (h : Inlining g r) (hr : Resolving g k r)
    (hstep : Step ref site c f e r r') {name : String} {s₀ s : Scope}
    (hs₀ : g.scope? name = some s₀) (hs : r'.graph.scope? name = some s) (x : Edge) :
    x ∈ s.edges ↔ x ∈ s₀.edges ∨
      ∃ e' ∈ r'.embeddings, e'.site.scope = name ∧ Contributes g r' e' x := by
  have hkeep : (∃ e' ∈ r.embeddings, e'.site.scope = name ∧ Contributes g r' e' x) ↔
      ∃ e' ∈ r.embeddings, e'.site.scope = name ∧ Contributes g r e' x := by
    apply exists_congr
    intro e'
    apply and_congr_right
    intro he'
    obtain ⟨site', f', hinlines⟩ := h.embeddings e' he'
    rw [hinlines.contributes, (hinlines.step hstep).contributes]
  rw [hstep.embeds.embeddings, exists_embedding_append, ← or_assoc, hkeep, hstep.site_eq,
    (hstep.inlines hr).contributes]
  by_cases hname : name = ref.scope
  · subst hname
    obtain ⟨c', hc', _, _, _, hedges⟩ := hstep.embeds.caller
    cases hs.symm.trans hc'
    rw [← h.edges _ s₀ c hs₀ hstep.caller x, hedges]
    simp
  · rw [hstep.embeds.growth.others name hname] at hs
    rw [← h.edges name s₀ s hs₀ hs x]
    simp [Ne.symm hname]

/-- One more embedding keeps the inlining. -/
theorem Inlining.step (h : Inlining g r) (hr : Resolving g k r)
    (hstep : Step ref site c f e r r') : Inlining g r' := by
  refine ⟨fun id n hn => hstep.embeds.growth.node? (h.old id n hn), ?_, ?_, ?_⟩
  · intro e' he'
    rw [hstep.embeds.embeddings] at he'
    rcases List.mem_append.mp he' with he' | he'
    · obtain ⟨site', f', hinlines⟩ := h.embeddings e' he'
      exact ⟨site', f', hinlines.step hstep⟩
    · obtain rfl := List.mem_singleton.mp he'
      exact ⟨site, f, hstep.inlines hr⟩
  · exact fun name s₀ s hs₀ hs => h.nodes_step hstep hs₀ hs
  · exact fun name s₀ s hs₀ hs => h.edges_step hr hstep hs₀ hs

theorem Inlining.run (h : ReflTransGen Advances { graph := g, nextIndex := k } r)
    (hg : g.Collected) : Resolving g k r ∧ Inlining g r := by
  induction h with
  | refl => exact ⟨resolving_start hg k, inlining_start g k⟩
  | tail _ hstep ih =>
    obtain ⟨hr, hinlining⟩ := ih
    refine ⟨hr.advances hstep, ?_⟩
    obtain ⟨_, _, _, _, _, hstep⟩ := hstep
    exact hinlining.step hr hstep

end Runs

structure Inlined (g : Graph) (k : Int) (r : Resolver) : Prop where
  collected : g.Collected
  resolving : Resolving g k r
  inlining : Inlining g r
  resolved : ∀ name, r.graph.IsResolved name

section Inlined

variable {g : Graph} {k : Int} {r : Resolver} {ref : SiteRef} {site : CallSite} {f : Scope}
  {e : Embedding} {name last : String} {path : List SiteRef} {chain : List String} {id : NodeId}

/-- No site is embedded twice, so that the site tells the copies. -/
theorem Resolving.copiesAt (h : Resolving g k r) (he : e ∈ r.embeddings) :
    r.copiesAt e.site = e.copies := by
  have hsome : (r.embeddings.find? (·.site = e.site)).isSome := by
    rw [List.find?_isSome]
    exact ⟨e, he, by simp⟩
  obtain ⟨e', he'⟩ := Option.isSome_iff_exists.mp hsome
  have hsite : e'.site = e.site := by simpa using List.find?_some he'
  have hsame : e' = e :=
    List.inj_on_of_nodup_map h.nodup (List.mem_of_find?_eq_some he') he hsite
  rw [Resolver.copiesAt, he', hsame]
  rfl

/-- Embeddings are told apart by their indices. -/
theorem Resolving.eq_of_index (h : Resolving g k r) {e' : Embedding} (he : e ∈ r.embeddings)
    (he' : e' ∈ r.embeddings) (hindex : e.index = e'.index) : e = e' := by
  have hnodup : (r.embeddings.map (·.index)).Nodup := by
    rw [h.indices]
    apply List.Nodup.map _ List.nodup_range
    intro i j hij
    simpa using hij
  exact List.inj_on_of_nodup_map hnodup he he' hindex

/-- Every site has its embedding. -/
theorem Inlined.exists_embedding (h : Inlined g k r) (hsite : g.site? ref = some site) :
    ∃ e ∈ r.embeddings, e.site = ref ∧ ∃ f, Inlines g r e site f := by
  have hmem : ref ∈ r.embeddings.map (·.site) := by
    rw [h.resolving.embedded, h.resolving.site?_of_resolved h.resolved, hsite]
    exact ⟨_, rfl, rfl⟩
  obtain ⟨e, he, rfl⟩ := List.mem_map.mp hmem
  obtain ⟨site', f, hinlines⟩ := h.inlining.embeddings e he
  cases hsite.symm.trans hinlines.original
  exact ⟨e, he, rfl, f, hinlines⟩

theorem Inlines.image (h : Inlines g r e site f) (hid : id ∈ f.nodes) :
    (id, Resolver.image e.copies id) ∈ e.copies := by
  obtain ⟨start, hcopies⟩ := h.keys
  rw [hcopies]
  exact image_mem hid start

theorem Inlines.mem_callee (h : Inlines g r e site f) {entry : NodeId × NodeId}
    (hentry : entry ∈ e.copies) : entry.1 ∈ f.nodes := by
  obtain ⟨start, hcopies⟩ := h.keys
  rw [← map_fst_copyList f.nodes start, ← hcopies]
  exact List.mem_map_of_mem hentry

theorem Inlines.image_eq (h : Inlines g r e site f) (hnodup : f.nodes.Nodup)
    {entry : NodeId × NodeId} (hentry : entry ∈ e.copies) :
    Resolver.image e.copies entry.1 = entry.2 := by
  have hkeys : (e.copies.map (·.1)).Nodup := by
    obtain ⟨start, hcopies⟩ := h.keys
    rwa [hcopies, map_fst_copyList]
  have hsame := List.inj_on_of_nodup_map hkeys (h.image (h.mem_callee hentry)) hentry rfl
  exact congrArg Prod.snd hsame

/-- The nodes that are no copies are the collected ones. -/
theorem Inlined.declares (h : Inlined g k r) :
    r.graph.Declares name id ↔ ∃ s₀, g.scope? name = some s₀ ∧ id ∈ s₀.nodes := by
  constructor
  · rintro ⟨s, n, hs, hid, hn, hnone⟩
    obtain ⟨s₀, hs₀, _⟩ := h.resolving.scope name s hs
    refine ⟨s₀, hs₀, ?_⟩
    rcases (h.inlining.nodes name s₀ s hs₀ hs id).mp hid with hid | ⟨e, he, _, hcopy⟩
    · exact hid
    · obtain ⟨entry, hentry, rfl⟩ := List.mem_map.mp hcopy
      obtain ⟨site, f, hinlines⟩ := h.inlining.embeddings e he
      obtain ⟨m, _, _, hm⟩ := hinlines.copies entry hentry
      obtain rfl := Option.some.inj (hn.symm.trans hm)
      cases hnone
  · rintro ⟨s₀, hs₀, hid⟩
    obtain ⟨s, hs⟩ := Graph.mem_scopeNames.mp
      (h.resolving.scopeNames ▸ Graph.mem_scopeNames.mpr ⟨s₀, hs₀⟩)
    obtain ⟨n, hn⟩ := Graph.node?_isSome
      (Graph.Coherent.lt_size (h.collected.coherent.scopes name s₀ hs₀) hid)
    exact ⟨s, n, hs, (h.inlining.nodes name s₀ s hs₀ hs id).mpr (Or.inl hid),
      h.inlining.old id n hn, (h.collected.nodes id n hn).1⟩

/-- One call more in front: the node is copied once more. -/
theorem Inlined.place_cons (h : Inlined g k r) (hsite : g.site? ref = some site)
    (hf : r.graph.scope? site.callee = some f) (hid : r.place path id ∈ f.nodes) :
    ∃ e ∈ r.embeddings, e.site = ref ∧ ∃ s n copyName, r.graph.scope? ref.scope = some s ∧
      r.place (ref :: path) id ∈ s.nodes ∧ r.graph.node? (r.place path id) = some n ∧
      r.graph.node? (r.place (ref :: path) id) =
        some (n.copied (r.place path id) ref.scope copyName e.index) := by
  obtain ⟨e, he, rfl, f', hinlines⟩ := h.exists_embedding hsite
  cases hf.symm.trans hinlines.callee
  obtain ⟨s₀, hs₀, _⟩ := Option.bind_eq_some_iff.mp hsite
  obtain ⟨s, hs⟩ := Graph.mem_scopeNames.mp
    (h.resolving.scopeNames ▸ Graph.mem_scopeNames.mpr ⟨s₀, hs₀⟩)
  have hentry := hinlines.image hid
  obtain ⟨n, copyName, hn, hcopy⟩ := hinlines.copies _ hentry
  have hplace : r.place (e.site :: path) id = image e.copies (r.place path id) := by
    rw [place, h.resolving.copiesAt he]
  rw [hplace]
  refine ⟨e, he, rfl, s, n, copyName, hs, ?_, hn, hcopy⟩
  rw [h.inlining.nodes _ s₀ s hs₀ hs]
  exact Or.inr ⟨e, he, rfl, List.mem_map_of_mem (f := Prod.snd) hentry⟩

/-- The node at the place of a way is a copy of the node declared at its end. -/
theorem Inlined.place_spec (h : Inlined g k r) (hpath : g.CallPath name path chain last)
    (hid : r.graph.Declares last id) :
    ∃ s m n, r.graph.scope? name = some s ∧ r.place path id ∈ s.nodes ∧
      r.graph.node? id = some n ∧ r.graph.node? (r.place path id) = some m ∧
      r.graph.declared (r.place path id) = id ∧ m.callChain = chain ∧ m.Resembles n := by
  induction hpath with
  | here name =>
    obtain ⟨s₀, hs₀, hmem⟩ := h.declares.mp hid
    obtain ⟨s, n, hs, hid, hn, hnone⟩ := hid
    obtain ⟨n₀, hn₀, hscope⟩ := ((h.collected.coherent.scopes name s₀ hs₀).owns id).mp hmem
    obtain rfl : n = n₀ := Option.some.inj (hn.symm.trans (h.inlining.old id n₀ hn₀))
    refine ⟨s, n, n, hs, hid, hn, hn, Graph.declared_of_none hn hnone, ?_,
      ⟨rfl, rfl, rfl, rfl, rfl, rfl⟩⟩
    rw [(h.collected.nodes id n hn₀).2.2, hscope, Graph.name_of_scope? hs₀]
    rfl
  | call hsite _ ih =>
    obtain ⟨f, m, n, hf, hmem, hn, hm, hdeclared, hchain, hlike⟩ := ih hid
    obtain ⟨e, _, _, s, m', copyName, hs, hplace, hm', hcopy⟩ := h.place_cons hsite hf hmem
    cases hm.symm.trans hm'
    refine ⟨s, _, n, hs, hplace, hn, hcopy, ?_, ?_,
      ⟨hlike.kind, hlike.constant, hlike.isUntaintable, hlike.isProtected, hlike.isSource,
        hlike.loc⟩⟩
    · have hlt := h.resolving.coherent.origins _ _ _ hcopy rfl
      rw [Graph.declared_of_origin hcopy rfl hlt, hdeclared]
    · exact congrArg (_ :: ·) hchain

/-- Different ways, or different nodes at their ends, have different places: the
last copy tells its embedding and the node that was copied. -/
theorem Inlined.place_injective (h : Inlined g k r) {path' : List SiteRef} {chain' : List String}
    {last' : String} {id' : NodeId} (hpath : g.CallPath name path chain last)
    (hid : r.graph.Declares last id) (hpath' : g.CallPath name path' chain' last')
    (hid' : r.graph.Declares last' id') (hplace : r.place path id = r.place path' id') :
    path = path' ∧ id = id' := by
  induction hpath generalizing path' chain' last' id' with
  | here name =>
    obtain ⟨_, n, _, _, hn, hnone⟩ := hid
    cases path' with
    | nil => exact ⟨rfl, hplace⟩
    | cons ref' rest' =>
      obtain ⟨site', _, hsite', hrest'⟩ := hpath'.of_cons
      obtain ⟨f', _, _, hf', hmem', _⟩ := h.place_spec hrest' hid'
      obtain ⟨_, _, _, _, _, _, _, _, _, hcopy⟩ := h.place_cons hsite' hf' hmem'
      rw [← hplace] at hcopy
      obtain rfl := Option.some.inj (hn.symm.trans hcopy)
      cases hnone
  | call hsite hrest ih =>
    obtain ⟨f, _, _, hf, hmem, _⟩ := h.place_spec hrest hid
    obtain ⟨e, he, href, _, _, _, _, _, _, hcopy⟩ := h.place_cons hsite hf hmem
    cases path' with
    | nil =>
      obtain ⟨_, n, _, _, hn, hnone⟩ := hid'
      rw [hplace] at hcopy
      obtain rfl := Option.some.inj (hn.symm.trans hcopy)
      cases hnone
    | cons ref' rest' =>
      obtain ⟨site', _, hsite', hrest'⟩ := hpath'.of_cons
      obtain ⟨f', _, _, hf', hmem', _⟩ := h.place_spec hrest' hid'
      obtain ⟨e', he', href', _, _, _, _, _, _, hcopy'⟩ := h.place_cons hsite' hf' hmem'
      rw [hplace] at hcopy
      have hnode := Option.some.inj (hcopy.symm.trans hcopy')
      have horigin := Option.some.inj (congrArg FlowNode.origin hnode)
      have hindex := Option.some.inj (congrArg FlowNode.embedding hnode)
      obtain rfl := h.resolving.eq_of_index he he' hindex
      obtain rfl := href.symm.trans href'
      obtain rfl := Option.some.inj (hsite.symm.trans hsite')
      obtain ⟨rfl, rfl⟩ := ih hid hrest' hid' horigin
      exact ⟨rfl, rfl⟩

/-- Every node of a scope stands at the place of some way. -/
theorem Inlined.exists_place (h : Inlined g k r) {s : Scope} (hs : r.graph.scope? name = some s)
    (hid : id ∈ s.nodes) : ∃ path chain last declared, g.CallPath name path chain last ∧
      r.graph.Declares last declared ∧ r.place path declared = id := by
  induction id using Nat.strong_induction_on generalizing name s with
  | _ id ih =>
    obtain ⟨s₀, hs₀, _⟩ := h.resolving.scope name s hs
    rcases (h.inlining.nodes name s₀ s hs₀ hs id).mp hid with hid | ⟨e, he, hname, hcopy⟩
    · exact ⟨[], [name], name, id, .here name, h.declares.mpr ⟨s₀, hs₀, hid⟩, rfl⟩
    · obtain ⟨entry, hentry, rfl⟩ := List.mem_map.mp hcopy
      obtain ⟨site, f, hinlines⟩ := h.inlining.embeddings e he
      obtain ⟨n, copyName, hn, hm⟩ := hinlines.copies entry hentry
      have hlt : entry.1 < entry.2 := h.resolving.coherent.origins _ _ _ hm rfl
      obtain ⟨path, chain, last, declared, hpath, hdeclared, hplace⟩ :=
        ih entry.1 hlt hinlines.callee (hinlines.mem_callee hentry)
      subst hname
      refine ⟨e.site :: path, _, last, declared, .call hinlines.original hpath, hdeclared, ?_⟩
      rw [place, h.resolving.copiesAt he, hplace]
      exact hinlines.image_eq (h.resolving.coherent.scopes _ f hinlines.callee).nodup hentry

/-- A scope has one node for each way of calls out of it and each node declared at its end. -/
theorem Inlined.bijOn_place (h : Inlined g k r) {s : Scope} (hs : r.graph.scope? name = some s) :
    Set.BijOn (fun way : List SiteRef × NodeId => r.place way.1 way.2)
      { way | ∃ chain last, g.CallPath name way.1 chain last ∧ r.graph.Declares last way.2 }
      { id | id ∈ s.nodes } := by
  refine ⟨?_, ?_, ?_⟩
  · rintro ⟨path, id⟩ ⟨chain, last, hpath, hid⟩
    obtain ⟨s', _, _, hs', hmem, _⟩ := h.place_spec hpath hid
    cases hs.symm.trans hs'
    exact hmem
  · rintro ⟨path, id⟩ ⟨_, _, hpath, hid⟩ ⟨path', id'⟩ ⟨_, _, hpath', hid'⟩ hplace
    obtain ⟨rfl, rfl⟩ := h.place_injective hpath hid hpath' hid' hplace
    rfl
  · intro id hid
    obtain ⟨path, chain, last, declared, hpath, hdeclared, hplace⟩ := h.exists_place hs hid
    exact ⟨(path, declared), ⟨chain, last, hpath, hdeclared⟩, hplace⟩

/-- The edges of a scope are its own, those copied from its callees, and the wires. -/
theorem Inlined.mem_edges (h : Inlined g k r) {s₀ s : Scope} (hs₀ : g.scope? name = some s₀)
    (hs : r.graph.scope? name = some s) (x : Edge) :
    x ∈ s.edges ↔ x ∈ s₀.edges ∨
      ∃ i site f, s₀.sites[i]? = some site ∧ r.graph.scope? site.callee = some f ∧
        (x ∈ f.edges.map (Edge.map (image (r.copiesAt ⟨name, i⟩))) ∨
          x ∈ wireEdges (r.copiesAt ⟨name, i⟩) site f) := by
  rw [h.inlining.edges name s₀ s hs₀ hs x]
  apply or_congr_right
  constructor
  · rintro ⟨e, he, hname, site, f, hinlines, hx⟩
    subst hname
    refine ⟨e.site.index, site, f, ?_, hinlines.callee, ?_⟩
    · exact (Graph.site?_of_scope? hs₀).symm.trans hinlines.original
    · rw [h.resolving.copiesAt he]
      exact hx
  · rintro ⟨i, site, f, hsite, hf, hx⟩
    have hsite? : g.site? ⟨name, i⟩ = some site := (Graph.site?_of_scope? hs₀).trans hsite
    obtain ⟨e, he, href, f', hinlines⟩ := h.exists_embedding hsite?
    cases hf.symm.trans hinlines.callee
    refine ⟨e, he, congrArg SiteRef.scope href, site, f, hinlines, ?_⟩
    rw [← h.resolving.copiesAt he, href]
    exact hx

/-- The copies that a site has are those of its callee's nodes; memory words,
which belong to no scope, stand for themselves. -/
theorem Inlined.copiesAt_spec (h : Inlined g k r) (hsite : g.site? ref = some site)
    (hf : r.graph.scope? site.callee = some f) :
    (r.copiesAt ref).map (·.1) = f.nodes ∧
      ∀ id, r.graph.IsShared id → image (r.copiesAt ref) id = id := by
  obtain ⟨e, he, rfl, f', hinlines⟩ := h.exists_embedding hsite
  cases hf.symm.trans hinlines.callee
  obtain ⟨start, hcopies⟩ := hinlines.keys
  rw [h.resolving.copiesAt he, hcopies]
  refine ⟨map_fst_copyList f.nodes start, ?_⟩
  intro id hid
  exact image_of_not_mem (hid.not_mem (h.resolving.coherent.scopes _ f hf)) start

end Inlined

/-- A scope of a resolved graph as the full inlining of the collected scope. -/
structure FullInlining (g : Graph) (r : Resolver) (name : String) (s₀ s : Scope) : Prop where
  nodup : s.nodes.Nodup
  /-- One node for each way of calls and each node declared at its end. -/
  nodes : Set.BijOn (fun way : List SiteRef × NodeId => r.place way.1 way.2)
    { way | ∃ chain last, g.CallPath name way.1 chain last ∧ r.graph.Declares last way.2 }
    { id | id ∈ s.nodes }
  copies : ∀ path chain last id, g.CallPath name path chain last → r.graph.Declares last id →
    ∃ m n, r.graph.node? (r.place path id) = some m ∧ r.graph.node? id = some n ∧
      r.graph.declared (r.place path id) = id ∧ m.callChain = chain ∧ m.Resembles n
  declared : ∀ id, r.graph.Declares name id ↔ id ∈ s₀.nodes
  /-- The edges collected, the images of each callee's final edges, and the
  wires of each site. -/
  edges : ∀ x, x ∈ s.edges ↔ x ∈ s₀.edges ∨
    ∃ i site f, s₀.sites[i]? = some site ∧ r.graph.scope? site.callee = some f ∧
      (x ∈ f.edges.map (Edge.map (image (r.copiesAt ⟨name, i⟩))) ∨
        x ∈ wireEdges (r.copiesAt ⟨name, i⟩) site f)
  maps : ∀ i site f, s₀.sites[i]? = some site → r.graph.scope? site.callee = some f →
    (r.copiesAt ⟨name, i⟩).map (·.1) = f.nodes ∧
      ∀ id, r.graph.IsShared id → image (r.copiesAt ⟨name, i⟩) id = id

/-- When no site is open, every scope is fully inlined. -/
theorem Inlined.fullInlining {g : Graph} {k : Int} {r : Resolver} (h : Inlined g k r)
    {name : String} {s₀ : Scope} (hs₀ : g.scope? name = some s₀) :
    ∃ s, r.graph.scope? name = some s ∧ FullInlining g r name s₀ s := by
  obtain ⟨s, hs⟩ := Graph.mem_scopeNames.mp
    (h.resolving.scopeNames ▸ Graph.mem_scopeNames.mpr ⟨s₀, hs₀⟩)
  refine ⟨s, hs, (h.resolving.coherent.scopes name s hs).nodup, h.bijOn_place hs, ?_, ?_,
    h.mem_edges hs₀ hs, ?_⟩
  · intro path chain last id hpath hid
    obtain ⟨_, m, n, _, _, hn, hm, hrest⟩ := h.place_spec hpath hid
    exact ⟨m, n, hm, hn, hrest⟩
  · intro id
    rw [h.declares, hs₀]
    simp
  · intro i site f hsite hf
    refine h.copiesAt_spec ?_ hf
    exact (Graph.site?_of_scope? hs₀).trans hsite

/-- Resolving a program without recursion inlines every call in full: the nodes
of each scope are one for each way of calls and each node declared at its end,
and its edges are those collected, its callees' final edges and the wires. -/
theorem resolve_fullInlining {program : Node} {g : Graph} (hg : Flow.collect program = .ok g)
    (hacyclic : ∀ f, ¬ g.IsRecursive f) (k : Int) :
    ∃ r, resolve { graph := g, nextIndex := k } = .ok () r ∧
      ∀ name s₀, g.scope? name = some s₀ →
        ∃ s, r.graph.scope? name = some s ∧ FullInlining g r name s₀ s := by
  have hcollected := Flow.collected_of_collect hg
  obtain ⟨r, hrun, _, _, hend⟩ := resolve_spec hcollected k
  obtain ⟨hr, hinlining⟩ := Inlining.run hrun hcollected
  rcases hend with ⟨hdone, hok⟩ | ⟨names, _, hne, hmem⟩
  · have hinlined : Inlined g k r :=
      ⟨hcollected, hr, hinlining, isResolved_of_pending_nil hr.coherent.names hdone⟩
    exact ⟨r, hok, fun name s₀ hs₀ => hinlined.fullInlining hs₀⟩
  · obtain ⟨f, hf⟩ := List.exists_mem_of_ne_nil _ hne
    exact absurd ((hmem f).mp hf) (hacyclic f)

theorem resolve_fullInlining_ladder :
    ∃ g r, Flow.collect ladderProgram = .ok g ∧ (∀ f, ¬ g.IsRecursive f) ∧
      resolve { graph := g, nextIndex := 0 } = .ok () r ∧
      ∀ name s₀, g.scope? name = some s₀ →
        ∃ s, r.graph.scope? name = some s ∧ FullInlining g r name s₀ s := by
  obtain ⟨g, hg, hacyclic⟩ := acyclic_ladderProgram
  obtain ⟨r, hrun, hscopes⟩ := resolve_fullInlining hg hacyclic 0
  exact ⟨g, r, hg, hacyclic, hrun, hscopes⟩

end Resolver

end YulTaint
