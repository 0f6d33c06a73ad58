import Mathlib.Tactic
import YulTaint.Proofs.CallGraph.Confluence

/-!
Two graphs that share some of their scopes, each resolved by a run of its own. The
runs number their copies differently; but for a shared scope both have one node for
each way of calls and each node declared at its end. Nodes at the same way are
partners: they have the same attributes, and the edges of the scope join partners in
both graphs alike. So taint that reaches a node in one graph reaches its partner in
the other, unless it came through a scope that is not shared.
-/

namespace YulTaint

open Relation (ReflTransGen)

/-- Calls of the same function with arguments and results that stand for each
other. -/
structure CallSite.Matches (R : NodeId → NodeId → Prop) (site site' : CallSite) : Prop where
  callee : site'.callee = site.callee
  arguments : List.Forall₂ R site.arguments site'.arguments
  results : List.Forall₂ R site.results site'.results
  block : R site.block site'.block

/-- A scope whose nodes, sites and edges are found in another one. -/
structure Scope.Matches (R : NodeId → NodeId → Prop) (s s' : Scope) : Prop where
  root : R s.root s'.root
  params : List.Forall₂ R s.params s'.params
  returns : List.Forall₂ R s.returns s'.returns
  nodes : List.Forall₂ R s.nodes s'.nodes
  sites : List.Forall₂ (CallSite.Matches R) s.sites s'.sites
  edges : ∀ x ∈ s.edges, ∃ y ∈ s'.edges, x.Matches R y

/-- Some scopes of a graph, and all that they call, are found in another graph. -/
structure Graph.Shares (common : String → Prop) (R : NodeId → NodeId → Prop) (g g' : Graph) :
    Prop where
  nodes : ∀ a b, R a b → g'.node? b = g.node? a
  unique : ∀ a b b', R a b → R a b' → b = b'
  scopes : ∀ sc s, common sc → g.scope? sc = some s →
    ∃ s', g'.scope? sc = some s' ∧ s.Matches R s'
  callees : ∀ sc s, common sc → g.scope? sc = some s → ∀ site ∈ s.sites, common site.callee

section Shares

variable {common : String → Prop} {R : NodeId → NodeId → Prop} {g g' : Graph}

theorem Graph.Shares.site (h : g.Shares common R g') {ref : SiteRef} {site : CallSite}
    (hcommon : common ref.scope) (hsite : g.site? ref = some site) :
    ∃ site', g'.site? ref = some site' ∧ site.Matches R site' ∧ common site.callee := by
  obtain ⟨s, hs, hindex⟩ := Option.bind_eq_some_iff.mp hsite
  obtain ⟨s', hs', hmatch⟩ := h.scopes _ s hcommon hs
  obtain ⟨site', hindex', hsites⟩ := exists_of_getElem?_left hmatch.sites hindex
  refine ⟨site', ?_, hsites, h.callees _ s hcommon hs site (List.mem_of_getElem? hindex)⟩
  exact (Graph.site?_of_scope? hs').trans hindex'

/-- A way out of a common scope passes common scopes only. -/
theorem Graph.Shares.callPath (h : g.Shares common R g') {name last : String}
    {path : List SiteRef} {chain : List String} (hcommon : common name)
    (hpath : g.CallPath name path chain last) :
    common last ∧ g'.CallPath name path chain last := by
  induction hpath with
  | here name => exact ⟨hcommon, .here name⟩
  | call hsite _ ih =>
    obtain ⟨site', hsite', hmatch, hcallee⟩ := h.site hcommon hsite
    obtain ⟨hlast, hrest⟩ := ih hcallee
    exact ⟨hlast, .call hsite' (hmatch.callee.symm ▸ hrest)⟩

theorem Graph.Shares.owns (h : g.Shares common R g') {sc : String} {id : NodeId}
    (hcommon : common sc) (hid : g.Owns sc id) : ∃ id', R id id' ∧ g'.Owns sc id' := by
  obtain ⟨s, hs, hmem⟩ := hid
  obtain ⟨s', hs', hmatch⟩ := h.scopes sc s hcommon hs
  obtain ⟨id', hmem', hR⟩ := exists_of_mem_left hmatch.nodes hmem
  exact ⟨id', hR, s', hs', hmem'⟩

theorem Graph.Shares.owns_of_rel (h : g.Shares common R g') {sc : String} {id id' : NodeId}
    (hcommon : common sc) (hid : g.Owns sc id) (hR : R id id') : g'.Owns sc id' := by
  obtain ⟨id'', hR', hown⟩ := h.owns hcommon hid
  rwa [h.unique id id' id'' hR hR']

theorem Graph.Shares.isShared (h : g.Shares common R g') {a b : NodeId} (hR : R a b)
    (ha : g.IsShared a) : g'.IsShared b := by
  obtain ⟨n, hn, hnone⟩ := ha
  exact ⟨n, (h.nodes a b hR).trans hn, hnone⟩

end Shares

namespace Resolver

/-- Two nodes of a common scope in two runs that stand at the same way of calls, with
originals that stand for each other, or words that do. -/
def Partners (common : String → Prop) (R : NodeId → NodeId → Prop) (g : Graph) (r r' : Resolver)
    (name : String) (a b : NodeId) : Prop :=
  (common name ∧ ∃ path chain last id id', g.CallPath name path chain last ∧ g.Owns last id ∧
    R id id' ∧ a = r.place path id ∧ b = r'.place path id') ∨ g.IsShared a ∧ R a b

section Run

variable {g : Graph} {k : Int} {r : Resolver} {name last : String} {ref : SiteRef}
  {site : CallSite} {f : Scope} {path : List SiteRef} {chain : List String} {id : NodeId}

theorem Inlined.image_of_shared (h : Inlined g k r) (hsite : g.site? ref = some site)
    (hid : g.IsShared id) : Resolver.image (r.copiesAt ref) id = id := by
  obtain ⟨e, _, _, f, hinlines⟩ := h.exists_embedding hsite
  obtain ⟨n, hn, hnone⟩ := hid
  exact (h.copiesAt_spec hsite hinlines.callee).2 id ⟨n, h.inlining.old id n hn, hnone⟩

theorem Inlined.keyAt_shared (h : Inlined g k r) {n : FlowNode} (hn : g.node? id = some n) :
    Violation.keyAt r.graph id = (n.name, n.callChain, n.loc) := by
  have hold := h.inlining.old id n hn
  have hdeclared := Graph.declared_of_none hold (h.collected.nodes id n hn).1
  simp [Violation.keyAt, hdeclared, hold]

/-- The callee of a site, in the end. -/
theorem Inlined.exists_callee (h : Inlined g k r) (hsite : g.site? ref = some site) :
    ∃ f, r.graph.scope? site.callee = some f := by
  obtain ⟨_, _, _, f, hinlines⟩ := h.exists_embedding hsite
  exact ⟨f, hinlines.callee⟩

/-- A copy belongs to a scope. -/
theorem Inlined.not_isShared_image (h : Inlined g k r) (hsite : g.site? ref = some site)
    (hf : r.graph.scope? site.callee = some f) (hid : id ∈ f.nodes) :
    ¬ r.graph.IsShared (image (r.copiesAt ref) id) := by
  obtain ⟨e, he, rfl, f', hinlines⟩ := h.exists_embedding hsite
  cases hf.symm.trans hinlines.callee
  obtain ⟨n, _, _, hcopy⟩ := hinlines.copies _ (hinlines.image hid)
  rw [h.resolving.copiesAt he]
  rintro ⟨m, hm, hnone⟩
  rw [← Option.some.inj (hcopy.symm.trans hm)] at hnone
  cases hnone

theorem Inlined.not_isShared_old (h : Inlined g k r) {n : FlowNode} (hn : g.node? id = some n)
    (hid : ¬ g.IsShared id) : ¬ r.graph.IsShared id := by
  rintro ⟨m, hm, hnone⟩
  obtain rfl : m = n := Option.some.inj (hm.symm.trans (h.inlining.old id n hn))
  exact hid ⟨m, hn, hnone⟩

/-- Scopes that let nothing flow into words, and call no others, do not come to do
so by inlining. -/
theorem Inlined.not_isShared_target (h : Inlined g k r) (quiet : String → Prop)
    (hcalls : ∀ sc s, quiet sc → g.scope? sc = some s → ∀ site ∈ s.sites, quiet site.callee)
    (hedges : ∀ sc s, quiet sc → g.scope? sc = some s → ∀ x ∈ s.edges, ¬ g.IsShared x.target)
    {s : Scope} (hquiet : quiet name) (hs : r.graph.scope? name = some s) {x : Edge}
    (hx : x ∈ s.edges) : ¬ r.graph.IsShared x.target := by
  -- the ends of a copied edge lie before those of the copy
  induction hsum : x.source + x.target using Nat.strong_induction_on generalizing name s x with
  | _ sum ih =>
    subst hsum
    obtain ⟨s₀, hs₀, _⟩ := h.resolving.scope name s hs
    have hcoherent := h.collected.coherent.scopes name s₀ hs₀
    have hold {id : NodeId} (hid : id ∈ s₀.nodes) : ¬ r.graph.IsShared id := by
      obtain ⟨n, hn, _⟩ := (hcoherent.owns id).mp hid
      exact h.not_isShared_old hn fun hshared => hshared.not_mem hcoherent hid
    rcases (h.mem_edges hs₀ hs x).mp hx with hx | ⟨i, site, f, hindex, hf, hx⟩
    · rcases (hcoherent.edges x hx).2.target with hown | hshared
      · exact hold hown
      · exact absurd hshared (hedges name s₀ hquiet hs₀ x hx)
    · have hsite : g.site? ⟨name, i⟩ = some site := (Graph.site?_of_scope? hs₀).trans hindex
      have hmem := List.mem_of_getElem? hindex
      have hcallee := h.resolving.coherent.scopes _ f hf
      rcases hx with hx | hx
      · obtain ⟨x', hx', rfl⟩ := List.mem_map.mp hx
        have hsealed := ih _ (h.image_sum_lt hsite hf hx') (hcalls name s₀ hquiet hs₀ site hmem)
          hf hx' rfl
        rcases (hcallee.edges x' hx').2.target with hown | hshared
        · exact h.not_isShared_image hsite hf hown
        · exact absurd hshared hsealed
      · simp only [wireEdges, List.mem_append, List.mem_map, List.mem_singleton] at hx
        rcases hx with (⟨⟨arg, param⟩, hzip, rfl⟩ | ⟨⟨ret, result⟩, hzip, rfl⟩) | rfl
        · exact h.not_isShared_image hsite hf (hcallee.params param (List.of_mem_zip hzip).2)
        · exact hold ((hcoherent.sites site hmem).results result (List.of_mem_zip hzip).2)
        · exact h.not_isShared_image hsite hf hcallee.root

end Run

section Runs

variable {common : String → Prop} {R : NodeId → NodeId → Prop} {g g' : Graph} {k k' : Int}
  {r r' : Resolver} {name : String} {ref : SiteRef} {site : CallSite} {a b : NodeId}

theorem Partners.own (hcommon : common name) (ha : g.Owns name a) (hR : R a b) :
    Partners common R g r r' name a b :=
  Or.inl ⟨hcommon, [], [name], name, a, b, .here name, ha, hR, rfl, rfl⟩

/-- The copies that two runs make of partners are partners. -/
theorem Partners.image (hab : Partners common R g r r' site.callee a b)
    (h : g.Shares common R g') (hin : Inlined g k r) (hin' : Inlined g' k' r')
    (hcommon : common ref.scope) (hsite : g.site? ref = some site) :
    Partners common R g r r' ref.scope (image (r.copiesAt ref) a) (image (r'.copiesAt ref) b) := by
  rcases hab with ⟨_, path, chain, last, id, id', hpath, hid, hR, rfl, rfl⟩ | ⟨hshared, hR⟩
  · exact Or.inl ⟨hcommon, ref :: path, _, last, id, id', .call hsite hpath, hid, hR, rfl, rfl⟩
  · obtain ⟨site', hsite', _⟩ := h.site hcommon hsite
    rw [hin.image_of_shared hsite hshared, hin'.image_of_shared hsite' (h.isShared hR hshared)]
    exact Or.inr ⟨hshared, hR⟩

/-- Wires of the same site join partners. -/
theorem exists_partner_wire (h : g.Shares common R g') (hin : Inlined g k r)
    (hin' : Inlined g' k' r') (hcommon : common ref.scope) {site' : CallSite}
    (hsite : g.site? ref = some site) (hmatch : site.Matches R site') {f f' : Scope}
    (hf : r.graph.scope? site.callee = some f) (hf' : r'.graph.scope? site.callee = some f')
    {x : Edge} (hx : x ∈ wireEdges (r.copiesAt ref) site f) :
    ∃ y ∈ wireEdges (r'.copiesAt ref) site' f',
      x.Matches (Partners common R g r r' ref.scope) y := by
  obtain ⟨s₀, hs₀, hindex⟩ := Option.bind_eq_some_iff.mp hsite
  have hown := (hin.collected.coherent.scopes _ s₀ hs₀).sites site (List.mem_of_getElem? hindex)
  have hcallee := (h.site hcommon hsite).choose_spec.2.2
  obtain ⟨f₀, hf₀, hroot, hparams, hreturns, _⟩ := hin.resolving.scope _ f hf
  obtain ⟨f₀', hf₀', hroot', hparams', hreturns', _⟩ := hin'.resolving.scope _ f' hf'
  obtain ⟨t, ht, hscopes⟩ := h.scopes _ f₀ hcallee hf₀
  cases hf₀'.symm.trans ht
  have hcoh := hin.collected.coherent.scopes _ f₀ hf₀
  have hcopy {id id' : NodeId} (hid : id ∈ f₀.nodes) (hR : R id id') :=
    (Partners.own hcallee ⟨f₀, hf₀, hid⟩ hR : Partners common R g r r' _ id id').image h hin hin'
      hcommon hsite
  have hhere {id id' : NodeId} (hid : id ∈ s₀.nodes) (hR : R id id') :
      Partners common R g r r' ref.scope id id' := Partners.own hcommon ⟨s₀, hs₀, hid⟩ hR
  simp only [wireEdges, hparams, hreturns, hroot, hparams', hreturns', hroot',
    List.mem_append, List.mem_map, List.mem_singleton] at hx ⊢
  rcases hx with (⟨⟨arg, param⟩, hmem, rfl⟩ | ⟨⟨ret, result⟩, hmem, rfl⟩) | rfl
  · obtain ⟨harg, hparam⟩ := List.of_mem_zip hmem
    obtain ⟨arg', param', hmem', hRarg, hRparam⟩ :=
      exists_of_mem_zip hmatch.arguments hscopes.params hmem
    exact ⟨_, Or.inl (Or.inl ⟨(arg', param'), hmem', rfl⟩),
      hhere (hown.arguments arg harg) hRarg, hcopy (hcoh.params param hparam) hRparam⟩
  · obtain ⟨hret, hresult⟩ := List.of_mem_zip hmem
    obtain ⟨ret', result', hmem', hRret, hRresult⟩ :=
      exists_of_mem_zip hscopes.returns hmatch.results hmem
    exact ⟨_, Or.inl (Or.inr ⟨(ret', result'), hmem', rfl⟩),
      hcopy (hcoh.returns ret hret) hRret, hhere (hown.results result hresult) hRresult⟩
  · exact ⟨_, Or.inr rfl, hhere hown.block hmatch.block, hcopy hcoh.root hscopes.root⟩

/-- Edges of a common scope join partners in both runs alike. -/
theorem exists_partner_edge (h : g.Shares common R g') (hin : Inlined g k r)
    (hin' : Inlined g' k' r') (hcommon : common name) {s s' : Scope}
    (hs : r.graph.scope? name = some s) (hs' : r'.graph.scope? name = some s') {x : Edge}
    (hx : x ∈ s.edges) : ∃ y ∈ s'.edges, x.Matches (Partners common R g r r' name) y := by
  -- the ends of a copied edge lie before those of the copy
  induction hsum : x.source + x.target using Nat.strong_induction_on generalizing name s s' x with
  | _ sum ih =>
    subst hsum
    obtain ⟨s₀, hs₀, _⟩ := hin.resolving.scope name s hs
    obtain ⟨s₀', hs₀', hscopes⟩ := h.scopes name s₀ hcommon hs₀
    have hedges' := hin'.mem_edges hs₀' hs'
    rcases (hin.mem_edges hs₀ hs x).mp hx with hx | ⟨i, site, f, hindex, hf, hx⟩
    · have hatt := ((hin.collected.coherent.scopes name s₀ hs₀).edges x hx).2
      have hend {id id' : NodeId} (hid : id ∈ s₀.nodes ∨ g.IsShared id) (hR : R id id') :
          Partners common R g r r' name id id' := by
        rcases hid with hid | hid
        · exact Partners.own hcommon ⟨s₀, hs₀, hid⟩ hR
        · exact Or.inr ⟨hid, hR⟩
      obtain ⟨y, hy, hsource, htarget⟩ := hscopes.edges x hx
      exact ⟨y, (hedges' y).mpr (Or.inl hy), hend hatt.source hsource, hend hatt.target htarget⟩
    · have hsite : g.site? ⟨name, i⟩ = some site := (Graph.site?_of_scope? hs₀).trans hindex
      obtain ⟨site', hsite', hmatch, hcallee⟩ := h.site hcommon hsite
      obtain ⟨f', hf'⟩ := hin'.exists_callee hsite'
      have hindex' : s₀'.sites[i]? = some site' := (Graph.site?_of_scope? hs₀').symm.trans hsite'
      have hcopied {y : Edge} (hy : y ∈ f'.edges.map (Edge.map (image (r'.copiesAt ⟨name, i⟩))) ∨
          y ∈ wireEdges (r'.copiesAt ⟨name, i⟩) site' f') : y ∈ s'.edges :=
        (hedges' y).mpr (Or.inr ⟨i, site', f', hindex', hf', hy⟩)
      rw [hmatch.callee] at hf'
      rcases hx with hx | hx
      · obtain ⟨x', hx', rfl⟩ := List.mem_map.mp hx
        obtain ⟨y', hy', hsource, htarget⟩ :=
          ih _ (hin.image_sum_lt hsite hf hx') hcallee hf hf' hx' rfl
        exact ⟨y'.map (Resolver.image (r'.copiesAt ⟨name, i⟩)),
          hcopied (Or.inl (List.mem_map_of_mem hy')), hsource.image h hin hin' hcommon hsite,
          htarget.image h hin hin' hcommon hsite⟩
      · obtain ⟨y, hy, hpartners⟩ := exists_partner_wire h hin hin' hcommon hsite hmatch hf hf' hx
        exact ⟨y, hcopied (Or.inr hy), hpartners⟩

/-- Partners look alike, and a violation says the same of both. -/
theorem Partners.resembles (hab : Partners common R g r r' name a b) (h : g.Shares common R g')
    (hin : Inlined g k r) (hin' : Inlined g' k' r') :
    ∃ m m', r.graph.node? a = some m ∧ r'.graph.node? b = some m' ∧ m.Resembles m' ∧
      Violation.keyAt r.graph a = Violation.keyAt r'.graph b := by
  rcases hab with ⟨hcommon, path, chain, last, id, id', hpath, hid, hR, rfl, rfl⟩ |
    ⟨⟨n, hn, hnone⟩, hR⟩
  · obtain ⟨n, hn⟩ := Graph.node?_isSome (hid.lt_size hin.collected.coherent)
    obtain ⟨hlast, hpath'⟩ := h.callPath hcommon hpath
    obtain ⟨m, hm, hres, hkey⟩ := hin.keyAt_place hpath hid hn
    obtain ⟨m', hm', hres', hkey'⟩ :=
      hin'.keyAt_place hpath' (h.owns_of_rel hlast hid hR) ((h.nodes id id' hR).trans hn)
    exact ⟨m, m', hm, hm', hres.trans hres'.symm, hkey.trans hkey'.symm⟩
  · have hn' := (h.nodes a b hR).trans hn
    exact ⟨n, n, hin.inlining.old a n hn, hin'.inlining.old b n hn', ⟨rfl, rfl, rfl, rfl, rfl, rfl⟩,
      (hin.keyAt_shared hn).trans (hin'.keyAt_shared hn').symm⟩

/-- The scope of a node that has a partner. -/
theorem Partners.scope (hab : Partners common R g r r' name a b) (hin : Inlined g k r)
    {n : FlowNode} (hn : r.graph.node? a = some n) :
    n.scope = some name ∧ common name ∨ n.scope = none ∧ g.IsShared a := by
  rcases hab with ⟨hcommon, path, chain, last, id, id', hpath, hid, _, rfl, _⟩ | ⟨ha, _⟩
  · obtain ⟨m, hm, hscope⟩ := hin.scope_place hpath hid
    cases hn.symm.trans hm
    exact Or.inl ⟨hscope, hcommon⟩
  · have hshared := ha
    obtain ⟨m, hm, hnone⟩ := ha
    obtain rfl : n = m := Option.some.inj (hn.symm.trans (hin.inlining.old a m hm))
    exact Or.inr ⟨hnone, hshared⟩

/-- A node has at most one partner. -/
theorem Partners.unique {name' : String} {b' : NodeId} (hab : Partners common R g r r' name a b)
    (hab' : Partners common R g r r' name' a b') (h : g.Shares common R g')
    (hin : Inlined g k r) : b = b' := by
  have hshared (ha : g.IsShared a) {n : FlowNode} (hn : r.graph.node? a = some n) :
      n.scope = none := by
    obtain ⟨m, hm, hnone⟩ := ha
    rwa [Option.some.inj (hn.symm.trans (hin.inlining.old a m hm))]
  rcases hab with ⟨_, path, chain, last, id, id', hpath, hid, hR, ha, rfl⟩ | ⟨ha, hR⟩
  · obtain ⟨n, hn, hscope⟩ := hin.scope_place hpath hid
    rw [← ha] at hn
    rcases hab' with ⟨_, path', chain', last', id₂, id₂', hpath', hid₂, hR', ha', rfl⟩ | ⟨ha', _⟩
    · obtain ⟨n', hn', hscope'⟩ := hin.scope_place hpath' hid₂
      rw [← ha', hn] at hn'
      obtain rfl : n = n' := Option.some.inj hn'
      cases hscope.symm.trans hscope'
      obtain ⟨rfl, rfl⟩ := hin.place_injective hpath (hin.declares.mpr hid) hpath'
        (hin.declares.mpr hid₂) (ha.symm.trans ha')
      rw [h.unique id id' id₂' hR hR']
    · rw [hshared ha' hn] at hscope
      cases hscope
  · rcases hab' with ⟨_, path', chain', last', id₂, id₂', hpath', hid₂, _, ha', rfl⟩ | ⟨_, hR'⟩
    · obtain ⟨n, hn, hscope⟩ := hin.scope_place hpath' hid₂
      rw [← ha'] at hn
      rw [hshared ha hn] at hscope
      cases hscope
    · exact h.unique a b b' hR hR'

theorem Partners.symm (hab : Partners common R g r r' name a b) (h : g.Shares common R g') :
    Partners common (fun x y => R y x) g' r' r name b a := by
  rcases hab with ⟨hcommon, path, chain, last, id, id', hpath, hid, hR, ha, hb⟩ | ⟨ha, hR⟩
  · obtain ⟨hlast, hpath'⟩ := h.callPath hcommon hpath
    exact Or.inl ⟨hcommon, path, chain, last, id', id, hpath', h.owns_of_rel hlast hid hR, hR, hb, ha⟩
  · exact Or.inr ⟨h.isShared hR ha, hR⟩

/-- The nodes of common scopes have partners. -/
theorem Completes.exists_partner (hcompletes : Completes g k r) (hg : g.Collected)
    (h : g.Shares common R g') (r' : Resolver) {n : FlowNode} (hn : r.graph.node? a = some n)
    (hscope : n.scope = some name) (hcommon : common name) :
    ∃ b, Partners common R g r r' name a b := by
  rcases hcompletes.place_or_shared hg hn with
    ⟨sc, path, chain, last, id, hsc, hpath, hid, rfl⟩ | ⟨hnone, _⟩
  · cases hscope.symm.trans hsc
    obtain ⟨hlast, _⟩ := h.callPath hcommon hpath
    obtain ⟨id', hR, _⟩ := h.owns hlast hid
    exact ⟨_, Or.inl ⟨hcommon, path, chain, last, id, id', hpath, hid, hR, rfl, rfl⟩⟩
  · rw [hnone] at hscope
    cases hscope

theorem Partners.canTaint (hab : Partners common R g r r' name a b) (h : g.Shares common R g')
    (hin : Inlined g k r) (hin' : Inlined g' k' r') (ha : Taint.CanTaint r.graph a) :
    Taint.CanTaint r'.graph b := by
  obtain ⟨m, m', hm, hm', hres, _⟩ := hab.resembles h hin hin'
  exact ha.of_eq hm hm' hres.isUntaintable.symm

/-- Partners are sources together. -/
theorem Partners.source (hab : Partners common R g r r' name a b) (h : g.Shares common R g')
    (hin : Inlined g k r) (hin' : Inlined g' k' r') {c : TaintConfig}
    (ha : a ∈ parameterSources c r.graph ++ builtinSources c r.graph) :
    b ∈ parameterSources c r'.graph ++ builtinSources c r'.graph := by
  obtain ⟨m, m', hm, hm', hres, _⟩ := hab.resembles h hin hin'
  rcases List.mem_append.mp ha with hparam | hbuiltin
  · obtain ⟨s, hs, hparam⟩ := List.mem_flatMap.mp hparam
    obtain ⟨hmem, htaints⟩ := List.mem_filter.mp hs
    have hscope := Graph.scope?_of_mem hin.resolving.coherent.names hmem
    obtain ⟨s₀, hs₀, _, hparams, _⟩ := hin.resolving.scope _ s hscope
    rw [hparams] at hparam
    -- a parameter is declared, so its partner is the parameter that it stands for
    have hown := (hin.collected.coherent.scopes _ s₀ hs₀).params a hparam
    obtain ⟨n, hn, hname⟩ := ((hin.collected.coherent.scopes _ s₀ hs₀).owns a).mp hown
    rw [Graph.name_of_scope? hs₀] at hname
    obtain rfl : n = m := Option.some.inj ((hin.inlining.old a n hn).symm.trans hm)
    have hcommon : common s.name := by
      rcases hab.scope hin hm with ⟨hsome, hcommon⟩ | ⟨hnone, _⟩
      · rwa [← Option.some.inj (hsome.symm.trans hname)]
      · rw [hnone] at hname
        cases hname
    obtain ⟨s₀', hs₀', hmatch⟩ := h.scopes _ s₀ hcommon hs₀
    obtain ⟨b', hparam', hR⟩ := exists_of_mem_left hmatch.params hparam
    obtain rfl := hab.unique (Partners.own hcommon ⟨s₀, hs₀, hown⟩ hR) h hin
    obtain ⟨s', hs'⟩ := Graph.mem_scopeNames.mp
      (hin'.resolving.scopeNames ▸ Graph.mem_scopeNames.mpr ⟨s₀', hs₀'⟩)
    obtain ⟨t, ht, _, hparams', _⟩ := hin'.resolving.scope _ s' hs'
    cases hs₀'.symm.trans ht
    refine List.mem_append_left _ (List.mem_flatMap.mpr ⟨s', List.mem_filter.mpr ⟨?_, ?_⟩, ?_⟩)
    · exact Graph.mem_scopes_of_scope? hs'
    · simpa [Scope.isMain, Graph.name_of_scope? hs'] using htaints
    · rw [hparams']
      exact hparam'
  · apply List.mem_append_right
    exact Taint.builtinSources_of_eq hbuiltin hm hm' hres.isSource.symm

/-- Nothing of the scopes that are not common flows into a memory word. -/
def Seals (common : String → Prop) (g : Graph) : Prop :=
  ∀ sc s, ¬ common sc → g.scope? sc = some s → ∀ x ∈ s.edges, ¬ g.IsShared x.target

/-- Taint starts in scopes only. -/
theorem scope_of_source {c : TaintConfig} (hin : Inlined g k r)
    (hwords : ∀ id n, r.graph.node? id = some n → n.scope = none → n.isSource = false)
    (ha : a ∈ parameterSources c r.graph ++ builtinSources c r.graph) {n : FlowNode}
    (hn : r.graph.node? a = some n) : ∃ sc, n.scope = some sc := by
  cases hscope : n.scope with
  | some sc => exact ⟨sc, rfl⟩
  | none =>
    rcases List.mem_append.mp ha with hparam | hbuiltin
    · obtain ⟨s, hs, hparam⟩ := List.mem_flatMap.mp hparam
      have hmem := (List.mem_filter.mp hs).1
      have hcoherent := hin.resolving.coherent.scopes _ s
        (Graph.scope?_of_mem hin.resolving.coherent.names hmem)
      exact absurd (hcoherent.params a hparam) (Graph.IsShared.not_mem hcoherent ⟨n, hn, hscope⟩)
    · obtain ⟨_, m, hm, hsource⟩ := Taint.mem_builtinSources.mp hbuiltin
      cases hn.symm.trans hm
      rw [hwords a n hn hscope] at hsource
      cases hsource

/-- Taint that reaches a word or a node of a common scope reaches its partner, if
nothing flows into words from elsewhere. -/
theorem exists_partner_reached (h : g.Shares common R g') (hcompletes : Completes g k r)
    (hin' : Inlined g' k' r') (hg : g.Collected)
    (hwords : ∀ id n, r.graph.node? id = some n → n.scope = none → n.isSource = false)
    (hseals : Seals common r.graph) {c : TaintConfig} {ids ids' : List NodeId}
    (hids : ∀ id, id ∈ ids ↔ id ∈ parameterSources c r.graph ++ builtinSources c r.graph)
    (hids' : ∀ id, id ∈ ids' ↔ id ∈ parameterSources c r'.graph ++ builtinSources c r'.graph)
    (hreach : Taint.Reaches r.graph ids a)
    (ha : ∀ n sc, r.graph.node? a = some n → n.scope = some sc → common sc) :
    ∃ name b, Partners common R g r r' name a b ∧ Taint.Reaches r'.graph ids' b := by
  have hin := hcompletes.inlined hg
  induction hreach with
  | @source id hid hcan =>
    have hnode := hcan
    obtain ⟨n, hn, _⟩ := hnode
    have hsource := (hids id).mp hid
    obtain ⟨sc, hscope⟩ := scope_of_source hin hwords hsource hn
    obtain ⟨b, hpartner⟩ := hcompletes.exists_partner hg h r' hn hscope (ha n sc hn hscope)
    exact ⟨sc, b, hpartner, .source ((hids' b).mpr (hpartner.source h hin hin' hsource))
      (hpartner.canTaint h hin hin' hcan)⟩
  | @edge a b _ hedge hcan ih =>
    obtain ⟨name, s, hs, hx⟩ := hin.resolving.coherent.edges _ hedge
    have hcoherent := hin.resolving.coherent.scopes name s hs
    have hatt := (hcoherent.edges _ hx).2
    have hscope {id : NodeId} (hid : id ∈ s.nodes) {n : FlowNode}
        (hn : r.graph.node? id = some n) : n.scope = some name := by
      obtain ⟨m, hm, hname⟩ := (hcoherent.owns id).mp hid
      rwa [Option.some.inj (hn.symm.trans hm), ← Graph.name_of_scope? hs]
    -- an edge of another scope would have to end in a word
    have hcommon : common name := by
      by_contra hother
      rcases hatt.target with hown | hshared
      · obtain ⟨n, hn, _⟩ := (hcoherent.owns b).mp hown
        exact hother (ha n name hn (hscope hown hn))
      · exact hseals name s hother hs _ hx hshared
    obtain ⟨_, a', hpartner, hreach'⟩ := ih fun n sc hn hsc => by
      rcases hatt.source with hown | ⟨m, hm, hnone⟩
      · rwa [← Option.some.inj ((hscope hown hn).symm.trans hsc)]
      · rw [Option.some.inj (hn.symm.trans hm), hnone] at hsc
        cases hsc
    obtain ⟨s₀, hs₀, _⟩ := hin.resolving.scope name s hs
    obtain ⟨s₀', hs₀', _⟩ := h.scopes name s₀ hcommon hs₀
    obtain ⟨s', hs'⟩ := Graph.mem_scopeNames.mp
      (hin'.resolving.scopeNames ▸ Graph.mem_scopeNames.mpr ⟨s₀', hs₀'⟩)
    obtain ⟨y, hy, hsource, htarget⟩ := exists_partner_edge h hin hin' hcommon hs hs' hx
    obtain rfl := hpartner.unique hsource h hin
    have hyedge := ((hin'.resolving.coherent.scopes name s' hs').edges y hy).1
    exact ⟨name, y.target, htarget, .edge hreach' hyedge (htarget.canTaint h hin hin' hcan)⟩

/-- Of an address that is reported in a common scope, the partner is reported too. -/
theorem Finds.exists_partner {c : TaintConfig} {ids ids' addresses addresses' : List NodeId}
    {vs vs' : List Violation} (hfinds : Finds c r ids addresses vs)
    (hfinds' : Finds c r' ids' addresses' vs') (h : g.Shares common R g')
    (hcompletes : Completes g k r) (hin' : Inlined g' k' r') (hg : g.Collected)
    (hwords : ∀ id n, r.graph.node? id = some n → n.scope = none → n.isSource = false)
    (hseals : Seals common r.graph) (ha : a ∈ addresses)
    (hcommon : ∀ n sc, r.graph.node? a = some n → n.scope = some sc → common sc) :
    ∃ b ∈ addresses', ∃ name, Partners common R g r r' name a b := by
  have hin := hcompletes.inlined hg
  obtain ⟨hreach, n, hn, hkind, hprotected⟩ := (hfinds.mem a).mp ha
  obtain ⟨name, b, hpartner, hreach'⟩ := exists_partner_reached h hcompletes hin' hg hwords hseals
    hfinds.sources hfinds'.sources hreach hcommon
  obtain ⟨m, m', hm, hm', hres, _⟩ := hpartner.resembles h hin hin'
  cases hn.symm.trans hm
  exact ⟨b, (hfinds'.mem b).mpr ⟨hreach', m', hm', hres.kind ▸ hkind,
    hres.isProtected ▸ hprotected⟩, name, hpartner⟩

end Runs

end Resolver

end YulTaint
