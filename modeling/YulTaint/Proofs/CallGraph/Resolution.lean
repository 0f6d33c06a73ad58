import Mathlib.Tactic
import YulTaint.Proofs.CallGraph.Embed
import YulTaint.Proofs.CallGraph.Recursion
import YulTaint.Proofs.Flow.Finished

/-!
Resolution as a run of embeddings. A site may be embedded once its callee has
no open site, so a resolved site always leads to a resolved scope. Calls along
resolved sites therefore never come back: a cycle of calls consists of open
sites for ever, and sites that are stuck lie on or lead to such a cycle.
-/

namespace YulTaint

open Relation (ReflTransGen TransGen)

namespace Graph

def site? (g : Graph) (ref : SiteRef) : Option CallSite :=
  (g.scope? ref.scope).bind fun s => s.sites[ref.index]?

theorem site?_of_scope? {g : Graph} {name : String} {s : Scope} (hs : g.scope? name = some s)
    {i : Nat} : g.site? ⟨name, i⟩ = s.sites[i]? := by
  rw [site?, hs, Option.bind_some]

def IsResolved (g : Graph) (name : String) : Prop :=
  ∀ s, g.scope? name = some s → s.isResolved = true

end Graph

namespace Resolver

open YulTaint.Graph (Growth)

theorem mem_openSites {name : String} {start : Nat} {sites : List CallSite}
    {entry : SiteRef × CallSite} :
    entry ∈ openSites name start sites ↔
      ∃ i, entry.1 = ⟨name, start + i⟩ ∧ sites[i]? = some entry.2 ∧
        entry.2.resolved = false := by
  induction sites generalizing start with
  | nil => simp [openSites]
  | cons site rest ih =>
    have hrest : entry ∈ openSites name (start + 1) rest ↔
        ∃ i, entry.1 = ⟨name, start + (i + 1)⟩ ∧ (site :: rest)[i + 1]? = some entry.2 ∧
          entry.2.resolved = false := by
      rw [ih]
      simp only [List.getElem?_cons_succ, Nat.add_assoc, Nat.add_comm 1]
    have hsplit (P : Nat → Prop) : (∃ i, P i) ↔ P 0 ∨ ∃ i, P (i + 1) := by
      constructor
      · rintro ⟨i, hi⟩
        cases i with
        | zero => exact Or.inl hi
        | succ i => exact Or.inr ⟨i, hi⟩
      · rintro (h | ⟨i, hi⟩)
        · exact ⟨0, h⟩
        · exact ⟨i + 1, hi⟩
    rw [hsplit, openSites]
    cases hresolved : site.resolved with
    | true =>
      rw [if_pos rfl, hrest]
      constructor
      · exact Or.inr
      · rintro (⟨_, hsite, hopen⟩ | h)
        · obtain rfl : site = entry.2 := Option.some.inj hsite
          rw [hresolved] at hopen
          cases hopen
        · exact h
    | false =>
      rw [if_neg (by simp), List.mem_cons, hrest]
      constructor
      · rintro (rfl | h)
        · exact Or.inl ⟨rfl, rfl, hresolved⟩
        · exact Or.inr h
      · rintro (⟨href, hsite, _⟩ | h)
        · left
          obtain rfl : site = entry.2 := Option.some.inj hsite
          exact Prod.ext href rfl
        · exact Or.inr h

theorem nodup_openSites (name : String) (start : Nat) (sites : List CallSite) :
    ((openSites name start sites).map (·.1)).Nodup := by
  induction sites generalizing start with
  | nil => exact List.nodup_nil
  | cons site rest ih =>
    rw [openSites]
    split
    · exact ih (start + 1)
    · rw [List.map_cons, List.nodup_cons]
      refine ⟨?_, ih (start + 1)⟩
      intro hmem
      obtain ⟨entry, hentry, href⟩ := List.mem_map.mp hmem
      obtain ⟨i, hi, _⟩ := mem_openSites.mp hentry
      rw [hi] at href
      have hindex := congrArg SiteRef.index href
      simp only at hindex
      omega

/-- A site is pending if and only if it is open. -/
theorem mem_pending {g : Graph} (hg : g.scopeNames.Nodup) {entry : SiteRef × CallSite} :
    entry ∈ pending g ↔ g.site? entry.1 = some entry.2 ∧ entry.2.resolved = false := by
  unfold pending Graph.site?
  rw [List.mem_flatMap]
  constructor
  · rintro ⟨s, hs, hentry⟩
    obtain ⟨i, href, hsite, hopen⟩ := mem_openSites.mp hentry
    rw [href, Graph.scope?_of_mem hg hs]
    refine ⟨?_, hopen⟩
    simpa using hsite
  · rintro ⟨hsite, hopen⟩
    obtain ⟨s, hs, hindex⟩ := Option.bind_eq_some_iff.mp hsite
    refine ⟨s, Graph.mem_scopes_of_scope? hs, mem_openSites.mpr ⟨entry.1.index, ?_, hindex, hopen⟩⟩
    rw [Graph.name_of_scope? hs, Nat.zero_add]

theorem nodup_pending {g : Graph} (hg : g.scopeNames.Nodup) :
    ((pending g).map (·.1)).Nodup := by
  unfold pending
  rw [List.map_flatMap, List.nodup_flatMap]
  refine ⟨fun s _ => nodup_openSites s.name 0 s.sites, ?_⟩
  have hdistinct : g.scopes.Pairwise fun s t => s.name ≠ t.name := List.pairwise_map.mp hg
  refine hdistinct.imp fun {s t} hne => ?_
  intro ref hs ht
  obtain ⟨entry, hentry, rfl⟩ := List.mem_map.mp hs
  obtain ⟨entry', hentry', heq⟩ := List.mem_map.mp ht
  obtain ⟨i, hi, _⟩ := mem_openSites.mp hentry
  obtain ⟨j, hj, _⟩ := mem_openSites.mp hentry'
  rw [hi, hj] at heq
  exact hne (congrArg SiteRef.scope heq).symm

/-- An embedding of an open site whose callee has no open site. -/
structure Step (ref : SiteRef) (site : CallSite) (c f : Scope) (e : Embedding)
    (r r' : Resolver) : Prop where
  caller : r.graph.scope? ref.scope = some c
  place : c.sites[ref.index]? = some site
  isOpen : site.resolved = false
  callee : r.graph.scope? site.callee = some f
  ready : f.isResolved = true
  embeds : Embeds r ref site c f e r'

def openSite (site : CallSite) : CallSite :=
  { site with resolved := false }

/-- What embeddings keep of the graph that they started from, in whatever order they
are made. -/
structure Unfolds (g : Graph) (r : Resolver) : Prop where
  coherent : r.graph.Coherent
  scopeNames : r.graph.scopeNames = g.scopeNames
  scope : ∀ name s, r.graph.scope? name = some s → ∃ s₀, g.scope? name = some s₀ ∧
    s.root = s₀.root ∧ s.params = s₀.params ∧ s.returns = s₀.returns ∧
    s.sites.map openSite = s₀.sites

/-- What a run of embeddings keeps of the graph that it started from, if each of them is
made when the callee is complete. -/
structure Resolving (g : Graph) (k : Int) (r : Resolver) : Prop where
  coherent : r.graph.Coherent
  scopeNames : r.graph.scopeNames = g.scopeNames
  scope : ∀ name s, r.graph.scope? name = some s → ∃ s₀, g.scope? name = some s₀ ∧
    s.root = s₀.root ∧ s.params = s₀.params ∧ s.returns = s₀.returns ∧
    s.sites.map openSite = s₀.sites
  closed : ∀ name s, r.graph.scope? name = some s → ∀ site ∈ s.sites, site.resolved = true →
    r.graph.IsResolved site.callee
  nodup : (r.embeddings.map (·.site)).Nodup
  embedded : ∀ ref, ref ∈ r.embeddings.map (·.site) ↔
    ∃ site, r.graph.site? ref = some site ∧ site.resolved = true
  indices : r.embeddings.map (·.index) = (List.range r.embeddings.length).map fun i : Nat => k + i
  nextIndex : r.nextIndex = k + r.embeddings.length

section Runs

variable {g : Graph} {k : Int} {r r' : Resolver} {ref : SiteRef} {site : CallSite} {c f : Scope}
  {e : Embedding} {a b name : String}

theorem Resolving.unfolds (h : Resolving g k r) : Unfolds g r :=
  ⟨h.coherent, h.scopeNames, h.scope⟩

theorem unfolds_start (hg : g.Collected) (k : Int) :
    Unfolds g { graph := g, nextIndex := k } := by
  refine ⟨hg.coherent, rfl, fun name s hs => ⟨s, hs, rfl, rfl, rfl, ?_⟩⟩
  rw [List.map_congr_left (g := id), List.map_id]
  intro site hsite
  have hopen := (hg.sites name s hs site hsite).1
  simp [openSite, ← hopen]

theorem resolving_start (hg : g.Collected) (k : Int) :
    Resolving g k { graph := g, nextIndex := k } := by
  refine ⟨hg.coherent, rfl, (unfolds_start hg k).scope, ?_, List.nodup_nil, ?_, rfl,
    (Int.add_zero k).symm⟩
  · intro name s hs site hsite hresolved
    rw [(hg.sites name s hs site hsite).1] at hresolved
    cases hresolved
  · intro ref
    constructor
    · exact fun h => absurd h List.not_mem_nil
    · rintro ⟨site, hsite, hresolved⟩
      obtain ⟨s, hs, hindex⟩ := Option.bind_eq_some_iff.mp hsite
      rw [(hg.sites ref.scope s hs site (List.mem_of_getElem? hindex)).1] at hresolved
      cases hresolved

/-- Sites change in nothing but their mark. -/
theorem Resolving.site? (h : Resolving g k r) (ref : SiteRef) :
    g.site? ref = (r.graph.site? ref).map openSite := by
  unfold Graph.site?
  cases hs : r.graph.scope? ref.scope with
  | none =>
    cases hs₀ : g.scope? ref.scope with
    | none => rfl
    | some s₀ =>
      obtain ⟨s, hs'⟩ := Graph.mem_scopeNames.mp
        (h.scopeNames ▸ Graph.mem_scopeNames.mpr ⟨s₀, hs₀⟩)
      rw [hs] at hs'
      cases hs'
  | some s =>
    obtain ⟨s₀, hs₀, _, _, _, hmap⟩ := h.scope _ s hs
    rw [hs₀, Option.bind_some, Option.bind_some, ← hmap, List.getElem?_map]

/-- A scope that has a ready site is not resolved itself. -/
theorem Step.not_isResolved (h : Step ref site c f e r r') : ¬ r.graph.IsResolved ref.scope := by
  intro hresolved
  have hall := hresolved c h.caller
  rw [Scope.isResolved, List.all_eq_true] at hall
  have hsite := hall site (List.mem_of_getElem? h.place)
  rw [h.isOpen] at hsite
  cases hsite

/-- A resolved scope stays as it is. -/
theorem Step.isResolved (h : Step ref site c f e r r') (hname : r.graph.IsResolved name) :
    r'.graph.scope? name = r.graph.scope? name ∧ r'.graph.IsResolved name := by
  have hne : name ≠ ref.scope := fun heq => h.not_isResolved (heq ▸ hname)
  have hsame := h.embeds.growth.others name hne
  refine ⟨hsame, ?_⟩
  intro s hs
  exact hname s (hsame ▸ hs)

theorem map_openSite_modify (sites : List CallSite) (i : Nat) :
    (sites.modify i closeSite).map openSite = sites.map openSite := by
  apply List.ext_getElem?
  intro j
  simp only [List.getElem?_map, List.getElem?_modify, Option.map_map, Option.map_eq_map]
  congr 1
  funext site
  simp only [Function.comp_apply]
  split
  · rfl
  · rfl

/-- An embedding closes its site and no other. -/
theorem Embeds.site?_eq (h : Embeds r ref site c f e r') (hc : r.graph.scope? ref.scope = some c)
    (hplace : c.sites[ref.index]? = some site) (other : SiteRef) :
    r'.graph.site? other = if other = ref then some (closeSite site) else r.graph.site? other := by
  obtain ⟨c', hc', _, _, hsites, _⟩ := h.caller
  unfold Graph.site?
  by_cases hscope : other.scope = ref.scope
  · rw [hscope, hc', hc]
    simp only [Option.bind_some, hsites, List.getElem?_modify]
    by_cases hindex : other.index = ref.index
    · have heq : other = ref := by
        cases other
        cases ref
        simp_all
      rw [if_pos heq, hindex, hplace]
      simp
    · have hne : other ≠ ref := fun heq => hindex (congrArg SiteRef.index heq)
      rw [if_neg hne]
      simp [Ne.symm hindex]
  · have hne : other ≠ ref := fun heq => hscope (congrArg SiteRef.scope heq)
    rw [if_neg hne, h.growth.others _ hscope]

theorem site?_step (h : Step ref site c f e r r') (other : SiteRef) :
    r'.graph.site? other = if other = ref then some (closeSite site) else r.graph.site? other :=
  h.embeds.site?_eq h.caller h.place other

/-- An embedding unfolds the graph further, whatever the order. -/
theorem Unfolds.embeds (h : Unfolds g r) (hembeds : Embeds r ref site c f e r')
    (hc : r.graph.scope? ref.scope = some c) : Unfolds g r' := by
  obtain ⟨c', hc', hparams, hreturns, hsites, _⟩ := hembeds.caller
  have hgrowth := hembeds.growth
  refine ⟨hembeds.coherent, hgrowth.scopeNames.trans h.scopeNames, ?_⟩
  intro name s hs
  by_cases hname : name = ref.scope
  · subst hname
    cases hs.symm.trans hc'
    obtain ⟨s₀, hs₀, hroot, hp, hr, hmap⟩ := h.scope _ c hc
    obtain ⟨_, hs', hroot', _⟩ := hgrowth.scope c hc
    cases hs.symm.trans hs'
    refine ⟨s₀, hs₀, hroot'.trans hroot, hparams.trans hp, hreturns.trans hr, ?_⟩
    rw [hsites, map_openSite_modify, hmap]
  · rw [hgrowth.others name hname] at hs
    exact h.scope name s hs

/-- A site fits its callee, since no embedding touches parameters, returns or the
lists of a site. -/
theorem Unfolds.fits (h : Unfolds g r) (hg : g.Collected) {s : Scope}
    (hs : r.graph.scope? name = some s) {site : CallSite} (hsite : site ∈ s.sites) :
    ∃ f, r.graph.scope? site.callee = some f ∧ site.arguments.length = f.params.length ∧
      site.results.length = f.returns.length := by
  obtain ⟨s₀, hs₀, _, _, _, hmap⟩ := h.scope name s hs
  have hsite₀ : openSite site ∈ s₀.sites := hmap ▸ List.mem_map_of_mem hsite
  obtain ⟨_, f₀, hf₀, hargs, hresults⟩ := hg.sites name s₀ hs₀ (openSite site) hsite₀
  obtain ⟨f, hf⟩ := Graph.mem_scopeNames.mp
    (h.scopeNames ▸ Graph.mem_scopeNames.mpr ⟨f₀, hf₀⟩)
  obtain ⟨f₀', hf₀', _, hparams, hreturns, _⟩ := h.scope _ f hf
  cases hf₀.symm.trans hf₀'
  exact ⟨f, hf, hparams ▸ hargs, hreturns ▸ hresults⟩

/-- An embedding of a ready site keeps the invariant of the run. -/
theorem Resolving.step (h : Resolving g k r) (hstep : Step ref site c f e r r') :
    Resolving g k r' := by
  have hembeddings := hstep.embeds.embeddings
  have hsite : e.site = ref := by rw [hstep.embeds.embedding]
  have hindex : e.index = r.nextIndex := by rw [hstep.embeds.embedding]
  have href : r.graph.site? ref = some site :=
    (Graph.site?_of_scope? hstep.caller).trans hstep.place
  have hunfolds := h.unfolds.embeds hstep.embeds hstep.caller
  refine ⟨hunfolds.coherent, hunfolds.scopeNames, hunfolds.scope, ?_, ?_, ?_, ?_, ?_⟩
  · intro name s hs other hother hresolved
    obtain ⟨i, hi⟩ := List.mem_iff_getElem?.mp hother
    have hplace := (Graph.site?_of_scope? hs).trans hi
    rw [site?_step hstep] at hplace
    have hbefore : r.graph.IsResolved other.callee := by
      split at hplace
      · obtain rfl := Option.some.inj hplace
        intro t ht
        cases hstep.callee.symm.trans ht
        exact hstep.ready
      · obtain ⟨s₀, hs₀, hi₀⟩ := Option.bind_eq_some_iff.mp hplace
        exact h.closed name s₀ hs₀ other (List.mem_of_getElem? hi₀) hresolved
    exact (hstep.isResolved hbefore).2
  · rw [hembeddings, List.map_append, List.nodup_append]
    refine ⟨h.nodup, List.nodup_singleton _, ?_⟩
    rintro a ha b hb rfl
    have hab : a = ref := (List.mem_singleton.mp hb).trans hsite
    rw [hab] at ha
    obtain ⟨site', hsite', hresolved⟩ := (h.embedded ref).mp ha
    rw [href] at hsite'
    obtain rfl : site = site' := Option.some.inj hsite'
    rw [hstep.isOpen] at hresolved
    cases hresolved
  · intro other
    rw [hembeddings, List.map_append, List.mem_append, h.embedded, List.map_cons, List.map_nil,
      List.mem_singleton, hsite, site?_step hstep]
    by_cases heq : other = ref
    · rw [if_pos heq]
      exact ⟨fun _ => ⟨_, rfl, rfl⟩, fun _ => Or.inr heq⟩
    · rw [if_neg heq]
      exact ⟨fun hor => hor.resolve_right heq, Or.inl⟩
  · rw [hembeddings, List.map_append, h.indices, List.length_append, List.length_singleton,
      List.range_succ, List.map_append]
    simp only [List.map_cons, List.map_nil, hindex, h.nextIndex]
  · rw [hstep.embeds.nextIndex, h.nextIndex, hembeddings, List.length_append,
      List.length_singleton]
    push_cast
    ring

/-- A call of the original graph is a site of the present one. -/
theorem Resolving.site_of_calls (h : Resolving g k r) (hab : g.Calls a b) :
    ∃ s, r.graph.scope? a = some s ∧ ∃ site ∈ s.sites, site.callee = b := by
  obtain ⟨s₀, hs₀, site₀, hsite₀, rfl⟩ := hab
  obtain ⟨s, hs⟩ := Graph.mem_scopeNames.mp
    (h.scopeNames ▸ Graph.mem_scopeNames.mpr ⟨s₀, hs₀⟩)
  obtain ⟨s₀', hs₀', _, _, _, hmap⟩ := h.scope a s hs
  cases hs₀.symm.trans hs₀'
  rw [← hmap] at hsite₀
  obtain ⟨site, hsite, rfl⟩ := List.mem_map.mp hsite₀
  exact ⟨s, hs, site, hsite, rfl⟩

theorem Resolving.calls_of_site (h : Resolving g k r) {s : Scope} (hs : r.graph.scope? a = some s)
    {site : CallSite} (hsite : site ∈ s.sites) :
    g.Calls a site.callee := by
  obtain ⟨s₀, hs₀, _, _, _, hmap⟩ := h.scope a s hs
  exact ⟨s₀, hs₀, openSite site, hmap ▸ List.mem_map_of_mem hsite, rfl⟩

/-- What a resolved scope calls is resolved. -/
theorem Resolving.isResolved_of_calls (h : Resolving g k r) (ha : r.graph.IsResolved a)
    (hab : g.Calls a b) : r.graph.IsResolved b := by
  obtain ⟨s, hs, site, hsite, rfl⟩ := h.site_of_calls hab
  have hall := ha s hs
  rw [Scope.isResolved, List.all_eq_true] at hall
  exact h.closed a s hs site hsite (hall site hsite)

/-- All that a resolved scope calls is resolved. -/
theorem Resolving.isResolved_of_reaches (h : Resolving g k r) (ha : r.graph.IsResolved a)
    (hab : ReflTransGen g.Calls a b) : r.graph.IsResolved b := by
  induction hab with
  | refl => exact ha
  | tail _ hstep ih => exact h.isResolved_of_calls ih hstep

def Acyclic (g : Graph) (r : Resolver) : Prop :=
  ∀ name, r.graph.IsResolved name → ¬ g.IsRecursive name

theorem acyclic_start (hg : g.Collected) (k : Int) :
    Acyclic g { graph := g, nextIndex := k } := by
  intro name hname hcycle
  obtain ⟨b, ⟨s, hs, site, hsite, _⟩, _⟩ := TransGen.head'_iff.mp hcycle
  have hall := hname s hs
  rw [Scope.isResolved, List.all_eq_true] at hall
  have hresolved := hall site hsite
  rw [(hg.sites name s hs site hsite).1] at hresolved
  cases hresolved

/-- A scope that a step resolves is not recursive: all that it reaches was
resolved before, and the scope itself was not. -/
theorem Acyclic.step (h : Acyclic g r) (hr : Resolving g k r)
    (hstep : Step ref site c f e r r') : Acyclic g r' := by
  intro name hname hcycle
  by_cases hbefore : r.graph.IsResolved name
  · exact h name hbefore hcycle
  · have hscope : name = ref.scope := by
      by_contra hne
      refine hbefore fun s hs => hname s ?_
      rw [hstep.embeds.growth.others name hne, hs]
    subst hscope
    obtain ⟨b, hcall, hback⟩ := TransGen.head'_iff.mp hcycle
    obtain ⟨s, hs, other, hother, rfl⟩ := hr.site_of_calls hcall
    cases hstep.caller.symm.trans hs
    have hcallee : r.graph.IsResolved other.callee := by
      obtain ⟨i, hi⟩ := List.mem_iff_getElem?.mp hother
      obtain ⟨c', hc', _, _, hsites, _⟩ := hstep.embeds.caller
      by_cases hplace : ref.index = i
      · subst hplace
        cases hstep.place.symm.trans hi
        intro t ht
        cases hstep.callee.symm.trans ht
        exact hstep.ready
      · have hmem : other ∈ c'.sites := by
          rw [hsites]
          refine List.mem_of_getElem? (i := i) ?_
          rw [List.getElem?_modify_ne _ _ hplace, hi]
        have hall := hname c' hc'
        rw [Scope.isResolved, List.all_eq_true] at hall
        exact hr.closed _ c hstep.caller other hother (hall other hmem)
    exact hstep.not_isResolved (hr.isResolved_of_reaches hcallee hback)

def Stuck (r : Resolver) : Prop :=
  ∀ a b, r.graph.OpenCalls a b → ¬ r.graph.IsResolved b

theorem exists_openCalls (h : ¬ r.graph.IsResolved name) :
    ∃ b, r.graph.OpenCalls name b := by
  simp only [Graph.IsResolved, not_forall] at h
  obtain ⟨s, hs, hopen⟩ := h
  rw [Scope.isResolved, List.all_eq_true] at hopen
  simp only [not_forall] at hopen
  obtain ⟨site, hsite, hresolved⟩ := hopen
  exact ⟨site.callee, s, hs, site, hsite, by simpa using hresolved, rfl⟩

theorem mem_scopeNames_of_openCalls (h : r.graph.OpenCalls a b) :
    a ∈ r.graph.scopeNames := by
  obtain ⟨s, hs, _⟩ := h
  exact Graph.mem_scopeNames.mpr ⟨s, hs⟩

/-- From a stuck site calls go on for ever, so among finitely many scopes some
scope comes back to itself. -/
theorem Stuck.exists_cycle (h : Stuck r) (hab : r.graph.OpenCalls a b) :
    ∃ name, TransGen r.graph.OpenCalls name name := by
  by_contra hnone
  let Name := { name : String // name ∈ r.graph.scopeNames }
  let After (x y : Name) : Prop := TransGen r.graph.OpenCalls y.1 x.1
  have hfinite : Finite Name := List.finite_toSet r.graph.scopeNames
  have htrans : IsTrans Name After := ⟨fun x y z hxy hyz => hyz.trans hxy⟩
  have hirrefl : Std.Irrefl After := ⟨fun x hx => hnone ⟨x.1, hx⟩⟩
  have hwf : WellFounded After := Finite.wellFounded_of_trans_of_irrefl After
  let Calling : Set Name := { x | ∃ y, r.graph.OpenCalls x.1 y }
  obtain ⟨m, ⟨d, hmd⟩, hmin⟩ := hwf.has_min Calling
    ⟨⟨a, mem_scopeNames_of_openCalls hab⟩, b, hab⟩
  obtain ⟨e, hde⟩ := exists_openCalls (h m.1 d hmd)
  exact hmin ⟨d, mem_scopeNames_of_openCalls hde⟩ ⟨e, hde⟩ (.single hmd)

/-- A call of a recursive function stays open. -/
theorem Resolving.openCalls_of_recursive (h : Resolving g k r) (hacyclic : Acyclic g r)
    (hab : g.Calls a b) (hb : g.IsRecursive b) : r.graph.OpenCalls a b := by
  obtain ⟨s, hs, site, hsite, rfl⟩ := h.site_of_calls hab
  refine ⟨s, hs, site, hsite, ?_, rfl⟩
  cases hresolved : site.resolved with
  | false => rfl
  | true => exact absurd hb (hacyclic _ (h.closed a s hs site hsite hresolved))

/-- A way out and back consists of open sites. -/
theorem Resolving.openCalls_of_cycle (h : Resolving g k r) (hacyclic : Acyclic g r)
    (hforth : TransGen g.Calls a b) (hback : ReflTransGen g.Calls b a) :
    TransGen r.graph.OpenCalls a b := by
  induction hforth with
  | single hstep =>
    exact .single (h.openCalls_of_recursive hacyclic hstep (.tail' hback hstep))
  | tail hpath hstep ih =>
    refine (ih (.head hstep hback)).tail (h.openCalls_of_recursive hacyclic hstep ?_)
    exact TransGen.trans_right hback (hpath.tail hstep)

/-- Recursion over the open sites is recursion over all sites. -/
theorem Resolving.recursive_iff (h : Resolving g k r) (hacyclic : Acyclic g r) (name : String) :
    TransGen r.graph.OpenCalls name name ↔ g.IsRecursive name := by
  constructor
  · refine fun hcycle => TransGen.mono ?_ _ _ hcycle
    rintro a b ⟨s, hs, site, hsite, _, rfl⟩
    exact h.calls_of_site hs hsite
  · exact fun hcycle => h.openCalls_of_cycle hacyclic hcycle .refl

end Runs

end Resolver

end YulTaint
