import Mathlib.Tactic
import YulTaint.Proofs.CallGraph.Inlining

/-!
Runs of embeddings to their end, in any order: each step embeds a site whose
callee has no open site. Resolution is one such run. No embedding makes a shared
node, so all nodes of the last graph are shared from the start or stand at the end
of some way of calls.
-/

namespace YulTaint

open Relation (ReflTransGen)

namespace Resolver

variable {g : Graph} {k : Int} {r r' : Resolver}

def EmbedsReady (r r' : Resolver) : Prop :=
  ∃ ref site e, r.graph.site? ref = some site ∧ site.resolved = false ∧
    r.graph.IsResolved site.callee ∧ embed ref site r = .ok e r'

theorem EmbedsReady.advances (h : EmbedsReady r r') (hg : g.Collected) (hr : Resolving g k r) :
    Advances r r' := by
  obtain ⟨ref, site, e, hsite, hopen, hready, hembed⟩ := h
  obtain ⟨c, hc, hplace⟩ := Option.bind_eq_some_iff.mp hsite
  obtain ⟨f, hf, hargs, hresults⟩ := hr.unfolds.fits hg hc (List.mem_of_getElem? hplace)
  obtain ⟨e', r'', hembed', hspec⟩ := embed_spec hr.coherent hc hplace hopen hf hargs hresults
  rw [hembed] at hembed'
  cases hembed'
  exact ⟨ref, site, c, f, e, hc, hplace, hopen, hf, hready f hf, hspec⟩

theorem advances_of_embedsReady (hg : g.Collected)
    (h : ReflTransGen EmbedsReady { graph := g, nextIndex := k } r) :
    ReflTransGen Advances { graph := g, nextIndex := k } r := by
  induction h with
  | refl => exact .refl
  | tail _ hstep ih => exact ih.tail (hstep.advances hg (Inlining.run ih hg).1)

/-- The site found is one of those given, and its callee is resolved. -/
theorem mem_of_firstReady {entries : List (SiteRef × CallSite)} {ref : SiteRef} {site : CallSite}
    (h : firstReady g entries = .ok (some (ref, site))) :
    (ref, site) ∈ entries ∧ g.IsResolved site.callee := by
  induction entries with
  | nil => cases h
  | cons entry rest ih =>
    rw [firstReady] at h
    split at h
    · cases h
    · rename_i callee hcallee
      split at h
      · rename_i hready
        cases h
        refine ⟨List.mem_cons_self, ?_⟩
        intro s hs
        cases hcallee.symm.trans hs
        exact hready
      · obtain ⟨hmem, hready⟩ := ih h
        exact ⟨List.mem_cons_of_mem _ hmem, hready⟩

/-- A step that succeeds does nothing and is the last one, or embeds a ready
site. -/
theorem embedsReady_of_step (hr : r.graph.scopeNames.Nodup) {more : Bool}
    (h : step r = .ok more r') : more = false ∧ r' = r ∨ EmbedsReady r r' := by
  unfold step at h
  split at h
  · cases h
    exact Or.inl ⟨rfl, rfl⟩
  · split at h
    · cases h
    · split at h
      · cases h
      · cases h
    · rename_i ref site hfirst
      cases hembed : embed ref site r with
      | error failure r'' =>
        rw [hembed] at h
        cases h
      | ok e r'' =>
        rw [hembed] at h
        cases h
        obtain ⟨hmem, hready⟩ := mem_of_firstReady hfirst
        obtain ⟨hsite, hopen⟩ := (mem_pending hr).mp hmem
        exact Or.inr ⟨ref, site, e, hsite, hopen, hready, hembed⟩

/-- The steps of the resolver are embeddings of ready sites. -/
theorem embedsReady_of_steps (hg : g.Collected) (bound : Nat) (hr : Resolving g k r)
    (h : steps bound r = .ok () r') : ReflTransGen EmbedsReady r r' := by
  induction bound generalizing r with
  | zero =>
    cases h
    exact .refl
  | succ bound ih =>
    cases hstep : step r with
    | error failure r'' =>
      rw [steps_of_error hstep] at h
      cases h
    | ok more next =>
      have hcase := embedsReady_of_step hr.coherent.names hstep
      cases more with
      | false =>
        cases (steps_of_done hstep).symm.trans h
        rcases hcase with ⟨_, rfl⟩ | hready
        · exact .refl
        · exact .single hready
      | true =>
        rw [steps_of_more hstep] at h
        rcases hcase with ⟨hfalse, _⟩ | hready
        · cases hfalse
        · exact .head hready (ih (hr.advances (hready.advances hg hr)) h)

structure Completes (g : Graph) (k : Int) (r : Resolver) : Prop where
  run : ReflTransGen EmbedsReady { graph := g, nextIndex := k } r
  done : pending r.graph = []

theorem Completes.inlined (h : Completes g k r) (hg : g.Collected) : Inlined g k r := by
  obtain ⟨hr, hinlining⟩ := Inlining.run (advances_of_embedsReady hg h.run) hg
  exact ⟨hg, hr, hinlining, isResolved_of_pending_nil hr.coherent.names h.done⟩

/-- Resolution is such a run. -/
theorem exists_completes (hg : g.Collected) (hacyclic : ∀ f, ¬ g.IsRecursive f) (k : Int) :
    ∃ r, resolve { graph := g, nextIndex := k } = .ok () r ∧ Completes g k r := by
  obtain ⟨r, _, _, _, hend⟩ := resolve_spec hg k
  rcases hend with ⟨hdone, hok⟩ | ⟨names, _, hne, hmem⟩
  · exact ⟨r, hok, embedsReady_of_steps hg _ (resolving_start hg k) hok, hdone⟩
  · obtain ⟨f, hf⟩ := List.exists_mem_of_ne_nil _ hne
    exact absurd ((hmem f).mp hf) (hacyclic f)

/-- Embedding makes no shared node. -/
theorem isShared_of_run (h : ReflTransGen Advances { graph := g, nextIndex := k } r) {id : NodeId}
    (hid : r.graph.IsShared id) : g.IsShared id := by
  induction h with
  | refl => exact hid
  | tail _ hstep ih =>
    obtain ⟨ref, _, _, _, _, hstep⟩ := hstep
    obtain ⟨n, hn, hnone⟩ := hid
    rcases hstep.embeds.growth.node?_cases hn with hold | ⟨_, hscope, _⟩
    · exact ih ⟨n, hold, hnone⟩
    · cases hscope.symm.trans hnone

/-- A node is a memory word of the collected graph, or stands at a way of calls out
of its scope. -/
theorem Completes.place_or_shared (h : Completes g k r) (hg : g.Collected) {a : NodeId}
    {n : FlowNode} (hn : r.graph.node? a = some n) :
    (∃ name path chain last id, n.scope = some name ∧ g.CallPath name path chain last ∧
      g.Owns last id ∧ a = r.place path id) ∨ n.scope = none ∧ g.IsShared a := by
  have hinlined := h.inlined hg
  cases hscope : n.scope with
  | none =>
    exact Or.inr ⟨rfl, isShared_of_run (advances_of_embedsReady hg h.run) ⟨n, hn, hscope⟩⟩
  | some sc =>
    have hcoh := hinlined.resolving.coherent
    obtain ⟨s, hs⟩ := Graph.mem_scopeNames.mp (hcoh.owned a n sc hn hscope)
    have hmem : a ∈ s.nodes :=
      ((hcoh.scopes sc s hs).owns a).mpr ⟨n, hn, by rw [hscope, Graph.name_of_scope? hs]⟩
    obtain ⟨path, chain, last, id, hpath, hid, rfl⟩ := hinlined.exists_place hs hmem
    exact Or.inl ⟨sc, path, chain, last, id, rfl, hpath, hinlined.declares.mp hid, rfl⟩

end Resolver

end YulTaint
