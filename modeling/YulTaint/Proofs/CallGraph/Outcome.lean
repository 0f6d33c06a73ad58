import Mathlib.Tactic
import YulTaint.Proofs.CallGraph.Resolution

/-!
What resolving the calls of a program returns. Each step embeds one site that
is ready, so the number of open sites falls until none is left or none is
ready; in the second case the open sites hold every cycle of the program's
calls, and the step names them.
-/

namespace YulTaint

open Relation (ReflTransGen)

namespace Resolver

def Advances (r r' : Resolver) : Prop :=
  ∃ ref site c f e, Step ref site c f e r r'

section Outcome

variable {g : Graph} {k : Int} {r r' : Resolver}

theorem Resolving.advances (h : Resolving g k r) (hstep : Advances r r') : Resolving g k r' := by
  obtain ⟨_, _, _, _, _, hstep⟩ := hstep
  exact h.step hstep

theorem Acyclic.advances (h : Acyclic g r) (hr : Resolving g k r) (hstep : Advances r r') :
    Acyclic g r' := by
  obtain ⟨_, _, _, _, _, hstep⟩ := hstep
  exact h.step hr hstep

/-- If no site is found, then no callee is resolved. -/
theorem firstReady_spec (g : Graph) (entries : List (SiteRef × CallSite))
    (hcallee : ∀ entry ∈ entries, ∃ f, g.scope? entry.2.callee = some f) :
    (∃ ref site f, firstReady g entries = .ok (some (ref, site)) ∧ (ref, site) ∈ entries ∧
      g.scope? site.callee = some f ∧ f.isResolved = true) ∨
    firstReady g entries = .ok none ∧ ∀ entry ∈ entries, ¬ g.IsResolved entry.2.callee := by
  induction entries with
  | nil => exact Or.inr ⟨rfl, List.forall_mem_nil _⟩
  | cons entry rest ih =>
    obtain ⟨ref, site⟩ := entry
    obtain ⟨f, hf⟩ := hcallee (ref, site) List.mem_cons_self
    have hrest := ih fun other hother => hcallee other (List.mem_cons_of_mem _ hother)
    simp only [firstReady, hf]
    cases hready : f.isResolved with
    | true => exact Or.inl ⟨ref, site, f, rfl, List.mem_cons_self, hf, hready⟩
    | false =>
      rw [if_neg (by simp)]
      rcases hrest with ⟨ref', site', f', hfirst, hmem, hf', hready'⟩ | ⟨hnone, hall⟩
      · exact Or.inl ⟨ref', site', f', hfirst, List.mem_cons_of_mem _ hmem, hf', hready'⟩
      · refine Or.inr ⟨hnone, ?_⟩
        intro other hother
        rcases List.mem_cons.mp hother with rfl | hother
        · intro hresolved
          rw [hresolved f hf] at hready
          cases hready
        · exact hall other hother

theorem mem_pending_scope {entry : SiteRef × CallSite} (hg : r.graph.scopeNames.Nodup)
    (h : entry ∈ pending r.graph) : ∃ s, r.graph.scope? entry.1.scope = some s ∧
      s.sites[entry.1.index]? = some entry.2 ∧ entry.2.resolved = false := by
  obtain ⟨hsite, hopen⟩ := (mem_pending hg).mp h
  obtain ⟨s, hs, hindex⟩ := Option.bind_eq_some_iff.mp hsite
  exact ⟨s, hs, hindex, hopen⟩

/-- Without a pending site every scope is resolved. -/
theorem isResolved_of_pending_nil (hg : r.graph.scopeNames.Nodup) (h : pending r.graph = [])
    (name : String) : r.graph.IsResolved name := by
  intro s hs
  rw [Scope.isResolved, List.all_eq_true]
  intro site hsite
  by_contra hopen
  obtain ⟨i, hi⟩ := List.mem_iff_getElem?.mp hsite
  have hmem : ((⟨name, i⟩, site) : SiteRef × CallSite) ∈ pending r.graph := by
    refine (mem_pending hg).mpr ⟨?_, by simpa using hopen⟩
    exact (Graph.site?_of_scope? hs).trans hi
  rw [h] at hmem
  exact List.not_mem_nil hmem

/-- When no pending site is ready, the graph is stuck. -/
theorem stuck_of_pending (hg : r.graph.scopeNames.Nodup)
    (h : ∀ entry ∈ pending r.graph, ¬ r.graph.IsResolved entry.2.callee) : Stuck r := by
  rintro a b ⟨s, hs, site, hsite, hopen, rfl⟩
  obtain ⟨i, hi⟩ := List.mem_iff_getElem?.mp hsite
  refine h (⟨a, i⟩, site) ((mem_pending hg).mpr ⟨?_, hopen⟩)
  exact (Graph.site?_of_scope? hs).trans hi

/-- What stands behind a report of recursion: the names are the recursive
functions of the original graph, and there are some. -/
def Reports (g : Graph) (names : List String) : Prop :=
  names ≠ [] ∧ ∀ name, name ∈ names ↔ g.IsRecursive name

/-- Where no site is ready, the recursive functions are found. -/
theorem Stuck.reports (h : Stuck r) (hg : g.Collected) (hr : Resolving g k r)
    (hacyclic : Acyclic g r) (hpending : pending r.graph ≠ []) :
    ∃ names, recursiveFunctions r.graph = .ok names ∧ Reports g names := by
  have hscopes : r.graph.scopeNames.Nodup := hr.coherent.names
  have hcallee (a b : String) (hab : r.graph.OpenCalls a b) : ∃ s, r.graph.scope? b = some s := by
    obtain ⟨s, hs, site, hsite, _, rfl⟩ := hab
    obtain ⟨f, hf, _⟩ := hr.unfolds.fits hg hs hsite
    exact ⟨f, hf⟩
  obtain ⟨names, hnames, hmem⟩ := recursiveFunctions_spec hcallee
  have hiff (name : String) : name ∈ names ↔ g.IsRecursive name :=
    (hmem name).trans (hr.recursive_iff hacyclic name)
  refine ⟨names, hnames, ?_, hiff⟩
  obtain ⟨entry, hentry⟩ := List.exists_mem_of_ne_nil _ hpending
  obtain ⟨s, hs, hindex, hopen⟩ := mem_pending_scope hscopes hentry
  obtain ⟨name, hcycle⟩ := h.exists_cycle ⟨s, hs, entry.2, List.mem_of_getElem? hindex, hopen, rfl⟩
  exact List.ne_nil_of_mem ((hmem name).mpr hcycle)

/-- A step finds no open site, or resolves one, or reports the recursion. -/
theorem step_spec (hg : g.Collected) (hr : Resolving g k r) (hacyclic : Acyclic g r) :
    pending r.graph = [] ∧ step r = .ok false r ∨
    pending r.graph ≠ [] ∧ (∃ r', step r = .ok true r' ∧ Advances r r') ∨
    pending r.graph ≠ [] ∧ ∃ names, step r = .error (.fault { cause := .recursion names }) r ∧
      Reports g names := by
  have hscopes : r.graph.scopeNames.Nodup := hr.coherent.names
  unfold step isDone
  by_cases hdone : pending r.graph = []
  · refine Or.inl ⟨hdone, ?_⟩
    rw [hdone]
    rfl
  · right
    rw [if_neg (by simpa using hdone)]
    have hcallee (entry : SiteRef × CallSite) (hentry : entry ∈ pending r.graph) :
        ∃ f, r.graph.scope? entry.2.callee = some f := by
      obtain ⟨s, hs, hindex, _⟩ := mem_pending_scope hscopes hentry
      obtain ⟨f, hf, _⟩ := hr.unfolds.fits hg hs (List.mem_of_getElem? hindex)
      exact ⟨f, hf⟩
    rcases firstReady_spec r.graph _ hcallee with
      ⟨ref, site, f, hfirst, hmem, hf, hready⟩ | ⟨hnone, hall⟩
    · left
      obtain ⟨c, hc, hplace, hopen⟩ := mem_pending_scope hscopes hmem
      obtain ⟨f', hf', hargs, hresults⟩ := hr.unfolds.fits hg hc (List.mem_of_getElem? hplace)
      cases hf.symm.trans hf'
      obtain ⟨e, r', hembed, hspec⟩ := embed_spec hr.coherent hc hplace hopen hf hargs hresults
      refine ⟨hdone, r', ?_, ref, site, c, f, e, ⟨hc, hplace, hopen, hf, hready, hspec⟩⟩
      simp only [nextEligible, hfirst, hembed]
    · right
      obtain ⟨names, hnames, hreports⟩ :=
        (stuck_of_pending hscopes hall).reports hg hr hacyclic hdone
      refine ⟨hdone, names, ?_, hreports⟩
      simp only [nextEligible, hnone, hnames]

/-- A step closes its site and opens none. -/
theorem Resolving.pending_lt (h : Resolving g k r) (hstep : Advances r r') :
    (pending r'.graph).length < (pending r.graph).length := by
  have hnext := h.advances hstep
  obtain ⟨ref, site, c, f, e, hstep⟩ := hstep
  let before := (pending r.graph).map (·.1)
  let after := (pending r'.graph).map (·.1)
  have hclosed : ref ∉ after := by
    intro hmem
    obtain ⟨entry, hentry, href⟩ := List.mem_map.mp hmem
    obtain ⟨hsite, hopen⟩ := (mem_pending hnext.coherent.names).mp hentry
    rw [site?_step hstep, if_pos href] at hsite
    rw [← Option.some.inj hsite] at hopen
    cases hopen
  have hsubset : ref :: after ⊆ before := by
    intro other hother
    rcases List.mem_cons.mp hother with rfl | hother
    · refine List.mem_map.mpr ⟨(other, site), ?_, rfl⟩
      refine (mem_pending h.coherent.names).mpr ⟨?_, hstep.isOpen⟩
      exact (Graph.site?_of_scope? hstep.caller).trans hstep.place
    · have hne : other ≠ ref := fun heq => hclosed (heq ▸ hother)
      obtain ⟨entry, hentry, rfl⟩ := List.mem_map.mp hother
      obtain ⟨hsite, hopen⟩ := (mem_pending hnext.coherent.names).mp hentry
      rw [site?_step hstep, if_neg hne] at hsite
      exact List.mem_map.mpr ⟨entry, (mem_pending h.coherent.names).mpr ⟨hsite, hopen⟩, rfl⟩
  have hnodup : (ref :: after).Nodup :=
    List.nodup_cons.mpr ⟨hclosed, nodup_pending hnext.coherent.names⟩
  have hlength := (hnodup.subperm hsubset).length_le
  simp only [before, after, List.length_cons, List.length_map] at hlength
  omega

theorem steps_of_done {bound : Nat} (h : step r = .ok false r') :
    steps (bound + 1) r = .ok () r' := by
  simp only [steps, bind, EStateM.bind, h]
  rfl

theorem steps_of_more {bound : Nat} (h : step r = .ok true r') :
    steps (bound + 1) r = steps bound r' := by
  rw [steps]
  simp only [bind, EStateM.bind, h]
  rfl

theorem steps_of_error {bound : Nat} {failure : Failure} (h : step r = .error failure r') :
    steps (bound + 1) r = .error failure r' := by
  simp only [steps, bind, EStateM.bind, h]

/-- With a step to spare a run ends: all sites are resolved, or the recursion is
reported. -/
theorem steps_spec (hg : g.Collected) (bound : Nat) (hr : Resolving g k r)
    (hacyclic : Acyclic g r) (hbound : (pending r.graph).length < bound) :
    ∃ r', ReflTransGen Advances r r' ∧ Resolving g k r' ∧ Acyclic g r' ∧
      (pending r'.graph = [] ∧ steps bound r = .ok () r' ∨
        ∃ names, steps bound r = .error (.fault { cause := .recursion names }) r' ∧
          Reports g names) := by
  induction bound generalizing r with
  | zero => omega
  | succ bound ih =>
    rcases step_spec hg hr hacyclic with
      ⟨hdone, hrun⟩ | ⟨_, next, hrun, hstep⟩ | ⟨_, names, hrun, hreports⟩
    · exact ⟨r, .refl, hr, hacyclic, Or.inl ⟨hdone, steps_of_done hrun⟩⟩
    · have hlt := hr.pending_lt hstep
      obtain ⟨r', hrun', hr', hacyclic', hend⟩ :=
        ih (hr.advances hstep) (hacyclic.advances hr hstep) (by omega)
      rw [← steps_of_more hrun] at hend
      exact ⟨r', .head hstep hrun', hr', hacyclic', hend⟩
    · exact ⟨r, .refl, hr, hacyclic, Or.inr ⟨names, steps_of_error hrun, hreports⟩⟩

/-- The run of a resolution from a collected graph. -/
theorem resolve_spec (hg : g.Collected) (k : Int) :
    ∃ r', ReflTransGen Advances { graph := g, nextIndex := k } r' ∧ Resolving g k r' ∧
      Acyclic g r' ∧
      (pending r'.graph = [] ∧ resolve { graph := g, nextIndex := k } = .ok () r' ∨
        ∃ names, resolve { graph := g, nextIndex := k } =
          .error (.fault { cause := .recursion names }) r' ∧ Reports g names) :=
  steps_spec hg _ (resolving_start hg k) (acyclic_start hg k) (Nat.lt_succ_self _)

/-- Sites of a resolved graph are the original ones, closed. -/
theorem Resolving.site?_of_resolved (h : Resolving g k r) (hall : ∀ name, r.graph.IsResolved name)
    (ref : SiteRef) : r.graph.site? ref = (g.site? ref).map closeSite := by
  rw [h.site? ref, Option.map_map]
  cases hsite : r.graph.site? ref with
  | none => rfl
  | some site =>
    obtain ⟨s, hs, hindex⟩ := Option.bind_eq_some_iff.mp hsite
    have hresolved := hall _ s hs
    rw [Scope.isResolved, List.all_eq_true] at hresolved
    have hclosed := hresolved site (List.mem_of_getElem? hindex)
    simp [closeSite, openSite, ← hclosed]

end Outcome

/-- Resolving the calls of a program reports recursion exactly if some function
reaches itself through call sites, and then names all such functions; otherwise
every call site ends up resolved by one embedding of its own, numbered from the
counter's start on. -/
theorem resolve_outcome {program : Node} {g : Graph} (hg : Flow.collect program = .ok g)
    (k : Int) :
    ((∃ f, g.IsRecursive f) →
      ∃ names r, resolve { graph := g, nextIndex := k } =
          .error (.fault { cause := .recursion names }) r ∧
        names ≠ [] ∧ ∀ f, f ∈ names ↔ g.IsRecursive f) ∧
    ((∀ f, ¬ g.IsRecursive f) →
      ∃ r, resolve { graph := g, nextIndex := k } = .ok () r ∧
        r.graph.scopeNames = g.scopeNames ∧
        (∀ ref, r.graph.site? ref = (g.site? ref).map closeSite) ∧
        (r.embeddings.map (·.site)).Nodup ∧
        (∀ ref, ref ∈ r.embeddings.map (·.site) ↔ (g.site? ref).isSome) ∧
        r.embeddings.map (·.index) =
          (List.range r.embeddings.length).map fun i : Nat => k + i) := by
  have hcollected := Flow.collected_of_collect hg
  obtain ⟨r, _, hr, hacyclic, hend⟩ := resolve_spec hcollected k
  constructor
  · rintro ⟨f, hf⟩
    rcases hend with ⟨hdone, _⟩ | ⟨names, hrun, hreports⟩
    · exact absurd hf (hacyclic f (isResolved_of_pending_nil hr.coherent.names hdone f))
    · exact ⟨names, r, hrun, hreports⟩
  · intro hnone
    rcases hend with ⟨hdone, hrun⟩ | ⟨names, _, hne, hmem⟩
    · have hsite := hr.site?_of_resolved (isResolved_of_pending_nil hr.coherent.names hdone)
      refine ⟨r, hrun, hr.scopeNames, hsite, hr.nodup, ?_, hr.indices⟩
      intro ref
      rw [hr.embedded ref, hsite ref]
      cases g.site? ref with
      | none => simp
      | some site => simp [closeSite]
    · obtain ⟨f, hf⟩ := List.exists_mem_of_ne_nil _ hne
      exact absurd ((hmem f).mp hf) (hnone f)

def callingFunction (name : String) (callees : List String) : Node :=
  .function name [] [] (.block (callees.map fun callee =>
    .expression (.call callee [] {}) {}) {}) {}

/-- The functions even and odd call each other, and user calls even. -/
def mutualProgram : Node :=
  .program "mutual" [callingFunction "even" ["odd"], callingFunction "odd" ["even"],
    callingFunction "user" ["even"]] {}

/-- Each function calls the next one twice. -/
def ladderProgram : Node :=
  .program "ladder" [callingFunction "a" ["b", "b"], callingFunction "b" ["c", "c"],
    callingFunction "c" []] {}

theorem calls_mutualProgram : (Flow.collect mutualProgram).toOption.any fun g =>
    decide (g.Calls "even" "odd" ∧ g.Calls "odd" "even") := by
  decide +kernel

def ladderRank (name : String) : Nat :=
  ["a", "b", "c"].idxOf name

theorem calls_ladderProgram :
    (Flow.collect ladderProgram).toOption.any (Graph.isRanked ladderRank) := by
  decide +kernel

/-- Calls that go up in rank are not recursive. -/
theorem exists_acyclic {program : Node} {rank : String → Nat}
    (h : (Flow.collect program).toOption.any (Graph.isRanked rank)) :
    ∃ g, Flow.collect program = .ok g ∧ ∀ f, ¬ g.IsRecursive f := by
  obtain ⟨g, hg, hrank⟩ := Flow.exists_collect h
  exact ⟨g, hg, Graph.not_isRecursive_of_isRanked hrank⟩

theorem acyclic_ladderProgram :
    ∃ g, Flow.collect ladderProgram = .ok g ∧ ∀ f, ¬ g.IsRecursive f :=
  exists_acyclic calls_ladderProgram

theorem resolve_outcome_programs :
    (∃ g names r, Flow.collect mutualProgram = .ok g ∧
      resolve { graph := g, nextIndex := 0 } = .error (.fault { cause := .recursion names }) r ∧
      names ≠ [] ∧ ∀ f, f ∈ names ↔ g.IsRecursive f) ∧
    ∃ g r, Flow.collect ladderProgram = .ok g ∧
      resolve { graph := g, nextIndex := 7 } = .ok () r ∧
      (∀ ref, ref ∈ r.embeddings.map (·.site) ↔ (g.site? ref).isSome) := by
  constructor
  · obtain ⟨g, hg, hcalls⟩ := Flow.exists_collect calls_mutualProgram
    obtain ⟨hforth, hback⟩ := of_decide_eq_true hcalls
    obtain ⟨names, r, h⟩ := (resolve_outcome hg 0).1 ⟨"even", .tail (.single hforth) hback⟩
    exact ⟨g, names, r, hg, h⟩
  · obtain ⟨g, hg, hacyclic⟩ := acyclic_ladderProgram
    obtain ⟨r, hrun, _, _, _, hembedded, _⟩ := (resolve_outcome hg 7).2 hacyclic
    exact ⟨g, r, hg, hrun, hembedded⟩

end Resolver

end YulTaint
