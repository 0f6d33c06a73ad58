import Mathlib.Tactic
import YulTaint.Analysis
import YulTaint.Proofs.CallGraph.Confluence

/-!
What the stages of a run return, for every configuration. Resolution ends with
all sites embedded or with a report of recursion, and has begun one step for
each embedding, plus the one that failed. Propagation stops at a named variable
that does not exist; otherwise the resolved graph gets its verdict.
-/

namespace YulTaint.Analysis

open Relation (ReflTransGen)

open YulTaint.Resolver (Completes EmbedsReady Resolving Acyclic Reports Finds)

open YulTaint.Taint (marked clear)

variable {g : Graph} {k : Int} {r : Resolver} {c : TaintConfig}

def opening (steps : Nat) : List Phase :=
  .collecting :: List.replicate steps .resolving

/-- Sites are resolved one by one, until none is left or recursion is found. The run
stops where a resolution that does nothing else stops, and counts the steps. -/
theorem resolveCalls_spec (hg : g.Collected) (bound : Nat) (hr : Resolving g k r)
    (ha : Acyclic g r) (hbound : (Resolver.pending r.graph).length ≤ bound) :
    ∃ r', ReflTransGen EmbedsReady r r' ∧
      (Resolver.pending r'.graph = [] ∧ Resolver.steps (bound + 1) r = .ok () r' ∧
          resolveCalls bound r.embeddings.length r = .ok r'.embeddings.length r' ∨
        ∃ names, Reports g names ∧
          Resolver.steps (bound + 1) r = .error (.fault { cause := .recursion names }) r' ∧
          resolveCalls bound r.embeddings.length r =
            .error (.fault { cause := .recursion names }, r'.embeddings.length + 1) r') := by
  induction bound generalizing r with
  | zero =>
    have hdone := List.length_eq_zero_iff.mp (Nat.le_zero.mp hbound)
    have hstep : Resolver.step r = .ok false r := by simp [Resolver.step, Resolver.isDone, hdone]
    exact ⟨r, .refl, Or.inl ⟨hdone, Resolver.steps_of_done hstep, rfl⟩⟩
  | succ bound ih =>
    rcases Resolver.step_spec hg hr ha with ⟨hdone, hstep⟩ | ⟨hpending, next, hstep, hadvances⟩ |
      ⟨hpending, names, hstep, hreports⟩
    · refine ⟨r, .refl, Or.inl ⟨hdone, Resolver.steps_of_done hstep, ?_⟩⟩
      simp [resolveCalls, Resolver.isDone, hdone]
    · have hready : EmbedsReady r next := by
        rcases Resolver.embedsReady_of_step hr.coherent.names hstep with ⟨h, _⟩ | h
        · cases h
        · exact h
      have hcount : next.embeddings.length = r.embeddings.length + 1 := by
        obtain ⟨_, _, _, _, _, hone⟩ := hadvances
        rw [hone.embeds.embeddings, List.length_append, List.length_singleton]
      have hlt := hr.pending_lt hadvances
      obtain ⟨r', hsteps, hend⟩ :=
        ih (hr.advances hadvances) (ha.advances hr hadvances) (by omega)
      have hrun : resolveCalls (bound + 1) r.embeddings.length r =
          resolveCalls bound next.embeddings.length next := by
        simp [resolveCalls, Resolver.isDone, hpending, hstep, hcount]
      rw [← hrun, ← Resolver.steps_of_more hstep] at hend
      exact ⟨r', .head hready hsteps, hend⟩
    · refine ⟨r, .refl, Or.inr ⟨names, hreports, Resolver.steps_of_error hstep, ?_⟩⟩
      simp [resolveCalls, Resolver.isDone, hpending, hstep]

/-- The run of an accepted program is a resolution and then a judgement. -/
theorem run_eq {program : Node} (hg : Flow.collect program = .ok g) (c : TaintConfig) :
    run c program =
      match resolveCalls (Resolver.pending g).length 0 { graph := g } with
      | .ok steps r => judge c (opening steps) r
      | .error (.missing what, _) _ => .error what
      | .error (.fault fault, steps) r =>
        .ok (aborted (opening steps) (some r.graph) r.embeddings [] fault) := by
  rw [run, hg]
  rfl

/-- The resolution of an accepted program. -/
theorem resolveCalls_start {program : Node} (hg : Flow.collect program = .ok g) :
    (∃ r, Completes g 0 r ∧ Resolver.resolve { graph := g } = .ok () r ∧
        resolveCalls (Resolver.pending g).length 0 { graph := g } = .ok r.embeddings.length r) ∨
      ∃ r names, Resolving g 0 r ∧ Reports g names ∧
        Resolver.resolve { graph := g } = .error (.fault { cause := .recursion names }) r ∧
        resolveCalls (Resolver.pending g).length 0 { graph := g } =
          .error (.fault { cause := .recursion names }, r.embeddings.length + 1) r := by
  have hcollected := Flow.collected_of_collect hg
  obtain ⟨r, hsteps, ⟨hdone, hplain, hrun⟩ | ⟨names, hreports, hplain, hrun⟩⟩ :=
    resolveCalls_spec hcollected (Resolver.pending g).length
      (Resolver.resolving_start hcollected 0) (Resolver.acyclic_start hcollected 0) (Nat.le_refl _)
  · exact Or.inl ⟨r, ⟨hsteps, hdone⟩, hplain, hrun⟩
  · have hresolving := (Resolver.Inlining.run
      (Resolver.advances_of_embedsReady hcollected hsteps) hcollected).1
    exact Or.inr ⟨r, names, hresolving, hreports, hplain, hrun⟩

/-- The run of an accepted program judges the resolved graph or reports
recursion, whatever the configuration. -/
theorem run_resolved {program : Node} (hg : Flow.collect program = .ok g) :
    (∃ r, Completes g 0 r ∧ Resolver.resolve { graph := g } = .ok () r ∧
        ∀ c, run c program = judge c (opening r.embeddings.length) r) ∨
      ∃ r names, Resolving g 0 r ∧ Reports g names ∧
        Resolver.resolve { graph := g } = .error (.fault { cause := .recursion names }) r ∧
        ∀ c, run c program =
          .ok (aborted (opening (r.embeddings.length + 1)) (some r.graph) r.embeddings []
            { cause := .recursion names }) := by
  rcases resolveCalls_start hg with ⟨r, hcompletes, hresolve, hrun⟩ |
    ⟨r, names, hresolving, hreports, hresolve, hrun⟩
  · refine Or.inl ⟨r, hcompletes, hresolve, fun c => ?_⟩
    rw [run_eq hg, hrun]
  · refine Or.inr ⟨r, names, hresolving, hreports, hresolve, fun c => ?_⟩
    rw [run_eq hg, hrun]

/-- All calls can be resolved in a program without recursion only. -/
theorem not_isRecursive_of_resolve (hg : g.Collected)
    (h : Resolver.resolve { graph := g } = .ok () r) (f : String) : ¬ g.IsRecursive f := by
  obtain ⟨r', _, hr, hacyclic, ⟨hdone, hresolve⟩ | ⟨_, hresolve, _⟩⟩ := Resolver.resolve_spec hg 0
  · exact hacyclic f (Resolver.isResolved_of_pending_nil hr.coherent.names hdone f)
  · cases h.symm.trans hresolve

/-- Without recursion the resolved graph is judged. -/
theorem exists_judged {program : Node} (hg : Flow.collect program = .ok g)
    (hacyclic : ∀ f, ¬ g.IsRecursive f) :
    ∃ r, Completes g 0 r ∧ ∀ c, run c program = judge c (opening r.embeddings.length) r := by
  rcases run_resolved hg with ⟨r, hcompletes, _, hrun⟩ | ⟨_, names, _, ⟨hne, hmem⟩, _⟩
  · exact ⟨r, hcompletes, hrun⟩
  · obtain ⟨f, hf⟩ := List.exists_mem_of_ne_nil _ hne
    exact absurd ((hmem f).mp hf) (hacyclic f)

def Undeclared (g : Graph) (v : String × String) : Prop :=
  (g.scope? v.1).bind (·.lookup? v.2) = none

/-- The sources are found, unless one of the named variables does not exist. -/
theorem initialSources_cases (c : TaintConfig) (g : Graph) :
    (∃ ids, initialSources c g = .ok ids) ∨
      ∃ v ∈ c.namedVariables, Undeclared g v ∧
        initialSources c g = .error { cause := .undefinedIdentifier v.2 v.1 } := by
  cases hsources : initialSources c g with
  | ok ids => exact Or.inl ⟨ids, rfl⟩
  | error fault =>
    obtain ⟨v, hv, hfault⟩ := Taint.initialSources_eq_error hsources
    refine Or.inr ⟨v, hv, ?_⟩
    unfold namedSource at hfault
    split at hfault
    · cases hfault
    · rename_i hnone
      cases hfault
      exact ⟨hnone, rfl⟩

theorem not_undeclared_of_initialSources {ids : List NodeId} (h : initialSources c g = .ok ids)
    {v : String × String} (hv : v ∈ c.namedVariables) : ¬ Undeclared g v := by
  intro hnone
  obtain ⟨id, hid⟩ := Taint.exists_namedSource h hv
  rw [namedSource, hnone] at hid
  cases hid

def completed (phases : List Phase) (r : Resolver) (notices : List Notice) (t : Taint)
    (vs : List Violation) : Result :=
  { status := if vs.isEmpty then .clean else .violations
    violations := vs
    phases := phases ++ [.checking, if vs.isEmpty then .clean else .violations]
    graph := some (marked r.graph t.tainted)
    taint := some t
    embeddings := r.embeddings
    notices }

theorem judge_undeclared {fault : Fault} (h : initialSources c r.graph = .error fault)
    (phases : List Phase) : judge c phases r = .ok (aborted (phases ++ [.propagating])
      (some (clear r.graph)) r.embeddings (sourceNotices c r.graph) fault) := by
  have hpropagate : Taint.propagate c r.graph = .error (.fault fault) (clear r.graph) := by
    simp only [Taint.propagate, Taint.initialSources_clear, h]
  simp only [judge, hpropagate]

/-- What a resolved graph is judged by: the nodes that taint reaches from the
sources, and one violation for each storage address among them. -/
structure Verdict (c : TaintConfig) (r : Resolver) (ids : List NodeId) (t : Taint)
    (vs : List Violation) : Prop where
  propagated : Taint.propagate c r.graph = .ok t (marked r.graph t.tainted)
  tainted : ∀ id, id ∈ t.tainted ↔ Taint.Reaches r.graph ids id
  keys : vs.map Violation.key =
    (Violation.taintedAddresses (marked r.graph t.tainted)).map (Violation.keyAt r.graph)
  nodes : vs.map (·.node) =
    (Violation.taintedAddresses (marked r.graph t.tainted)).map Int.ofNat
  checked : ∀ stop, Violation.check { c with stopAtFirst := stop } (marked r.graph t.tainted)
    (some t) = .ok (if stop then vs.take 1 else vs)
  judged : ∀ phases stop, judge { c with stopAtFirst := stop } phases r =
    .ok (completed (phases ++ [.propagating]) r (sourceNotices c r.graph) t
      (if stop then vs.take 1 else vs))

/-- A resolved graph has a verdict as soon as its sources exist. -/
theorem exists_verdict (h : Completes g k r) (hg : g.Collected) (hguarded : g.Guarded)
    {ids : List NodeId} (hids : initialSources c r.graph = .ok ids) :
    ∃ t vs, Verdict c r ids t vs := by
  have hwf := (h.inlined hg).resolving.coherent.wellFormed
  obtain ⟨t, hrun, _, hreach⟩ := Taint.propagate_spec hwf c hids
  obtain ⟨vs, hkeys, hnodes, hcheck⟩ := Violation.check_spec (Taint.propagate_parents hwf hrun)
    fun id n hn hprotected => h.callChain_ne_nil hg hguarded hn hprotected
  refine ⟨t, vs, hrun, hreach, hkeys, hnodes, fun _ => hcheck _, fun phases stop => ?_⟩
  -- the flag matters to the check only
  have hrun' : Taint.propagate { c with stopAtFirst := stop } r.graph =
      .ok t (marked r.graph t.tainted) := hrun
  simp only [judge, hrun', hcheck]
  rfl

/-- A resolved graph is always judged. -/
theorem exists_judge (h : Completes g k r) (hg : g.Collected) (hguarded : g.Guarded)
    (c : TaintConfig) (phases : List Phase) : ∃ result, judge c phases r = .ok result := by
  rcases initialSources_cases c r.graph with ⟨ids, hids⟩ | ⟨v, _, _, hfault⟩
  · obtain ⟨t, vs, hverdict⟩ := exists_verdict h hg hguarded hids
    exact ⟨_, hverdict.judged phases c.stopAtFirst⟩
  · exact ⟨_, judge_undeclared hfault phases⟩

/-- A run on a program without recursion resolves all calls and reports what
taint reaches. -/
theorem run_spec {program : Node} (hg : Flow.collect program = .ok g)
    (hacyclic : ∀ f, ¬ g.IsRecursive f) (hnamed : c.namedVariables = [])
    (hstop : c.stopAtFirst = false) :
    ∃ result r ids addresses, run c program = .ok result ∧ result.fault = none ∧
      Completes g 0 r ∧ Finds c r ids addresses result.violations := by
  have hcollected := Flow.collected_of_collect hg
  obtain ⟨r, hcompletes, hrun⟩ := exists_judged hg hacyclic
  obtain ⟨t, g', vs, ids, addresses, hpropagate, hcheck, hfinds⟩ :=
    hcompletes.exists_finds hcollected (Flow.guarded_of_collect hg) hnamed hstop
  have hresult : ∃ result, run c program = .ok result ∧ result.fault = none ∧
      result.violations = vs := by
    simp only [hrun, judge, hpropagate, hcheck]
    exact ⟨_, rfl, rfl, rfl⟩
  obtain ⟨result, hresult, hfault, rfl⟩ := hresult
  exact ⟨result, r, ids, addresses, hresult, hfault, hcompletes, hfinds⟩

end YulTaint.Analysis
