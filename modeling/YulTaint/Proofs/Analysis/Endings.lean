import Mathlib.Tactic
import YulTaint.Proofs.Analysis.Stages
import YulTaint.Proofs.Flow.Acceptance
import YulTaint.Proofs.Flow.Applicable

/-!
How a run ends. Every run on every tree returns, in one of four ways: the tree
is no program, its calls are recursive, a named variable does not exist, or the
resolved graph is judged. Each leaves its own trace of phases, with one step of
resolution for each embedding.
-/

namespace YulTaint

namespace Graph

def siteRefs (g : Graph) : List SiteRef :=
  g.scopes.flatMap fun s => (List.range s.sites.length).map (⟨s.name, ·⟩)

theorem length_siteRefs (g : Graph) : g.siteRefs.length = g.statistics.callSites := by
  have hfold (scopes : List Scope) (n : Nat) :
      scopes.foldl (fun n s => n + s.sites.length) n =
        n + (scopes.map fun s => s.sites.length).sum := by
    induction scopes generalizing n with
    | nil => rfl
    | cons s rest ih =>
      rw [List.foldl_cons, ih, List.map_cons, List.sum_cons]
      omega
  simp only [siteRefs, statistics, List.length_flatMap, List.length_map, List.length_range, hfold]
  omega

variable {g : Graph}

theorem mem_siteRefs (hg : g.scopeNames.Nodup) {ref : SiteRef} :
    ref ∈ g.siteRefs ↔ ∃ site, g.site? ref = some site := by
  simp only [siteRefs, List.mem_flatMap, List.mem_map, List.mem_range]
  constructor
  · rintro ⟨s, hs, i, hi, rfl⟩
    exact ⟨s.sites[i], by rw [site?, scope?_of_mem hg hs]; exact List.getElem?_eq_getElem hi⟩
  · rintro ⟨site, hsite⟩
    obtain ⟨s, hs, hindex⟩ := Option.bind_eq_some_iff.mp hsite
    refine ⟨s, mem_scopes_of_scope? hs, ref.index, (List.getElem?_eq_some_iff.mp hindex).1, ?_⟩
    rw [name_of_scope? hs]

theorem nodup_siteRefs (hg : g.scopeNames.Nodup) : g.siteRefs.Nodup := by
  rw [siteRefs, List.nodup_flatMap]
  refine ⟨fun s _ => List.nodup_range.map fun i j h => congrArg SiteRef.index h, ?_⟩
  have hdistinct : g.scopes.Pairwise fun s t => s.name ≠ t.name := List.pairwise_map.mp hg
  refine hdistinct.imp fun {s t} hne => ?_
  intro ref hs ht
  obtain ⟨i, _, rfl⟩ := List.mem_map.mp hs
  obtain ⟨j, _, heq⟩ := List.mem_map.mp ht
  exact hne (congrArg SiteRef.scope heq).symm

end Graph

/-- When no site is open, there is one embedding for each site. -/
theorem Resolver.Resolving.length_embeddings {g : Graph} {k : Int} {r : Resolver}
    (h : Resolving g k r) (hdone : pending r.graph = []) :
    r.embeddings.length = r.graph.statistics.callSites := by
  have hnames := h.coherent.names
  have hperm : (r.embeddings.map (·.site)).Perm r.graph.siteRefs := by
    refine (List.perm_ext_iff_of_nodup h.nodup (Graph.nodup_siteRefs hnames)).mpr fun ref => ?_
    rw [h.embedded ref, Graph.mem_siteRefs hnames]
    refine exists_congr fun site => and_iff_left_of_imp fun hsite => ?_
    obtain ⟨s, hs, hindex⟩ := Option.bind_eq_some_iff.mp hsite
    have hresolved := isResolved_of_pending_nil hnames hdone ref.scope s hs
    exact List.all_eq_true.mp hresolved site (List.mem_of_getElem? hindex)
  rw [← Graph.length_siteRefs, ← hperm.length_eq, List.length_map]

theorem Taint.wellFormed_marked {g : Graph} (hg : g.WellFormed) (ids : List NodeId) :
    (marked g ids).WellFormed where
  edges := by rw [size_marked]; exact hg.edges
  scopes := by rw [size_marked]; exact hg.scopes
  globals := by rw [size_marked]; exact hg.globals

def Status.phase : Status → Phase
  | .clean => .clean
  | .violations => .violations
  | .fatal => .fatal

namespace Analysis

open YulTaint.Resolver (Completes Resolving Reports)

inductive Ending where
  | rejected
  | recursive
  | undeclared
  | judged
deriving DecidableEq

def Ending.stage : Ending → Phase
  | .rejected => .collecting
  | .recursive => .resolving
  | .undeclared => .propagating
  | .judged => .checking

/-- All calls of an accepted program are resolved. -/
def Resolves (program : Node) (res : Resolver) : Prop :=
  ∃ g, Flow.collect program = .ok g ∧ Resolver.resolve { graph := g } = .ok () res

/-- Why a run ends in a given way. -/
def Ending.IsDue (c : TaintConfig) (program : Node) : Ending → Prop
  | .rejected => ∃ fault, Flow.collect program = .error (.fault fault)
  | .recursive => ∃ g f, Flow.collect program = .ok g ∧ g.IsRecursive f
  | .undeclared => ∃ res, Resolves program res ∧ ∃ v ∈ c.namedVariables, Undeclared res.graph v
  | .judged => ∃ res, Resolves program res ∧ ∀ v ∈ c.namedVariables, ¬ Undeclared res.graph v

/-- What the result of a run says that ended in a given way. Its parts are what the
phases returned, as far as the run came. -/
def EndsIn (c : TaintConfig) (program : Node) (r : Result) : Ending → Prop
  | .rejected => ∃ fault, Flow.collect program = .error (.fault fault) ∧ r.fault = some fault ∧
      r.status = .fatal ∧ r.phases = [.collecting, .fatal] ∧ r.graph = none ∧
      r.embeddings = [] ∧ r.taint = none ∧ r.violations = []
  | .recursive => ∃ g names res, Flow.collect program = .ok g ∧ Reports g names ∧
      Resolver.resolve { graph := g } = .error (.fault { cause := .recursion names }) res ∧
      r.fault = some { cause := .recursion names } ∧ r.status = .fatal ∧
      r.phases = opening (r.embeddings.length + 1) ++ [.fatal] ∧ r.graph = some res.graph ∧
      r.embeddings = res.embeddings ∧ r.taint = none ∧ r.violations = []
  | .undeclared => ∃ res v, Resolves program res ∧ v ∈ c.namedVariables ∧
      Undeclared res.graph v ∧ r.fault = some { cause := .undefinedIdentifier v.2 v.1 } ∧
      r.status = .fatal ∧ r.phases = opening r.embeddings.length ++ [.propagating, .fatal] ∧
      r.graph = some (Taint.clear res.graph) ∧ r.embeddings = res.embeddings ∧
      r.taint = none ∧ r.violations = []
  | .judged => ∃ res g t, Resolves program res ∧ Taint.propagate c res.graph = .ok t g ∧
      Violation.check c g (some t) = .ok r.violations ∧ r.fault = none ∧
      r.status = (if r.violations = [] then .clean else .violations) ∧
      r.phases = opening r.embeddings.length ++ [.propagating, .checking, r.status.phase] ∧
      r.graph = some g ∧ r.embeddings = res.embeddings ∧
      r.embeddings.length = g.statistics.callSites ∧ r.taint = some t

variable {c : TaintConfig} {program : Node} {r : Result} {e e' : Ending}

theorem Ending.stage_injective : Function.Injective Ending.stage := by
  intro e e' h
  cases e <;> cases e' <;> simp_all [Ending.stage]

/-- The phases tell in which way a run ended. -/
theorem EndsIn.stage (h : EndsIn c program r e) :
    r.phases.dropLast.getLast? = some e.stage := by
  cases e with
  | rejected =>
    obtain ⟨_, _, _, _, hphases, _⟩ := h
    rw [hphases]
    rfl
  | recursive =>
    obtain ⟨_, _, _, _, _, _, _, _, hphases, _⟩ := h
    rw [hphases, List.dropLast_concat, opening, List.replicate_succ', ← List.cons_append,
      List.getLast?_concat]
    rfl
  | undeclared =>
    obtain ⟨_, _, _, _, _, _, _, hphases, _⟩ := h
    simp [hphases, Ending.stage]
  | judged =>
    obtain ⟨_, _, _, _, _, _, _, _, hphases, _⟩ := h
    simp [hphases, Ending.stage]

/-- The result of a run tells one way of ending only. -/
theorem EndsIn.unique (h : EndsIn c program r e) (h' : EndsIn c program r e') : e = e' :=
  Ending.stage_injective (Option.some.inj (h.stage.symm.trans h'.stage))

theorem EndsIn.last (h : EndsIn c program r e) : r.phases.getLast? = some r.status.phase := by
  cases e with
  | rejected =>
    obtain ⟨_, _, _, hstatus, hphases, _⟩ := h
    rw [hphases, hstatus]
    rfl
  | recursive =>
    obtain ⟨_, _, _, _, _, _, _, hstatus, hphases, _⟩ := h
    simp [hphases, hstatus, Status.phase]
  | undeclared =>
    obtain ⟨_, _, _, _, _, _, hstatus, hphases, _⟩ := h
    simp [hphases, hstatus, Status.phase]
  | judged =>
    obtain ⟨_, _, _, _, _, _, _, _, hphases, _⟩ := h
    simp [hphases]

theorem collect_fault {fault : Fault} (h : Flow.collect program = .error (.fault fault)) :
    fault.kind = .structural := by
  rcases Flow.collect_decides program with ⟨⟨g, hg⟩, _⟩ | ⟨failure, hfailure, _, hdue⟩
  · cases hg.symm.trans h
  · cases hfailure.symm.trans h
    exact hdue.kind

/-- No run ends with an internal fault. -/
theorem EndsIn.fault (h : EndsIn c program r e) {fault : Fault} (hfault : r.fault = some fault) :
    fault.kind ≠ .internal := by
  cases e with
  | rejected =>
    obtain ⟨fault', hcollect, hfault', _⟩ := h
    cases hfault'.symm.trans hfault
    rw [collect_fault hcollect]
    decide
  | recursive =>
    obtain ⟨_, names, _, _, _, _, hfault', _⟩ := h
    obtain rfl := Option.some.inj (hfault'.symm.trans hfault)
    exact FaultKind.noConfusion
  | undeclared =>
    obtain ⟨_, v, _, _, _, hfault', _⟩ := h
    obtain rfl := Option.some.inj (hfault'.symm.trans hfault)
    exact FaultKind.noConfusion
  | judged =>
    obtain ⟨_, _, _, _, _, _, hnone, _⟩ := h
    cases hnone.symm.trans hfault

theorem Resolves.unique {res res' : Resolver} (h : Resolves program res)
    (h' : Resolves program res') : res = res' := by
  obtain ⟨g, hg, hresolve⟩ := h
  obtain ⟨g', hg', hresolve'⟩ := h'
  cases hg.symm.trans hg'
  cases hresolve.symm.trans hresolve'
  rfl

/-- The calls of a recursive program are never all resolved. -/
theorem Resolves.not_isRecursive {res : Resolver} (h : Resolves program res) {g : Graph}
    (hg : Flow.collect program = .ok g) (f : String) : ¬ g.IsRecursive f := by
  obtain ⟨g', hg', hresolve⟩ := h
  cases hg.symm.trans hg'
  exact not_isRecursive_of_resolve (Flow.collected_of_collect hg) hresolve f

/-- A reason excludes those that come later. -/
theorem Ending.IsDue.not_lt (h : e.IsDue c program) (h' : e'.IsDue c program) :
    ¬ e.ctorIdx < e'.ctorIdx := by
  intro hlt
  cases e with
  | rejected =>
    obtain ⟨fault, hfault⟩ := h
    cases e' with
    | rejected => exact absurd hlt (by decide)
    | recursive =>
      obtain ⟨g, _, hg, _⟩ := h'
      cases hfault.symm.trans hg
    | undeclared | judged =>
      obtain ⟨_, ⟨g, hg, _⟩, _⟩ := h'
      cases hfault.symm.trans hg
  | recursive =>
    obtain ⟨g, f, hg, hf⟩ := h
    cases e' with
    | rejected | recursive => exact absurd hlt (by decide)
    | undeclared | judged =>
      obtain ⟨_, hres, _⟩ := h'
      exact hres.not_isRecursive hg f hf
  | undeclared =>
    obtain ⟨res, hres, v, hv, hnone⟩ := h
    cases e' with
    | judged =>
      obtain ⟨res', hres', hall⟩ := h'
      exact hall v hv (hres.unique hres' ▸ hnone)
    | _ => exact absurd hlt (by decide)
  | judged => cases e' <;> exact absurd hlt (by decide)

/-- The reasons exclude each other. -/
theorem Ending.IsDue.unique (h : e.IsDue c program) (h' : e'.IsDue c program) : e = e' := by
  have hidx := Nat.le_antisymm (Nat.not_lt.mp (h'.not_lt h)) (Nat.not_lt.mp (h.not_lt h'))
  cases e <;> cases e' <;> first | rfl | cases hidx

/-- No run ends in a way without the reason for it. -/
theorem EndsIn.isDue (h : EndsIn c program r e) : e.IsDue c program := by
  cases e with
  | rejected =>
    obtain ⟨fault, hcollect, _⟩ := h
    exact ⟨fault, hcollect⟩
  | recursive =>
    obtain ⟨g, names, _, hcollect, ⟨hne, hmem⟩, _⟩ := h
    obtain ⟨f, hf⟩ := List.exists_mem_of_ne_nil _ hne
    exact ⟨g, f, hcollect, (hmem f).mp hf⟩
  | undeclared =>
    obtain ⟨res, v, hres, hv, hnone, _⟩ := h
    exact ⟨res, hres, v, hv, hnone⟩
  | judged =>
    obtain ⟨res, g, t, hres, hpropagate, _⟩ := h
    refine ⟨res, hres, fun v hv hnone => ?_⟩
    rcases initialSources_cases c res.graph with ⟨ids, hids⟩ | ⟨_, _, _, hfault⟩
    · exact not_undeclared_of_initialSources hids hv hnone
    · simp only [Taint.propagate, Taint.initialSources_clear, hfault] at hpropagate
      cases hpropagate

/-- A resolved graph is judged unless a named variable does not exist. -/
theorem judge_ends {g : Graph} (hg : Flow.collect program = .ok g) {res : Resolver}
    (h : Completes g 0 res) (hresolve : Resolver.resolve { graph := g } = .ok () res)
    (c : TaintConfig) :
    ∃ r e, judge c (opening res.embeddings.length) res = .ok r ∧ EndsIn c program r e ∧
      ∀ g', r.graph = some g' → g'.WellFormed := by
  have hcollected := Flow.collected_of_collect hg
  have hresolving := (h.inlined hcollected).resolving
  have hwf := hresolving.coherent.wellFormed
  rcases initialSources_cases c res.graph with ⟨ids, hids⟩ | ⟨v, hv, hnone, hfault⟩
  · obtain ⟨t, vs, hverdict⟩ := exists_verdict h hcollected (Flow.guarded_of_collect hg) hids
    refine ⟨_, .judged, hverdict.judged _ c.stopAtFirst, ⟨res, _, t, ⟨g, hg, hresolve⟩,
      hverdict.propagated, hverdict.checked c.stopAtFirst, rfl, ?_, ?_, rfl, rfl, ?_, rfl⟩, ?_⟩
    · simp [completed]
    · simp only [completed, List.append_assoc, List.cons_append, List.nil_append]
      rw [apply_ite Status.phase]
      rfl
    · exact hresolving.length_embeddings h.done
    · rintro _ ⟨⟩
      exact Taint.wellFormed_marked hwf t.tainted
  · refine ⟨_, .undeclared, judge_undeclared hfault _, ⟨res, v, ⟨g, hg, hresolve⟩, hv, hnone,
      rfl, rfl, ?_, rfl, rfl, rfl, rfl⟩, ?_⟩
    · simp [aborted]
    · rintro _ ⟨⟩
      exact Taint.wellFormed_clear hwf

/-- A run returns unless a field is read of a node that has it not. -/
theorem exists_ending (c : TaintConfig) (program : Node) :
    (∃ what, Flow.collect program = .error (.missing what) ∧ program.Lacks what ∧
        run c program = .error what) ∨
      ∃ r e, run c program = .ok r ∧ EndsIn c program r e ∧
        ∀ g, r.graph = some g → g.WellFormed := by
  rcases Flow.collect_decides program with ⟨⟨g, hg⟩, _⟩ | ⟨failure, hfailure, _, hdue⟩
  · refine Or.inr ?_
    rcases run_resolved hg with ⟨res, hcompletes, hresolve, hrun⟩ |
      ⟨res, names, hresolving, hreports, hresolve, hrun⟩
    · rw [hrun]
      exact judge_ends hg hcompletes hresolve c
    · refine ⟨_, .recursive, hrun c,
        ⟨g, names, res, hg, hreports, hresolve, rfl, rfl, rfl, rfl, rfl, rfl, rfl⟩, ?_⟩
      rintro _ ⟨⟩
      exact hresolving.coherent.wellFormed
  · cases failure with
    | missing what => exact Or.inl ⟨what, hfailure, hdue, by rw [run, hfailure]⟩
    | fault fault =>
      refine Or.inr ⟨aborted [.collecting] none [] [] fault, .rejected, by rw [run, hfailure],
        ⟨fault, hfailure, rfl, rfl, rfl, rfl, rfl, rfl, rfl⟩, ?_⟩
      rintro _ ⟨⟩

/-- A run fails to return if and only if the collection lacks a field, which takes a
loop or a switch with a part of the wrong sort. Otherwise it ends in exactly one of
four ways, and in the one that is due: the program is rejected, or is recursive, or a
named variable does not exist, or the graph is judged. The last phase is the status,
and no fault is internal. Whatever the graph of the result refers to is there; and no
application of an accepted program can fail, since its operands are of the right
number and its constants are words. -/
theorem run_ends (c : TaintConfig) (program : Node) :
    ((∃ what, Flow.collect program = .error (.missing what) ∧ program.Lacks what ∧
        run c program = .error what) ∨
      ∃ r, run c program = .ok r ∧ (∀ what, Flow.collect program ≠ .error (.missing what)) ∧
        (∃! e, EndsIn c program r e) ∧ (∀ e, EndsIn c program r e ↔ e.IsDue c program) ∧
        r.phases.getLast? = some r.status.phase ∧
        (∀ fault, r.fault = some fault → fault.kind ≠ .internal) ∧
        ∀ g, r.graph = some g → g.WellFormed) ∧
      ∀ g, Flow.collect program = .ok g →
        (∀ f ∈ Execution.functions program, ∀ a ∈ f.layout.applications, a.AppliesToWords) ∧
        ∀ id value, Flow.constantOf g id = some value → IsWord value := by
  refine ⟨?_, fun g hg => ⟨fun f hf a ha => Execution.appliesToWords_of_collect hg hf ha, ?_⟩⟩
  · rcases exists_ending c program with hescapes | ⟨r, e, hrun, hends, hwf⟩
    · exact Or.inl hescapes
    · refine Or.inr ⟨r, hrun, fun what hwhat => ?_, ⟨e, hends, fun e' h' => h'.unique hends⟩,
        fun e' => ⟨EndsIn.isDue, fun hdue => hends.isDue.unique hdue ▸ hends⟩, hends.last,
        fun fault hfault => hends.fault hfault, hwf⟩
      rw [run, hwhat] at hrun
      cases hrun
  · intro id value hvalue
    obtain ⟨n, hn, hconstant⟩ := Option.bind_eq_some_iff.mp hvalue
    exact ((Execution.wellMarked_of_collect hg).nodes id n hn).constant value hconstant

/-- A run that does not return: a block stands among the cases of a switch. -/
theorem run_strayProgram : run {} Flow.strayProgram = .error (.field "Block" "value") :=
  rfl

end Analysis

end YulTaint
