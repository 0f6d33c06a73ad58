import Mathlib.Tactic
import YulTaint.Proofs.Analysis.Stages

/-!
The analysis is monotone in its configuration. Resolution does not depend on
it; a configuration that taints more has more sources, taint reaches more from
them, and the storage addresses it reports are read off the arena in the same
order. Asked for the first violation alone, a run reports just that one of all
that it would report.
-/

namespace YulTaint

/-- Whatever one configuration taints in the scopes of a graph the other taints as
well. -/
structure TaintConfig.Below (g : Graph) (c c' : TaintConfig) : Prop where
  parameters : ∀ name ∈ g.scopeNames, c.taintsParametersOf name = true →
    c'.taintsParametersOf name = true
  sources : c.builtinSources = true → c'.builtinSources = true
  named : c.namedVariables ⊆ c'.namedVariables

section Sources

variable {c c' : TaintConfig} {g : Graph}

theorem TaintConfig.Below.of_scopeNames {g' : Graph} (h : c.Below g c')
    (hnames : g'.scopeNames = g.scopeNames) : c.Below g' c' :=
  ⟨hnames ▸ h.parameters, h.sources, h.named⟩

/-- No parameter ceases to be a source under the larger configuration. -/
theorem TaintConfig.Below.parameterSources_subset (h : c.Below g c') :
    parameterSources c g ⊆ parameterSources c' g := by
  intro id hid
  obtain ⟨s, hs, hparam⟩ := List.mem_flatMap.mp hid
  obtain ⟨hmem, hfilter⟩ := List.mem_filter.mp hs
  obtain ⟨hmain, htaints⟩ := (Bool.and_eq_true _ _).mp hfilter
  refine List.mem_flatMap.mpr ⟨s, List.mem_filter.mpr ⟨hmem, ?_⟩, hparam⟩
  exact (Bool.and_eq_true _ _).mpr ⟨hmain, h.parameters s.name (List.mem_map_of_mem hmem) htaints⟩

theorem TaintConfig.Below.builtinSources_subset (h : c.Below g c') :
    YulTaint.builtinSources c g ⊆ YulTaint.builtinSources c' g := by
  intro id hid
  obtain ⟨hflag, hn⟩ := Taint.mem_builtinSources.mp hid
  exact Taint.mem_builtinSources.mpr ⟨h.sources hflag, hn⟩

/-- Fewer sources are found where more are, and they are among them. -/
theorem TaintConfig.Below.exists_initialSources (h : c.Below g c') {ids' : List NodeId}
    (hids' : initialSources c' g = .ok ids') :
    ∃ ids, initialSources c g = .ok ids ∧ ids ⊆ ids' := by
  cases hids : initialSources c g with
  | error fault =>
    obtain ⟨v, hv, hfault⟩ := Taint.initialSources_eq_error hids
    obtain ⟨id, hid⟩ := Taint.exists_namedSource hids' (h.named hv)
    cases hfault.symm.trans hid
  | ok ids =>
    refine ⟨ids, rfl, fun id hid => (Taint.mem_initialSources hids').mpr ?_⟩
    rcases (Taint.mem_initialSources hids).mp hid with hparam | hbuiltin | ⟨v, hv, hsource⟩
    · exact Or.inl (h.parameterSources_subset hparam)
    · exact Or.inr (Or.inl (h.builtinSources_subset hbuiltin))
    · exact Or.inr (Or.inr ⟨v, h.named hv, hsource⟩)

/-- Of more tainted nodes more addresses are found, in the same order. -/
theorem Violation.taintedAddresses_sublist {ids ids' : List NodeId} (h : ids ⊆ ids') (g : Graph) :
    (taintedAddresses (Taint.marked g ids)).Sublist (taintedAddresses (Taint.marked g ids')) := by
  have hsame : (Taint.marked g ids').protectedVariables =
      (Taint.marked g ids).protectedVariables := by
    simp only [Graph.protectedVariables, Taint.size_marked, Taint.node?_marked]
    refine List.filter_congr fun id _ => ?_
    cases g.node? id <;> rfl
  unfold taintedAddresses
  rw [hsame]
  refine List.monotone_filter_right _ fun id hid => ?_
  simp only [Taint.node?_marked, Option.any_map] at hid ⊢
  obtain ⟨n, hn, htainted⟩ := (Option.any_eq_true _ _).mp hid
  refine (Option.any_eq_true _ _).mpr ⟨n, hn, ?_⟩
  simpa using h (by simpa using htainted)

end Sources

namespace Analysis

open YulTaint.Resolver (Completes)

variable {c c' : TaintConfig} {program : Node} {g : Graph}

@[simp]
theorem isFatal_completed (phases : List Phase) (r : Resolver) (notices : List Notice)
    (t : Taint) (vs : List Violation) : (completed phases r notices t vs).isFatal = false := by
  unfold completed Result.isFatal
  cases vs <;> rfl

/-- The first violation alone decides on the status like all of them. -/
theorem status_completed_take (phases : List Phase) (r : Resolver) (notices : List Notice)
    (t : Taint) (vs : List Violation) :
    (completed phases r notices t (vs.take 1)).status =
      (completed phases r notices t vs).status := by
  cases vs <;> rfl

/-- On an accepted program without recursion, a run whose configuration taints
less is not fatal either, it taints nothing else, and the nodes that it reports
are a subsequence. With the first violation alone asked for, a run differs in
nothing but that it reports the first one of all. -/
theorem run_mono (hg : Flow.collect program = .ok g) (hacyclic : ∀ f, ¬ g.IsRecursive f) :
    (∀ c c' : TaintConfig, c.Below g c' →
      ∃ r r', run c program = .ok r ∧ run c' program = .ok r' ∧
        (r'.isFatal = false → r.isFatal = false ∧
          ∃ t t', r.taint = some t ∧ r'.taint = some t' ∧ t.tainted ⊆ t'.tainted ∧
            (c.stopAtFirst = false → c'.stopAtFirst = false →
              (r.violations.map (·.node)).Sublist (r'.violations.map (·.node))))) ∧
    ∀ c : TaintConfig, ∃ first all,
      run { c with stopAtFirst := true } program = .ok first ∧
      run { c with stopAtFirst := false } program = .ok all ∧
      first.violations = all.violations.take 1 ∧ first.status = all.status ∧
      first.fault = all.fault ∧ first.taint = all.taint := by
  have hcollected := Flow.collected_of_collect hg
  have hguarded := Flow.guarded_of_collect hg
  obtain ⟨r, hcompletes, hrun⟩ := exists_judged hg hacyclic
  refine ⟨fun c c' hbelow => ?_, fun c => ?_⟩
  · rcases initialSources_cases c' r.graph with ⟨ids', hids'⟩ | ⟨v, _, _, hfault⟩
    · have hnames := (hcompletes.inlined hcollected).resolving.scopeNames
      obtain ⟨ids, hids, hsub⟩ := (hbelow.of_scopeNames hnames).exists_initialSources hids'
      obtain ⟨t, vs, hverdict⟩ := exists_verdict hcompletes hcollected hguarded hids
      obtain ⟨t', vs', hverdict'⟩ := exists_verdict hcompletes hcollected hguarded hids'
      have htainted : t.tainted ⊆ t'.tainted := fun id hid =>
        (hverdict'.tainted id).mpr (((hverdict.tainted id).mp hid).mono hsub)
      refine ⟨_, _, (hrun c).trans (hverdict.judged _ c.stopAtFirst),
        (hrun c').trans (hverdict'.judged _ c'.stopAtFirst),
        fun _ => ⟨isFatal_completed .., t, t', rfl, rfl, htainted, fun hstop hstop' => ?_⟩⟩
      simp only [completed, hstop, hstop', Bool.false_eq_true, if_false, hverdict.nodes,
        hverdict'.nodes]
      exact (Violation.taintedAddresses_sublist htainted r.graph).map _
    · obtain ⟨result, hresult⟩ := exists_judge hcompletes hcollected hguarded c
        (opening r.embeddings.length)
      exact ⟨result, _, (hrun c).trans hresult, (hrun c').trans (judge_undeclared hfault _),
        fun hfatal => by cases hfatal⟩
  · rcases initialSources_cases c r.graph with ⟨ids, hids⟩ | ⟨v, _, _, hfault⟩
    · obtain ⟨t, vs, hverdict⟩ := exists_verdict hcompletes hcollected hguarded hids
      exact ⟨_, _, (hrun _).trans (hverdict.judged _ true), (hrun _).trans (hverdict.judged _ false),
        rfl, status_completed_take .., rfl, rfl⟩
    · have hfault' (stop : Bool) : initialSources { c with stopAtFirst := stop } r.graph = _ :=
        hfault
      exact ⟨_, _, (hrun _).trans (judge_undeclared (hfault' true) _),
        (hrun _).trans (judge_undeclared (hfault' false) _), rfl, rfl, rfl, rfl⟩

def mainRank (name : String) : Nat :=
  if name = mainScope then 0 else 1

theorem calls_storingProgram :
    (Flow.collect Resolver.storingProgram).toOption.any (Graph.isRanked mainRank) := by
  decide +kernel

theorem judged_storingProgram :
    (run {} Resolver.storingProgram).toOption.any fun r => !r.isFatal := by
  decide +kernel

theorem run_mono_storingProgram :
    ∃ r r' t t', run { functions := some [] } Resolver.storingProgram = .ok r ∧
      run {} Resolver.storingProgram = .ok r' ∧ r.isFatal = false ∧ r'.isFatal = false ∧
      r.taint = some t ∧ r'.taint = some t' ∧ t.tainted ⊆ t'.tainted ∧
      (r.violations.map (·.node)).Sublist (r'.violations.map (·.node)) := by
  obtain ⟨g, hg, hacyclic⟩ := Resolver.exists_acyclic calls_storingProgram
  have hbelow : TaintConfig.Below g { functions := some [] } {} :=
    ⟨fun _ _ h => by simp [TaintConfig.taintsParametersOf] at h, id, fun _ h => h⟩
  obtain ⟨r, r', hrun, hrun', himp⟩ := (run_mono hg hacyclic).1 _ _ hbelow
  have hjudged := judged_storingProgram
  rw [hrun'] at hjudged
  have hfatal' : r'.isFatal = false := by simpa [Except.toOption] using hjudged
  obtain ⟨hfatal, t, t', ht, ht', hsub, hnodes⟩ := himp hfatal'
  exact ⟨r, r', t, t', hrun, hrun', hfatal, hfatal', ht, ht', hsub, hnodes rfl rfl⟩

end Analysis

end YulTaint
