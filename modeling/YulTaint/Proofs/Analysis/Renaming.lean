import Mathlib.Tactic
import YulTaint.Proofs.Analysis.Stages
import YulTaint.Proofs.CallGraph.Nameless
import YulTaint.Proofs.Flow.Renamed

/-!
The names of variables do not matter. Unless a configuration picks variables by
name, taint starts at the same nodes, spreads along the same edges and reaches
the same storage addresses; so the runs of a program under two sets of names
agree on everything but the names they report.
-/

namespace YulTaint

namespace Taint

variable {g g' : Graph}

/-- Unless it names variables, a configuration does not look at their names. -/
theorem initialSources_congr (h : g.nameless = g'.nameless) {c : TaintConfig}
    (hnamed : c.namedVariables = []) : initialSources c g = initialSources c g' := by
  have hparameters (g : Graph) : parameterSources c g = parameterSources c g.nameless := by
    simp only [parameterSources, Graph.nameless, List.filter_map, List.flatMap_map]
    rfl
  have hsource (id : NodeId) :
      (g.node? id).any (·.isSource) = (g'.node? id).any (·.isSource) := by
    rcases Graph.node?_cases h id with ⟨hn, hn'⟩ | ⟨n, name, hn, hn'⟩ <;> simp [hn, hn']
  have hbuiltin : builtinSources c g = builtinSources c g' := by
    simp only [builtinSources, Graph.size_congr h, hsource]
  have hnone : c.variableNames = [] := by rw [TaintConfig.variableNames, hnamed]; rfl
  simp only [initialSources, hnone, hparameters g, hparameters g', h, hbuiltin, List.mapM_nil]

theorem isUntaintable?_congr (h : g.nameless = g'.nameless) (id : NodeId) :
    isUntaintable? g id = isUntaintable? g' id := by
  unfold isUntaintable?
  rcases Graph.node?_cases h id with ⟨hn, hn'⟩ | ⟨n, name, hn, hn'⟩ <;> rw [hn, hn']

theorem reachAll_congr (h : g.nameless = g'.nameless) (parent : NodeId) (targets : List NodeId)
    (f : Front) : reachAll g parent f targets = reachAll g' parent f targets := by
  induction targets generalizing f with
  | nil => rfl
  | cons id rest ih => simp only [reachAll, isUntaintable?_congr h, ih]

/-- Taint spreads without a look at names. -/
theorem spread_congr (h : g.nameless = g'.nameless) (bound : Nat) (f : Front) :
    spread g bound f = spread g' bound f := by
  induction bound generalizing f with
  | zero => rfl
  | succ bound ih =>
    have hnext (id : NodeId) : g.successors id = g'.successors id := by
      rw [Graph.successors, Graph.successors, Graph.edges_congr h]
    simp only [spread, reachAll_congr h, hnext, ih]

theorem ofSources_congr (h : g.nameless = g'.nameless) (ids : List NodeId) :
    ofSources g ids = ofSources g' ids := by
  simp only [ofSources, taintable, isUntaintable?_congr h, spread_congr h, Graph.size_congr h]

theorem clear_congr (h : g.nameless = g'.nameless) :
    (clear g).nameless = (clear g').nameless := by
  have hclear (g : Graph) : (clear g).nameless = clear g.nameless := by
    simp only [clear, Graph.nameless, Array.map_map]
    rfl
  rw [hclear, hclear, h]

/-- Taint spreads alike. -/
theorem propagate_congr (h : g.nameless = g'.nameless) {c : TaintConfig}
    (hnamed : c.namedVariables = []) {t t' : Taint} {g₁ g₁' : Graph}
    (hrun : propagate c g = .ok t g₁) (hrun' : propagate c g' = .ok t' g₁') : t = t' := by
  obtain ⟨ids, hids, hof⟩ := propagate_eq_ok hrun
  obtain ⟨ids', hids', hof'⟩ := propagate_eq_ok hrun'
  rw [initialSources_congr h hnamed, hids'] at hids
  cases hids
  rw [ofSources_congr (clear_congr h), hof'] at hof
  cases hof
  rfl

end Taint

namespace Violation

open YulTaint.Taint (marked node?_marked size_marked)

variable {g g' : Graph}

theorem taintedAddresses_congr (h : g.nameless = g'.nameless) (ids : List NodeId) :
    taintedAddresses (marked g ids) = taintedAddresses (marked g' ids) := by
  simp only [taintedAddresses, Graph.protectedVariables, size_marked, node?_marked,
    Graph.size_congr h, List.filter_filter]
  refine List.filter_congr fun id _ => ?_
  rcases Graph.node?_cases h id with ⟨hn, hn'⟩ | ⟨n, name, hn, hn'⟩ <;> simp [hn, hn']

/-- The scopes and the place of a violation do not depend on names. -/
theorem keyAt_congr (h : g.nameless = g'.nameless) (id : NodeId) :
    (keyAt g id).2 = (keyAt g' id).2 := by
  simp only [keyAt]
  rcases Graph.node?_cases h id with ⟨hn, hn'⟩ | ⟨n, name, hn, hn'⟩ <;> simp [hn, hn']

end Violation

namespace Analysis

open YulTaint.Resolver (Completes namelessResult)

variable {c : TaintConfig}

/-- Two results that say the same, whatever the variables are called. -/
structure SameFindings (r r' : Result) : Prop where
  status : r.status = r'.status
  taint : r.taint = r'.taint
  nodes : r.violations.map (·.node) = r'.violations.map (·.node)
  scopeChains : r.violations.map (·.scopeChain) = r'.violations.map (·.scopeChain)
  locs : r.violations.map (·.loc) = r'.violations.map (·.loc)

theorem sameFindings_completed {vs vs' : List Violation}
    (hnodes : vs.map (·.node) = vs'.map (·.node))
    (hkeys : vs.map (·.key.2) = vs'.map (·.key.2)) {phases : List Phase} {r r' : Resolver}
    {notices notices' : List Notice} {t : Taint} :
    SameFindings (completed phases r notices t vs) (completed phases r' notices' t vs') := by
  have hchains := congrArg (List.map Prod.fst) hkeys
  have hlocs := congrArg (List.map Prod.snd) hkeys
  rw [List.map_map, List.map_map] at hchains hlocs
  refine ⟨?_, rfl, hnodes, hchains, hlocs⟩
  have hlength : vs.length = vs'.length := by simpa using congrArg List.length hnodes
  cases vs <;> cases vs' <;> simp_all [completed]

/-- Calls are resolved without a look at the names of nodes. -/
theorem resolveCalls_congr (bound begun : Nat) {r r' : Resolver} (h : r.nameless = r'.nameless) :
    namelessResult (resolveCalls bound begun r) = namelessResult (resolveCalls bound begun r') := by
  induction bound generalizing begun r r' with
  | zero => exact congrArg (EStateM.Result.ok begun) h
  | succ bound ih =>
    obtain ⟨g', rfl, hg⟩ := Resolver.exists_of_nameless h
    simp only [resolveCalls, Resolver.isDone_congr hg]
    split
    · exact congrArg (EStateM.Result.ok begun) h
    · rcases Resolver.namelessResult_cases (Resolver.step_congr h) with
        ⟨more, next, next', hnext, hnext', heq⟩ | ⟨failure, next, next', hnext, hnext', heq⟩
      · rw [hnext, hnext']
        exact ih (begun + 1) heq
      · rw [hnext, hnext']
        exact congrArg (EStateM.Result.error (failure, begun + 1)) heq

/-- Resolved graphs that differ in names only get the same verdict. -/
theorem judge_congr {g g' : Graph} {r r' : Resolver} (hcompletes : Completes g 0 r)
    (hg : g.Collected) (hguarded : g.Guarded) (hcompletes' : Completes g' 0 r')
    (hg' : g'.Collected) (hguarded' : g'.Guarded) (h : r.nameless = r'.nameless)
    (hnamed : c.namedVariables = []) (phases : List Phase) :
    ∃ result result', judge c phases r = .ok result ∧ judge c phases r' = .ok result' ∧
      SameFindings result result' := by
  obtain ⟨g₁', rfl, hgraph⟩ := Resolver.exists_of_nameless h
  rcases initialSources_cases c r.graph with ⟨ids, hids⟩ | ⟨v, hv, _⟩
  · have hids' := (Taint.initialSources_congr hgraph hnamed).symm.trans hids
    obtain ⟨t, vs, hverdict⟩ := exists_verdict hcompletes hg hguarded hids
    obtain ⟨t', vs', hverdict'⟩ := exists_verdict hcompletes' hg' hguarded' hids'
    obtain rfl := Taint.propagate_congr hgraph hnamed hverdict.propagated hverdict'.propagated
    have haddresses := Violation.taintedAddresses_congr hgraph t.tainted
    have hnodes : vs.map (·.node) = vs'.map (·.node) := by
      rw [hverdict.nodes, hverdict'.nodes, haddresses]
    have hkeys : vs.map (·.key.2) = vs'.map (·.key.2) := by
      have hread (g : Graph) (ids : List NodeId) :
          (ids.map (Violation.keyAt g)).map Prod.snd = ids.map fun id => (Violation.keyAt g id).2 :=
        List.map_map
      have hkey (vs : List Violation) : vs.map (·.key.2) = (vs.map Violation.key).map Prod.snd :=
        List.map_map.symm
      rw [hkey, hkey, hverdict.keys, hverdict'.keys, haddresses, hread, hread]
      exact List.map_congr_left fun id _ => Violation.keyAt_congr hgraph id
    refine ⟨_, _, hverdict.judged phases c.stopAtFirst, hverdict'.judged phases c.stopAtFirst, ?_⟩
    cases c.stopAtFirst with
    | false => exact sameFindings_completed hnodes hkeys
    | true =>
      refine sameFindings_completed ?_ ?_
      · simpa only [if_true, List.map_take] using congrArg (List.take 1) hnodes
      · simpa only [if_true, List.map_take] using congrArg (List.take 1) hkeys
  · rw [hnamed] at hv
    cases hv

/-- The variables of an accepted program can have other names, as long as they are
kept apart from each other and from builtins and functions. The program is then
accepted with the same graph but for names, every step of resolution keeps it so,
and no run tells the difference unless it is told which variables to taint. -/
theorem run_rename {program : Node} {g : Graph} {ρ : String → String}
    (hg : Flow.collect program = .ok g)
    (hρ : Set.InjOn ρ {name | name ∈ program.variableNames})
    (hbuiltin : ∀ name ∈ program.variableNames, Builtin.isBuiltin (ρ name) = false)
    (hfunction : ∀ name ∈ program.variableNames, ρ name ∉ program.functionNames) :
    ∃ g', Flow.collect (program.rename ρ) = .ok g' ∧
      (∀ n, (Resolver.stepTimes n { graph := g }).map Resolver.nameless =
        (Resolver.stepTimes n { graph := g' }).map Resolver.nameless) ∧
      ∀ c : TaintConfig, c.namedVariables = [] →
        ∃ r r', run c program = .ok r ∧ run c (program.rename ρ) = .ok r' ∧
          SameFindings r r' := by
  -- the renaming can be one of all names
  obtain ⟨σ, hσ, hagree⟩ := exists_injective_extension hρ
  have hsame : program.rename ρ = program.rename σ :=
    program.rename_congr fun name hname => (hagree name (Node.mem_variableNames.mpr hname)).symm
  have hspares : Spares σ program.functionNames program.mentions := by
    refine ⟨fun name hname => ?_, fun name hname => ?_, fun f hf => Node.mem_functionNames.mpr hf⟩
    · have hmem := Node.mem_variableNames.mpr hname
      rw [hagree name hmem]
      simpa [Builtin.isBuiltin] using hbuiltin name hmem
    · have hmem := Node.mem_variableNames.mpr hname
      rw [hagree name hmem]
      exact hfunction name hmem
  obtain ⟨g', hg', hnameless⟩ := Flow.collect_rename hσ hspares hg
  rw [← hsame] at hg'
  have hstart : Resolver.nameless { graph := g } = Resolver.nameless { graph := g' } := by
    simp only [Resolver.nameless, hnameless]
  refine ⟨g', hg', fun n => Resolver.stepTimes_congr n hstart, fun c hnamed => ?_⟩
  have hresolved := resolveCalls_congr (Resolver.pending g).length 0 hstart
  have hpending := Resolver.pending_congr hnameless
  rcases resolveCalls_start hg with ⟨r, hcompletes, _, hrun⟩ | ⟨r, names, _, _, _, hrun⟩
  all_goals
    rcases resolveCalls_start hg' with ⟨r', hcompletes', _, hrun'⟩ |
      ⟨r', names', _, _, _, hrun'⟩
  all_goals rw [hrun, hpending, hrun'] at hresolved
  · obtain ⟨hcount, heq⟩ := EStateM.Result.ok.inj hresolved
    obtain ⟨result, result', hresult, hresult', hfindings⟩ := judge_congr hcompletes
      (Flow.collected_of_collect hg) (Flow.guarded_of_collect hg) hcompletes'
      (Flow.collected_of_collect hg') (Flow.guarded_of_collect hg') heq hnamed
      (opening r.embeddings.length)
    refine ⟨result, result', ?_, ?_, hfindings⟩
    · rw [run_eq hg, hrun]
      exact hresult
    · rw [run_eq hg', hrun', ← hcount]
      exact hresult'
  · cases hresolved
  · cases hresolved
  · let report (r : Resolver) (names : List String) : Result :=
      aborted (opening (r.embeddings.length + 1)) (some r.graph) r.embeddings []
        { cause := .recursion names }
    refine ⟨report r names, report r' names', ?_, ?_, rfl, rfl, rfl, rfl, rfl⟩
    · rw [run_eq hg, hrun]
    · rw [run_eq hg', hrun']

/-- A function whose result is stored to, under names that are used twice. -/
def exchangedProgram : Node :=
  .program "exchanged" [
    .function "f" ["x"] ["y"] (.block [.assignment ["y"]
      (.call "add" [.identifier "x" {}, .identifier "y" {}] {}) {}] {}) {},
    .declaration ["y"]
      (some (.call "f" [.call "calldataload" [.literal (.integer 0) {}] {}] {})) {},
    .expression (.call "sstore" [.identifier "y" {}, .literal (.integer 1) {}] {}) {}] {}

def exchange (name : String) : String :=
  if name = "x" then "y" else if name = "y" then "x" else name

theorem names_exchangedProgram :
    (∀ a ∈ exchangedProgram.variableNames, ∀ b ∈ exchangedProgram.variableNames,
      exchange a = exchange b → a = b) ∧
    (∀ name ∈ exchangedProgram.variableNames, Builtin.isBuiltin (exchange name) = false) ∧
    ∀ name ∈ exchangedProgram.variableNames, exchange name ∉ exchangedProgram.functionNames := by
  decide +kernel

theorem accepts_exchangedProgram :
    (Flow.collect exchangedProgram).toOption.any fun g => decide (g.scopes.length = 2) := by
  decide +kernel

theorem found_exchangedProgram :
    (run {} exchangedProgram).toOption.any fun r => decide (r.violations.length = 1) := by
  decide +kernel

theorem run_rename_exchangedProgram :
    ∃ g', Flow.collect (exchangedProgram.rename exchange) = .ok g' ∧
      ∃ r r', run {} exchangedProgram = .ok r ∧ run {} (exchangedProgram.rename exchange) = .ok r' ∧
        SameFindings r r' ∧ r'.violations.length = 1 := by
  obtain ⟨hapart, hbuiltin, hfunction⟩ := names_exchangedProgram
  obtain ⟨g, hg, _⟩ := Flow.exists_collect accepts_exchangedProgram
  obtain ⟨g', hg', _, hruns⟩ := run_rename hg (fun a ha b hb => hapart a ha b hb) hbuiltin hfunction
  obtain ⟨r, r', hrun, hrun', hfindings⟩ := hruns {} rfl
  have hfound := found_exchangedProgram
  rw [hrun] at hfound
  have hone : r.violations.length = 1 := by simpa [Except.toOption] using hfound
  have hlength := congrArg List.length hfindings.nodes
  rw [List.length_map, List.length_map, hone] at hlength
  exact ⟨g', hg', r, r', hrun, hrun', hfindings, hlength.symm⟩

end Analysis

end YulTaint
