import Mathlib.Tactic
import YulTaint.Proofs.CallGraph.Representation
import YulTaint.Proofs.Flow.Nameless

/-!
Resolution up to names. Which site comes next, what is copied and how it is wired
does not depend on the names of nodes; a copy's name is made from that of the
node, but nothing reads it again.
-/

namespace YulTaint

namespace Graph

variable {g g' : Graph}

theorem scope?_cases (h : g.nameless = g'.nameless) (name : String) :
    (g.scope? name = none ∧ g'.scope? name = none) ∨
      ∃ s names, g.scope? name = some s ∧ g'.scope? name = some { s with names } := by
  have hmap := scope?_congr h (f := Scope.nameless) (fun _ => rfl) name
  cases hs : g.scope? name with
  | none => exact Or.inl ⟨rfl, by simpa [hs] using hmap.symm⟩
  | some s =>
    obtain ⟨s', hs', heq⟩ := Option.map_eq_some_iff.mp (hmap.symm.trans (by rw [hs]; rfl))
    have hsame : s' = { s'.nameless with names := s'.names } := rfl
    rw [heq] at hsame
    exact Or.inr ⟨s, s'.names, rfl, hsame ▸ hs'⟩

theorem node?_cases (h : g.nameless = g'.nameless) (id : NodeId) :
    (g.node? id = none ∧ g'.node? id = none) ∨
      ∃ n name, g.node? id = some n ∧ g'.node? id = some { n with name } := by
  have hmap := node?_congr h (f := FlowNode.nameless) (fun _ => rfl) id
  cases hn : g.node? id with
  | none => exact Or.inl ⟨rfl, by simpa [hn] using hmap.symm⟩
  | some n =>
    obtain ⟨n', hn', heq⟩ := Option.map_eq_some_iff.mp (hmap.symm.trans (by rw [hn]; rfl))
    have hsame : n' = { n'.nameless with name := n'.name } := rfl
    rw [heq] at hsame
    exact Or.inr ⟨n, n'.name, rfl, hsame ▸ hn'⟩

end Graph

namespace Resolver

def nameless (r : Resolver) : Resolver :=
  { r with graph := r.graph.nameless }

def namelessResult {ε α : Type} : EStateM.Result ε Resolver α → EStateM.Result ε Resolver α
  | .ok a r => .ok a r.nameless
  | .error e r => .error e r.nameless

theorem namelessResult_cases {ε α : Type} {x y : EStateM.Result ε Resolver α}
    (h : namelessResult x = namelessResult y) :
    (∃ a r r', x = .ok a r ∧ y = .ok a r' ∧ r.nameless = r'.nameless) ∨
      ∃ e r r', x = .error e r ∧ y = .error e r' ∧ r.nameless = r'.nameless := by
  cases x with
  | ok a r =>
    cases y with
    | ok a' r' =>
      obtain ⟨rfl, hr⟩ := EStateM.Result.ok.inj h
      exact Or.inl ⟨a, r, r', rfl, rfl, hr⟩
    | error e' r' => cases h
  | error e r =>
    cases y with
    | ok a' r' => cases h
    | error e' r' =>
      obtain ⟨rfl, hr⟩ := EStateM.Result.error.inj h
      exact Or.inr ⟨e, r, r', rfl, rfl, hr⟩

section Choice

variable {g g' : Graph}

theorem pending_congr (h : g.nameless = g'.nameless) : pending g = pending g' := by
  rw [pending, pending, List.flatMap_def, List.flatMap_def, Graph.scopes_congr h fun _ => rfl]

theorem isDone_congr (h : g.nameless = g'.nameless) : isDone g = isDone g' := by
  rw [isDone, isDone, pending_congr h]

theorem firstReady_congr (h : g.nameless = g'.nameless) (sites : List (SiteRef × CallSite)) :
    firstReady g sites = firstReady g' sites := by
  induction sites with
  | nil => rfl
  | cons entry rest ih =>
    obtain ⟨ref, site⟩ := entry
    rw [firstReady, firstReady, ih]
    rcases Graph.scope?_cases h site.callee with ⟨hs, hs'⟩ | ⟨s, names, hs, hs'⟩
    · rw [hs, hs']
    · rw [hs, hs']
      rfl

theorem nextEligible_congr (h : g.nameless = g'.nameless) : nextEligible g = nextEligible g' := by
  rw [nextEligible, nextEligible, pending_congr h, firstReady_congr h]

theorem recursiveFunctions_congr (h : g.nameless = g'.nameless) :
    recursiveFunctions g = recursiveFunctions g' := by
  have hcalls : callGraph g = callGraph g' := Graph.scopes_congr h fun _ => rfl
  rw [recursiveFunctions, recursiveFunctions, hcalls]

end Choice

section Copying

variable {g g' : Graph}

theorem copyNodes_congr (callee caller : String) (index : Int) (ids : List NodeId)
    (h : g.nameless = g'.nameless) :
    (copyNodes callee caller index g ids).1 = (copyNodes callee caller index g' ids).1 ∧
      (copyNodes callee caller index g ids).2.nameless =
        (copyNodes callee caller index g' ids).2.nameless := by
  induction ids generalizing g g' with
  | nil => exact ⟨rfl, h⟩
  | cons id rest ih =>
    rw [copyNodes, copyNodes]
    rcases Graph.node?_cases h id with ⟨hn, hn'⟩ | ⟨n, name, hn, hn'⟩
    · simpa only [hn, hn'] using ih h
    · simp only [hn, hn', Graph.size_congr h]
      have hsame : n.nameless = FlowNode.nameless { n with name } := rfl
      obtain ⟨hcopies, hrest⟩ := ih (Graph.addCopy_congr h hsame id caller
        s!"{callee}#{index}/{n.name}" s!"{callee}#{index}/{name}" index)
      exact ⟨congrArg _ hcopies, hrest⟩

theorem copyEdges_congr (h : g.nameless = g'.nameless) (caller : String)
    (copies : List (NodeId × NodeId)) (edges : List Edge) :
    (copyEdges caller copies g edges).nameless = (copyEdges caller copies g' edges).nameless := by
  refine Graph.foldl_congr ?_ edges h
  intro g g' e hg
  exact Graph.addEdge_congr hg caller _ _

theorem addWires_congr (caller : String) (wires : List (Except Missing Edge))
    (h : g.nameless = g'.nameless) :
    (addWires caller g wires).1 = (addWires caller g' wires).1 ∧
      (addWires caller g wires).2.nameless = (addWires caller g' wires).2.nameless := by
  induction wires generalizing g g' with
  | nil => exact ⟨rfl, h⟩
  | cons wire rest ih =>
    cases wire with
    | error missing => exact ⟨rfl, h⟩
    | ok e => exact ih (Graph.addEdge_congr h caller e.source e.target)

theorem resolveSite_congr (h : g.nameless = g'.nameless) (ref : SiteRef) :
    (resolveSite g ref).nameless = (resolveSite g' ref).nameless :=
  Graph.modifyScope_congr h _ fun _ => rfl

end Copying

variable {r r' : Resolver}

theorem exists_of_nameless (h : r.nameless = r'.nameless) :
    ∃ g', r' = { r with graph := g' } ∧ r.graph.nameless = g'.nameless := by
  have hr : r' = { r'.nameless with graph := r'.graph } := rfl
  have hg : r.nameless.graph = r'.nameless.graph := by rw [h]
  rw [← h] at hr
  exact ⟨r'.graph, hr, hg⟩

/-- One embedding. -/
theorem embed_congr {g g' : Graph} (h : g.nameless = g'.nameless) (k : Int) (es : List Embedding)
    (ref : SiteRef) (site : CallSite) :
    namelessResult (embed ref site ⟨g, k, es⟩) = namelessResult (embed ref site ⟨g', k, es⟩) := by
  unfold embed
  rcases Graph.scope?_cases h site.caller with ⟨hs, hs'⟩ | ⟨caller, callerNames, hs, hs'⟩
  · simp only [hs, hs', namelessResult, nameless, h]
  rcases Graph.scope?_cases h site.callee with ⟨ht, ht'⟩ | ⟨callee, names, ht, ht'⟩
  · simp only [hs, hs', ht, ht', namelessResult, nameless, h]
  obtain ⟨hcopies, hcopied⟩ := copyNodes_congr callee.name site.caller k callee.nodes h
  generalize hnodes : copyNodes callee.name site.caller k g callee.nodes = made at hcopies hcopied
  generalize hnodes' : copyNodes callee.name site.caller k g' callee.nodes = made'
    at hcopies hcopied
  obtain ⟨copies, g₁⟩ := made
  obtain ⟨copies', g₁'⟩ := made'
  obtain rfl : copies = copies' := hcopies
  have hedges := copyEdges_congr hcopied site.caller copies callee.edges
  obtain ⟨hmissing, hwired⟩ := addWires_congr site.caller (wires copies site callee) hedges
  generalize hwires : addWires site.caller (copyEdges site.caller copies g₁ callee.edges)
    (wires copies site callee) = wired at hmissing hwired
  generalize hwires' : addWires site.caller (copyEdges site.caller copies g₁' callee.edges)
    (wires copies site callee) = wired' at hmissing hwired
  obtain ⟨missing, g₂⟩ := wired
  obtain ⟨missing', g₂'⟩ := wired'
  obtain rfl : missing = missing' := hmissing
  have hwired' : g₂.nameless = g₂'.nameless := hwired
  have hwiresSame : wires copies site { callee with names } = wires copies site callee := rfl
  simp only [hs, hs', ht, ht', hnodes, hnodes', hwiresSame, hwires, hwires']
  split
  · simp only [namelessResult, nameless, h]
  split
  · simp only [namelessResult, nameless, h]
  cases missing with
  | some what => simp only [namelessResult, nameless, hwired']
  | none => simp only [namelessResult, nameless, resolveSite_congr hwired' ref]

/-- Which site a step resolves does not depend on names. -/
theorem step_congr (h : r.nameless = r'.nameless) :
    namelessResult (step r) = namelessResult (step r') := by
  obtain ⟨g', rfl, hg⟩ := exists_of_nameless h
  unfold step
  simp only [isDone_congr hg, nextEligible_congr hg, recursiveFunctions_congr hg]
  split
  · exact congrArg (EStateM.Result.ok false) h
  split
  · exact congrArg (EStateM.Result.error _) h
  · split
    · exact congrArg (EStateM.Result.error _) h
    · exact congrArg (EStateM.Result.error _) h
  · rename_i ref site _
    rcases namelessResult_cases (embed_congr hg r.nextIndex r.embeddings ref site) with
      ⟨e, next, next', hnext, hnext', heq⟩ | ⟨failure, next, next', hnext, hnext', heq⟩
    · rw [hnext, hnext']
      exact congrArg (EStateM.Result.ok true) heq
    · rw [hnext, hnext']
      exact congrArg (EStateM.Result.error failure) heq

/-- The same number of steps leads to the same graph but for the names. -/
theorem stepTimes_congr (n : Nat) (h : r.nameless = r'.nameless) :
    (stepTimes n r).map nameless = (stepTimes n r').map nameless := by
  induction n generalizing r r' with
  | zero => exact congrArg some h
  | succ n ih =>
    rw [stepTimes, stepTimes]
    rcases namelessResult_cases (step_congr h) with
      ⟨more, next, next', hnext, hnext', heq⟩ | ⟨failure, next, next', hnext, hnext', _⟩
    · rw [hnext, hnext']
      cases more with
      | true => exact ih heq
      | false => rfl
    · rw [hnext, hnext']

end Resolver

end YulTaint
