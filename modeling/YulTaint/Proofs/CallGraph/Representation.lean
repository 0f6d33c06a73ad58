import Mathlib.Tactic
import YulTaint.Proofs.CallGraph.Confluence
import YulTaint.Proofs.Flow.Applied
import YulTaint.Proofs.Memory.Table

/-!
How the graph of a program is held, while its calls are resolved step by step.
The arena, the lists of the scopes, the edges and the table of memory words
always agree: every node has one owner and every edge one scope, edges do not
lead from one scope into another, and copies follow what they copy.
-/

namespace YulTaint

open Relation (ReflTransGen)

namespace Graph

def CopiedFrom (g : Graph) (id o : NodeId) : Prop :=
  ∃ n, g.node? id = some n ∧ n.origin = some o

/-- The arena, the scopes, the edges and the table of memory words agree. -/
structure Represented (g : Graph) : Prop where
  names : g.scopeNames.Nodup
  /-- What scopes and table list are the positions of the arena, each once. -/
  positions : (g.scopes.flatMap (·.nodes) ++ g.globals.map (·.2)).Perm (List.range g.size)
  /-- A node that names a scope is listed by this scope, once, and by no other. -/
  owner : ∀ id n sc, g.node? id = some n → n.scope = some sc →
    ∃ s ∈ g.scopes, s.name = sc ∧ s.nodes.count id = 1 ∧ ∀ t ∈ g.scopes, id ∈ t.nodes → t = s
  /-- Any other node is a memory word of the table, and no scope lists it. -/
  word : ∀ id n, g.node? id = some n → n.scope = none →
    (n.name, id) ∈ g.globals ∧ ∀ s ∈ g.scopes, id ∉ s.nodes
  entries : ∀ s ∈ g.scopes, s.root ∈ s.nodes ∧ s.params ⊆ s.nodes ∧ s.returns ⊆ s.nodes
  sites : ∀ s ∈ g.scopes, ∀ site ∈ s.sites,
    site.arguments ⊆ s.nodes ∧ site.results ⊆ s.nodes ∧ site.block ∈ s.nodes
  /-- An edge belongs to one scope. -/
  edges : ∀ e ∈ g.edges, ∃ s ∈ g.scopes, e ∈ s.edges ∧ ∀ t ∈ g.scopes, e ∈ t.edges → t = s
  locals : ∀ s ∈ g.scopes, s.edges ⊆ g.edges
  /-- Its ends are nodes of the scope or memory words, not both words. -/
  ends : ∀ s ∈ g.scopes, ∀ e ∈ s.edges,
    (e.source ∈ s.nodes ∨ g.IsShared e.source) ∧ (e.target ∈ s.nodes ∨ g.IsShared e.target) ∧
      ¬ (g.IsShared e.source ∧ g.IsShared e.target) ∧
      ∀ t ∈ g.scopes, t ≠ s → e.source ∉ t.nodes ∧ e.target ∉ t.nodes
  successors : ∀ a b, b ∈ g.successors a ↔ ⟨a, b⟩ ∈ g.edges
  predecessors : ∀ a b, a ∈ g.predecessors b ↔ b ∈ g.successors a
  /-- Copies come after what they copy, so going back ends at a node that is no copy. -/
  origins : ∀ id o, g.CopiedFrom id o → o < id
  declared : ∀ id n, g.node? id = some n → ReflTransGen g.CopiedFrom id (g.declared id) ∧
    ∃ m, g.node? (g.declared id) = some m ∧ m.origin = none

variable {g : Graph} {id : NodeId} {s t : Scope}

theorem mem_predecessors (g : Graph) (a b : NodeId) : a ∈ g.predecessors b ↔ ⟨a, b⟩ ∈ g.edges := by
  simp only [predecessors, List.mem_map, List.mem_filter, decide_eq_true_eq]
  constructor
  · rintro ⟨e, ⟨he, rfl⟩, rfl⟩
    exact he
  · intro h
    exact ⟨⟨a, b⟩, ⟨h, rfl⟩, rfl⟩

theorem Coherent.scope (hg : g.Coherent) {s : Scope} (hs : s ∈ g.scopes) : s.Coherent g :=
  hg.scopes s.name s (scope?_of_mem hg.names hs)

/-- Scopes have no node in common. -/
theorem Coherent.scope_unique (hg : g.Coherent) (hs : s ∈ g.scopes) (ht : t ∈ g.scopes)
    (hid : id ∈ s.nodes) (hid' : id ∈ t.nodes) : t = s := by
  have hs' := scope?_of_mem hg.names hs
  have ht' := scope?_of_mem hg.names ht
  have hname : t.name = s.name := Owns.unique ⟨t, ht', hid'⟩ ⟨s, hs', hid⟩ hg
  rw [hname, hs'] at ht'
  exact (Option.some.inj ht').symm

theorem Coherent.mem_owned (hg : g.Coherent) :
    id ∈ g.scopes.flatMap (·.nodes) ↔ ∃ n, g.node? id = some n ∧ n.scope ≠ none := by
  rw [List.mem_flatMap]
  constructor
  · rintro ⟨s, hs, hid⟩
    obtain ⟨n, hn, hscope⟩ := ((hg.scope hs).owns id).mp hid
    exact ⟨n, hn, by simp [hscope]⟩
  · rintro ⟨n, hn, hscope⟩
    obtain ⟨sc, hsc⟩ := Option.ne_none_iff_exists'.mp hscope
    obtain ⟨s, hs⟩ := mem_scopeNames.mp (hg.owned id n sc hn hsc)
    refine ⟨s, mem_scopes_of_scope? hs, ((hg.scopes sc s hs).owns id).mpr ⟨n, hn, ?_⟩⟩
    rw [hsc, name_of_scope? hs]

theorem Coherent.nodup_owned (hg : g.Coherent) : (g.scopes.flatMap (·.nodes)).Nodup := by
  rw [List.nodup_flatMap]
  refine ⟨fun s hs => (hg.scope hs).nodup, ?_⟩
  have hdistinct : g.scopes.Pairwise fun s t => s.name ≠ t.name := List.pairwise_map.mp hg.names
  refine hdistinct.imp_of_mem fun {s t} hs ht hne id hid hid' => ?_
  exact hne (congrArg Scope.name (hg.scope_unique hs ht hid hid')).symm

/-- The nodes of scopes and the memory words fill the arena, without overlap. -/
theorem Coherent.perm_positions (hg : g.Coherent) (htable : g.Tabled) :
    (g.scopes.flatMap (·.nodes) ++ g.globals.map (·.2)).Perm (List.range g.size) := by
  refine (List.perm_ext_iff_of_nodup ?_ List.nodup_range).mpr fun id => ?_
  · refine List.nodup_append.mpr ⟨hg.nodup_owned, htable.nodup, ?_⟩
    rintro id hid _ hid' rfl
    obtain ⟨n, hn, hscope⟩ := hg.mem_owned.mp hid
    obtain ⟨n', hn', hnone⟩ := htable.mem_iff.mp hid'
    cases hn.symm.trans hn'
    exact hscope hnone
  · rw [List.mem_append, hg.mem_owned, htable.mem_iff, List.mem_range]
    constructor
    · rintro (⟨n, hn, _⟩ | hshared)
      · exact lt_size_of_node? hn
      · exact hshared.lt_size
    · intro hlt
      obtain ⟨n, hn⟩ := node?_isSome hlt
      by_cases hscope : n.scope = none
      · exact Or.inr ⟨n, hn, hscope⟩
      · exact Or.inl ⟨n, hn, hscope⟩

/-- A node stands once in the list of its scope, and in no other list. -/
theorem Coherent.exists_owner (hg : g.Coherent) {n : FlowNode} {sc : String}
    (hn : g.node? id = some n) (hsc : n.scope = some sc) :
    ∃ s ∈ g.scopes, s.name = sc ∧ s.nodes.count id = 1 ∧
      ∀ t ∈ g.scopes, id ∈ t.nodes → t = s := by
  obtain ⟨s, hs⟩ := mem_scopeNames.mp (hg.owned id n sc hn hsc)
  have hname := name_of_scope? hs
  have hmem := mem_scopes_of_scope? hs
  have hcoh := hg.scopes sc s hs
  have hid : id ∈ s.nodes := (hcoh.owns id).mpr ⟨n, hn, by rw [hsc, hname]⟩
  exact ⟨s, hmem, hname, List.count_eq_one_of_mem hcoh.nodup hid,
    fun t ht hid' => hg.scope_unique hmem ht hid hid'⟩

/-- The own node of an edge tells its scope. -/
theorem Coherent.edge_unique (hg : g.Coherent) (hs : s ∈ g.scopes) (ht : t ∈ g.scopes) {e : Edge}
    (he : e ∈ s.edges) (he' : e ∈ t.edges) : t = s := by
  have hattached := ((hg.scope ht).edges e he').2
  rcases ((hg.scope hs).edges e he).2.own with hown | hown
  · rcases hattached.source with hown' | hshared
    · exact hg.scope_unique hs ht hown hown'
    · exact absurd hown (hshared.not_mem (hg.scope hs))
  · rcases hattached.target with hown' | hshared
    · exact hg.scope_unique hs ht hown hown'
    · exact absurd hown (hshared.not_mem (hg.scope hs))

/-- A node of a scope, or a shared one, is no node of another scope. -/
theorem Coherent.not_mem_other (hg : g.Coherent) (hs : s ∈ g.scopes) (ht : t ∈ g.scopes)
    (hne : t ≠ s) (hid : id ∈ s.nodes ∨ g.IsShared id) :
    id ∉ t.nodes := by
  intro hid'
  rcases hid with hown | hshared
  · exact hne (hg.scope_unique hs ht hown hid')
  · exact hshared.not_mem (hg.scope ht) hid'

/-- No scope has an edge between two memory words. -/
theorem Coherent.not_both_shared (hg : g.Coherent) {s : Scope} (hs : s ∈ g.scopes) {e : Edge}
    (he : e ∈ s.edges) : ¬ (g.IsShared e.source ∧ g.IsShared e.target) := by
  rintro ⟨hsource, htarget⟩
  rcases ((hg.scope hs).edges e he).2.own with hown | hown
  · exact hsource.not_mem (hg.scope hs) hown
  · exact htarget.not_mem (hg.scope hs) hown

/-- Copies lead back to a node that is none. -/
theorem declared_spec (horigins : ∀ id o, g.CopiedFrom id o → o < id)
    (hlive : ∀ id o, g.CopiedFrom id o → o < g.size) {n : FlowNode} (hn : g.node? id = some n) :
    ReflTransGen g.CopiedFrom id (g.declared id) ∧
      ∃ m, g.node? (g.declared id) = some m ∧ m.origin = none := by
  induction id using Nat.strong_induction_on generalizing n with
  | _ id ih =>
    cases ho : n.origin with
    | none =>
      rw [declared_of_none hn ho]
      exact ⟨.refl, n, hn, ho⟩
    | some o =>
      have hcopied : g.CopiedFrom id o := ⟨n, hn, ho⟩
      have hlt := horigins id o hcopied
      obtain ⟨n', hn'⟩ := node?_isSome (hlive id o hcopied)
      obtain ⟨hback, hend⟩ := ih o hlt hn'
      rw [declared_of_origin hn ho hlt]
      exact ⟨.head hcopied hback, hend⟩

/-- What represents the graph follows from its coherence and the table of words. -/
theorem Coherent.represented (hg : g.Coherent) (htable : g.Tabled) : g.Represented := by
  have horigins (id o : NodeId) (h : g.CopiedFrom id o) : o < id := by
    obtain ⟨n, hn, ho⟩ := h
    exact hg.origins id n o hn ho
  have hlive (id o : NodeId) (h : g.CopiedFrom id o) : o < g.size := by
    have hlt := horigins id o h
    obtain ⟨n, hn, _⟩ := h
    exact hlt.trans (lt_size_of_node? hn)
  refine ⟨hg.names, hg.perm_positions htable, ?_, ?_, ?_, ?_, ?_, ?_, ?_, mem_successors g, ?_,
    horigins, ?_⟩
  · exact fun id n sc hn hsc => hg.exists_owner hn hsc
  · intro id n hn hnone
    obtain ⟨⟨name, _⟩, hentry, rfl⟩ := List.mem_map.mp (htable.mem_iff.mpr ⟨n, hn, hnone⟩)
    obtain ⟨n', hn', _, rfl⟩ := hg.globals _ _ hentry
    cases hn.symm.trans hn'
    exact ⟨hentry, fun s hs => IsShared.not_mem (hg.scope hs) ⟨n, hn, hnone⟩⟩
  · intro s hs
    have hcoh := hg.scope hs
    exact ⟨hcoh.root, hcoh.params, hcoh.returns⟩
  · intro s hs site hsite
    have hown := (hg.scope hs).sites site hsite
    exact ⟨hown.arguments, hown.results, hown.block⟩
  · intro e he
    obtain ⟨name, s, hs, hmem⟩ := hg.edges e he
    have hscope := mem_scopes_of_scope? hs
    exact ⟨s, hscope, hmem, fun t ht he' => hg.edge_unique hscope ht hmem he'⟩
  · exact fun s hs e he => ((hg.scope hs).edges e he).1
  · intro s hs e he
    have hattached := ((hg.scope hs).edges e he).2
    exact ⟨hattached.source, hattached.target, hg.not_both_shared hs he, fun t ht hne =>
      ⟨hg.not_mem_other hs ht hne hattached.source, hg.not_mem_other hs ht hne hattached.target⟩⟩
  · intro a b
    rw [mem_predecessors, mem_successors]
  · exact fun id n hn => declared_spec horigins hlive hn

end Graph

namespace Resolver

variable {g : Graph} {k : Int} {r r' : Resolver}

abbrev StepsTo : Resolver → Resolver → Prop :=
  ReflTransGen fun r r' => ∃ more, step r = .ok more r'

theorem advances_of_stepsTo (hg : g.Collected) (h : StepsTo { graph := g, nextIndex := k } r) :
    ReflTransGen Advances { graph := g, nextIndex := k } r := by
  induction h with
  | refl => exact .refl
  | tail _ hstep ih =>
    obtain ⟨more, hstep⟩ := hstep
    obtain ⟨hr, _⟩ := Inlining.run ih hg
    rcases embedsReady_of_step hr.coherent.names hstep with ⟨_, rfl⟩ | hready
    · exact ih
    · exact ih.tail (hready.advances hg hr)

/-- An embedding grows the caller and nothing else. -/
theorem tabled_of_advances (hg : g.Tabled)
    (h : ReflTransGen Advances { graph := g, nextIndex := k } r) : r.graph.Tabled := by
  induction h with
  | refl => exact hg
  | tail _ hstep ih =>
    obtain ⟨_, _, _, _, _, hstep⟩ := hstep
    exact ih.growth hstep.embeds.growth

/-- From the graph of a program on, and however many calls are resolved, the
parts of the graph agree. -/
theorem represented_of_stepsTo {program : Node} (hg : Flow.collect program = .ok g)
    (h : StepsTo { graph := g, nextIndex := k } r) : r.graph.Represented := by
  have hcollected := Flow.collected_of_collect hg
  have hrun := advances_of_stepsTo hcollected h
  exact (Inlining.run hrun hcollected).1.coherent.represented
    (tabled_of_advances (Flow.tabled_of_collect hg) hrun)

/-- The state after a number of steps, if each of them resolves a call. -/
def stepTimes : Nat → Resolver → Option Resolver
  | 0, r => some r
  | n + 1, r =>
    match step r with
    | .ok true r' => stepTimes n r'
    | _ => none

theorem stepsTo_of_stepTimes {n : Nat} (h : stepTimes n r = some r') : StepsTo r r' := by
  induction n generalizing r with
  | zero =>
    cases h
    exact .refl
  | succ n ih =>
    rw [stepTimes] at h
    split at h
    · rename_i next hstep
      exact .head ⟨true, hstep⟩ (ih h)
    · cases h

/-- A function that writes memory, called by another one, which is called twice. -/
def writingProgram : Node :=
  .program "writing" [
    .function "inner" ["p"] [] (.block [.expression
      (.call "mstore" [.literal (.integer 0) {}, .identifier "p" {}] {}) {}] {}) {},
    .function "outer" ["p"] [] (.block [.expression
      (.call "inner" [.identifier "p" {}] {}) {}] {}) {},
    .expression (.call "outer" [.call "calldataload" [.literal (.integer 0) {}] {}] {}) {},
    .expression (.call "outer" [.literal (.integer 1) {}] {}) {}] {}

theorem steps_writingProgram : (Flow.collect writingProgram).toOption.any fun g =>
    (stepTimes 3 { graph := g }).any fun r =>
      decide (r.graph.globals.length = 2 ∧ r.embeddings.length = 3) := by
  decide +kernel

theorem represented_of_stepsTo_writingProgram :
    ∃ g r, Flow.collect writingProgram = .ok g ∧ StepsTo { graph := g } r ∧
      r.graph.globals.length = 2 ∧ r.embeddings.length = 3 ∧ r.graph.Represented := by
  obtain ⟨g, hg, hsteps⟩ := Flow.exists_collect steps_writingProgram
  obtain ⟨r, hr, hcounts⟩ := (Option.any_eq_true _ _).mp hsteps
  obtain ⟨hwords, hembeddings⟩ := of_decide_eq_true hcounts
  have hrun := stepsTo_of_stepTimes hr
  exact ⟨g, r, hg, hrun, hwords, hembeddings, represented_of_stepsTo hg hrun⟩

end Resolver

end YulTaint
