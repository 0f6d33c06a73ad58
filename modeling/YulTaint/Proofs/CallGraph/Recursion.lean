import Mathlib.Tactic
import YulTaint.CallGraph.Embedding
import YulTaint.Proofs.CallGraph.Component
import YulTaint.Proofs.Graph.WellFormed

/-!
Recursion. A function is recursive if calls lead from it back to itself. The
functions that a resolver names are those recursive over the open sites.
-/

namespace YulTaint

open Relation (ReflTransGen TransGen)

namespace Successors

variable {calls : Successors}

theorem transGen_of_reaches {v u : String} (h : calls.Reaches v u) (hne : v ≠ u) :
    TransGen calls.Leads v u := by
  rcases Relation.reflTransGen_iff_eq_or_transGen.mp h with heq | htrans
  · exact absurd heq.symm hne
  · exact htrans

/-- A class with a second member is a cycle. -/
theorem cycle_of_ne {v u : String} (hforth : calls.Reaches v u) (hback : calls.Reaches u v)
    (hne : v ≠ u) : TransGen calls.Leads v v :=
  (transGen_of_reaches hforth hne).trans_left hback

/-- On a cycle, a node either leads to itself or has another node in its
class. -/
theorem leads_or_exists_ne {v : String} (h : TransGen calls.Leads v v) :
    calls.Leads v v ∨ ∃ u, v ≠ u ∧ calls.Reaches v u ∧ calls.Reaches u v := by
  obtain ⟨u, hstep, hback⟩ := TransGen.head'_iff.mp h
  by_cases hvu : v = u
  · subst hvu
    exact Or.inl hstep
  · exact Or.inr ⟨u, hvu, .single hstep, hback⟩

end Successors

namespace Resolver

variable {calls : Successors}

theorem cycleOf_singleton {v : String} {callees : List String} (h : calls.lookup v = some callees) :
    cycleOf calls [v] = .ok (if callees.contains v then [v] else []) := by
  simp only [cycleOf, h]

theorem cycleOf_of_length {component : List String} (h : component.length ≠ 1) :
    cycleOf calls component = .ok component := by
  cases component with
  | nil => rfl
  | cons v rest =>
    cases rest with
    | nil => exact absurd rfl h
    | cons u rest => rfl

theorem exists_mem_ne {component : List String} (hnodup : component.Nodup)
    (hone : component.length ≠ 1) {f : String} (hf : f ∈ component) : ∃ u ∈ component, f ≠ u := by
  by_contra hnone
  have hsub : component ⊆ [f] := by
    intro u hu
    by_contra hne
    exact hnone ⟨u, hu, fun heq => hne (heq ▸ List.mem_singleton.mpr rfl)⟩
  have hle := (hnodup.subperm hsub).length_le
  have hpos := List.length_pos_of_mem hf
  simp only [List.length_singleton] at hle
  omega

/-- Every node in a component has an entry if every target has. -/
theorem lookup_of_mem_components (hkeys : ∀ v w, calls.Leads v w → (calls.lookup w).isSome)
    {v : String} (hv : v ∈ calls.components.flatten) :
    ∃ callees, calls.lookup v = some callees := by
  obtain ⟨u, hu, hreach⟩ := ((Successors.condenses_components calls).covers v).mp hv
  apply Option.isSome_iff_exists.mp
  cases hreach with
  | refl =>
    obtain ⟨⟨name, targets⟩, hentry, rfl⟩ := List.mem_map.mp hu
    by_contra hnone
    rw [Option.not_isSome_iff_eq_none, List.lookup_eq_none_iff] at hnone
    simpa using hnone _ hentry
  | tail _ hstep => exact hkeys _ _ hstep

/-- A component gives its members on cycles: all of them, or none. -/
theorem cycleOf_spec (hkeys : ∀ v w, calls.Leads v w → (calls.lookup w).isSome)
    {component : List String} (h : component ∈ calls.components) :
    ∃ cycle, cycleOf calls component = .ok cycle ∧
      ∀ f, f ∈ cycle ↔ f ∈ component ∧ TransGen calls.Leads f f := by
  have hcondenses := Successors.condenses_components calls
  obtain ⟨v, hv, hclass⟩ := hcondenses.classes component h
  have hnodup := (List.nodup_flatten.mp hcondenses.nodup).1 component h
  by_cases hone : component.length = 1
  · obtain ⟨w, rfl⟩ := List.length_eq_one_iff.mp hone
    obtain rfl : v = w := List.mem_singleton.mp hv
    obtain ⟨callees, hlookup⟩ := lookup_of_mem_components hkeys
      (List.mem_flatten.mpr ⟨_, h, hv⟩)
    have hself : calls.Leads v v ↔ callees.contains v = true := by
      rw [Successors.leads_iff, List.contains_iff_mem]
      simp [hlookup]
    refine ⟨_, cycleOf_singleton hlookup, fun f => ?_⟩
    rw [List.mem_singleton]
    constructor
    · split
      · rename_i hcontains
        intro hf
        obtain rfl := List.mem_singleton.mp hf
        exact ⟨rfl, .single (hself.mpr hcontains)⟩
      · exact fun hf => absurd hf List.not_mem_nil
    · rintro ⟨rfl, hcycle⟩
      rcases Successors.leads_or_exists_ne hcycle with hleads | ⟨u, hne, hforth, hback⟩
      · rw [if_pos (hself.mp hleads)]
        exact List.mem_singleton.mpr rfl
      · exact absurd (List.mem_singleton.mp ((hclass u).mpr ⟨hforth, hback⟩)).symm hne
  · refine ⟨component, cycleOf_of_length hone, fun f => ⟨fun hf => ⟨hf, ?_⟩, fun hf => hf.1⟩⟩
    obtain ⟨u, hu, hne⟩ := exists_mem_ne hnodup hone hf
    obtain ⟨hvf, hfv⟩ := (hclass f).mp hf
    obtain ⟨hvu, huv⟩ := (hclass u).mp hu
    exact Successors.cycle_of_ne (hfv.trans hvu) (huv.trans hvf) hne

/-- The components that are cycles hold just the names that can reach themselves. -/
theorem mapM_cycleOf (hkeys : ∀ v w, calls.Leads v w → (calls.lookup w).isSome) :
    ∃ cycles, calls.components.mapM (cycleOf calls) = .ok cycles ∧
      ∀ f, f ∈ cycles.flatten ↔ TransGen calls.Leads f f := by
  obtain ⟨cycles, hcycles⟩ := exists_mapM_eq_ok (f := cycleOf calls) fun component h =>
    let ⟨cycle, hcycle, _⟩ := cycleOf_spec hkeys h
    ⟨cycle, hcycle⟩
  refine ⟨cycles, hcycles, fun f => ?_⟩
  have hall := mapM_eq_ok_iff.mp hcycles
  rw [List.mem_flatten]
  constructor
  · rintro ⟨cycle, hmem, hf⟩
    obtain ⟨component, hcomponent, heq⟩ := exists_of_mem_right hall hmem
    obtain ⟨cycle', heq', hspec⟩ := cycleOf_spec hkeys hcomponent
    cases heq.symm.trans heq'
    exact ((hspec f).mp hf).2
  · intro hcycle
    obtain ⟨w, hstep, _⟩ := TransGen.head'_iff.mp hcycle
    obtain ⟨targets, hlookup, _⟩ := Successors.leads_iff.mp hstep
    have hkey : f ∈ calls.map (·.1) :=
      List.mem_map.mpr ⟨(f, targets), mem_of_lookup_eq_some hlookup, rfl⟩
    have hcovered := ((Successors.condenses_components calls).covers f).mpr ⟨f, hkey, .refl⟩
    obtain ⟨component, hcomponent, hf⟩ := List.mem_flatten.mp hcovered
    obtain ⟨cycle, hmem, heq⟩ := exists_of_mem_left hall hcomponent
    obtain ⟨cycle', heq', hspec⟩ := cycleOf_spec hkeys hcomponent
    cases heq.symm.trans heq'
    exact ⟨cycle, hmem, (hspec f).mpr ⟨hf, hcycle⟩⟩

end Resolver

namespace Graph

def Calls (g : Graph) (a b : String) : Prop :=
  ∃ s, g.scope? a = some s ∧ ∃ site ∈ s.sites, site.callee = b

instance (g : Graph) (a b : String) : Decidable (g.Calls a b) :=
  decidable_of_iff ((g.scope? a).any fun s => s.sites.any fun site => site.callee = b)
    (by simp [Calls, Option.any_eq_true])

def OpenCalls (g : Graph) (a b : String) : Prop :=
  ∃ s, g.scope? a = some s ∧ ∃ site ∈ s.sites, site.resolved = false ∧ site.callee = b

/-- A function that can reach itself through one or more call sites. -/
def IsRecursive (g : Graph) (f : String) : Prop :=
  TransGen g.Calls f f

/-- Calls that go up in rank never come back. -/
theorem not_isRecursive_of_rank {g : Graph} {rank : String → Nat}
    (h : ∀ a b, g.Calls a b → rank a < rank b) (f : String) : ¬ g.IsRecursive f := by
  intro hcycle
  have hlt : rank f < rank f := by
    have hpath : TransGen (· < ·) (rank f) (rank f) := hcycle.lift rank h
    rwa [Relation.transGen_eq_self] at hpath
  exact Nat.lt_irrefl _ hlt

def isRanked (rank : String → Nat) (g : Graph) : Bool :=
  g.scopes.all fun s => s.sites.all fun site => decide (rank s.name < rank site.callee)

theorem not_isRecursive_of_isRanked {g : Graph} {rank : String → Nat} (h : g.isRanked rank) :
    ∀ name, ¬ g.IsRecursive name := by
  refine @not_isRecursive_of_rank g rank ?_
  rintro a b ⟨s, hs, site, hsite, rfl⟩
  have hscope := List.all_eq_true.mp h s (mem_scopes_of_scope? hs)
  have hlt := of_decide_eq_true (List.all_eq_true.mp hscope site hsite)
  rwa [name_of_scope? hs] at hlt

end Graph

namespace Resolver

variable {g : Graph}

/-- The graph of open calls lists the callees of each scope in ascending order. -/
theorem lookup_callGraph (g : Graph) (name : String) :
    (callGraph g).lookup name =
      (g.scope? name).map fun s => ascendingNames (s.unresolved.map (·.callee)) := by
  unfold callGraph Graph.scope?
  induction g.scopes with
  | nil => rfl
  | cons s rest ih =>
    rw [List.map_cons, List.lookup_cons, List.find?_cons]
    by_cases hname : s.name = name
    · subst hname
      simp
    · have hne : (name == s.name) = false := by simpa using fun h => hname h.symm
      rw [hne, decide_eq_false hname]
      exact ih

/-- Its edges are the open calls. -/
theorem leads_callGraph {a b : String} : (callGraph g).Leads a b ↔ g.OpenCalls a b := by
  rw [Successors.leads_iff, lookup_callGraph]
  constructor
  · rintro ⟨targets, hlookup, hb⟩
    obtain ⟨s, hs, rfl⟩ := Option.map_eq_some_iff.mp hlookup
    rw [mem_ascendingNames, List.mem_map] at hb
    obtain ⟨site, hsite, rfl⟩ := hb
    obtain ⟨hmem, hopen⟩ := List.mem_filter.mp hsite
    exact ⟨s, hs, site, hmem, by simpa using hopen, rfl⟩
  · rintro ⟨s, hs, site, hmem, hopen, rfl⟩
    refine ⟨_, by rw [hs]; rfl, ?_⟩
    rw [mem_ascendingNames, List.mem_map]
    exact ⟨site, List.mem_filter.mpr ⟨hmem, by simp [hopen]⟩, rfl⟩

/-- The functions named are those recursive over the open sites. -/
theorem recursiveFunctions_spec (hg : ∀ a b, g.OpenCalls a b → ∃ s, g.scope? b = some s) :
    ∃ names, recursiveFunctions g = .ok names ∧
      ∀ f, f ∈ names ↔ TransGen g.OpenCalls f f := by
  have hleads : (callGraph g).Leads = g.OpenCalls := by
    funext a b
    exact propext leads_callGraph
  have hkeys (v w : String) (hvw : (callGraph g).Leads v w) : ((callGraph g).lookup w).isSome := by
    obtain ⟨s, hs⟩ := hg v w (leads_callGraph.mp hvw)
    rw [lookup_callGraph, hs]
    rfl
  obtain ⟨cycles, hcycles, hmem⟩ := mapM_cycleOf hkeys
  refine ⟨ascendingNames cycles.flatten, ?_, fun f => ?_⟩
  · simp only [recursiveFunctions, hcycles]
    rfl
  · rw [mem_ascendingNames, hmem, hleads]

end Resolver

end YulTaint
