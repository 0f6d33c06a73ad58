import Mathlib.Tactic
import YulTaint.Graph.Basic

/-!
A graph is well formed when every id that it holds, in its edges and in its
scopes, belongs to a node of the arena.
-/

namespace YulTaint

structure CallSite.Within (site : CallSite) (size : Nat) : Prop where
  arguments : ∀ id ∈ site.arguments, id < size
  results : ∀ id ∈ site.results, id < size
  block : site.block < size

def Edge.Within (e : Edge) (size : Nat) : Prop :=
  e.source < size ∧ e.target < size

structure Scope.Within (s : Scope) (size : Nat) : Prop where
  root : s.root < size
  params : ∀ id ∈ s.params, id < size
  returns : ∀ id ∈ s.returns, id < size
  nodes : ∀ id ∈ s.nodes, id < size
  edges : ∀ e ∈ s.edges, e.Within size
  sites : ∀ site ∈ s.sites, site.Within size
  names : ∀ entry ∈ s.names, entry.2 < size

structure Graph.WellFormed (g : Graph) : Prop where
  edges : ∀ e ∈ g.edges, e.Within g.size
  scopes : ∀ s ∈ g.scopes, s.Within g.size
  globals : ∀ entry ∈ g.globals, entry.2 < g.size

namespace Graph

theorem node?_isSome {g : Graph} {id : NodeId} (h : id < g.size) : ∃ n, g.node? id = some n :=
  ⟨g.nodes[id], Array.getElem?_eq_getElem h⟩

theorem lt_size_of_node? {g : Graph} {id : NodeId} {n : FlowNode} (h : g.node? id = some n) :
    id < g.size :=
  (Array.getElem?_eq_some_iff.mp h).1

theorem mem_successors (g : Graph) (a b : NodeId) : b ∈ g.successors a ↔ ⟨a, b⟩ ∈ g.edges := by
  simp only [successors, List.mem_map, List.mem_filter, decide_eq_true_eq]
  constructor
  · rintro ⟨e, ⟨he, rfl⟩, rfl⟩
    exact he
  · intro h
    exact ⟨⟨a, b⟩, ⟨h, rfl⟩, rfl⟩

theorem mem_scopes_of_scope? {g : Graph} {name : String} {s : Scope} (h : g.scope? name = some s) :
    s ∈ g.scopes :=
  List.mem_of_find?_eq_some h

theorem name_of_scope? {g : Graph} {name : String} {s : Scope} (h : g.scope? name = some s) :
    s.name = name := by
  simpa using List.find?_some h

end Graph

end YulTaint
