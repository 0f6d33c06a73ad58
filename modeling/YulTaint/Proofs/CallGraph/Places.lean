import Mathlib.Tactic
import YulTaint.Proofs.CallGraph.Inlining

/-!
The edges of a resolved graph, place by place. Wherever a way of calls leads,
the edges of the scope at its end stand there among the copies, and a call from
there is wired to the place one call further on. Memory words stand for
themselves at every place.
-/

namespace YulTaint

namespace Graph

/-- One call more at the end. -/
theorem CallPath.snoc {g : Graph} {name last : String} {path : List SiteRef}
    {chain : List String} (h : g.CallPath name path chain last) {i : Nat} {site : CallSite}
    (hsite : g.site? ⟨last, i⟩ = some site) :
    g.CallPath name (path ++ [⟨last, i⟩]) (chain ++ [site.callee]) site.callee := by
  induction h with
  | here name => exact .call hsite (.here site.callee)
  | call hfirst _ ih => exact .call hfirst (ih hsite)

end Graph

namespace Resolver

theorem place_append (r : Resolver) (path path' : List SiteRef) (id : NodeId) :
    r.place (path ++ path') id = r.place path (r.place path' id) := by
  induction path with
  | nil => rfl
  | cons ref rest ih => exact congrArg (image (r.copiesAt ref)) ih

section Places

variable {g : Graph} {k : Int} {r : Resolver} {name last : String} {path : List SiteRef}
  {chain : List String} {s₀ s f : Scope}

theorem Inlined.scope (h : Inlined g k r) (hs : g.scope? name = some s₀) :
    ∃ s, r.graph.scope? name = some s :=
  Graph.mem_scopeNames.mp (h.resolving.scopeNames ▸ Graph.mem_scopeNames.mpr ⟨s₀, hs⟩)

/-- Memory words stand in one place on all ways of calls. -/
theorem Inlined.place_shared (h : Inlined g k r) (hpath : g.CallPath name path chain last)
    {id : NodeId} (hid : g.IsShared id) : r.place path id = id := by
  induction hpath with
  | here name => rfl
  | call hsite _ ih =>
    obtain ⟨n, hn, hnone⟩ := hid
    obtain ⟨_, _, _, f, hinlines⟩ := h.exists_embedding hsite
    rw [place, ih]
    exact (h.copiesAt_spec hsite hinlines.callee).2 id ⟨n, h.inlining.old id n hn, hnone⟩

/-- The edges of a scope stand at each of its places. -/
theorem Inlined.edge_place (h : Inlined g k r) (hpath : g.CallPath name path chain last)
    (hs : r.graph.scope? name = some s) (hf : r.graph.scope? last = some f) {x : Edge}
    (hx : x ∈ f.edges) : x.map (r.place path) ∈ s.edges := by
  induction hpath generalizing s with
  | here name =>
    cases hs.symm.trans hf
    exact hx
  | @call ref site rest _ _ hsite hrest ih =>
    obtain ⟨s₀, hs₀, hindex⟩ := Option.bind_eq_some_iff.mp hsite
    obtain ⟨_, _, _, f', hinlines⟩ := h.exists_embedding hsite
    have hinner := ih hinlines.callee hf
    refine (h.mem_edges hs₀ hs _).mpr (Or.inr ⟨ref.index, site, f', hindex, hinlines.callee,
      Or.inl (List.mem_map.mpr ⟨_, hinner, rfl⟩)⟩)

/-- The wires of a call at a place: its block and arguments lead into the place
one call further on, whose return variables lead back. -/
structure Wired (edges : List Edge) (site : CallSite) (f : Scope) (outer inner : NodeId → NodeId) :
    Prop where
  block : ⟨outer site.block, inner f.root⟩ ∈ edges
  arguments : ∀ arg param, (arg, param) ∈ site.arguments.zip f.params →
    ⟨outer arg, inner param⟩ ∈ edges
  results : ∀ ret result, (ret, result) ∈ f.returns.zip site.results →
    ⟨inner ret, outer result⟩ ∈ edges

/-- A call at the end of a way is wired to the end of the longer way. -/
theorem Inlined.wired (h : Inlined g k r) (hpath : g.CallPath name path chain last)
    (hs : r.graph.scope? name = some s) {i : Nat} {site : CallSite}
    (hsite : g.site? ⟨last, i⟩ = some site) (hf : r.graph.scope? site.callee = some f) :
    Wired s.edges site f (r.place path) (r.place (path ++ [⟨last, i⟩])) := by
  obtain ⟨s₀, hs₀, hindex⟩ := Option.bind_eq_some_iff.mp hsite
  obtain ⟨c, hc⟩ := h.scope hs₀
  have hwire (x : Edge) (hx : x ∈ wireEdges (r.copiesAt ⟨last, i⟩) site f) :
      x.map (r.place path) ∈ s.edges :=
    h.edge_place hpath hs hc
      ((h.mem_edges hs₀ hc x).mpr (Or.inr ⟨i, site, f, hindex, hf, Or.inr hx⟩))
  have hinner (id : NodeId) : r.place (path ++ [⟨last, i⟩]) id =
      r.place path (image (r.copiesAt ⟨last, i⟩) id) := place_append r path _ id
  simp only [wireEdges, List.mem_append, List.mem_map, List.mem_singleton] at hwire
  refine ⟨?_, ?_, ?_⟩
  · rw [hinner]
    exact hwire _ (Or.inr rfl)
  · intro arg param hmem
    rw [hinner]
    exact hwire _ (Or.inl (Or.inl ⟨(arg, param), hmem, rfl⟩))
  · intro ret result hmem
    rw [hinner]
    exact hwire _ (Or.inl (Or.inr ⟨(ret, result), hmem, rfl⟩))

end Places

end Resolver

end YulTaint
