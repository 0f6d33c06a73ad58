import Mathlib.Tactic
import YulTaint.Proofs.Taint.Addresses

/-!
Taint paths. Parents are followed back from a node as long as there is one;
since a node is reached only from nodes reached before it, this ends, and it
ends at a source. The path found is a shortest one. For this nodes are seen to
be reached in the order of their distance: while the successors of a node are
looked at, no node reached is more than one step further than it, and none in
the queue is nearer.
-/

namespace YulTaint.Taint

open Relation (ReflTransGen)

/-- To follow parents from a node as long as there is one: the nodes passed, the
first of them last. -/
inductive Trail (parents : List (NodeId × NodeId)) : NodeId → List NodeId → Prop where
  | stop {id : NodeId} : parents.lookup id = none → Trail parents id [id]
  | step {id parent : NodeId} {nodes : List NodeId} :
      parents.lookup id = some parent → Trail parents parent nodes → Trail parents id (nodes ++ [id])

section Trail

variable {parents : List (NodeId × NodeId)} {id child parent : NodeId} {nodes nodes' : List NodeId}

/-- Parents lead back in one way only. -/
theorem Trail.unique (h : Trail parents id nodes) (h' : Trail parents id nodes') :
    nodes = nodes' := by
  induction h generalizing nodes' with
  | stop hnone =>
    cases h' with
    | stop _ => rfl
    | step hsome _ =>
      rw [hnone] at hsome
      cases hsome
  | step hsome _ ih =>
    cases h' with
    | stop hnone =>
      rw [hnone] at hsome
      cases hsome
    | step hsome' hrest' =>
      obtain rfl := Option.some.inj (hsome.symm.trans hsome')
      rw [ih hrest']

/-- A parent for another node changes nothing. -/
theorem Trail.cons (h : Trail parents id nodes) (hnew : child ∉ nodes) :
    Trail ((child, parent) :: parents) id nodes := by
  induction h with
  | stop hnone =>
    have hne := fun heq => hnew (List.mem_singleton.mpr heq)
    exact .stop ((lookup_cons_of_ne (Ne.symm hne)).trans hnone)
  | @step id _ nodes hsome _ ih =>
    have hne : id ≠ child := by
      rintro rfl
      simp at hnew
    refine .step ((lookup_cons_of_ne hne).trans hsome) (ih ?_)
    exact fun hmem => hnew (List.mem_append_left _ hmem)

theorem walkBack_cons_self :
    walkBack child ((child, parent) :: parents) = walkBack parent parents ++ [child] := by
  simp [walkBack]

theorem walkBack_cons_of_ne (h : id ≠ child) :
    walkBack id ((child, parent) :: parents) = walkBack id parents := by
  simp [walkBack, Ne.symm h]

theorem walkBack_of_not_mem (h : id ∉ parents.map (·.1)) : walkBack id parents = [id] := by
  induction parents with
  | nil => rfl
  | cons entry earlier ih =>
    obtain ⟨hne, hearlier⟩ := not_or.mp (List.mem_cons.not.mp h)
    rw [walkBack_cons_of_ne hne]
    exact ih hearlier

end Trail

def Front.depth (f : Front) (id : NodeId) : Nat :=
  (walkBack id f.parents).length

section Enter

variable {g : Graph} {sources done rest : List NodeId} {f f' : Front} {parent id x : NodeId}

theorem depth_enter_self : (f.enter parent id).depth id = f.depth parent + 1 := by
  rw [Front.depth, Front.enter, walkBack_cons_self, List.length_append]
  rfl

theorem depth_enter_of_ne (h : x ≠ id) : (f.enter parent id).depth x = f.depth x := by
  rw [Front.depth, Front.enter, walkBack_cons_of_ne h, Front.depth]

/-- Parents lead from every node reached back to a source, along edges and over
nodes reached. -/
structure Front.Traced (g : Graph) (sources : List NodeId) (f : Front) : Prop where
  starts : ∀ id ∈ sources, id ∈ f.reached
  keys : ∀ id, id ∈ f.parents.map (·.1) ↔ id ∈ f.reached ∧ id ∉ sources
  trails : ∀ id ∈ f.reached, Trail f.parents id (walkBack id f.parents)
  paths : ∀ id ∈ f.reached, Path g sources (walkBack id f.parents) id
  nodup : ∀ id ∈ f.reached, (walkBack id f.parents).Nodup
  inside : ∀ id ∈ f.reached, ∀ x ∈ walkBack id f.parents, x ∈ f.reached

theorem Front.Traced.depth_source (h : f.Traced g sources) (hid : id ∈ sources) :
    f.depth id = 1 := by
  have hnot : id ∉ f.parents.map (·.1) := fun hmem => ((h.keys id).mp hmem).2 hid
  rw [Front.depth, walkBack_of_not_mem hnot, List.length_singleton]

/-- The path to a new node is the path to its parent and the node. -/
theorem Front.Traced.enter (h : f.Traced g sources) (hparent : parent ∈ f.reached)
    (hedge : (⟨parent, id⟩ : Edge) ∈ g.edges) (hcan : CanTaint g id) (hnew : id ∉ f.reached) :
    (f.enter parent id).Traced g sources := by
  have hold (x : NodeId) (hx : x ∈ f.reached) :
      walkBack x (f.enter parent id).parents = walkBack x f.parents :=
    walkBack_cons_of_ne fun heq => hnew (heq ▸ hx)
  have hself : walkBack id (f.enter parent id).parents = walkBack parent f.parents ++ [id] :=
    walkBack_cons_self
  have hfresh (x : NodeId) (hx : x ∈ f.reached) : id ∉ walkBack x f.parents :=
    fun hmem => hnew (h.inside x hx id hmem)
  -- each claim is made for the nodes reached before and for the new one
  have hcases {P : NodeId → Prop} (hbefore : ∀ x ∈ f.reached, P x) (hid : P id) :
      ∀ x ∈ (f.enter parent id).reached, P x := by
    intro x hx
    rcases List.mem_append.mp hx with hx | hx
    · exact hbefore x hx
    · rw [List.mem_singleton.mp hx]
      exact hid
  refine ⟨fun x hx => List.mem_append_left _ (h.starts x hx), ?_, ?_, ?_, ?_, ?_⟩
  · intro x
    have hsource : id ∉ sources := fun hmem => hnew (h.starts id hmem)
    have hkeys := h.keys x
    simp only [Front.enter, List.map_cons, List.mem_cons, List.mem_append, List.not_mem_nil,
      or_false, hkeys]
    constructor
    · rintro (rfl | ⟨hx, hnot⟩)
      · exact ⟨Or.inr rfl, hsource⟩
      · exact ⟨Or.inl hx, hnot⟩
    · rintro ⟨hx | hx, hnot⟩
      · exact Or.inr ⟨hx, hnot⟩
      · exact Or.inl hx
  · refine hcases (fun x hx => ?_) ?_
    · rw [hold x hx]
      exact (h.trails x hx).cons (hfresh x hx)
    · rw [hself]
      refine .step ?_ ((h.trails parent hparent).cons (hfresh parent hparent))
      simp [Front.enter]
  · refine hcases (fun x hx => ?_) ?_
    · rw [hold x hx]
      exact h.paths x hx
    · rw [hself]
      exact (h.paths parent hparent).snoc hedge hcan
  · refine hcases (fun x hx => ?_) ?_
    · rw [hold x hx]
      exact h.nodup x hx
    · rw [hself]
      exact List.nodup_append.mpr ⟨h.nodup parent hparent, List.nodup_singleton _,
        fun x hx y hy heq => hfresh parent hparent (List.mem_singleton.mp hy ▸ heq ▸ hx)⟩
  · refine hcases (fun x hx => ?_) ?_
    · rw [hold x hx]
      exact fun y hy => List.mem_append_left _ (h.inside x hx y hy)
    · rw [hself]
      intro y hy
      rcases List.mem_append.mp hy with hy | hy
      · exact List.mem_append_left _ (h.inside parent hparent y hy)
      · exact List.mem_append_right _ hy

/-- Nodes are reached in the order of their depth, and the edges of those looked
at lead at most one step further. -/
structure Front.Layered (g : Graph) (sources done : List NodeId) (f : Front) : Prop
    extends f.Traced g sources where
  sorted : f.reached.Pairwise fun a b => f.depth a ≤ f.depth b
  past : ∀ a ∈ done, a ∈ f.reached
  closed : ∀ a ∈ done, ∀ b, (⟨a, b⟩ : Edge) ∈ g.edges → CanTaint g b →
    b ∈ f.reached ∧ f.depth b ≤ f.depth a + 1

/-- While the successors of a node are looked at, what is reached is at most one
step further than the node, and what is queued no nearer. -/
structure Front.Looking (g : Graph) (sources done : List NodeId) (parent : NodeId) (f : Front) :
    Prop extends f.Layered g sources done where
  present : parent ∈ f.reached
  upper : ∀ x ∈ f.reached, f.depth x ≤ f.depth parent + 1
  lower : ∀ x ∈ f.queue, x ∈ f.reached ∧ f.depth parent ≤ f.depth x

/-- To reach a node keeps the invariant of a look at successors. -/
theorem Front.Looking.enter (h : f.Looking g sources done parent)
    (hedge : (⟨parent, id⟩ : Edge) ∈ g.edges) (hcan : CanTaint g id) (hnew : id ∉ f.reached) :
    (f.enter parent id).Looking g sources done parent := by
  have hold (x : NodeId) (hx : x ∈ f.reached) : (f.enter parent id).depth x = f.depth x :=
    depth_enter_of_ne fun heq => hnew (heq ▸ hx)
  have hself : (f.enter parent id).depth id = f.depth parent + 1 := depth_enter_self
  have hparent := hold parent h.present
  refine ⟨⟨h.toTraced.enter h.present hedge hcan hnew, ?_, ?_, ?_⟩, ?_, ?_, ?_⟩
  · refine List.pairwise_append.mpr ⟨?_, List.pairwise_singleton _ _, ?_⟩
    · refine h.sorted.imp_of_mem fun {a b} ha hb hle => ?_
      rw [hold a ha, hold b hb]
      exact hle
    · intro x hx y hy
      rw [List.mem_singleton.mp hy, hold x hx, hself]
      exact h.upper x hx
  · exact fun a ha => List.mem_append_left _ (h.past a ha)
  · intro a ha b hab hb
    obtain ⟨hmem, hle⟩ := h.closed a ha b hab hb
    rw [hold a (h.past a ha), hold b hmem]
    exact ⟨List.mem_append_left _ hmem, hle⟩
  · exact List.mem_append_left _ h.present
  · intro x hx
    rcases List.mem_append.mp hx with hx | hx
    · rw [hold x hx, hparent]
      exact h.upper x hx
    · rw [List.mem_singleton.mp hx, hself, hparent]
  · intro x hx
    rcases List.mem_append.mp hx with hx | hx
    · obtain ⟨hmem, hle⟩ := h.lower x hx
      rw [hold x hmem, hparent]
      exact ⟨List.mem_append_left _ hmem, hle⟩
    · rw [List.mem_singleton.mp hx, hself, hparent]
      exact ⟨List.mem_append_right _ (List.mem_singleton.mpr rfl), Nat.le_succ _⟩

theorem Front.Looking.run (h : f.Looking g sources done parent)
    (hrun : ReflTransGen (Enters g parent) f f') : f'.Looking g sources done parent := by
  induction hrun with
  | refl => exact h
  | tail _ hstep ih =>
    obtain ⟨id, hedge, hcan, hnew, rfl⟩ := hstep
    exact ih.enter hedge hcan hnew

/-- The invariant between rounds: what is reached is what has been looked at,
followed by the queue, and none of it is more than one step further than what
is queued. -/
structure Front.Breadth (g : Graph) (sources done : List NodeId) (f : Front) : Prop
    extends f.Layered g sources done where
  split : f.reached = done ++ f.queue
  distinct : f.reached.Nodup
  near : ∀ a ∈ f.queue, ∀ x ∈ f.reached, f.depth x ≤ f.depth a + 1

/-- The next round looks at the first node in the queue. -/
theorem Front.Breadth.looking (h : f.Breadth g sources done) (hqueue : f.queue = id :: rest) :
    Front.Looking g sources done id { f with queue := rest } := by
  have hsplit : f.reached = done ++ id :: rest := by rw [h.split, hqueue]
  have hsorted := h.sorted
  rw [hsplit] at hsorted
  have hnext := (List.pairwise_cons.mp (List.pairwise_append.mp hsorted).2.1).1
  refine ⟨⟨⟨h.starts, h.keys, h.trails, h.paths, h.nodup, h.inside⟩, h.sorted, h.past, h.closed⟩,
    ?_, ?_, ?_⟩
  · rw [hsplit]
    simp
  · exact h.near id (by rw [hqueue]; exact List.mem_cons_self)
  · intro x hx
    refine ⟨?_, hnext x hx⟩
    rw [hsplit]
    simp [show x ∈ rest from hx]

/-- A round keeps the order by depth. -/
theorem Front.Breadth.step (hg : g.WellFormed) (h : f.Breadth g sources done)
    (hqueue : f.queue = id :: rest)
    (hrun : reachAll g id { f with queue := rest } (g.successors id) = .ok f') :
    f'.Breadth g sources (done ++ [id]) := by
  have hlooking := (h.looking hqueue).run
    (reachAll_enters (fun b hb => (g.mem_successors id b).mp hb) hrun)
  have hin : ∀ b ∈ g.successors id, b < g.size := fun b hb =>
    (hg.edges _ ((g.mem_successors id b).mp hb)).2
  obtain ⟨f₁, added, hrun₁, hadded, hreached, hdistinct, _, hall⟩ :=
    reachAll_spec id (g.successors id) { f with queue := rest } hin h.distinct
  cases hrun.symm.trans hrun₁
  refine ⟨⟨hlooking.toTraced, hlooking.sorted, ?_, ?_⟩, ?_, hdistinct, ?_⟩
  · intro a ha
    rcases List.mem_append.mp ha with ha | ha
    · exact hlooking.past a ha
    · rw [List.mem_singleton.mp ha]
      exact hlooking.present
  · intro a ha b hab hcan
    rcases List.mem_append.mp ha with ha | ha
    · exact hlooking.closed a ha b hab hcan
    · rw [List.mem_singleton.mp ha] at hab ⊢
      have hmem := hall b ((g.mem_successors id b).mpr hab) hcan
      exact ⟨hmem, hlooking.upper b hmem⟩
  · change f'.reached = f.reached ++ added at hreached
    change f'.queue = rest ++ added at hadded
    rw [hreached, hadded, h.split, hqueue]
    simp
  · intro a ha x hx
    have hupper := hlooking.upper x hx
    have hlower := (hlooking.lower a ha).2
    omega

theorem Front.Breadth.spread (hg : g.WellFormed) (bound : Nat) (h : f.Breadth g sources done)
    (hrun : spread g bound f = .ok f') : ∃ done', f'.Breadth g sources done' := by
  refine spread_keeps (P := fun f => ∃ done, f.Breadth g sources done) ?_ hrun ⟨done, h⟩
  rintro f₁ f₂ id rest ⟨done₁, h₁⟩ hqueue hreach
  exact ⟨_, h₁.step hg hqueue hreach⟩

theorem breadth_start (hnodup : sources.Nodup) (hcan : ∀ id ∈ sources, CanTaint g id) :
    Front.Breadth g sources [] { queue := sources, reached := sources } := by
  refine ⟨⟨⟨fun _ hid => hid, ?_, ?_, ?_, ?_, ?_⟩, ?_, by simp, by simp⟩, rfl, hnodup, ?_⟩
  · intro id
    simp
  · exact fun id _ => .stop rfl
  · exact fun id hid => path_singleton hid (hcan id hid)
  · exact fun id _ => List.nodup_singleton id
  · intro id hid x hx
    rw [List.mem_singleton.mp hx]
    exact hid
  · exact List.pairwise_of_forall fun _ _ => le_rfl
  · exact fun _ _ _ _ => Nat.le_succ _

/-- Once all that is reached has been looked at, no path is shorter than depth
tells. -/
theorem Front.Layered.depth_le (h : f.Layered g sources f.reached) {nodes : List NodeId}
    (hpath : Path g sources nodes id) : id ∈ f.reached ∧ f.depth id ≤ nodes.length := by
  induction hlength : nodes.length generalizing nodes id with
  | zero =>
    rw [List.length_eq_zero_iff.mp hlength] at hpath
    simpa using hpath.ends
  | succ length ih =>
    rcases hpath.cases_last with ⟨_, hsource⟩ | ⟨init, a, rfl, hinit, hedge⟩
    · refine ⟨h.starts id hsource, ?_⟩
      rw [h.toTraced.depth_source hsource]
      omega
    · obtain ⟨ha, hdepth⟩ := ih hinit (by simpa using hlength)
      have hcan : CanTaint g id := hpath.enters id (by simp)
      obtain ⟨hmem, hle⟩ := h.closed a ha id hedge hcan
      exact ⟨hmem, by omega⟩

end Enter

structure Traces (g : Graph) (t : Taint) : Prop where
  parents : ∀ id, id ∈ t.parents.map (·.1) ↔ id ∈ t.tainted ∧ id ∉ t.sources
  trails : ∀ id ∈ t.tainted, Trail t.parents id (walkBack id t.parents)
  paths : ∀ id ∈ t.tainted, Path g t.sources (walkBack id t.parents) id
  nodup : ∀ id ∈ t.tainted, (walkBack id t.parents).Nodup
  shortest : ∀ id nodes, Path g t.sources nodes id → (walkBack id t.parents).length ≤ nodes.length

/-- The parents of a taint trace shortest paths. -/
theorem ofSources_traces {g : Graph} (hg : g.WellFormed) {ids : List NodeId} (hnodup : ids.Nodup)
    (hin : ∀ id ∈ ids, id < g.size) {t : Taint} (h : ofSources g ids = .ok t) : Traces g t := by
  obtain ⟨f, hspread, rfl⟩ := ofSources_eq_ok hin h
  have hcan : ∀ id ∈ ids.filter (isTaintable g), CanTaint g id := fun id hid =>
    (isTaintable_iff g id).mp (List.mem_filter.mp hid).2
  obtain ⟨done, hbreadth⟩ := (breadth_start (hnodup.filter _) hcan).spread hg _ hspread
  -- the queue is empty at the end, so all that is reached has been looked at
  have hend : f.Invariant g ids f.reached := by
    obtain ⟨f', hspread', hinv⟩ :=
      spread_spec hg ids g.size [] _ (Front.invariant_start hnodup) (by simp)
    cases hspread.symm.trans hspread'
    exact hinv
  have hempty : f.queue = [] := by
    have hsplit := hend.split
    simpa using hsplit
  have hdone : done = f.reached := by
    rw [hbreadth.split, hempty, List.append_nil]
  subst hdone
  exact ⟨hbreadth.keys, hbreadth.trails, hbreadth.paths, hbreadth.nodup,
    fun id nodes hpath => (hbreadth.toLayered.depth_le hpath).2⟩

theorem path_clear {g : Graph} {ids nodes : List NodeId} {last : NodeId} :
    Path (clear g) ids nodes last ↔ Path g ids nodes last := by
  constructor
  · rintro ⟨hstart, hedges, henters, hends⟩
    exact ⟨hstart, hedges, fun id hid => (canTaint_clear g id).mp (henters id hid), hends⟩
  · rintro ⟨hstart, hedges, henters, hends⟩
    exact ⟨hstart, hedges, fun id hid => (canTaint_clear g id).mpr (henters id hid), hends⟩

theorem propagate_traces {g g' : Graph} (hg : g.WellFormed) {c : TaintConfig} {t : Taint}
    (h : propagate c g = .ok t g') : Traces g t := by
  obtain ⟨ids, hids, hof⟩ := propagate_eq_ok h
  obtain ⟨hnodup, hin⟩ := initialSources_lt hg hids
  have htraces := ofSources_traces (wellFormed_clear hg) hnodup (by simpa using hin) hof
  exact ⟨htraces.parents, htraces.trails, fun id hid => path_clear.mp (htraces.paths id hid),
    htraces.nodup, fun id nodes hpath => htraces.shortest id nodes (path_clear.mpr hpath)⟩

theorem pathTo_of_tainted {t : Taint} {id : NodeId} (h : id ∈ t.tainted) :
    t.pathTo id = walkBack id t.parents := by
  rw [pathTo, if_pos (List.contains_iff_mem.mpr h)]

theorem pathTo_of_not_tainted {t : Taint} {id : NodeId} (h : id ∉ t.tainted) :
    t.pathTo id = [] := by
  rw [pathTo, if_neg (fun hmem => h (List.contains_iff_mem.mp hmem))]

/-- After a propagation the tainted nodes that are no sources have a parent, and
no others have. The path to a node is empty if and only if the node is not
tainted. For a tainted node, to follow parents comes to an end, and the path is
what it passes: from a source to the node, along edges, through nodes that can be
tainted, none of them twice; and no such path from a source to the node has fewer
nodes. -/
theorem pathTo_shortest {g g' : Graph} (hg : g.WellFormed) {c : TaintConfig} {t : Taint}
    (h : propagate c g = .ok t g') :
    (∀ id, (t.parents.lookup id).isSome ↔ id ∈ t.tainted ∧ id ∉ t.sources) ∧
      ∀ id, (t.pathTo id = [] ↔ id ∉ t.tainted) ∧
        (id ∈ t.tainted →
          (∀ nodes, Trail t.parents id nodes ↔ nodes = t.pathTo id) ∧
          Path g t.sources (t.pathTo id) id ∧ (t.pathTo id).Nodup ∧
          ∀ nodes, Path g t.sources nodes id → (t.pathTo id).length ≤ nodes.length) := by
  have htraces := propagate_traces hg h
  refine ⟨fun id => ?_, fun id => ⟨⟨?_, pathTo_of_not_tainted⟩, fun hid => ?_⟩⟩
  · rw [← htraces.parents id]
    constructor
    · intro hsome
      by_contra hnone
      rw [lookup_eq_none_of_not_mem hnone] at hsome
      cases hsome
    · intro hmem
      obtain ⟨parent, hparent⟩ := exists_lookup hmem
      rw [hparent]
      rfl
  · intro hempty hid
    have hends := (htraces.paths id hid).ends
    rw [← pathTo_of_tainted hid, hempty] at hends
    cases hends
  · rw [pathTo_of_tainted hid]
    refine ⟨fun nodes => ⟨fun htrail => htrail.unique (htraces.trails id hid), ?_⟩,
      htraces.paths id hid, htraces.nodup id hid, htraces.shortest id⟩
    rintro rfl
    exact htraces.trails id hid

/-- Two parameters: from the first a cycle leads to the last node, and shorter
ways through an untaintable address and from the second parameter. -/
def detourGraph : Graph :=
  { nodes := #[
      { kind := .var, name := "a", scope := some "f" },
      { kind := .var, name := "b", scope := some "f" },
      { kind := .var, name := "c", scope := some "f" },
      { kind := .var, name := "d", scope := some "f" },
      { kind := .var, name := "e", scope := some "f", isUntaintable := true },
      { kind := .var, name := "p", scope := some "f" }]
    edges := [⟨0, 1⟩, ⟨0, 4⟩, ⟨1, 2⟩, ⟨2, 3⟩, ⟨3, 0⟩, ⟨4, 3⟩, ⟨5, 2⟩]
    scopes := [{ name := "f", root := 0, params := [0, 5], nodes := [0, 1, 2, 3, 4, 5] }] }

theorem wellFormed_detourGraph : detourGraph.WellFormed where
  edges := by simp [detourGraph, Edge.Within, Graph.size]
  scopes := by
    intro s hs
    obtain rfl := List.mem_singleton.mp hs
    constructor <;> simp [detourGraph, Graph.size]
  globals := by simp [detourGraph]

def detourTaint : Taint :=
  { tainted := [0, 5, 1, 2, 3]
    sources := [0, 5]
    parents := [(3, 2), (2, 5), (1, 0)] }

theorem propagate_detourGraph :
    propagate {} detourGraph = .ok detourTaint (marked detourGraph detourTaint.tainted) := by
  have hids : initialSources {} detourGraph = .ok [0, 5] := rfl
  have hof : ofSources (clear detourGraph) [0, 5] = .ok detourTaint := by decide +kernel
  obtain ⟨t, hrun, _⟩ := propagate_spec wellFormed_detourGraph {} hids
  obtain ⟨ids, hids', hof'⟩ := propagate_eq_ok hrun
  obtain rfl := Except.ok.inj (hids.symm.trans hids')
  obtain rfl := Except.ok.inj (hof.symm.trans hof')
  exact hrun

theorem pathTo_shortest_detourGraph :
    propagate {} detourGraph = .ok detourTaint (marked detourGraph detourTaint.tainted) ∧
      detourTaint.pathTo 3 = [5, 2, 3] ∧ detourTaint.pathTo 4 = [] ∧
      Path detourGraph detourTaint.sources [0, 1, 2, 3] 3 ∧
      (∀ nodes, Trail detourTaint.parents 3 nodes ↔ nodes = [5, 2, 3]) ∧
      ∀ nodes, Path detourGraph detourTaint.sources nodes 3 → 3 ≤ nodes.length := by
  obtain ⟨_, hpaths⟩ := pathTo_shortest wellFormed_detourGraph propagate_detourGraph
  obtain ⟨htrail, _, _, hshortest⟩ := (hpaths 3).2 (by decide)
  refine ⟨propagate_detourGraph, rfl, rfl, ⟨⟨0, by decide, rfl⟩, ?_, ?_, rfl⟩, htrail, hshortest⟩
  · simp [detourGraph]
  · intro id hid
    rw [← isTaintable_iff]
    revert id
    decide

end YulTaint.Taint
