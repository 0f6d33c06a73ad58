import Mathlib.Order.Bounds.Basic
import Mathlib.Tactic
import YulTaint.Proofs.Graph.WellFormed
import YulTaint.Proofs.Lists
import YulTaint.Proofs.Order
import YulTaint.Taint.Spread

/-!
The tainted set is a reachability closure. On any well-formed graph the spread
ends with its queue empty, and the nodes reached are exactly those at the end
of a path that starts at a source and enters no untaintable node. The marks
afterwards tell the tainted nodes and nothing else of the graph changes.

The bound on the rounds is not an assumption: the nodes already looked at are
distinct ids of the arena, so there are at most as many as the arena has.
-/

namespace YulTaint.Taint

open Relation (ReflTransGen)

variable {g : Graph} {ids rest nodes : List NodeId} {id a b parent : NodeId} {c : TaintConfig}
  {n : FlowNode} {f : Front}

def CanTaint (g : Graph) (id : NodeId) : Prop :=
  ∃ n, g.node? id = some n ∧ n.isUntaintable = false

theorem CanTaint.of_eq {g' : Graph} {n' : FlowNode} (h : CanTaint g a) (hn : g.node? a = some n)
    (hn' : g'.node? b = some n') (hsame : n'.isUntaintable = n.isUntaintable) : CanTaint g' b := by
  obtain ⟨m, hm, hfalse⟩ := h
  cases hn.symm.trans hm
  exact ⟨n', hn', hsame.trans hfalse⟩

/-- A way along which taint spreads: it starts at one of the given nodes,
follows edges and never enters an untaintable node. -/
structure Path (g : Graph) (ids : List NodeId) (nodes : List NodeId) (last : NodeId) : Prop where
  start : ∃ first ∈ ids, nodes.head? = some first
  edges : nodes.IsChain fun a b => (⟨a, b⟩ : Edge) ∈ g.edges
  enters : ∀ id ∈ nodes, CanTaint g id
  ends : nodes.getLast? = some last

/-- A set of nodes with all sources that can be tainted which taint does not
leave. -/
structure Closed (g : Graph) (ids : List NodeId) (T : Set NodeId) : Prop where
  sources : ∀ id ∈ ids, CanTaint g id → id ∈ T
  edges : ∀ a ∈ T, ∀ b, (⟨a, b⟩ : Edge) ∈ g.edges → CanTaint g b → b ∈ T

/-- What taint reaches from given nodes, one edge at a time. -/
inductive Reaches (g : Graph) (ids : List NodeId) : NodeId → Prop where
  | source {id : NodeId} : id ∈ ids → CanTaint g id → Reaches g ids id
  | edge {a b : NodeId} :
      Reaches g ids a → (⟨a, b⟩ : Edge) ∈ g.edges → CanTaint g b → Reaches g ids b

theorem Reaches.canTaint (h : Reaches g ids id) :
    CanTaint g id := by
  cases h with
  | source _ hcan => exact hcan
  | edge _ _ hcan => exact hcan

theorem Reaches.mono {ids' : List NodeId} (h : ids ⊆ ids') (hid : Reaches g ids id) :
    Reaches g ids' id := by
  induction hid with
  | source hmem hcan => exact .source (h hmem) hcan
  | edge _ hedge hcan ih => exact .edge ih hedge hcan

theorem closed_reaches (g : Graph) (ids : List NodeId) : Closed g ids {id | Reaches g ids id} where
  sources _ hid hcan := .source hid hcan
  edges _ ha _ hedge hcan := .edge ha hedge hcan

theorem Closed.reaches {T : Set NodeId} (hT : Closed g ids T) (h : Reaches g ids id) : id ∈ T := by
  induction h with
  | source hid hcan => exact hT.sources _ hid hcan
  | edge _ hedge hcan ih => exact hT.edges _ ih _ hedge hcan

theorem isLeast_reaches (g : Graph) (ids : List NodeId) :
    IsLeast {T | Closed g ids T} {id | Reaches g ids id} :=
  ⟨closed_reaches g ids, fun _ hT _ h => hT.reaches h⟩

/-- A path goes on along an edge into a node that taint may enter. -/
theorem Path.snoc {g : Graph} {ids nodes : List NodeId} {a b : NodeId} (h : Path g ids nodes a)
    (hedge : (⟨a, b⟩ : Edge) ∈ g.edges) (hcan : CanTaint g b) : Path g ids (nodes ++ [b]) b := by
  obtain ⟨⟨first, hfirst, hhead⟩, hchain, henters, hlast⟩ := h
  refine ⟨⟨first, hfirst, by simp [hhead]⟩, ?_, ?_, by simp⟩
  · rw [List.isChain_append]
    refine ⟨hchain, .singleton _, ?_⟩
    intro x hx y hy
    rw [hlast] at hx
    obtain rfl : a = x := by simpa using hx
    obtain rfl : b = y := by simpa using hy
    exact hedge
  · intro x hx
    rcases List.mem_append.mp hx with hx | hx
    · exact henters x hx
    · rw [List.mem_singleton.mp hx]
      exact hcan

theorem path_singleton (hid : id ∈ ids) (hcan : CanTaint g id) : Path g ids [id] id :=
  ⟨⟨id, hid, rfl⟩, .singleton _, by simpa using hcan, rfl⟩

theorem Reaches.path (h : Reaches g ids id) :
    ∃ nodes, Path g ids nodes id := by
  induction h with
  | source hid hcan => exact ⟨_, path_singleton hid hcan⟩
  | edge _ hedge hcan ih =>
    obtain ⟨nodes, hpath⟩ := ih
    exact ⟨_, hpath.snoc hedge hcan⟩

/-- A path is one node, or goes on from the path before its last edge. -/
theorem Path.cases_last {last : NodeId} (h : Path g ids nodes last) :
    nodes = [last] ∧ last ∈ ids ∨
      ∃ init a, nodes = init ++ [last] ∧ Path g ids init a ∧ (⟨a, last⟩ : Edge) ∈ g.edges := by
  rcases List.eq_nil_or_concat' nodes with rfl | ⟨init, b, rfl⟩
  · simpa using h.ends
  · obtain rfl : b = last := by simpa using h.ends
    obtain ⟨first, hfirst, hhead⟩ := h.start
    rcases List.eq_nil_or_concat' init with rfl | ⟨rest, a, rfl⟩
    · obtain rfl : b = first := by simpa using hhead
      exact Or.inl ⟨rfl, hfirst⟩
    · obtain ⟨hchain, _, hjoin⟩ := List.isChain_append.mp h.edges
      refine Or.inr ⟨rest ++ [a], a, rfl, ⟨⟨first, hfirst, ?_⟩, hchain, ?_, by simp⟩,
        hjoin a (by simp) b (by simp)⟩
      · cases rest <;> simpa using hhead
      · exact fun id hid => h.enters id (List.mem_append_left _ hid)

theorem Path.reaches {last : NodeId} (h : Path g ids nodes last) : Reaches g ids last := by
  -- Induction from the end of the path, so that the last edge comes off first.
  induction hlength : nodes.length generalizing nodes last with
  | zero =>
    rw [List.length_eq_zero_iff.mp hlength] at h
    simpa using h.ends
  | succ length ih =>
    have hcan : CanTaint g last := h.enters last (List.mem_of_getLast? h.ends)
    rcases h.cases_last with ⟨_, hsource⟩ | ⟨init, a, rfl, hinit, hedge⟩
    · exact .source hsource hcan
    · exact .edge (ih hinit (by simpa using hlength)) hedge hcan

theorem reaches_iff_path (g : Graph) (ids : List NodeId) (id : NodeId) :
    Reaches g ids id ↔ ∃ nodes, Path g ids nodes id :=
  ⟨Reaches.path, fun ⟨_, h⟩ => h.reaches⟩

def Front.enter (f : Front) (parent id : NodeId) : Front :=
  { queue := f.queue ++ [id], reached := f.reached ++ [id], parents := (id, parent) :: f.parents }

/-- A new node is reached from a node along an edge. -/
def Enters (g : Graph) (parent : NodeId) (f f' : Front) : Prop :=
  ∃ id, (⟨parent, id⟩ : Edge) ∈ g.edges ∧ CanTaint g id ∧ id ∉ f.reached ∧ f' = f.enter parent id

theorem isUntaintable?_eq (h : g.node? id = some n) :
    isUntaintable? g id = .ok n.isUntaintable := by
  simp [isUntaintable?, h]

theorem reachAll_seen (hseen : id ∈ f.reached) :
    reachAll g parent f (id :: rest) = reachAll g parent f rest := by
  simp [reachAll, hseen]

/-- A node that is reached already or cannot be tainted is passed over. -/
theorem reachAll_skip (hn : g.node? id = some n) (hskip : CanTaint g id → id ∈ f.reached) :
    reachAll g parent f (id :: rest) = reachAll g parent f rest := by
  by_cases hseen : id ∈ f.reached
  · exact reachAll_seen hseen
  · have huntaintable : n.isUntaintable = true :=
      Bool.eq_true_of_not_eq_false fun htaintable => hseen (hskip ⟨n, hn, htaintable⟩)
    simp only [reachAll, List.contains_iff_mem, hseen, isUntaintable?_eq hn, huntaintable]
    rfl

theorem reachAll_enter (hcan : CanTaint g id) (hnew : id ∉ f.reached) :
    reachAll g parent f (id :: rest) = reachAll g parent (f.enter parent id) rest := by
  obtain ⟨n, hn, htaintable⟩ := hcan
  simp only [reachAll, List.contains_iff_mem, hnew, isUntaintable?_eq hn, htaintable]
  rfl

/-- To look at successors is to enter new ones, one after the other. -/
theorem reachAll_enters {targets : List NodeId} {f' : Front}
    (htargets : ∀ id ∈ targets, (⟨parent, id⟩ : Edge) ∈ g.edges)
    (h : reachAll g parent f targets = .ok f') : ReflTransGen (Enters g parent) f f' := by
  induction targets generalizing f with
  | nil =>
    cases h
    exact .refl
  | cons id rest ih =>
    have hrest := fun x hx => htargets x (List.mem_cons_of_mem _ hx)
    by_cases hseen : id ∈ f.reached
    · rw [reachAll_seen hseen] at h
      exact ih hrest h
    · cases hn : g.node? id with
      | none => simp [reachAll, hseen, isUntaintable?, hn, bind, Except.bind] at h
      | some n =>
        by_cases hcan : CanTaint g id
        · rw [reachAll_enter hcan hseen] at h
          exact .head ⟨id, htargets id List.mem_cons_self, hcan, hseen, rfl⟩ (ih hrest h)
        · rw [reachAll_skip hn fun htrue => absurd htrue hcan] at h
          exact ih hrest h

/-- Looking at successors adds the same new nodes to the queue and to what is
reached: distinct ones that can be tainted, from among the successors, and all
of those. -/
theorem reachAll_spec (parent : NodeId) (targets : List NodeId) (f : Front)
    (hin : ∀ id ∈ targets, id < g.size) (hnodup : f.reached.Nodup) :
    ∃ f' added, reachAll g parent f targets = .ok f' ∧
      f'.queue = f.queue ++ added ∧ f'.reached = f.reached ++ added ∧ f'.reached.Nodup ∧
      (∀ id ∈ added, id ∈ targets ∧ CanTaint g id) ∧
      ∀ id ∈ targets, CanTaint g id → id ∈ f'.reached := by
  induction targets generalizing f with
  | nil => exact ⟨f, [], rfl, by simp, by simp, hnodup, by simp, by simp⟩
  | cons id rest ih =>
    have hrest : ∀ id ∈ rest, id < g.size := fun x hx => hin x (List.mem_cons_of_mem _ hx)
    by_cases hskip : CanTaint g id → id ∈ f.reached
    · obtain ⟨n, hn⟩ := Graph.node?_isSome (hin id List.mem_cons_self)
      obtain ⟨f', added, hrun, hqueue, hreached, hnd, hnew, hall⟩ := ih f hrest hnodup
      refine ⟨f', added, ?_, hqueue, hreached, hnd, ?_, ?_⟩
      · rw [reachAll_skip hn hskip, hrun]
      · exact fun x hx => ⟨List.mem_cons_of_mem _ (hnew x hx).1, (hnew x hx).2⟩
      · intro x hx hcan
        rcases List.mem_cons.mp hx with rfl | hx
        · rw [hreached]
          exact List.mem_append_left _ (hskip hcan)
        · exact hall x hx hcan
    · obtain ⟨hcan, hseen⟩ := Classical.not_imp.mp hskip
      have hnd' : (f.enter parent id).reached.Nodup :=
        List.nodup_append.mpr ⟨hnodup, List.nodup_singleton _,
          fun x hx y hy heq => hseen (List.mem_singleton.mp hy ▸ heq ▸ hx)⟩
      obtain ⟨f', added, hrun, hqueue, hreached, hnd, hnew, hall⟩ :=
        ih (f.enter parent id) hrest hnd'
      refine ⟨f', id :: added, ?_, by simp [hqueue, Front.enter], by simp [hreached, Front.enter],
        hnd, ?_, ?_⟩
      · rw [reachAll_enter hcan hseen, hrun]
      · intro x hx
        rcases List.mem_cons.mp hx with rfl | hx
        · exact ⟨List.mem_cons_self, hcan⟩
        · exact ⟨List.mem_cons_of_mem _ (hnew x hx).1, (hnew x hx).2⟩
      · intro x hx hcan'
        rcases List.mem_cons.mp hx with rfl | hx
        · simp [hreached, Front.enter]
        · exact hall x hx hcan'

/-- What every round keeps holds at the end of the spread. -/
theorem spread_keeps {P : Front → Prop} {bound : Nat} {f' : Front}
    (hround : ∀ ⦃f f' : Front⦄ ⦃id : NodeId⦄ ⦃rest : List NodeId⦄, P f → f.queue = id :: rest →
      reachAll g id { f with queue := rest } (g.successors id) = .ok f' → P f')
    (h : spread g bound f = .ok f') (hf : P f) : P f' := by
  induction bound generalizing f with
  | zero =>
    cases h
    exact hf
  | succ bound ih =>
    rw [spread] at h
    split at h
    · cases h
      exact hf
    · rename_i id rest hqueue
      cases hreach : reachAll g id { f with queue := rest } (g.successors id) with
      | error missing =>
        rw [hreach] at h
        cases h
      | ok f₁ =>
        rw [hreach] at h
        exact ih h (hround hf hqueue hreach)

/-- The invariant of the spread. What is reached is what has been looked at,
followed by the queue; it is reachable, and closed under edges out of the
nodes that have been looked at. -/
structure Front.Invariant (g : Graph) (ids : List NodeId) (done : List NodeId) (f : Front) :
    Prop where
  split : f.reached = done ++ f.queue
  nodup : f.reached.Nodup
  sources : ∀ id ∈ ids, CanTaint g id → id ∈ f.reached
  sound : ∀ id ∈ f.reached, Reaches g ids id
  closed : ∀ a ∈ done, ∀ b, (⟨a, b⟩ : Edge) ∈ g.edges → CanTaint g b → b ∈ f.reached

/-- Distinct ids of the arena are no more than the arena has. -/
theorem Front.Invariant.length_le {g : Graph} {ids done : List NodeId} {f : Front}
    (h : f.Invariant g ids done) : done.length + f.queue.length ≤ g.size := by
  have hsub : f.reached ⊆ List.range g.size := by
    intro id hid
    obtain ⟨n, hn, _⟩ := (h.sound id hid).canTaint
    exact List.mem_range.mpr (Graph.lt_size_of_node? hn)
  have hle := (h.nodup.subperm hsub).length_le
  rw [h.split, List.length_append, List.length_range] at hle
  exact hle

/-- One round keeps the invariant, with one more node looked at. -/
theorem Front.Invariant.step (hg : g.WellFormed) {done : List NodeId} (h : f.Invariant g ids done)
    (hqueue : f.queue = id :: rest) :
    ∃ f', reachAll g id { f with queue := rest } (g.successors id) = .ok f' ∧
      f'.Invariant g ids (done ++ [id]) := by
  have hin : ∀ b ∈ g.successors id, b < g.size := fun b hb =>
    (hg.edges _ ((g.mem_successors id b).mp hb)).2
  obtain ⟨f', added, hrun, hq, hr, hnd, hnew, hall⟩ :=
    reachAll_spec id (g.successors id) { f with queue := rest } hin h.nodup
  have hid : Reaches g ids id := h.sound id (by simp [h.split, hqueue])
  refine ⟨f', hrun, ?_, hnd, ?_, ?_, ?_⟩
  · simp only at hq hr
    rw [hr, hq, h.split, hqueue]
    simp
  · intro x hx hcan
    rw [hr]
    exact List.mem_append_left _ (h.sources x hx hcan)
  · intro x hx
    rw [hr] at hx
    rcases List.mem_append.mp hx with hx | hx
    · exact h.sound x hx
    · exact .edge hid ((g.mem_successors id x).mp (hnew x hx).1) (hnew x hx).2
  · intro a ha b hedge hcan
    rcases List.mem_append.mp ha with ha | ha
    · rw [hr]
      exact List.mem_append_left _ (h.closed a ha b hedge hcan)
    · rw [List.mem_singleton.mp ha] at hedge
      exact hall b ((g.mem_successors id b).mpr hedge) hcan

/-- With enough rounds left the spread ends, and then nothing is queued. -/
theorem spread_spec (hg : g.WellFormed) (ids : List NodeId) (bound : Nat) (done : List NodeId)
    (f : Front) (h : f.Invariant g ids done) (hbound : g.size ≤ bound + done.length) :
    ∃ f', spread g bound f = .ok f' ∧ f'.Invariant g ids f'.reached := by
  induction bound generalizing done f with
  | zero =>
    have hle := h.length_le
    have hempty : f.queue = [] := List.length_eq_zero_iff.mp (by omega)
    have hdone : f.reached = done := by simpa [hempty] using h.split
    exact ⟨f, rfl, hdone ▸ h⟩
  | succ bound ih =>
    cases hqueue : f.queue with
    | nil =>
      have hdone : f.reached = done := by simpa [hqueue] using h.split
      exact ⟨f, by simp [spread, hqueue], hdone ▸ h⟩
    | cons id rest =>
      obtain ⟨f₁, hrun, hinv⟩ := h.step hg hqueue
      obtain ⟨f', hspread, hend⟩ := ih (done ++ [id]) f₁ hinv (by simp; omega)
      refine ⟨f', ?_, hend⟩
      simp only [spread, hqueue]
      rw [hrun]
      exact hspread

/-- The sources are those of the configuration, in ascending order. -/
theorem initialSources_eq (h : initialSources c g = .ok ids) :
    ∃ named, c.variableNames.mapM (namedSource g) = .ok named ∧
      ids = ascendingIds (parameterSources c g ++ builtinSources c g ++ named) := by
  unfold initialSources at h
  cases hnamed : c.variableNames.mapM (namedSource g) with
  | error fault =>
    rw [hnamed] at h
    cases h
  | ok named =>
    rw [hnamed] at h
    exact ⟨named, rfl, (Except.ok.inj h).symm⟩

theorem namedSource_lt (hg : g.WellFormed) {v : String × String} (h : namedSource g v = .ok id) :
    id < g.size := by
  unfold namedSource at h
  split at h
  · rename_i found hfound
    obtain rfl : found = id := Except.ok.inj h
    obtain ⟨s, hs, hlookup⟩ := Option.bind_eq_some_iff.mp hfound
    exact (hg.scopes s (Graph.mem_scopes_of_scope? hs)).names _ (mem_of_lookup_eq_some hlookup)
  · cases h

theorem mem_builtinSources :
    id ∈ builtinSources c g ↔
      c.builtinSources = true ∧ ∃ n, g.node? id = some n ∧ n.isSource = true := by
  unfold builtinSources
  split
  · rename_i hflag
    rw [List.mem_filter, List.mem_range, Option.any_eq_true]
    refine ⟨fun h => ⟨hflag, h.2⟩, fun h => ⟨?_, h.2⟩⟩
    obtain ⟨_, n, hn, _⟩ := h
    exact Graph.lt_size_of_node? hn
  · rename_i hflag
    exact ⟨fun h => absurd h List.not_mem_nil, fun h => absurd h.1 hflag⟩

theorem builtinSources_of_eq {g' : Graph} {n' : FlowNode} (h : a ∈ builtinSources c g)
    (hn : g.node? a = some n) (hn' : g'.node? b = some n') (hsame : n'.isSource = n.isSource) :
    b ∈ builtinSources c g' := by
  obtain ⟨hflag, m, hm, hsource⟩ := mem_builtinSources.mp h
  cases hn.symm.trans hm
  exact mem_builtinSources.mpr ⟨hflag, n', hn', hsame.trans hsource⟩

/-- Taint starts at parameters, at values from outside and at named variables. -/
theorem mem_initialSources (h : initialSources c g = .ok ids) :
    id ∈ ids ↔ id ∈ parameterSources c g ∨ id ∈ builtinSources c g ∨
      ∃ v ∈ c.namedVariables, namedSource g v = .ok id := by
  obtain ⟨named, hnamed, rfl⟩ := initialSources_eq h
  have hvariable : id ∈ named ↔ ∃ v ∈ c.namedVariables, namedSource g v = .ok id := by
    have hmatch := mapM_eq_ok_iff.mp hnamed
    constructor
    · intro hid
      obtain ⟨v, hv, hsource⟩ := exists_of_mem_right hmatch hid
      exact ⟨v, (mem_ascending _ _ v).mp hv, hsource⟩
    · rintro ⟨v, hv, hsource⟩
      obtain ⟨b, hb, hsame⟩ := exists_of_mem_left hmatch ((mem_ascending _ _ v).mpr hv)
      rwa [Except.ok.inj (hsource.symm.trans hsame)]
  rw [mem_ascendingIds, List.mem_append, List.mem_append, hvariable, or_assoc]

theorem exists_namedSource (h : initialSources c g = .ok ids) {v : String × String}
    (hv : v ∈ c.namedVariables) :
    ∃ id, namedSource g v = .ok id := by
  obtain ⟨named, hnamed, _⟩ := initialSources_eq h
  obtain ⟨id, _, hid⟩ :=
    exists_of_mem_left (mapM_eq_ok_iff.mp hnamed) ((mem_ascending _ _ v).mpr hv)
  exact ⟨id, hid⟩

/-- A fault of the sources is that of a named variable. -/
theorem initialSources_eq_error {fault : Fault} (h : initialSources c g = .error fault) :
    ∃ v ∈ c.namedVariables, namedSource g v = .error fault := by
  unfold initialSources at h
  cases hnamed : c.variableNames.mapM (namedSource g) with
  | ok named =>
    rw [hnamed] at h
    cases h
  | error fault' =>
    rw [hnamed] at h
    cases h
    obtain ⟨v, hv, hfault⟩ := exists_of_mapM_eq_error hnamed
    exact ⟨v, (mem_ascending _ _ v).mp hv, hfault⟩

/-- The sources of a well-formed graph are distinct nodes of it. -/
theorem initialSources_lt (hg : g.WellFormed) (h : initialSources c g = .ok ids) :
    ids.Nodup ∧ ∀ id ∈ ids, id < g.size := by
  refine ⟨?_, ?_⟩
  · obtain ⟨named, _, rfl⟩ := initialSources_eq h
    exact nodup_ascendingIds _
  · intro id hid
    rcases (mem_initialSources h).mp hid with hparam | hbuiltin | ⟨v, _, hv⟩
    · obtain ⟨s, hs, hid⟩ := List.mem_flatMap.mp hparam
      exact (hg.scopes s (List.mem_filter.mp hs).1).params id hid
    · obtain ⟨_, n, hn, _⟩ := mem_builtinSources.mp hbuiltin
      exact Graph.lt_size_of_node? hn
    · exact namedSource_lt hg hv

def isTaintable (g : Graph) (id : NodeId) : Bool :=
  (g.node? id).any fun n => !n.isUntaintable

theorem isTaintable_iff (g : Graph) (id : NodeId) : isTaintable g id = true ↔ CanTaint g id := by
  simp [isTaintable, CanTaint, Option.any_eq_true]

theorem taintable_eq (ids : List NodeId) (h : ∀ id ∈ ids, id < g.size) :
    taintable g ids = .ok (ids.filter (isTaintable g)) := by
  have haux (acc : List NodeId) :
      ids.filterAuxM (fun id => do return !(← isUntaintable? g id)) acc =
        (Except.ok ((ids.filter (isTaintable g)).reverse ++ acc) : Except Missing _) := by
    induction ids generalizing acc with
    | nil => rfl
    | cons id rest ih =>
      obtain ⟨n, hn⟩ := Graph.node?_isSome (h id (by simp))
      have hrest := ih (fun x hx => h x (List.mem_cons_of_mem _ hx))
      rw [List.filterAuxM, isUntaintable?_eq hn]
      cases hu : n.isUntaintable with
      | true =>
        have hskip : isTaintable g id = false := by simp [isTaintable, hn, hu]
        rw [List.filter_cons_of_neg (by simp [hskip])]
        exact hrest acc
      | false =>
        have hkeep : isTaintable g id = true := by simp [isTaintable, hn, hu]
        rw [List.filter_cons_of_pos hkeep, List.reverse_cons, List.append_assoc]
        exact hrest (id :: acc)
  unfold taintable List.filterM
  rw [haux []]
  simp

def marked (g : Graph) (ids : List NodeId) : Graph :=
  { g with nodes := g.nodes.mapIdx fun id n => { n with isTainted := ids.contains id } }

theorem mark_nodes (g : Graph) (ids : List NodeId) :
    mark g ids = { g with
      nodes := g.nodes.mapIdx fun id n => if id ∈ ids then { n with isTainted := true } else n } := by
  induction ids generalizing g with
  | nil =>
    have hid : g.nodes.mapIdx (fun _ n => n) = g.nodes := by
      apply Array.ext <;> simp
    simp [mark, hid]
  | cons a rest ih =>
    have hcons : mark g (a :: rest) =
        mark (g.modifyNode a fun n => { n with isTainted := true }) rest := rfl
    rw [hcons, ih]
    simp only [Graph.modifyNode, Graph.mk.injEq, and_true]
    apply Array.ext
    · simp
    · intro i hi _
      simp only [Array.getElem_mapIdx, Array.getElem_modify, List.mem_cons]
      by_cases hia : i = a
      · subst hia
        simp
      · simp [hia, Ne.symm hia]

theorem mark_clear (g : Graph) (ids : List NodeId) : mark (clear g) ids = marked g ids := by
  rw [mark_nodes]
  simp only [clear, marked, Graph.mk.injEq, and_true]
  apply Array.ext
  · simp
  · intro i hi _
    by_cases h : i ∈ ids <;> simp [h]

theorem clear_marked (g : Graph) (ids : List NodeId) : clear (marked g ids) = clear g := by
  simp only [clear, marked, Graph.mk.injEq, and_true]
  apply Array.ext <;> simp

@[simp]
theorem size_clear (g : Graph) : (clear g).size = g.size := by
  simp [clear, Graph.size]

theorem node?_clear (g : Graph) (id : NodeId) :
    (clear g).node? id = (g.node? id).map fun n => { n with isTainted := false } := by
  simp [clear, Graph.node?]

theorem canTaint_clear (g : Graph) (id : NodeId) : CanTaint (clear g) id ↔ CanTaint g id := by
  simp [CanTaint, node?_clear]

theorem wellFormed_clear (hg : g.WellFormed) : (clear g).WellFormed where
  edges := by rw [size_clear]; exact hg.edges
  scopes := by rw [size_clear]; exact hg.scopes
  globals := by rw [size_clear]; exact hg.globals

theorem initialSources_clear (c : TaintConfig) (g : Graph) :
    initialSources c (clear g) = initialSources c g := by
  have hbuiltin : builtinSources c (clear g) = builtinSources c g := by
    simp [builtinSources, node?_clear, Option.any_map]
  have hnamed : namedSource (clear g) = namedSource g := rfl
  have hparams : parameterSources c (clear g) = parameterSources c g := rfl
  simp only [initialSources, hbuiltin, hnamed, hparams]

theorem reaches_clear (g : Graph) (ids : List NodeId) (id : NodeId) :
    Reaches (clear g) ids id ↔ Reaches g ids id := by
  constructor
  · intro h
    induction h with
    | source hid hcan => exact .source hid ((canTaint_clear g _).mp hcan)
    | edge _ hedge hcan ih => exact .edge ih hedge ((canTaint_clear g _).mp hcan)
  · intro h
    induction h with
    | source hid hcan => exact .source hid ((canTaint_clear g _).mpr hcan)
    | edge _ hedge hcan ih => exact .edge ih hedge ((canTaint_clear g _).mpr hcan)

theorem isTaintable_clear (g : Graph) : isTaintable (clear g) = isTaintable g := by
  funext id
  simp [isTaintable, node?_clear, Option.any_map]

theorem Front.invariant_start (hnodup : ids.Nodup) :
    Front.Invariant g ids []
      { queue := ids.filter (isTaintable g), reached := ids.filter (isTaintable g) } := by
  refine ⟨rfl, hnodup.filter _, ?_, ?_, by simp⟩
  · intro id hid hcan
    exact List.mem_filter.mpr ⟨hid, (isTaintable_iff g id).mpr hcan⟩
  · intro id hid
    obtain ⟨hid, htaintable⟩ := List.mem_filter.mp hid
    exact .source hid ((isTaintable_iff g id).mp htaintable)

/-- The nodes that the spread reaches are the reachable ones. -/
theorem ofSources_spec (hg : g.WellFormed) (ids : List NodeId) (hnodup : ids.Nodup)
    (hin : ∀ id ∈ ids, id < g.size) :
    ∃ t, ofSources g ids = .ok t ∧ t.sources = ids.filter (isTaintable g) ∧
      ∀ id, id ∈ t.tainted ↔ Reaches g ids id := by
  let sources := ids.filter (isTaintable g)
  obtain ⟨f, hrun, hinv⟩ :=
    spread_spec hg ids g.size [] _ (Front.invariant_start hnodup) (by simp)
  refine ⟨{ tainted := f.reached, sources, parents := f.parents }, ?_, rfl, ?_⟩
  · unfold ofSources
    rw [taintable_eq ids hin]
    change (spread g g.size { queue := sources, reached := sources } >>= _) = _
    rw [hrun]
    rfl
  · intro id
    refine ⟨hinv.sound id, fun h => ?_⟩
    have hclosed : Closed g ids {id | id ∈ f.reached} := ⟨hinv.sources, hinv.closed⟩
    exact hclosed.reaches h

/-- No node is marked that cannot be tainted. -/
theorem wrongMark?_marked (h : ∀ id ∈ ids, CanTaint g id) :
    wrongMark? (marked g ids) = none := by
  unfold wrongMark?
  rw [Array.find?_eq_none]
  intro n hn
  obtain ⟨i, hi, rfl⟩ := Array.mem_iff_getElem.mp hn
  simp only [marked, Array.getElem_mapIdx, Bool.and_eq_true, not_and]
  intro hmark huntaintable
  obtain ⟨m, hm, hfalse⟩ := h i (by simpa using hmark)
  have hsize : i < g.nodes.size := by simpa [marked] using hi
  have hget : g.node? i = some g.nodes[i] := Array.getElem?_eq_getElem hsize
  cases hget.symm.trans hm
  rw [huntaintable] at hfalse
  cases hfalse

/-- Propagation succeeds, and what it taints is what taint reaches. -/
theorem propagate_spec (hg : g.WellFormed) (c : TaintConfig) (hids : initialSources c g = .ok ids) :
    ∃ t, propagate c g = .ok t (marked g t.tainted) ∧ t.sources = ids.filter (isTaintable g) ∧
      ∀ id, id ∈ t.tainted ↔ Reaches g ids id := by
  obtain ⟨hnodup, hin⟩ := initialSources_lt hg hids
  obtain ⟨t, hrun, hsources, hreach⟩ :=
    ofSources_spec (wellFormed_clear hg) ids hnodup (by simpa using hin)
  have hreach' : ∀ id, id ∈ t.tainted ↔ Reaches g ids id := fun id =>
    (hreach id).trans (reaches_clear g ids id)
  refine ⟨t, ?_, by rw [hsources, isTaintable_clear], hreach'⟩
  have hright : wrongMark? (marked g t.tainted) = none :=
    wrongMark?_marked fun id hid => ((hreach' id).mp hid).canTaint
  simp only [propagate, initialSources_clear, hids, hrun, mark_clear, hright]

/-- Marks from before do not matter. -/
theorem propagate_marked (c : TaintConfig) (g : Graph) (ids : List NodeId) :
    propagate c (marked g ids) = propagate c g := by
  simp only [propagate, clear_marked]

/-- On a well-formed graph whose sources are defined, propagation taints the
least set that holds every source that can be tainted and that no edge leaves
except into an untaintable node: the ends of all paths through taintable
nodes. Only the marks change, and they tell that set; the check on the marks
never fails, and a second propagation gives the same result. -/
theorem propagate_least_closed {g : Graph} (hg : g.WellFormed) (c : TaintConfig)
    {ids : List NodeId} (hids : initialSources c g = .ok ids) :
    ∃ t, propagate c g = .ok t (marked g t.tainted) ∧
      IsLeast {T | Closed g ids T} {id | id ∈ t.tainted} ∧
      (∀ id, id ∈ t.tainted ↔ ∃ nodes, Path g ids nodes id) ∧
      propagate c (marked g t.tainted) = .ok t (marked g t.tainted) := by
  obtain ⟨t, hrun, _, hreach⟩ := propagate_spec hg c hids
  refine ⟨t, hrun, ?_, ?_, ?_⟩
  · have hset : {id | id ∈ t.tainted} = {id | Reaches g ids id} := Set.ext hreach
    rw [hset]
    exact isLeast_reaches g ids
  · intro id
    rw [hreach id, reaches_iff_path]
  · rw [propagate_marked, hrun]

/-- A parameter in a cycle with a variable that also leads to an untaintable
address, which is the only way to the last node. -/
def cycleGraph : Graph :=
  { nodes := #[
      { kind := .var, name := "a", scope := some "f" },
      { kind := .var, name := "b", scope := some "f", isTainted := true },
      { kind := .var, name := "c", scope := some "f", isUntaintable := true, isTainted := true },
      { kind := .var, name := "d", scope := some "f" }]
    edges := [⟨0, 1⟩, ⟨1, 0⟩, ⟨1, 2⟩, ⟨2, 3⟩]
    scopes := [{ name := "f", root := 0, params := [0], nodes := [0, 1, 2, 3] }] }

theorem wellFormed_cycleGraph : cycleGraph.WellFormed where
  edges := by simp [cycleGraph, Edge.Within, Graph.size]
  scopes := by
    intro s hs
    obtain rfl := List.mem_singleton.mp hs
    constructor <;> simp [cycleGraph, Graph.size]
  globals := by simp [cycleGraph]

theorem propagate_least_closed_cycleGraph :
    initialSources {} cycleGraph = .ok [0] ∧
      ∃ t, propagate {} cycleGraph = .ok t (marked cycleGraph t.tainted) ∧
        IsLeast {T | Closed cycleGraph [0] T} {id | id ∈ t.tainted} ∧
        (∀ id, id ∈ t.tainted ↔ ∃ nodes, Path cycleGraph [0] nodes id) ∧
        propagate {} (marked cycleGraph t.tainted) = .ok t (marked cycleGraph t.tainted) := by
  have hids : initialSources {} cycleGraph = .ok [0] := rfl
  exact ⟨hids, propagate_least_closed wellFormed_cycleGraph {} hids⟩

end YulTaint.Taint
