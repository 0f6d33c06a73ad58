import Mathlib.Tactic
import YulTaint.Flow.Definition
import YulTaint.Proofs.Graph.Coherent

/-!
Scopes and records whose nodes stand elsewhere in the arena. When nodes are put
into the arena at some place, those behind it move up; what is added to a scope
afterwards is the same as before, but moved.
-/

namespace YulTaint

def Edge.map (f : NodeId → NodeId) (e : Edge) : Edge :=
  ⟨f e.source, f e.target⟩

def Edge.Matches (R : NodeId → NodeId → Prop) (x y : Edge) : Prop :=
  R x.source y.source ∧ R x.target y.target

def Definition.move (f : NodeId → NodeId) : Definition → Definition
  | .constant target value => .constant (f target) value
  | .copy target source => .copy (f target) (f source)
  | .application target name operands => .application (f target) name (operands.map f)
  | .arbitrary target => .arbitrary (f target)

def Application.move (f : NodeId → NodeId) (a : Application) : Application :=
  { node := f a.node
    name := a.name
    operands := a.operands.map f
    block := f a.block }

def ScopeRecord.move (f : NodeId → NodeId) (r : ScopeRecord) : ScopeRecord :=
  { scope := r.scope
    definitions := r.definitions.map (Definition.move f)
    applications := r.applications.map (Application.move f) }

def CallSite.move (f : NodeId → NodeId) (site : CallSite) : CallSite :=
  { site with
    arguments := site.arguments.map f
    results := site.results.map f
    block := f site.block }

def Scope.move (f : NodeId → NodeId) (s : Scope) : Scope :=
  { name := s.name
    root := f s.root
    params := s.params.map f
    returns := s.returns.map f
    nodes := s.nodes.map f
    edges := s.edges.map (Edge.map f)
    sites := s.sites.map (CallSite.move f)
    names := s.names.map fun entry => (entry.1, f entry.2) }

theorem map_eq_self {α : Type} {f : α → α} {items : List α} (h : ∀ a ∈ items, f a = a) :
    items.map f = items := by
  rw [List.map_congr_left h, List.map_id']

section Same

variable {f : NodeId → NodeId}

theorem Definition.move_id (d : Definition) : d.move id = d := by
  cases d <;> simp [Definition.move]

theorem Application.move_eq {a : Application} (hnode : f a.node = a.node)
    (hoperands : ∀ id ∈ a.operands, f id = id) (hblock : f a.block = a.block) :
    a.move f = a := by
  rw [Application.move, hnode, map_eq_self hoperands, hblock]

theorem ScopeRecord.move_id (r : ScopeRecord) : r.move id = r := by
  rw [ScopeRecord.move, map_eq_self fun d _ => d.move_id,
    map_eq_self fun a _ => a.move_eq rfl (fun _ _ => rfl) rfl]

theorem CallSite.move_eq {site : CallSite} (harguments : ∀ id ∈ site.arguments, f id = id)
    (hresults : ∀ id ∈ site.results, f id = id) (hblock : f site.block = site.block) :
    site.move f = site := by
  rw [CallSite.move, map_eq_self harguments, map_eq_self hresults, hblock]

/-- A scope stays the same if the nodes of its graph stay where they are. -/
theorem Scope.Coherent.move_eq {g : Graph} {s : Scope} (hs : s.Coherent g)
    (hf : ∀ id < g.size, f id = id) : s.move f = s := by
  have hown (id : NodeId) (hid : id ∈ s.nodes) : f id = id :=
    hf id (Graph.Coherent.lt_size hs hid)
  have hend (id : NodeId) (hid : id ∈ s.nodes ∨ g.IsShared id) : f id = id :=
    hid.elim (hown id) fun hshared => hf id hshared.lt_size
  have hedges : s.edges.map (Edge.map f) = s.edges := map_eq_self fun e he => by
    have hattached := (hs.edges e he).2
    rw [Edge.map, hend _ hattached.source, hend _ hattached.target]
  have hsites : s.sites.map (CallSite.move f) = s.sites := map_eq_self fun site hsite => by
    have howned := hs.sites site hsite
    exact CallSite.move_eq (fun id hid => hown id (howned.arguments id hid))
      (fun id hid => hown id (howned.results id hid)) (hown _ howned.block)
  have hnames : s.names.map (fun entry => (entry.1, f entry.2)) = s.names :=
    map_eq_self fun entry hentry => by rw [hown _ (hs.names entry hentry)]
  rw [Scope.move, hown _ hs.root, map_eq_self fun id hid => hown id (hs.params id hid),
    map_eq_self fun id hid => hown id (hs.returns id hid), map_eq_self hown, hedges, hsites,
    hnames]

end Same

/-- Where a node stands once `count` nodes are put in at the place `start`. -/
def shiftFrom (start count id : Nat) : Nat :=
  if id < start then id else id + count

section Shift

variable {start count a b : Nat}

theorem shiftFrom_of_lt (h : a < start) : shiftFrom start count a = a :=
  if_pos h

theorem shiftFrom_of_le (h : start ≤ a) : shiftFrom start count a = a + count :=
  if_neg (Nat.not_lt.mpr h)

theorem shiftFrom_zero : shiftFrom 0 0 = id :=
  funext fun _ => rfl

theorem shiftFrom_lt_iff : shiftFrom start count a < shiftFrom start count b ↔ a < b := by
  unfold shiftFrom
  split <;> split <;> omega

theorem shiftFrom_injective : Function.Injective (shiftFrom start count) := by
  intro a b h
  unfold shiftFrom at h
  split at h <;> split at h <;> omega

end Shift

/-- Order is all that insertion looks at. -/
theorem map_insertBy {α β : Type} [DecidableEq α] [DecidableEq β] {before : α → α → Bool}
    {before' : β → β → Bool} {f : α → β} (hf : Function.Injective f)
    (hbefore : ∀ a b, before' (f a) (f b) = before a b) (a : α) (set : List α) :
    (insertBy before a set).map f = insertBy before' (f a) (set.map f) := by
  induction set with
  | nil => rfl
  | cons b rest ih =>
    simp only [insertBy, List.map_cons, hf.eq_iff, hbefore]
    split
    · rfl
    · split
      · rfl
      · rw [List.map_cons, ih]

theorem map_insertEdge {start count : Nat} (e : Edge) (edges : List Edge) :
    (Graph.insertEdge e edges).map (Edge.map (shiftFrom start count)) =
      Graph.insertEdge (e.map (shiftFrom start count))
        (edges.map (Edge.map (shiftFrom start count))) := by
  refine map_insertBy ?_ ?_ e edges
  · rintro ⟨a, b⟩ ⟨a', b'⟩ h
    obtain ⟨hsource, htarget⟩ := Edge.mk.inj h
    obtain rfl := shiftFrom_injective hsource
    obtain rfl := shiftFrom_injective htarget
    rfl
  · intro a b
    simp [Edge.before, Edge.map, shiftFrom_lt_iff, shiftFrom_injective.eq_iff]

theorem map_bindName (f : NodeId → NodeId) (name : String) (id : NodeId)
    (names : List (String × NodeId)) :
    (bindName name id names).map (fun entry => (entry.1, f entry.2)) =
      bindName name (f id) (names.map fun entry => (entry.1, f entry.2)) := by
  induction names with
  | nil => rfl
  | cons entry rest ih =>
    simp only [bindName, List.map_cons]
    split
    · rfl
    · rw [List.map_cons, ih]

namespace Graph

theorem find?_putScope (scope : Scope) (scopes : List Scope) (name : String) :
    (putScope scope scopes).find? (·.name = name) =
      if name = scope.name then some scope else scopes.find? (·.name = name) := by
  induction scopes with
  | nil =>
    by_cases h : name = scope.name
    · simp [putScope, h]
    · simp [putScope, h, Ne.symm h]
  | cons other rest ih =>
    by_cases hother : other.name = scope.name
    · by_cases h : name = scope.name
      · simp [putScope, hother, h]
      · simp [putScope, hother, h, Ne.symm h]
    · by_cases hname : other.name = name
      · have hne : ¬ name = scope.name := fun heq => hother (hname.trans heq)
        simp [putScope, hname, hne]
      · simpa [putScope, hother, hname] using ih

/-- Nodes of a scope that the first graph lacks are put in at one place of the
arena; otherwise the two graphs have the same nodes and scopes. -/
structure Inserts (new : String) (start count : Nat) (g g' : Graph) : Prop where
  le : start ≤ g.size
  size : g'.size = g.size + count
  nodes : ∀ id, g'.node? (shiftFrom start count id) = g.node? id
  scopes : ∀ sc, sc ≠ new →
    g'.scope? sc = (g.scope? sc).map (Scope.move (shiftFrom start count))

section Inserts

variable {new : String} {start count : Nat} {g g' : Graph}

theorem Inserts.size_eq (h : Inserts new start count g g') :
    g'.size = shiftFrom start count g.size := by
  rw [h.size, shiftFrom_of_le h.le]

/-- Nothing is put in. -/
theorem Inserts.refl (hg : g.Coherent) : Inserts new 0 0 g g := by
  refine ⟨Nat.zero_le _, rfl, fun _ => rfl, fun sc _ => ?_⟩
  cases hs : g.scope? sc with
  | none => rfl
  | some s =>
    have hsame : s.move (shiftFrom 0 0) = s := (hg.scopes sc s hs).move_eq fun _ _ => rfl
    rw [Option.map_some, hsame]

theorem Inserts.push (h : Inserts new start count g g') (n : FlowNode) :
    Inserts new start count (g.push n) (g'.push n) := by
  refine ⟨?_, ?_, fun id => ?_, h.scopes⟩
  · rw [size_push]
    exact Nat.le_succ_of_le h.le
  · rw [size_push, size_push, h.size]
    omega
  · rw [node?_push, node?_push, h.size_eq, h.nodes]
    simp only [shiftFrom_injective.eq_iff]

/-- The same change to one scope of both graphs. -/
theorem Inserts.modifyScope (h : Inserts new start count g g') {f f' : Scope → Scope}
    (hf : ∀ s, (f s).name = s.name) (hf' : ∀ s, (f' s).name = s.name)
    (hmove : ∀ s, f' (s.move (shiftFrom start count)) = (f s).move (shiftFrom start count)) :
    Inserts new start count (g.modifyScope sc f) (g'.modifyScope sc f') := by
  refine ⟨h.le, h.size, h.nodes, fun other hother => ?_⟩
  rw [scope?_modifyScope _ _ _ hf, scope?_modifyScope _ _ _ hf', h.scopes other hother]
  split
  · rw [Option.map_map, Option.map_map]
    exact congrArg (Option.map · _) (funext hmove)
  · rfl

theorem Inserts.addScope (h : Inserts new start count g g') (name : String) (loc : Option Loc) :
    Inserts new start count (g.addScope name loc) (g'.addScope name loc) := by
  obtain ⟨hle, hsize, hnodes, _⟩ := h.push
    { kind := .block, name := name ++ ":body", scope := some name, callChain := [name], loc }
  refine ⟨hle, hsize, hnodes, fun sc hsc => ?_⟩
  have hscope (g : Graph) : (g.addScope name loc).scope? sc =
      if sc = name then some { name, root := g.size, nodes := [g.size] } else g.scope? sc :=
    find?_putScope _ g.scopes sc
  rw [hscope, hscope, h.scopes sc hsc, h.size_eq]
  split <;> rfl

theorem Inserts.addVariable (h : Inserts new start count g g') (sc name : String)
    (loc : Option Loc) :
    Inserts new start count (g.addVariable sc name loc) (g'.addVariable sc name loc) := by
  refine (h.push _).modifyScope (fun _ => rfl) (fun _ => rfl) fun s => ?_
  simp [Scope.move, map_bindName, h.size_eq]

theorem Inserts.addBlock (h : Inserts new start count g g') (sc name : String)
    (loc : Option Loc) :
    Inserts new start count (g.addBlock sc name loc) (g'.addBlock sc name loc) := by
  refine (h.push _).modifyScope (fun _ => rfl) (fun _ => rfl) fun s => ?_
  simp [Scope.move, h.size_eq]

theorem Inserts.addEdge (h : Inserts new start count g g') (sc : String) (a b : NodeId) :
    Inserts new start count (g.addEdge sc a b)
      (g'.addEdge sc (shiftFrom start count a) (shiftFrom start count b)) := by
  have hloose : Inserts new start count (g.addLooseEdge a b)
      (g'.addLooseEdge (shiftFrom start count a) (shiftFrom start count b)) :=
    ⟨h.le, h.size, h.nodes, h.scopes⟩
  refine hloose.modifyScope (fun _ => rfl) (fun _ => rfl) fun s => ?_
  simp only [Scope.move, map_insertEdge]
  rfl

theorem Inserts.addSite (h : Inserts new start count g g') (site : CallSite) :
    Inserts new start count (g.addSite site) (g'.addSite (site.move (shiftFrom start count))) := by
  refine h.modifyScope (fun _ => rfl) (fun _ => rfl) fun s => ?_
  simp [Scope.move]

theorem Inserts.addParam (h : Inserts new start count g g') (sc : String) (id : NodeId) :
    Inserts new start count (g.addParam sc id) (g'.addParam sc (shiftFrom start count id)) := by
  refine h.modifyScope (fun _ => rfl) (fun _ => rfl) fun s => ?_
  simp [Scope.move]

theorem Inserts.addReturn (h : Inserts new start count g g') (sc : String) (id : NodeId) :
    Inserts new start count (g.addReturn sc id) (g'.addReturn sc (shiftFrom start count id)) := by
  refine h.modifyScope (fun _ => rfl) (fun _ => rfl) fun s => ?_
  simp [Scope.move]

/-- The second graph alone gets the new scope, whose nodes follow all others. -/
theorem Inserts.grow (h : Inserts new 0 0 g g') (hg : g.Coherent) (hfree : new ∉ g'.scopeNames)
    {loc : Option Loc} {g'' : Graph} (hgrowth : Growth new (g'.addScope new loc) g'') :
    Inserts new g.size (g''.size - g'.size) g g'' := by
  have hsame : g'.size = g.size := h.size
  have hsize : g'.size + 1 ≤ g''.size := size_addScope loc ▸ hgrowth.size
  refine ⟨Nat.le_refl _, by omega, fun id => ?_, fun sc hsc => ?_⟩
  · rcases Nat.lt_or_ge id g.size with hlt | hge
    · have hlt' : id < g'.size := hsame ▸ hlt
      rw [shiftFrom_of_lt hlt, hgrowth.old id (size_addScope loc ▸ Nat.lt_succ_of_lt hlt'),
        node?_addScope, if_neg (Nat.ne_of_lt hlt')]
      exact h.nodes id
    · have hge' : g''.size ≤ id + (g''.size - g'.size) := by omega
      rw [shiftFrom_of_le hge]
      exact (Array.getElem?_eq_none hge').trans (Array.getElem?_eq_none hge).symm
  · rw [hgrowth.others sc hsc, scope?_addScope hfree, if_neg hsc, h.scopes sc hsc]
    cases hs : g.scope? sc with
    | none => rfl
    | some s =>
      have hs' := hg.scopes sc s hs
      have hkept : s.move (shiftFrom 0 0) = s := hs'.move_eq fun _ _ => rfl
      rw [Option.map_some, Option.map_some, hkept, hs'.move_eq fun id hid => shiftFrom_of_lt hid]

end Inserts

end Graph

end YulTaint
