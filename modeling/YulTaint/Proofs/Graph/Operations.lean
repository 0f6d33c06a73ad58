import Mathlib.Tactic
import YulTaint.Proofs.Graph.WellFormed
import YulTaint.Proofs.Order

/-!
What each operation on a graph does to the nodes, the scopes and the edges.
Scopes are seen through look-up by name, so an operation on one scope is
described by what it does to that scope and that it leaves the others alone.
-/

namespace YulTaint.Graph

@[simp]
theorem size_push (g : Graph) (n : FlowNode) : (g.push n).size = g.size + 1 := by
  simp [push, size]

theorem node?_push (g : Graph) (n : FlowNode) (id : NodeId) :
    (g.push n).node? id = if id = g.size then some n else g.node? id := by
  simp only [push, node?, size, Array.getElem?_push]
  rfl

@[simp]
theorem scope?_push (g : Graph) (n : FlowNode) (name : String) :
    (g.push n).scope? name = g.scope? name := rfl

@[simp]
theorem size_modifyScope (g : Graph) (name : String) (f : Scope → Scope) :
    (g.modifyScope name f).size = g.size := rfl

@[simp]
theorem node?_modifyScope (g : Graph) (name : String) (f : Scope → Scope) (id : NodeId) :
    (g.modifyScope name f).node? id = g.node? id := rfl

theorem scopeNames_modifyScope (g : Graph) (name : String) {f : Scope → Scope}
    (hf : ∀ s, (f s).name = s.name) : (g.modifyScope name f).scopeNames = g.scopeNames := by
  simp only [scopeNames, modifyScope, List.map_map]
  apply List.map_congr_left
  intro s _
  by_cases h : s.name = name <;> simp [h, hf]

/-- A change of a scope is seen there and nowhere else. -/
theorem scope?_modifyScope (g : Graph) (name other : String) {f : Scope → Scope}
    (hf : ∀ s, (f s).name = s.name) :
    (g.modifyScope name f).scope? other =
      if other = name then (g.scope? other).map f else g.scope? other := by
  simp only [scope?, modifyScope]
  induction g.scopes with
  | nil => simp
  | cons s rest ih =>
    simp only [List.map_cons, List.find?_cons]
    by_cases hs : s.name = name
    · by_cases ho : s.name = other
      · have hsame : other = name := ho.symm.trans hs
        simp [hf, hs, hsame]
      · have hne : ¬ name = other := fun h => ho (hs.trans h)
        simpa [hs, hf, hne] using ih
    · by_cases ho : s.name = other
      · have hne : ¬ other = name := fun h => hs (ho.trans h)
        simp [ho, hne]
      · simpa [hs, ho] using ih

theorem mem_scopeNames {g : Graph} {name : String} :
    name ∈ g.scopeNames ↔ ∃ s, g.scope? name = some s := by
  simp only [scopeNames, List.mem_map, scope?]
  constructor
  · rintro ⟨s, hs, rfl⟩
    have hsome : (g.scopes.find? (·.name = s.name)).isSome := by
      rw [List.find?_isSome]
      exact ⟨s, hs, by simp⟩
    exact Option.isSome_iff_exists.mp hsome
  · rintro ⟨s, hs⟩
    exact ⟨s, List.mem_of_find?_eq_some hs, by simpa using List.find?_some hs⟩

/-- Under distinct names the scopes of a graph are those found by name. -/
theorem scope?_of_mem {g : Graph} (hnames : g.scopeNames.Nodup) {s : Scope} (hs : s ∈ g.scopes) :
    g.scope? s.name = some s := by
  obtain ⟨t, ht⟩ := mem_scopeNames.mp (List.mem_map_of_mem (f := Scope.name) hs)
  have hname : t.name = s.name := name_of_scope? ht
  have hsame : t = s :=
    List.inj_on_of_nodup_map hnames (mem_scopes_of_scope? ht) hs hname
  rw [ht, hsame]

theorem mem_insertEdge (e edge : Edge) (edges : List Edge) :
    e ∈ insertEdge edge edges ↔ e = edge ∨ e ∈ edges :=
  mem_insertBy _ _ _ _

@[simp]
theorem size_addEdge (g : Graph) (sc : String) (a b : NodeId) :
    (g.addEdge sc a b).size = g.size := rfl

@[simp]
theorem node?_addEdge (g : Graph) (sc : String) (a b id : NodeId) :
    (g.addEdge sc a b).node? id = g.node? id := rfl

theorem mem_edges_addEdge (g : Graph) (sc : String) (a b : NodeId) (e : Edge) :
    e ∈ (g.addEdge sc a b).edges ↔ e = ⟨a, b⟩ ∨ e ∈ g.edges :=
  mem_insertEdge e ⟨a, b⟩ g.edges

@[simp]
theorem scopeNames_addEdge (g : Graph) (sc : String) (a b : NodeId) :
    (g.addEdge sc a b).scopeNames = g.scopeNames :=
  scopeNames_modifyScope _ _ fun _ => rfl

theorem scope?_addEdge (g : Graph) (sc other : String) (a b : NodeId) :
    (g.addEdge sc a b).scope? other =
      if other = sc then
        (g.scope? other).map fun s => { s with edges := insertEdge ⟨a, b⟩ s.edges }
      else g.scope? other :=
  scope?_modifyScope _ _ _ fun _ => rfl

@[simp]
theorem size_addVariable (g : Graph) (sc name : String) (loc : Option Loc) :
    (g.addVariable sc name loc).size = g.size + 1 := by
  simp [addVariable]

theorem node?_addVariable (g : Graph) (sc name : String) (loc : Option Loc) (id : NodeId) :
    (g.addVariable sc name loc).node? id =
      if id = g.size then
        some { kind := .var, name, scope := some sc, callChain := [sc], loc }
      else g.node? id := by
  simp [addVariable, node?_push]

theorem scope?_addVariable (g : Graph) (sc other name : String) (loc : Option Loc) :
    (g.addVariable sc name loc).scope? other =
      if other = sc then
        (g.scope? other).map fun s =>
          { s with nodes := s.nodes ++ [g.size], names := bindName name g.size s.names }
      else g.scope? other :=
  scope?_modifyScope _ _ _ fun _ => rfl

@[simp]
theorem size_addBlock (g : Graph) (sc name : String) (loc : Option Loc) :
    (g.addBlock sc name loc).size = g.size + 1 := by
  simp [addBlock]

theorem node?_addBlock (g : Graph) (sc name : String) (loc : Option Loc) (id : NodeId) :
    (g.addBlock sc name loc).node? id =
      if id = g.size then
        some { kind := .block, name, scope := some sc, callChain := [sc], loc }
      else g.node? id := by
  simp [addBlock, node?_push]

theorem scope?_addBlock (g : Graph) (sc other name : String) (loc : Option Loc) :
    (g.addBlock sc name loc).scope? other =
      if other = sc then
        (g.scope? other).map fun s => { s with nodes := s.nodes ++ [g.size] }
      else g.scope? other :=
  scope?_modifyScope _ _ _ fun _ => rfl

theorem scope?_addSite (g : Graph) (site : CallSite) (other : String) :
    (g.addSite site).scope? other =
      if other = site.caller then
        (g.scope? other).map fun s => { s with sites := s.sites ++ [site] }
      else g.scope? other :=
  scope?_modifyScope _ _ _ fun _ => rfl

theorem scope?_addParam (g : Graph) (sc other : String) (id : NodeId) :
    (g.addParam sc id).scope? other =
      if other = sc then
        (g.scope? other).map fun s => { s with params := s.params ++ [id] }
      else g.scope? other :=
  scope?_modifyScope _ _ _ fun _ => rfl

theorem scope?_addReturn (g : Graph) (sc other : String) (id : NodeId) :
    (g.addReturn sc id).scope? other =
      if other = sc then
        (g.scope? other).map fun s => { s with returns := s.returns ++ [id] }
      else g.scope? other :=
  scope?_modifyScope _ _ _ fun _ => rfl

theorem putScope_of_not_mem (scope : Scope) (scopes : List Scope)
    (h : ∀ s ∈ scopes, s.name ≠ scope.name) : putScope scope scopes = scopes ++ [scope] := by
  induction scopes with
  | nil => rfl
  | cons other rest ih =>
    have hne : other.name ≠ scope.name := h other (by simp)
    rw [putScope, if_neg hne, ih fun s hs => h s (List.mem_cons_of_mem _ hs)]
    rfl

def emptyScope (g : Graph) (name : String) : Scope :=
  { name, root := g.size, nodes := [g.size] }

section AddScope

variable {g : Graph} {name : String} (hfree : name ∉ g.scopeNames) (loc : Option Loc)

include hfree

theorem scopes_addScope : (g.addScope name loc).scopes = g.scopes ++ [g.emptyScope name] := by
  apply putScope_of_not_mem
  intro s hs heq
  have hname : s.name = name := heq
  exact hfree (hname ▸ List.mem_map_of_mem (f := Scope.name) hs)

theorem scopeNames_addScope : (g.addScope name loc).scopeNames = g.scopeNames ++ [name] := by
  simp [scopeNames, scopes_addScope hfree loc, emptyScope]

theorem scope?_addScope (other : String) :
    (g.addScope name loc).scope? other =
      if other = name then some (g.emptyScope name) else g.scope? other := by
  rw [scope?, scopes_addScope hfree loc, List.find?_append]
  by_cases h : other = name
  · subst h
    have hnone : g.scopes.find? (·.name = other) = none := by
      rw [List.find?_eq_none]
      intro s hs heq
      simp only [decide_eq_true_eq] at heq
      exact hfree (heq ▸ List.mem_map_of_mem (f := Scope.name) hs)
    simp [hnone, emptyScope]
  · have hne : ¬ name = other := fun heq => h heq.symm
    simp [h, hne, emptyScope, scope?]

omit hfree in
theorem node?_addScope (id : NodeId) :
    (g.addScope name loc).node? id =
      if id = g.size then
        some { kind := .block, name := name ++ ":body", scope := some name,
               callChain := [name], loc }
      else g.node? id := by
  rw [← node?_push]
  rfl

omit hfree in
@[simp]
theorem size_addScope : (g.addScope name loc).size = g.size + 1 := by
  simp [addScope, size, push]

end AddScope

@[simp]
theorem size_modifyNode (g : Graph) (id : NodeId) (f : FlowNode → FlowNode) :
    (g.modifyNode id f).size = g.size := by
  simp [modifyNode, size]

theorem node?_modifyNode (g : Graph) (id other : NodeId) (f : FlowNode → FlowNode) :
    (g.modifyNode id f).node? other =
      if other = id then (g.node? other).map f else g.node? other := by
  simp only [modifyNode, node?, Array.getElem?_modify]
  by_cases h : id = other
  · simp [h]
  · simp [h, Ne.symm h]

@[simp]
theorem size_addCopy (g : Graph) (n : FlowNode) (id : NodeId) (into name : String) (k : Int) :
    (g.addCopy n id into name k).size = g.size + 1 := by
  simp [addCopy]

end YulTaint.Graph
