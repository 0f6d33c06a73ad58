import Mathlib.Tactic
import YulTaint.Proofs.Flow.Walked

/-!
Finishing the scopes of a walked graph. It sets constants and marks, adds
edges of a scope between its own nodes and shared memory words, and makes such
words; what the walk declared stays as it is.
-/

namespace YulTaint

/-- A node without what finishing a scope may change. -/
def FlowNode.core (n : FlowNode) : FlowNode :=
  { n with
    constant := none
    isTainted := false
    isUntaintable := false
    isProtected := false
    isSource := false }

theorem FlowNode.scope_of_core {n n' : FlowNode} (h : n'.core = n.core) : n'.scope = n.scope :=
  show n'.core.scope = n.core.scope by rw [h]

def Scope.core (s : Scope) : Scope :=
  { s with edges := [] }

namespace Graph

/-- The graph of a program before its calls are resolved: all sites are open
and fit their callees, and no node is a copy. -/
structure Collected (g : Graph) : Prop where
  coherent : g.Coherent
  sites : ∀ name s, g.scope? name = some s → ∀ site ∈ s.sites, site.resolved = false ∧
    ∃ callee, g.scope? site.callee = some callee ∧
      site.arguments.length = callee.params.length ∧
      site.results.length = callee.returns.length
  nodes : ∀ id n, g.node? id = some n →
    n.origin = none ∧ n.embedding = none ∧ n.callChain = n.scope.toList

def sharedNode (name : String) : FlowNode :=
  { kind := .var, name, scope := none }

/-- One graph comes from another by marks, constants, attached edges and shared
nodes. -/
structure Finishing (g g' : Graph) : Prop where
  coherent : g'.Coherent
  scopes : g'.scopes.map Scope.core = g.scopes.map Scope.core
  edges : ∀ e ∈ g.edges, e ∈ g'.edges
  old : ∀ id n, g.node? id = some n → ∃ n', g'.node? id = some n' ∧ n'.core = n.core
  new : ∀ id n', g'.node? id = some n' → (∃ n, g.node? id = some n ∧ n'.core = n.core) ∨
    n'.core = sharedNode n'.name

section Finishing

variable {g g' g'' : Graph} {sc : String} {a b : NodeId}

theorem Finishing.refl (hg : g.Coherent) : Finishing g g :=
  ⟨hg, rfl, fun _ he => he, fun _ n hn => ⟨n, hn, rfl⟩, fun _ n hn => Or.inl ⟨n, hn, rfl⟩⟩

theorem Finishing.trans (h : Finishing g g') (h' : Finishing g' g'') : Finishing g g'' := by
  refine ⟨h'.coherent, h'.scopes.trans h.scopes, fun e he => h'.edges e (h.edges e he), ?_, ?_⟩
  · intro id n hn
    obtain ⟨n', hn', hcore⟩ := h.old id n hn
    obtain ⟨n'', hn'', hcore'⟩ := h'.old id n' hn'
    exact ⟨n'', hn'', hcore'.trans hcore⟩
  · intro id n'' hn''
    rcases h'.new id n'' hn'' with ⟨n', hn', hcore'⟩ | hshared
    · rcases h.new id n' hn' with ⟨n, hn, hcore⟩ | hshared
      · exact Or.inl ⟨n, hn, hcore'.trans hcore⟩
      · right
        rw [hcore', hshared]
        have hname : n''.core.name = n'.core.name := congrArg FlowNode.name hcore'
        exact congrArg sharedNode hname.symm
    · exact Or.inr hshared

theorem scope?_core (h : g'.scopes.map Scope.core = g.scopes.map Scope.core) (name : String) :
    (g'.scope? name).map Scope.core = (g.scope? name).map Scope.core := by
  have hfind (scopes : List Scope) : (scopes.find? (·.name = name)).map Scope.core =
      (scopes.map Scope.core).find? (·.name = name) := by
    rw [List.find?_map]
    rfl
  rw [scope?, scope?, hfind, hfind, h]

theorem Finishing.scopeNames (h : Finishing g g') : g'.scopeNames = g.scopeNames := by
  have hnames := congrArg (List.map Scope.name) h.scopes
  simpa [Graph.scopeNames, Scope.core, Function.comp_def] using hnames

/-- A scope keeps its nodes, its entries and its call sites. -/
theorem Finishing.scope (h : Finishing g g') {name : String} {s : Scope}
    (hs : g.scope? name = some s) : ∃ s', g'.scope? name = some s' ∧ s'.core = s.core := by
  have hcore := scope?_core h.scopes name
  rw [hs] at hcore
  obtain ⟨s', hs', heq⟩ := Option.map_eq_some_iff.mp hcore
  exact ⟨s', hs', heq⟩

theorem Finishing.owns (h : Finishing g g') {id : NodeId} (hid : g.Owns sc id) :
    g'.Owns sc id := by
  obtain ⟨s, hs, hmem⟩ := hid
  obtain ⟨s', hs', hcore⟩ := h.scope hs
  have hnodes : s'.core.nodes = s.core.nodes := congrArg Scope.nodes hcore
  exact ⟨s', hs', hnodes.symm ▸ hmem⟩

theorem Finishing.keeps (h : Finishing g g') : g.Keeps g' := by
  refine ⟨fun sc id hid => h.owns hid, ?_⟩
  intro id n hn
  obtain ⟨n', hn', hcore⟩ := h.old id n hn
  have hkind : n'.core.kind = n.core.kind := congrArg FlowNode.kind hcore
  exact ⟨n', hn', hkind⟩

theorem core_modifyScope {name : String} {f : Scope → Scope}
    (hf : ∀ s, (f s).core = s.core) :
    (g.modifyScope name f).scopes.map Scope.core = g.scopes.map Scope.core := by
  simp only [modifyScope, List.map_map]
  apply List.map_congr_left
  intro s _
  by_cases h : s.name = name
  · simp [h, hf]
  · simp [h]

theorem Coherent.finishing_addEdge (hg : g.Coherent) {s : Scope} (hs : g.scope? sc = some s)
    (he : Edge.Attached ⟨a, b⟩ g s) :
    Finishing g (g.addEdge sc a b) := by
  refine ⟨hg.addEdge hs he, core_modifyScope fun _ => rfl, ?_, fun _ n hn => ⟨n, hn, rfl⟩,
    fun _ n hn => Or.inl ⟨n, hn, rfl⟩⟩
  exact fun e he => (mem_edges_addEdge g sc a b e).mpr (Or.inr he)

/-- Marks, constants and shared nodes leave all scopes as they are. -/
theorem Coherent.finishing (hg : g.Coherent) (hscopes : g'.scopes = g.scopes)
    (hedges : g'.edges = g.edges)
    (hold : ∀ id n, g.node? id = some n → ∃ n', g'.node? id = some n' ∧ n'.core = n.core)
    (hnew : ∀ id n', g'.node? id = some n' → (∃ n, g.node? id = some n ∧ n'.core = n.core) ∨
      n'.core = sharedNode n'.name)
    (hglobals : ∀ name id, (name, id) ∈ g'.globals →
      (name, id) ∈ g.globals ∨ g'.node? id = some (sharedNode name)) : Finishing g g' := by
  have hscope (name : String) : g'.scope? name = g.scope? name := by rw [scope?, scope?, hscopes]
  have hkeeps : g.KeepsOwners g' := fun id n hn => by
    obtain ⟨n', hn', hcore⟩ := hold id n hn
    exact ⟨n', hn', FlowNode.scope_of_core hcore⟩
  have howned {id : NodeId} {n' : FlowNode} {sc : String} (hn' : g'.node? id = some n')
      (hown : n'.scope = some sc) : ∃ n, g.node? id = some n ∧ n.scope = some sc := by
    rcases hnew id n' hn' with ⟨n, hn, hcore⟩ | hshared
    · exact ⟨n, hn, (FlowNode.scope_of_core hcore).symm.trans hown⟩
    · cases (congrArg FlowNode.scope hshared).symm.trans hown
  refine ⟨⟨?_, ?_, ?_, ?_, ?_, ?_⟩, by rw [hscopes], fun e he => hedges ▸ he, hold, hnew⟩
  · rw [scopeNames, hscopes]
    exact hg.names
  · intro name s hs
    rw [hscope] at hs
    exact (hg.scopes name s hs).frame hkeeps (fun _ _ hn' hown => howned hn' hown)
      fun e he => hedges ▸ he
  · intro id n' sc hn' hown
    obtain ⟨n, hn, hown⟩ := howned hn' hown
    rw [scopeNames, hscopes]
    exact hg.owned id n sc hn hown
  · intro e he
    obtain ⟨name, s, hs, hmem⟩ := hg.edges e (hedges ▸ he)
    exact ⟨name, s, (hscope name).trans hs, hmem⟩
  · intro name id hentry
    rcases hglobals name id hentry with hentry | hn
    · obtain ⟨n, hn, hnone, hname⟩ := hg.globals name id hentry
      obtain ⟨n', hn', hcore⟩ := hold id n hn
      exact ⟨n', hn', (FlowNode.scope_of_core hcore).trans hnone,
        (congrArg FlowNode.name hcore).trans hname⟩
    · exact ⟨_, hn, rfl, rfl⟩
  · intro id n' o hn' ho
    rcases hnew id n' hn' with ⟨n, hn, hcore⟩ | hshared
    · exact hg.origins id n o hn ((congrArg FlowNode.origin hcore).symm.trans ho)
    · cases (congrArg FlowNode.origin hshared).symm.trans ho

theorem Coherent.finishing_modifyNode (hg : g.Coherent) (id : NodeId) {f : FlowNode → FlowNode}
    (hf : ∀ n, (f n).core = n.core) : Finishing g (g.modifyNode id f) := by
  refine hg.finishing rfl rfl ?_ ?_ fun _ _ => Or.inl
  · intro other n hn
    rw [node?_modifyNode]
    split
    · exact ⟨f n, by rw [hn]; rfl, hf n⟩
    · exact ⟨n, hn, rfl⟩
  · intro other n' hn'
    rw [node?_modifyNode] at hn'
    split at hn'
    · obtain ⟨n, hn, rfl⟩ := Option.map_eq_some_iff.mp hn'
      exact Or.inl ⟨n, hn, hf n⟩
    · exact Or.inl ⟨n', hn', rfl⟩

theorem global_eq (g : Graph) (name : String) :
    (∃ id, g.globals.lookup name = some id ∧ g.global name = (id, g)) ∨
      g.globals.lookup name = none ∧
      g.global name =
        (g.size, { g.push (sharedNode name) with globals := g.globals ++ [(name, g.size)] }) := by
  unfold global
  cases h : g.globals.lookup name with
  | some id => exact Or.inl ⟨id, rfl, rfl⟩
  | none => exact Or.inr ⟨rfl, rfl⟩

/-- A memory word belongs to no scope. -/
theorem Coherent.global (hg : g.Coherent) (name : String) :
    Finishing g (g.global name).2 ∧ (g.global name).2.IsShared (g.global name).1 := by
  rcases global_eq g name with ⟨id, hlookup, heq⟩ | ⟨_, heq⟩
  · rw [heq]
    obtain ⟨n, hn, hnone, _⟩ := hg.globals name id (mem_of_lookup_eq_some hlookup)
    exact ⟨Finishing.refl hg, n, hn, hnone⟩
  · rw [heq]
    let added : Graph := { g.push (sharedNode name) with globals := g.globals ++ [(name, g.size)] }
    have hnode (other : NodeId) :
        added.node? other = if other = g.size then some (sharedNode name) else g.node? other :=
      node?_push g _ other
    have hword : added.node? g.size = some (sharedNode name) := by rw [hnode, if_pos rfl]
    refine ⟨hg.finishing rfl rfl ?_ ?_ ?_, _, hword, rfl⟩
    · intro other n hn
      exact ⟨n, by rw [hnode, if_neg (Nat.ne_of_lt (lt_size_of_node? hn)), hn], rfl⟩
    · intro other n hn
      rw [hnode] at hn
      split at hn
      · cases hn
        exact Or.inr rfl
      · exact Or.inl ⟨n, hn, rfl⟩
    · intro other id hentry
      rcases List.mem_append.mp hentry with hentry | hentry
      · exact Or.inl hentry
      · cases List.mem_singleton.mp hentry
        exact Or.inr hword

theorem Finishing.isShared (h : Finishing g g') {id : NodeId} (hid : g.IsShared id) :
    g'.IsShared id := by
  refine hid.kept fun other n hn => ?_
  obtain ⟨n', hn', hcore⟩ := h.old other n hn
  exact ⟨n', hn', FlowNode.scope_of_core hcore⟩

/-- An edge of a scope from one of its nodes. -/
theorem Coherent.finishing_edge_from (hg : g.Coherent) (ha : g.Owns sc a)
    (hb : g.Owns sc b ∨ g.IsShared b) : Finishing g (g.addEdge sc a b) := by
  obtain ⟨s, hs, hmem⟩ := ha
  refine hg.finishing_addEdge hs ⟨Or.inl hmem, ?_, Or.inl hmem⟩
  exact hb.imp_left fun h => h.mem hs

/-- An edge of a scope to one of its nodes. -/
theorem Coherent.finishing_edge_to (hg : g.Coherent) (ha : g.Owns sc a ∨ g.IsShared a)
    (hb : g.Owns sc b) : Finishing g (g.addEdge sc a b) := by
  obtain ⟨s, hs, hmem⟩ := hb
  refine hg.finishing_addEdge hs ⟨?_, Or.inl hmem, Or.inr hmem⟩
  exact ha.imp_left fun h => h.mem hs

theorem Finishing.foldl {α : Type} {f : Graph → α → Graph} (items : List α) (hg : g.Coherent)
    (hf : ∀ x ∈ items, ∀ g', Finishing g g' → Finishing g' (f g' x)) :
    Finishing g (items.foldl f g) := by
  have hfold (rest : List α) (hsub : ∀ x ∈ rest, x ∈ items) (g' : Graph) (h : Finishing g g') :
      Finishing g (rest.foldl f g') := by
    induction rest generalizing g' with
    | nil => exact h
    | cons x rest ih =>
      refine ih (fun y hy => hsub y (List.mem_cons_of_mem _ hy)) _ ?_
      exact h.trans (hf x (hsub x List.mem_cons_self) g' h)
  exact hfold items (fun _ hx => hx) g (Finishing.refl hg)

end Finishing

end Graph

namespace Memory

open YulTaint.Graph (Finishing)

variable {g : Graph} {sc : String}

theorem globals_spec (hg : g.Coherent) (names : List String) :
    Finishing g (globals g names).2 ∧
      ∀ id ∈ (globals g names).1, (globals g names).2.IsShared id := by
  induction names generalizing g with
  | nil => exact ⟨Finishing.refl hg, List.forall_mem_nil _⟩
  | cons name rest ih =>
    obtain ⟨hfirst, hshared⟩ := hg.global name
    obtain ⟨hrest, hall⟩ := ih hfirst.coherent
    refine ⟨hfirst.trans hrest, ?_⟩
    intro id hid
    rcases List.mem_cons.mp hid with rfl | hid
    · exact hrest.isShared hshared
    · exact hall id hid

theorem writeWord_finishing (hg : g.Coherent) {offsetVar valueVar block word : NodeId}
    (hoffset : g.Owns sc offsetVar) (hvalue : g.Owns sc valueVar) (hblock : g.Owns sc block)
    (hword : g.IsShared word) :
    Finishing g (writeWord sc offsetVar valueVar (some block) g word) := by
  have hfirst := hg.finishing_edge_from hvalue (Or.inr hword)
  have hsecond : Finishing (g.addEdge sc valueVar word)
      (if offsetVar = valueVar then g.addEdge sc valueVar word
        else (g.addEdge sc valueVar word).addEdge sc offsetVar word) := by
    split
    · exact Finishing.refl hfirst.coherent
    · exact hfirst.coherent.finishing_edge_from (hfirst.owns hoffset)
        (Or.inr (hfirst.isShared hword))
  have hboth := hfirst.trans hsecond
  exact hboth.trans
    (hboth.coherent.finishing_edge_from (hboth.owns hblock) (Or.inr (hboth.isShared hword)))

theorem store_eq (g : Graph) (scope : String) (offsetVar : NodeId) (offset width : Option Int)
    (valueVar : NodeId) (block : Option NodeId) :
    store g scope offsetVar offset width valueVar block =
      if (resolve g offset width).1 = [] then ([], (resolve g offset width).2)
      else
        let (words, g) := resolve g offset width
        let (all, g) := g.global anyRegion
        (words ++ [all], (words ++ [all]).foldl (writeWord scope offsetVar valueVar block) g) := by
  unfold store
  rcases resolve g offset width with ⟨words, g'⟩
  cases words with
  | nil => rfl
  | cons word rest => rfl

/-- A store adds memory words and attached edges only. -/
theorem store_finishing (hg : g.Coherent) {offsetVar valueVar block : NodeId}
    (offset width : Option Int) (hoffset : g.Owns sc offsetVar) (hvalue : g.Owns sc valueVar)
    (hblock : g.Owns sc block) :
    Finishing g (store g sc offsetVar offset width valueVar (some block)).2 := by
  obtain ⟨hwords, hshared⟩ := globals_spec hg (coverNames (cover offset width))
  rw [store_eq]
  split
  · exact hwords
  · obtain ⟨hall, hallShared⟩ := hwords.coherent.global anyRegion
    have hboth := hwords.trans hall
    refine hboth.trans (Finishing.foldl _ hall.coherent ?_)
    intro word hword g' hg'
    have hchain := hboth.trans hg'
    refine writeWord_finishing hg'.coherent (hchain.owns hoffset) (hchain.owns hvalue)
      (hchain.owns hblock) (hg'.isShared ?_)
    rcases List.mem_append.mp hword with hword | hword
    · exact hall.isShared (hshared word hword)
    · rw [List.mem_singleton.mp hword]
      exact hallShared

theorem readNodes_spec (hg : g.Coherent) {words : List NodeId}
    (hwords : ∀ id ∈ words, g.IsShared id) :
    Finishing g (readNodes g words).2 ∧
      ∀ id ∈ (readNodes g words).1, (readNodes g words).2.IsShared id := by
  unfold readNodes
  split
  · obtain ⟨hunknown, hshared⟩ := hg.global unknownRegion
    refine ⟨hunknown, ?_⟩
    intro id hid
    rcases List.mem_append.mp hid with hid | hid
    · exact hunknown.isShared (hwords id hid)
    · rw [List.mem_singleton.mp hid]
      exact hshared
  · obtain ⟨hall, hshared⟩ := hg.global anyRegion
    refine ⟨hall, ?_⟩
    intro id hid
    rw [List.mem_singleton.mp hid]
    exact hshared

theorem load_eq (g : Graph) (scope : String) (offsetVar : NodeId) (offset width : Option Int)
    (resultVar : NodeId) :
    load g scope offsetVar offset width resultVar =
      if (resolve g offset width).1 = [] then ([], (resolve g offset width).2)
      else
        let (words, g) := resolve g offset width
        let (read, g) := readNodes g words
        let g := read.foldl (fun g word => g.addEdge scope word resultVar) g
        (read, g.addEdge scope offsetVar resultVar) := by
  unfold load
  rcases resolve g offset width with ⟨words, g'⟩
  cases words with
  | nil => rfl
  | cons word rest => rfl

theorem load_finishing (hg : g.Coherent) {offsetVar resultVar : NodeId} (offset width : Option Int)
    (hoffset : g.Owns sc offsetVar) (hresult : g.Owns sc resultVar) :
    Finishing g (load g sc offsetVar offset width resultVar).2 := by
  obtain ⟨hwords, hshared⟩ := globals_spec hg (coverNames (cover offset width))
  rw [load_eq]
  split
  · exact hwords
  · obtain ⟨hread, hreadShared⟩ := readNodes_spec hwords.coherent hshared
    have hboth := hwords.trans hread
    have hedges := Finishing.foldl
      (f := fun g word => g.addEdge sc word resultVar) _ hread.coherent fun word hword g' hg' =>
        hg'.coherent.finishing_edge_to (Or.inr (hg'.isShared (hreadShared word hword)))
          ((hboth.trans hg').owns hresult)
    have hchain := hboth.trans hedges
    exact hchain.trans
      (hchain.coherent.finishing_edge_from (hchain.owns hoffset) (Or.inl (hchain.owns hresult)))

end Memory

namespace Builtin

/-- The operands that a builtin's effect refers to are among those that it
takes. -/
theorem effect_within : ∀ b ∈ table, (∀ i ∈ b.addresses, i < b.arity) ∧
    (∀ access ∈ b.reads, access.offset < b.arity) ∧
    ∀ access ∈ b.writes, access.offset < b.arity ∧ ∀ i ∈ access.value?, i < b.arity := by
  decide

theorem mem_table {name : String} {b : Builtin} (h : lookup? name = some b) : b ∈ table :=
  List.mem_of_find?_eq_some h

/-- The same for an application with the right number of operands. -/
theorem effectFor_within {name : String} (constants : List (Option Int)) {count : Nat}
    (h : ∀ b, lookup? name = some b → count = b.arity) :
    (∀ i ∈ (effectFor name constants).addresses, i < count) ∧
      (∀ access ∈ (effectFor name constants).reads, access.offset < count) ∧
      ∀ access ∈ (effectFor name constants).writes,
        access.offset < count ∧ ∀ i ∈ access.value?, i < count := by
  unfold effectFor
  cases hb : lookup? name with
  | some b =>
    rw [h b hb]
    exact effect_within b (mem_table hb)
  | none => simp [unknownEffect]

end Builtin

theorem Application.Fits.finishing {a : Application} {g g' : Graph} {sc : String}
    (ha : a.Fits g sc) (h : g.Finishing g') : a.Fits g' sc :=
  ⟨h.owns ha.node, fun id hid => h.keeps.ownsVariable (ha.operands id hid), h.owns ha.block,
    ha.arity⟩

theorem Application.Fits.operand {a : Application} {g : Graph} {sc : String} (ha : a.Fits g sc)
    {i : Nat} (hi : i < a.operands.length) : g.Owns sc (a.operands.getD i 0) := by
  rw [List.getD_eq_getElem?_getD, List.getElem?_eq_getElem hi]
  exact (ha.operands _ (List.getElem_mem hi)).owns

namespace Flow

open YulTaint.Graph (Finishing)

variable {g : Graph} {sc : String} {a : Application}

theorem setConstant_finishing (hg : g.Coherent) (entry : NodeId × Knowledge) :
    Finishing g (setConstant g entry) := by
  unfold setConstant
  split
  · exact hg.finishing_modifyNode _ fun _ => rfl
  · exact Finishing.refl hg

theorem markUntaintable_finishing (hg : g.Coherent) (id : NodeId) :
    Finishing g (markUntaintable g id) := by
  refine hg.finishing_modifyNode id fun n => ?_
  split
  · rfl
  · rfl

theorem applyRead_finishing (hg : g.Coherent) (ha : a.Fits g sc) (constants : List (Option Int))
    {access : MemoryAccess} (haccess : access.offset < a.operands.length) :
    Finishing g (applyRead sc a constants g access) :=
  Memory.load_finishing hg _ _ (ha.operand haccess) ha.node

theorem applyWrite_finishing (hg : g.Coherent) (ha : a.Fits g sc) (constants : List (Option Int))
    {access : MemoryAccess} (haccess : access.offset < a.operands.length)
    (hvalue : ∀ i ∈ access.value?, i < a.operands.length) :
    Finishing g (applyWrite sc a constants g access) := by
  refine Memory.store_finishing hg _ _ (ha.operand haccess) ?_ ha.block
  cases h : access.value? with
  | some i => exact ha.operand (hvalue i h)
  | none => exact ha.node

/-- An application adds no nodes but memory words. -/
theorem applyEffect_finishing (hg : g.Coherent) (ha : a.Fits g sc) :
    Finishing g (applyEffect sc g a) := by
  let constants := a.operands.map (constantOf g)
  let effect := Builtin.effectFor a.name constants
  obtain ⟨haddresses, hreads, hwrites⟩ := Builtin.effectFor_within constants ha.arity
  let g₁ := if effect.taints then
      a.operands.foldl (fun g operand => g.addEdge sc operand a.node) g
    else g
  have h₁ : Finishing g g₁ := by
    simp only [g₁]
    split
    · refine Finishing.foldl _ hg fun operand hoperand g' hg' => ?_
      exact hg'.coherent.finishing_edge_from (hg'.owns (ha.operands operand hoperand).owns)
        (Or.inl (hg'.owns ha.node))
    · exact Finishing.refl hg
  let g₂ := if effect.source then g₁.modifyNode a.node fun n => { n with isSource := true }
    else g₁
  have h₂ : Finishing g g₂ := by
    refine h₁.trans ?_
    simp only [g₂]
    split
    · exact h₁.coherent.finishing_modifyNode _ fun _ => rfl
    · exact Finishing.refl h₁.coherent
  let g₃ := effect.addresses.foldl (fun g index =>
    g.modifyNode (a.operands.getD index 0) fun n => { n with isProtected := true }) g₂
  have h₃ : Finishing g g₃ := h₂.trans (Finishing.foldl _ h₂.coherent fun index _ g' hg' =>
    hg'.coherent.finishing_modifyNode _ fun _ => rfl)
  let g₄ := effect.reads.foldl (applyRead sc a constants) g₃
  have h₄ : Finishing g g₄ := h₃.trans (Finishing.foldl _ h₃.coherent fun access haccess g' hg' =>
    applyRead_finishing hg'.coherent (ha.finishing (h₃.trans hg')) constants
      (hreads access haccess))
  exact h₄.trans (Finishing.foldl _ h₄.coherent fun access haccess g' hg' =>
    applyWrite_finishing hg'.coherent (ha.finishing (h₄.trans hg')) constants
      (hwrites access haccess).1 (hwrites access haccess).2)

theorem finishScope_finishing (hg : g.Coherent) {r : ScopeRecord} (hr : Records g r) :
    Finishing g (finishScope g r) := by
  let g₁ := (Constant.solve r.definitions).foldl setConstant g
  have h₁ : Finishing g g₁ := Finishing.foldl _ hg fun entry _ g' hg' =>
    setConstant_finishing hg'.coherent entry
  let g₂ := r.applications.foldl (applyEffect r.scope) g₁
  have h₂ : Finishing g g₂ := h₁.trans (Finishing.foldl _ h₁.coherent fun a ha g' hg' =>
    applyEffect_finishing hg'.coherent
      ((hr.applications a ha).finishing (h₁.trans hg')))
  exact h₂.trans (Finishing.foldl _ h₂.coherent fun id _ g' hg' =>
    markUntaintable_finishing hg'.coherent id)

theorem finishAll_finishing (hg : g.Coherent) (rs : List ScopeRecord)
    (hrs : ∀ r ∈ rs, Records g r) : Finishing g (rs.foldl finishScope g) :=
  Finishing.foldl rs hg fun r hr _ hg' =>
    finishScope_finishing hg'.coherent ((hrs r hr).mono hg'.keeps)

/-- A program that is accepted is walked to the end, and then finished. -/
theorem collect_eq_ok {program : Node} (h : collect program = .ok g) :
    ∃ rs s, walkProgram program { graph := {} } = .ok rs s ∧ g = rs.foldl finishScope s.graph := by
  unfold collect collectInto at h
  cases hwalk : walkProgram program { graph := {} } with
  | ok rs s =>
    simp only [hwalk] at h
    cases h
    exact ⟨rs, s, rfl, rfl⟩
  | error fault s =>
    simp only [hwalk] at h
    cases h

/-- A check of the flow graph passes only if there is one. -/
theorem exists_collect {program : Node} {p : Graph → Bool}
    (h : (collect program).toOption.any p) : ∃ g, collect program = .ok g ∧ p g = true := by
  cases hg : collect program with
  | error failure =>
    rw [hg] at h
    cases h
  | ok g =>
    rw [hg] at h
    exact ⟨g, rfl, h⟩

/-- In the graph of a program all sites are open and fit, and there are no copies. -/
theorem collected_of_collect {program : Node} (h : collect program = .ok g) : g.Collected := by
  obtain ⟨rs, s, hwalk, rfl⟩ := collect_eq_ok h
  obtain ⟨done, hstands, hempty, _, hrecords⟩ := walkProgram_spec hwalk
  have hwalked := hstands.walked
  have hfinish := finishAll_finishing hwalked.coherent rs hrecords
  refine ⟨hfinish.coherent, ?_, ?_⟩
  · intro name scope' hs' site hsite
    obtain ⟨scope, hs⟩ := Graph.mem_scopeNames.mp
      (hfinish.scopeNames ▸ Graph.mem_scopeNames.mpr ⟨scope', hs'⟩)
    obtain ⟨scope'', hs'', hcore⟩ := hfinish.scope hs
    cases hs'.symm.trans hs''
    have hsites : scope'.core.sites = scope.core.sites := congrArg Scope.sites hcore
    have hold : site ∈ scope.core.sites := hsites ▸ hsite
    obtain ⟨hopen, e, hknown, hcallee, hargs, hresults⟩ := hwalked.sites name scope hs site hold
    -- nothing is queued any more, so the callee has its scope
    have hdone : e ∈ done := by
      rcases hknown with hdone | ⟨f, hf, _⟩
      · exact hdone
      · rw [hempty] at hf
        exact absurd hf List.not_mem_nil
    obtain ⟨callee, hcs, hparams, hreturns⟩ := hstands.signed e hdone
    obtain ⟨callee', hcs', hcore'⟩ := hfinish.scope hcs
    have hparams' : callee'.core.params = callee.core.params := congrArg Scope.params hcore'
    have hreturns' : callee'.core.returns = callee.core.returns := congrArg Scope.returns hcore'
    refine ⟨hopen, callee', hcallee ▸ hcs', ?_, ?_⟩
    · exact hargs.trans (hparams.symm.trans (congrArg List.length hparams'.symm))
    · exact hresults.trans (hreturns.symm.trans (congrArg List.length hreturns'.symm))
  · intro id n' hn'
    rcases hfinish.new id n' hn' with ⟨n, hn, hcore⟩ | hcore
    · have hnew := hwalked.nodes id n hn
      refine ⟨(congrArg FlowNode.origin hcore).trans hnew.origin,
        (congrArg FlowNode.embedding hcore).trans hnew.embedding, ?_⟩
      have hscope : n'.core.scope = n.core.scope := congrArg FlowNode.scope hcore
      exact (congrArg FlowNode.callChain hcore).trans
        (hnew.callChain.trans (congrArg Option.toList hscope.symm))
    · refine ⟨congrArg FlowNode.origin hcore, congrArg FlowNode.embedding hcore, ?_⟩
      have hscope : n'.core.scope = none := congrArg FlowNode.scope hcore
      exact (congrArg FlowNode.callChain hcore).trans (congrArg Option.toList hscope.symm)

end Flow

end YulTaint
