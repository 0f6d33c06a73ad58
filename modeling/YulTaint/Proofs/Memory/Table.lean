import Mathlib.Tactic
import YulTaint.Proofs.Flow.Touch

/-!
The table of memory words is complete: it lists the shared nodes of the arena,
each once and in the order in which they were made. Finishing a scope changes a
graph in three ways only, by words, by edges and by marks, and each of them
keeps the table so. Embeddings make no shared nodes.
-/

namespace YulTaint

open Relation (ReflTransGen)

namespace Graph

variable {g g' : Graph}

def isSharedAt (g : Graph) (id : NodeId) : Bool :=
  (g.node? id).any (·.scope.isNone)

/-- The table of words lists the shared nodes, in the order of the arena. -/
def Tabled (g : Graph) : Prop :=
  g.globals.map (·.2) = (List.range g.size).filter g.isSharedAt

theorem isSharedAt_iff {id : NodeId} : g.isSharedAt id = true ↔ g.IsShared id := by
  simp only [isSharedAt, Option.any_eq_true, Option.isNone_iff_eq_none, IsShared]

theorem Tabled.mem_iff (h : g.Tabled) {id : NodeId} :
    id ∈ g.globals.map (·.2) ↔ g.IsShared id := by
  rw [h, List.mem_filter, List.mem_range, isSharedAt_iff]
  exact ⟨And.right, fun hid => ⟨hid.lt_size, hid⟩⟩

theorem Tabled.nodup (h : g.Tabled) : (g.globals.map (·.2)).Nodup := by
  rw [h]
  exact List.nodup_range.filter _

/-- Without a shared node the table is empty. -/
theorem tabled_of_owned (hglobals : g.globals = [])
    (howned : ∀ id n, g.node? id = some n → n.scope.isSome = true) : g.Tabled := by
  rw [Tabled, hglobals, List.map_nil, eq_comm, List.filter_eq_nil_iff]
  intro id _ hid
  obtain ⟨n, hn, hnone⟩ := isSharedAt_iff.mp hid
  have hsome := howned id n hn
  rw [hnone] at hsome
  cases hsome

theorem Tabled.addEdge (h : g.Tabled) (sc : String) (a b : NodeId) : (g.addEdge sc a b).Tabled :=
  h

theorem Tabled.modifyNode (h : g.Tabled) (id : NodeId) {f : FlowNode → FlowNode}
    (hf : ∀ n, (f n).core = n.core) : (g.modifyNode id f).Tabled := by
  have hsame : (g.modifyNode id f).isSharedAt = g.isSharedAt := by
    funext other
    rw [isSharedAt, isSharedAt, node?_modifyNode]
    split
    · cases g.node? other with
      | none => rfl
      | some n =>
        have hscope : (f n).core.scope = n.core.scope := congrArg FlowNode.scope (hf n)
        exact congrArg Option.isNone hscope
    · rfl
  rw [Tabled, size_modifyNode, hsame]
  exact h

/-- The new word comes last in the arena and in the table. -/
theorem Tabled.global (h : g.Tabled) (name : String) : (g.global name).2.Tabled := by
  rcases global_eq g name with ⟨id, _, heq⟩ | ⟨_, heq⟩
  · rw [heq]
    exact h
  · rw [heq]
    let added : Graph := { g.push (sharedNode name) with globals := g.globals ++ [(name, g.size)] }
    have hnode (id : NodeId) :
        added.node? id = if id = g.size then some (sharedNode name) else g.node? id :=
      node?_push g _ id
    have hold : (List.range g.size).filter added.isSharedAt =
        (List.range g.size).filter g.isSharedAt := by
      apply List.filter_congr
      intro id hid
      rw [isSharedAt, isSharedAt, hnode, if_neg (List.mem_range.mp hid).ne]
    have hlast : added.isSharedAt g.size = true := by
      rw [isSharedAt, hnode, if_pos rfl]
      rfl
    have hsize : added.size = g.size + 1 := size_push g _
    have hranges : (List.range added.size).filter added.isSharedAt =
        (List.range g.size).filter g.isSharedAt ++ [g.size] := by
      rw [hsize, List.range_succ, List.filter_append, hold, List.filter_singleton, hlast]
      rfl
    change (g.globals ++ [(name, g.size)]).map (·.2) = _
    rw [List.map_append, h]
    exact hranges.symm

/-- Growth of a scope adds nodes of that scope only. -/
theorem Tabled.growth {sc : String} (h : g.Tabled) (hgrowth : Growth sc g g') : g'.Tabled := by
  have hold : (List.range g.size).filter g'.isSharedAt =
      (List.range g.size).filter g.isSharedAt := by
    apply List.filter_congr
    intro id hid
    rw [isSharedAt, isSharedAt, hgrowth.old id (List.mem_range.mp hid)]
  have hnew : (List.range' g.size (g'.size - g.size)).filter g'.isSharedAt = [] := by
    rw [List.filter_eq_nil_iff]
    intro id hid hshared
    obtain ⟨n, hn, hnone⟩ := isSharedAt_iff.mp hshared
    have hscope := (hgrowth.new id n (List.mem_range'_1.mp hid).1 hn).1
    rw [hnone] at hscope
    cases hscope
  have hrange : List.range g'.size =
      List.range g.size ++ List.range' g.size (g'.size - g.size) := by
    have hsum : g'.size = g.size + (g'.size - g.size) := (Nat.add_sub_cancel' hgrowth.size).symm
    rw [List.range_eq_range', List.range_eq_range', hsum, ← List.range'_append_1]
    simp
  rw [Tabled, hgrowth.globals, hrange, List.filter_append, hold, hnew, List.append_nil]
  exact h

/-- One change of a graph while a scope is finished. The scope may get edges to
some nodes. -/
inductive Change (sc : String) (targets : NodeId → Prop) : Graph → Graph → Prop
  | edge (g : Graph) (a : NodeId) {b : NodeId} (hb : targets b) :
      Change sc targets g (g.addEdge sc a b)
  | word (g : Graph) (name : String) : Change sc targets g (g.global name).2
  | mark (g : Graph) (id : NodeId) {f : FlowNode → FlowNode} (hf : ∀ n, (f n).core = n.core) :
      Change sc targets g (g.modifyNode id f)

abbrev Changes (sc : String) (targets : NodeId → Prop) : Graph → Graph → Prop :=
  ReflTransGen (Change sc targets)

section Changes

variable {sc : String} {targets : NodeId → Prop}

theorem changes_foldl {α : Type} {f : Graph → α → Graph} (items : List α) (g : Graph)
    (hf : ∀ x ∈ items, ∀ g, Changes sc targets g (f g x)) :
    Changes sc targets g (items.foldl f g) := by
  induction items generalizing g with
  | nil => exact .refl
  | cons x rest ih =>
    exact (hf x List.mem_cons_self g).trans
      (ih (f g x) fun y hy => hf y (List.mem_cons_of_mem _ hy))

theorem Tabled.changes (h : g.Tabled) (hchanges : Changes sc targets g g') : g'.Tabled := by
  induction hchanges with
  | refl => exact h
  | tail _ hchange ih =>
    cases hchange with
    | edge a hb => exact ih.addEdge sc a _
    | word name => exact ih.global name
    | mark id hf => exact ih.modifyNode id hf

theorem scope?_global (g : Graph) (name other : String) :
    (g.global name).2.scope? other = g.scope? other := by
  rcases global_eq g name with ⟨_, _, heq⟩ | ⟨_, heq⟩
  · rw [heq]
  · rw [heq]
    rfl

/-- Other scopes stay as they are. -/
theorem Changes.others (h : Changes sc targets g g') {other : String} (hne : other ≠ sc) :
    g'.scope? other = g.scope? other := by
  induction h with
  | refl => rfl
  | tail _ hchange ih =>
    rw [← ih]
    cases hchange with
    | edge a hb => rw [scope?_addEdge, if_neg hne]
    | word name => exact scope?_global _ _ _
    | mark id hf => rfl

/-- New edges of the scope go to the given nodes. -/
theorem Changes.scope (h : Changes sc targets g g') {s : Scope} (hs : g.scope? sc = some s) :
    ∃ s', g'.scope? sc = some s' ∧ ∀ x ∈ s'.edges, x ∈ s.edges ∨ targets x.target := by
  induction h with
  | refl => exact ⟨s, hs, fun _ hx => Or.inl hx⟩
  | tail _ hchange ih =>
    obtain ⟨s', hs', hedges⟩ := ih
    cases hchange with
    | @edge a b hb =>
      refine ⟨_, (scope?_addEdge _ sc sc a b).trans (by rw [if_pos rfl, hs']; rfl), ?_⟩
      intro x hx
      rcases (mem_insertEdge _ _ _).mp hx with rfl | hx
      · exact Or.inr hb
      · exact hedges x hx
    | word name => exact ⟨s', (scope?_global _ _ _).trans hs', hedges⟩
    | mark id hf => exact ⟨s', hs', hedges⟩

end Changes

end Graph

namespace Memory

open YulTaint.Graph (Changes Change changes_foldl)

variable {sc : String} {targets : NodeId → Prop}

theorem changes_globals (names : List String) (g : Graph) :
    Changes sc targets g (globals g names).2 := by
  induction names generalizing g with
  | nil => exact .refl
  | cons name rest ih => exact .head (.word g name) (ih (g.global name).2)

theorem changes_writeWord (offsetVar valueVar : NodeId) (block : Option NodeId) (g : Graph)
    {word : NodeId} (hword : targets word) :
    Changes sc targets g (writeWord sc offsetVar valueVar block g word) := by
  have hvalue : Change sc targets g (g.addEdge sc valueVar word) := .edge g valueVar hword
  have hoffset : Changes sc targets g (if offsetVar = valueVar then g.addEdge sc valueVar word
      else (g.addEdge sc valueVar word).addEdge sc offsetVar word) := by
    split
    · exact .single hvalue
    · exact .tail (.single hvalue) (.edge _ offsetVar hword)
  cases block with
  | none => exact hoffset
  | some block => exact hoffset.tail (.edge _ block hword)

/-- A store may write any word. -/
theorem changes_store (g : Graph) (offsetVar : NodeId) (offset width : Option Int)
    (valueVar : NodeId) (block : Option NodeId) (hwords : ∀ word, targets word) :
    Changes sc targets g (store g sc offsetVar offset width valueVar block).2 := by
  have hresolve : Changes sc targets g (resolve g offset width).2 := changes_globals _ g
  rw [store_eq]
  split
  · exact hresolve
  · exact (hresolve.tail (.word _ anyRegion)).trans
      (changes_foldl _ _ fun word _ g => changes_writeWord offsetVar valueVar block g (hwords word))

theorem changes_readNodes (g : Graph) (words : List NodeId) :
    Changes sc targets g (readNodes g words).2 := by
  unfold readNodes
  split
  · exact .single (.word g unknownRegion)
  · exact .single (.word g anyRegion)

theorem changes_load (g : Graph) (offsetVar : NodeId) (offset width : Option Int)
    {resultVar : NodeId} (hresult : targets resultVar) :
    Changes sc targets g (load g sc offsetVar offset width resultVar).2 := by
  have hwords : Changes sc targets g (resolve g offset width).2 := changes_globals _ g
  rw [load_eq]
  split
  · exact hwords
  · refine ReflTransGen.tail ?_ (.edge _ offsetVar hresult)
    exact (hwords.trans (changes_readNodes _ _)).trans
      (changes_foldl _ _ fun word _ g => .single (.edge g word hresult))

end Memory

namespace Flow

open YulTaint.Graph (Changes Change changes_foldl)

variable {g : Graph} {sc : String} {targets : NodeId → Prop}

theorem changes_drawOperands {a : Application} (hnode : targets a.node) (e : Effect) (g : Graph) :
    Changes sc targets g (drawOperands sc a e g) := by
  unfold drawOperands
  split
  · exact changes_foldl _ g fun operand _ g => .single (.edge g operand hnode)
  · exact .refl

theorem changes_markSource (a : Application) (e : Effect) (g : Graph) :
    Changes sc targets g (markSource a e g) := by
  unfold markSource
  split
  · exact .single (.mark g a.node fun _ => rfl)
  · exact .refl

theorem changes_markAddresses (a : Application) (e : Effect) (g : Graph) :
    Changes sc targets g (markAddresses a e g) :=
  changes_foldl e.addresses g fun _ _ g => .single (.mark g _ fun _ => rfl)

/-- An application draws edges to its own node, and to words if it writes any. -/
theorem changes_applyEffect (g : Graph) {a : Application} (hnode : targets a.node)
    (hwrites : (effectOf g a).writes = [] ∨ ∀ word, targets word) :
    Changes sc targets g (applyEffect sc g a) := by
  rw [applyEffect_eq]
  have hoperands : Changes sc targets g (drawOperands sc a (effectOf g a) g) :=
    changes_drawOperands hnode (effectOf g a) g
  have hsource := hoperands.trans (changes_markSource a (effectOf g a) _)
  have haddresses := hsource.trans (changes_markAddresses a (effectOf g a) _)
  have hreads := haddresses.trans (changes_foldl (f := applyRead sc a (constantsOf g a))
    (effectOf g a).reads _ fun _ _ g => Memory.changes_load g _ _ _ hnode)
  rcases hwrites with hnone | hall
  · rw [hnone]
    exact hreads
  · exact hreads.trans
      (changes_foldl _ _ fun _ _ g => Memory.changes_store g _ _ _ _ _ hall)

theorem changes_setConstant (g : Graph) (entry : NodeId × Knowledge) :
    Changes sc targets g (setConstant g entry) := by
  unfold setConstant
  split
  · exact .single (.mark g entry.1 fun _ => rfl)
  · exact .refl

theorem changes_markUntaintable (g : Graph) (id : NodeId) :
    Changes sc targets g (markUntaintable g id) := by
  refine .single (.mark g id fun n => ?_)
  split
  · rfl
  · rfl

theorem changes_finishScope (g : Graph) (r : ScopeRecord)
    (hnodes : ∀ a ∈ r.applications, targets a.node)
    (hwrites : (∀ a ∈ r.applications, ∀ g, (effectOf g a).writes = []) ∨ ∀ word, targets word) :
    Changes r.scope targets g (finishScope g r) := by
  have hset : Changes r.scope targets g ((Constant.solve r.definitions).foldl setConstant g) :=
    changes_foldl _ g fun entry _ g => changes_setConstant g entry
  have happly := hset.trans (changes_foldl (f := applyEffect r.scope) r.applications _
    fun a ha g => changes_applyEffect g (hnodes a ha) (hwrites.imp_left fun h => h a ha g))
  exact happly.trans (changes_foldl _ _ fun id _ g => changes_markUntaintable g id)

/-- The graph of a program lists its memory words in the order of the arena. -/
theorem tabled_of_collect {program : Node} (h : collect program = .ok g) : g.Tabled := by
  obtain ⟨rs, s, hwalk, rfl⟩ := collect_eq_ok h
  obtain ⟨_, hstands, _⟩ := walkProgram_spec hwalk
  have hwalked := hstands.walked
  have hstart : s.graph.Tabled :=
    Graph.tabled_of_owned hwalked.globals fun id n hn => (hwalked.nodes id n hn).owned
  have hchanges (g : Graph) (r : ScopeRecord) :
      Changes r.scope (fun _ => True) g (finishScope g r) :=
    changes_finishScope g r (fun _ _ => trivial) (Or.inr fun _ => trivial)
  exact List.foldlRecOn rs finishScope hstart fun g hg r _ => hg.changes (hchanges g r)

end Flow

end YulTaint
