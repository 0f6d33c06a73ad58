import Mathlib.Tactic
import YulTaint.Proofs.Flow.Finished

/-!
Graphs up to the names of their nodes. What is done to a graph after the walk
looks at ids, marks, edges and scopes, but never at the name of a node or at the
table of names of a scope; so two graphs that differ in nothing else stay so.
-/

namespace YulTaint

def FlowNode.nameless (n : FlowNode) : FlowNode :=
  { n with name := "" }

def Scope.nameless (s : Scope) : Scope :=
  { s with names := [] }

namespace Graph

/-- A graph without the names of its nodes and without its scopes' tables of
names. -/
def nameless (g : Graph) : Graph :=
  { g with
    nodes := g.nodes.map FlowNode.nameless
    scopes := g.scopes.map Scope.nameless }

variable {g g' : Graph}

@[simp]
theorem size_nameless (g : Graph) : g.nameless.size = g.size := by
  simp [nameless, size]

theorem node?_nameless (g : Graph) (id : NodeId) :
    g.nameless.node? id = (g.node? id).map FlowNode.nameless := by
  simp [nameless, node?]

theorem scope?_nameless (g : Graph) (name : String) :
    g.nameless.scope? name = (g.scope? name).map Scope.nameless := by
  rw [scope?, scope?, nameless, List.find?_map]
  rfl

theorem size_congr (h : g.nameless = g'.nameless) : g.size = g'.size := by
  rw [← size_nameless, h, size_nameless]

theorem globals_congr (h : g.nameless = g'.nameless) : g.globals = g'.globals := by
  change g.nameless.globals = g'.nameless.globals
  rw [h]

theorem edges_congr (h : g.nameless = g'.nameless) : g.edges = g'.edges := by
  change g.nameless.edges = g'.nameless.edges
  rw [h]

/-- A field of a node that is not its name. -/
theorem node?_congr (h : g.nameless = g'.nameless) {α : Type} {f : FlowNode → α}
    (hf : ∀ n, f n.nameless = f n) (id : NodeId) : (g.node? id).map f = (g'.node? id).map f := by
  have hmap (g : Graph) : (g.node? id).map f = (g.nameless.node? id).map f := by
    rw [node?_nameless, Option.map_map]
    exact congrArg (Option.map · _) (funext fun n => (hf n).symm)
  rw [hmap, h, ← hmap]

/-- The part of a scope that is not its table of names. -/
theorem scope?_congr (h : g.nameless = g'.nameless) {α : Type} {f : Scope → α}
    (hf : ∀ s, f s.nameless = f s) (name : String) :
    (g.scope? name).map f = (g'.scope? name).map f := by
  have hmap (g : Graph) : (g.scope? name).map f = (g.nameless.scope? name).map f := by
    rw [scope?_nameless, Option.map_map]
    exact congrArg (Option.map · _) (funext fun s => (hf s).symm)
  rw [hmap, h, ← hmap]

theorem scopes_congr (h : g.nameless = g'.nameless) {α : Type} {f : Scope → α}
    (hf : ∀ s, f s.nameless = f s) : g.scopes.map f = g'.scopes.map f := by
  have hmap (g : Graph) : g.scopes.map f = g.nameless.scopes.map f := by
    rw [nameless, List.map_map]
    exact congrArg (List.map · _) (funext fun s => (hf s).symm)
  rw [hmap, h, ← hmap]

theorem nameless_push (g : Graph) (n : FlowNode) :
    (g.push n).nameless = g.nameless.push n.nameless := by
  simp [nameless, push]

theorem nameless_modifyNode (g : Graph) (id : NodeId) {f : FlowNode → FlowNode}
    (hf : ∀ n, (f n).nameless = f n.nameless) :
    (g.modifyNode id f).nameless = g.nameless.modifyNode id f := by
  simp only [nameless, modifyNode]
  congr 1
  apply Array.ext_getElem?
  intro i
  simp only [Array.getElem?_map, Array.getElem?_modify]
  split <;> simp [Function.comp_def, hf]

theorem nameless_modifyScope (g : Graph) (name : String) {f f' : Scope → Scope}
    (hf : ∀ s, (f s).nameless = f' s.nameless) :
    (g.modifyScope name f).nameless = g.nameless.modifyScope name f' := by
  simp only [nameless, modifyScope, List.map_map]
  congr 1
  refine List.map_congr_left fun s _ => ?_
  simp only [Function.comp]
  by_cases hs : s.name = name
  · rw [if_pos hs, if_pos (by exact hs)]
    exact hf s
  · rw [if_neg hs, if_neg (by exact hs)]

theorem modifyNode_congr (h : g.nameless = g'.nameless) (id : NodeId) {f : FlowNode → FlowNode}
    (hf : ∀ n, (f n).nameless = f n.nameless) :
    (g.modifyNode id f).nameless = (g'.modifyNode id f).nameless := by
  rw [nameless_modifyNode g id hf, nameless_modifyNode g' id hf, h]

theorem modifyScope_congr (h : g.nameless = g'.nameless) (name : String) {f : Scope → Scope}
    (hf : ∀ s, (f s).nameless = f s.nameless) :
    (g.modifyScope name f).nameless = (g'.modifyScope name f).nameless := by
  rw [nameless_modifyScope g name hf, nameless_modifyScope g' name hf, h]

theorem addEdge_congr (h : g.nameless = g'.nameless) (sc : String) (a b : NodeId) :
    (g.addEdge sc a b).nameless = (g'.addEdge sc a b).nameless := by
  have hloose (g : Graph) : (g.addLooseEdge a b).nameless = g.nameless.addLooseEdge a b := rfl
  refine modifyScope_congr ?_ sc fun _ => rfl
  rw [hloose, hloose, h]

/-- What respects likeness does so when it is repeated. -/
theorem foldl_congr {α : Type} {f : Graph → α → Graph}
    (hf : ∀ {g g'} a, g.nameless = g'.nameless → (f g a).nameless = (f g' a).nameless)
    (items : List α) (h : g.nameless = g'.nameless) :
    (items.foldl f g).nameless = (items.foldl f g').nameless := by
  induction items generalizing g g' with
  | nil => exact h
  | cons a rest ih => exact ih (hf a h)

theorem addSite_congr (h : g.nameless = g'.nameless) (site : CallSite) :
    (g.addSite site).nameless = (g'.addSite site).nameless :=
  modifyScope_congr h _ fun _ => rfl

theorem addParam_congr (h : g.nameless = g'.nameless) (sc : String) (id : NodeId) :
    (g.addParam sc id).nameless = (g'.addParam sc id).nameless :=
  modifyScope_congr h _ fun _ => rfl

theorem addReturn_congr (h : g.nameless = g'.nameless) (sc : String) (id : NodeId) :
    (g.addReturn sc id).nameless = (g'.addReturn sc id).nameless :=
  modifyScope_congr h _ fun _ => rfl

/-- A name of a new node does not matter. -/
theorem addVariable_congr (h : g.nameless = g'.nameless) (sc name name' : String)
    (loc : Option Loc) :
    (g.addVariable sc name loc).nameless = (g'.addVariable sc name' loc).nameless := by
  have hadd (g : Graph) (name : String) : (g.addVariable sc name loc).nameless =
      (g.nameless.push { kind := .var, name := "", scope := some sc, callChain := [sc], loc }
        ).modifyScope sc fun s => { s with nodes := s.nodes ++ [g.nameless.size] } := by
    rw [addVariable, size_nameless, nameless_modifyScope, nameless_push]
    · rfl
    · exact fun s => rfl
  rw [hadd, hadd, h]

theorem addBlock_congr (h : g.nameless = g'.nameless) (sc name name' : String)
    (loc : Option Loc) :
    (g.addBlock sc name loc).nameless = (g'.addBlock sc name' loc).nameless := by
  have hadd (g : Graph) (name : String) : (g.addBlock sc name loc).nameless =
      (g.nameless.push { kind := .block, name := "", scope := some sc, callChain := [sc], loc }
        ).modifyScope sc fun s => { s with nodes := s.nodes ++ [g.nameless.size] } := by
    rw [addBlock, size_nameless, nameless_modifyScope, nameless_push]
    · rfl
    · exact fun s => rfl
  rw [hadd, hadd, h]

theorem nameless_putScope (scope : Scope) (scopes : List Scope) :
    (putScope scope scopes).map Scope.nameless =
      putScope scope.nameless (scopes.map Scope.nameless) := by
  induction scopes with
  | nil => rfl
  | cons s rest ih =>
    rw [putScope, List.map_cons, putScope]
    by_cases hs : s.name = scope.name
    · rw [if_pos hs, if_pos (by exact hs), List.map_cons]
    · rw [if_neg hs, if_neg (by exact hs), List.map_cons, ih]

theorem addScope_congr (h : g.nameless = g'.nameless) (sc : String) (loc : Option Loc) :
    (g.addScope sc loc).nameless = (g'.addScope sc loc).nameless := by
  have hnodes : g.nodes.map FlowNode.nameless = g'.nodes.map FlowNode.nameless :=
    congrArg Graph.nodes h
  have hscopes : g.scopes.map Scope.nameless = g'.scopes.map Scope.nameless :=
    congrArg Graph.scopes h
  simp only [addScope, nameless, push, Array.map_push, nameless_putScope, hnodes, hscopes,
    size_congr h, edges_congr h, globals_congr h]

theorem addCopy_congr (h : g.nameless = g'.nameless) {n n' : FlowNode}
    (hn : n.nameless = n'.nameless) (id : NodeId) (into name name' : String) (k : Int) :
    (g.addCopy n id into name k).nameless = (g'.addCopy n' id into name' k).nameless := by
  have hadd (g : Graph) (n : FlowNode) (name : String) : (g.addCopy n id into name k).nameless =
      (g.nameless.push { n.nameless with
        scope := some into, isTainted := false, origin := some id, embedding := some k,
        callChain := into :: n.nameless.callChain }).modifyScope into fun s =>
          { s with nodes := s.nodes ++ [g.nameless.size] } := by
    rw [addCopy, size_nameless, nameless_modifyScope, nameless_push]
    · rfl
    · exact fun s => rfl
  rw [hadd, hadd, h, hn]

theorem global_congr (h : g.nameless = g'.nameless) (name : String) :
    (g.global name).1 = (g'.global name).1 ∧
      (g.global name).2.nameless = (g'.global name).2.nameless := by
  simp only [global, globals_congr h]
  cases g'.globals.lookup name with
  | some id => exact ⟨rfl, h⟩
  | none =>
    refine ⟨size_congr h, ?_⟩
    have hnodes : g.nameless.nodes = g'.nameless.nodes := by rw [h]
    have hscopes : g.nameless.scopes = g'.nameless.scopes := by rw [h]
    simp only [nameless, push, Array.map_push] at hnodes hscopes ⊢
    rw [hnodes, hscopes, edges_congr h, size_congr h]

end Graph

namespace Memory

open YulTaint.Graph (foldl_congr addEdge_congr global_congr)

variable {g g' : Graph}

theorem globals_congr (h : g.nameless = g'.nameless) (names : List String) :
    (globals g names).1 = (globals g' names).1 ∧
      (globals g names).2.nameless = (globals g' names).2.nameless := by
  induction names generalizing g g' with
  | nil => exact ⟨rfl, h⟩
  | cons name rest ih =>
    obtain ⟨hid, hfirst⟩ := global_congr h name
    obtain ⟨hids, hrest⟩ := ih hfirst
    exact ⟨congrArg₂ List.cons hid hids, hrest⟩

theorem resolve_congr (h : g.nameless = g'.nameless) (offset width : Option Int) :
    (resolve g offset width).1 = (resolve g' offset width).1 ∧
      (resolve g offset width).2.nameless = (resolve g' offset width).2.nameless :=
  globals_congr h _

theorem readNodes_congr (h : g.nameless = g'.nameless) (words : List NodeId) :
    (readNodes g words).1 = (readNodes g' words).1 ∧
      (readNodes g words).2.nameless = (readNodes g' words).2.nameless := by
  have hknown : isKnown g words = isKnown g' words := by
    rw [isKnown, isKnown, Graph.globals_congr h]
  unfold readNodes
  rw [hknown]
  split
  · obtain ⟨hid, hnext⟩ := global_congr h unknownRegion
    exact ⟨congrArg (words ++ [·]) hid, hnext⟩
  · obtain ⟨hid, hnext⟩ := global_congr h anyRegion
    exact ⟨congrArg ([·]) hid, hnext⟩

theorem writeWord_congr (h : g.nameless = g'.nameless) (scope : String) (offsetVar valueVar : NodeId)
    (block : Option NodeId) (word : NodeId) :
    (writeWord scope offsetVar valueVar block g word).nameless =
      (writeWord scope offsetVar valueVar block g' word).nameless := by
  have hvalue := addEdge_congr h scope valueVar word
  unfold writeWord
  by_cases hsame : offsetVar = valueVar
  · simp only [if_pos hsame]
    cases block with
    | none => exact hvalue
    | some block => exact addEdge_congr hvalue scope block word
  · simp only [if_neg hsame]
    have hoffset := addEdge_congr hvalue scope offsetVar word
    cases block with
    | none => exact hoffset
    | some block => exact addEdge_congr hoffset scope block word

theorem store_congr (h : g.nameless = g'.nameless) (scope : String) (offsetVar : NodeId)
    (offset width : Option Int) (valueVar : NodeId) (block : Option NodeId) :
    (store g scope offsetVar offset width valueVar block).2.nameless =
      (store g' scope offsetVar offset width valueVar block).2.nameless := by
  obtain ⟨hwords, hnext⟩ := resolve_congr h offset width
  obtain ⟨hall, hnext'⟩ := global_congr hnext anyRegion
  rw [store_eq, store_eq]
  by_cases hnone : (resolve g' offset width).1 = []
  · rw [if_pos hnone, if_pos (hwords.trans hnone)]
    exact hnext
  · rw [if_neg hnone, if_neg fun h => hnone (hwords.symm.trans h)]
    simp only [hwords, hall]
    exact foldl_congr (fun word hg => writeWord_congr hg scope offsetVar valueVar block word) _
      hnext'

theorem load_congr (h : g.nameless = g'.nameless) (scope : String) (offsetVar : NodeId)
    (offset width : Option Int) (resultVar : NodeId) :
    (load g scope offsetVar offset width resultVar).2.nameless =
      (load g' scope offsetVar offset width resultVar).2.nameless := by
  obtain ⟨hwords, hnext⟩ := resolve_congr h offset width
  obtain ⟨hread, hnext'⟩ := readNodes_congr hnext (resolve g' offset width).1
  rw [load_eq, load_eq]
  by_cases hnone : (resolve g' offset width).1 = []
  · rw [if_pos hnone, if_pos (hwords.trans hnone)]
    exact hnext
  · rw [if_neg hnone, if_neg fun h => hnone (hwords.symm.trans h)]
    simp only [hwords, hread]
    exact addEdge_congr
      (foldl_congr (f := fun g word => g.addEdge scope word resultVar)
        (fun word hg => addEdge_congr hg scope word resultVar) _ hnext') scope offsetVar resultVar

end Memory

namespace Flow

open YulTaint.Graph (foldl_congr addEdge_congr modifyNode_congr)

variable {g g' : Graph}

theorem constantOf_congr (h : g.nameless = g'.nameless) (id : NodeId) :
    constantOf g id = constantOf g' id := by
  have hmap := Graph.node?_congr h (f := FlowNode.constant) (fun _ => rfl) id
  unfold constantOf
  cases hn : g.node? id <;> cases hn' : g'.node? id <;> simp_all

/-- What an application adds is found from the constants of its operands. -/
theorem applyEffect_congr (h : g.nameless = g'.nameless) (scope : String) (a : Application) :
    (applyEffect scope g a).nameless = (applyEffect scope g' a).nameless := by
  have hconstants : a.operands.map (constantOf g) = a.operands.map (constantOf g') :=
    List.map_congr_left fun id _ => constantOf_congr h id
  have hwrite (constants : List (Option Int)) {g g' : Graph} (access : MemoryAccess)
      (h : g.nameless = g'.nameless) : (applyWrite scope a constants g access).nameless =
        (applyWrite scope a constants g' access).nameless := Memory.store_congr h ..
  have hread (constants : List (Option Int)) {g g' : Graph} (access : MemoryAccess)
      (h : g.nameless = g'.nameless) : (applyRead scope a constants g access).nameless =
        (applyRead scope a constants g' access).nameless := Memory.load_congr h ..
  have hedges := foldl_congr (f := fun g operand => g.addEdge scope operand a.node)
    (fun operand hg => addEdge_congr hg scope operand a.node) a.operands h
  unfold applyEffect
  rw [hconstants]
  refine foldl_congr (hwrite _) _ (foldl_congr (hread _) _ ?_)
  refine foldl_congr ?_ _ ?_
  · intro g g' index hg
    exact modifyNode_congr hg _ fun _ => rfl
  split
  · refine modifyNode_congr ?_ _ fun _ => rfl
    split
    · exact hedges
    · exact h
  · split
    · exact hedges
    · exact h

theorem setConstant_congr (h : g.nameless = g'.nameless) (entry : NodeId × Knowledge) :
    (setConstant g entry).nameless = (setConstant g' entry).nameless := by
  unfold setConstant
  split
  · exact modifyNode_congr h _ fun _ => rfl
  · exact h

/-- The records of a scope are worked off in the same way. -/
theorem finishScope_congr (h : g.nameless = g'.nameless) (r : ScopeRecord) :
    (finishScope g r).nameless = (finishScope g' r).nameless := by
  have hconstants := foldl_congr (fun entry hg => setConstant_congr hg entry)
    (Constant.solve r.definitions) h
  have heffects := foldl_congr (fun a hg => applyEffect_congr hg r.scope a) r.applications
    hconstants
  have hnodes := Graph.scope?_congr heffects (f := Scope.nodes) (fun _ => rfl) r.scope
  have hmark {g g' : Graph} (id : NodeId) (h : g.nameless = g'.nameless) :
      (markUntaintable g id).nameless = (markUntaintable g' id).nameless := by
    refine modifyNode_congr h id fun n => ?_
    rw [apply_ite FlowNode.nameless]
    rfl
  simp only [finishScope, hnodes]
  exact foldl_congr hmark _ heffects

end Flow

end YulTaint
