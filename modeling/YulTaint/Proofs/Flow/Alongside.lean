import Mathlib.Tactic
import YulTaint.Proofs.Flow.Confined
import YulTaint.Proofs.Flow.Extended
import YulTaint.Proofs.Memory.Table

/-!
Finishing the scopes of two graphs side by side. The second graph has one scope
more, and the nodes of the others at other places. Constants, marks and edges
then come out the same in the scopes that both graphs have: where an application
touches a memory word in one graph, it touches the word of the same name in the
other.
-/

namespace YulTaint

namespace Constant

def Assignment.move (f : NodeId → NodeId) (a : Assignment) : Assignment :=
  a.map fun entry => (f entry.1, entry.2)

section Move

variable {f : NodeId → NodeId} (hf : Function.Injective f)

include hf

theorem Assignment.get_move (a : Assignment) (id : NodeId) :
    (a.move f).get (f id) = a.get id := by
  rw [get, get, move, lookup_map hf fun k => k, Option.map_id']

theorem Assignment.set_move (a : Assignment) (id : NodeId) (k : Knowledge) :
    (a.move f).set (f id) k = (a.set id k).move f := by
  simp only [set, move, List.map_map]
  refine List.map_congr_left fun entry _ => ?_
  simp only [Function.comp_apply, hf.eq_iff]
  split <;> rfl

theorem Assignment.move_injective : Function.Injective (Assignment.move f) := by
  refine List.map_injective_iff.mpr ?_
  intro a b h
  obtain ⟨hkey, hvalue⟩ := Prod.mk.inj h
  exact Prod.ext (hf hkey) hvalue

theorem transfer_move (a : Assignment) (d : Definition) :
    transfer (a.move f) (d.move f) = transfer a d := by
  cases d with
  | constant => rfl
  | copy target source => exact a.get_move hf source
  | application target name operands =>
    simp only [Definition.move, transfer, List.map_map]
    exact congrArg _ (List.map_congr_left fun id _ => a.get_move hf id)
  | arbitrary => rfl

theorem raise_move (a : Assignment) (d : Definition) :
    raise (a.move f) (d.move f) = (raise a d).move f := by
  have htarget : (d.move f).target = f d.target := by cases d <;> rfl
  rw [raise, raise, htarget, a.get_move hf, transfer_move hf, a.set_move hf]

theorem round_move (ds : List Definition) (a : Assignment) :
    round (ds.map (Definition.move f)) (a.move f) = (round ds a).move f := by
  unfold round
  induction ds generalizing a with
  | nil => rfl
  | cons d rest ih => rw [List.map_cons, List.foldl_cons, List.foldl_cons, raise_move hf, ih]

theorem rounds_move (ds : List Definition) (bound : Nat) (a : Assignment) :
    rounds (ds.map (Definition.move f)) bound (a.move f) = (rounds ds bound a).move f := by
  induction bound generalizing a with
  | zero => rfl
  | succ bound ih =>
    simp only [rounds, round_move hf, (Assignment.move_injective hf).eq_iff]
    split
    · rfl
    · exact ih _

theorem start_move (ds : List Definition) :
    start (ds.map (Definition.move f)) = (start ds).move f := by
  have htargets : (ds.map (Definition.move f)).map (·.target) = (ds.map (·.target)).map f := by
    rw [List.map_map, List.map_map]
    exact List.map_congr_left fun d _ => by cases d <;> rfl
  rw [start, start, htargets, eraseDups_map hf, Assignment.move, List.map_map, List.map_map]
  rfl

theorem solve_move (ds : List Definition) :
    solve (ds.map (Definition.move f)) = (solve ds).move f := by
  rw [solve, solve, List.length_map, start_move hf, rounds_move hf]

end Move

end Constant

namespace Graph

/-- Nodes of two graphs that stand for each other: those of scopes, which the first
graph has before all memory words, and words of the same name. -/
def Paired (f : NodeId → NodeId) (size : Nat) (g g' : Graph) (a b : NodeId) : Prop :=
  (a < size ∧ b = f a) ∨
    ∃ word, g.globals.lookup word = some a ∧ g'.globals.lookup word = some b

end Graph

structure Scope.Alongside (R : NodeId → NodeId → Prop) (f : NodeId → NodeId) (s s' : Scope) :
    Prop where
  core : s'.core = s.core.move f
  left : ∀ x ∈ s.edges, ∃ y ∈ s'.edges, x.Matches R y
  right : ∀ y ∈ s'.edges, ∃ x ∈ s.edges, x.Matches R y

theorem Scope.Alongside.imp {R R' : NodeId → NodeId → Prop} {f : NodeId → NodeId} {s s' : Scope}
    (h : Scope.Alongside R f s s') (hR : ∀ a b, R a b → R' a b) : Scope.Alongside R' f s s' := by
  have himp {x y : Edge} (hxy : x.Matches R y) : x.Matches R' y :=
    ⟨hR _ _ hxy.1, hR _ _ hxy.2⟩
  refine ⟨h.core, fun x hx => ?_, fun y hy => ?_⟩
  · obtain ⟨y, hy, hxy⟩ := h.left x hx
    exact ⟨y, hy, himp hxy⟩
  · obtain ⟨x, hx, hxy⟩ := h.right y hy
    exact ⟨x, hx, himp hxy⟩

/-- Both scopes get an edge. -/
theorem Scope.Alongside.insertEdge {R : NodeId → NodeId → Prop} {f : NodeId → NodeId}
    {s s' : Scope} (h : Scope.Alongside R f s s') {x y : Edge} (hxy : x.Matches R y) :
    Scope.Alongside R f { s with edges := Graph.insertEdge x s.edges }
      { s' with edges := Graph.insertEdge y s'.edges } := by
  refine ⟨h.core, fun x' hx' => ?_, fun y' hy' => ?_⟩
  · rcases (Graph.mem_insertEdge _ _ _).mp hx' with rfl | hx'
    · exact ⟨y, (Graph.mem_insertEdge _ _ _).mpr (Or.inl rfl), hxy⟩
    · obtain ⟨y', hy', hmatch⟩ := h.left x' hx'
      exact ⟨y', (Graph.mem_insertEdge _ _ _).mpr (Or.inr hy'), hmatch⟩
  · rcases (Graph.mem_insertEdge _ _ _).mp hy' with rfl | hy'
    · exact ⟨x, (Graph.mem_insertEdge _ _ _).mpr (Or.inl rfl), hxy⟩
    · obtain ⟨x', hx', hmatch⟩ := h.right y' hy'
      exact ⟨x', (Graph.mem_insertEdge _ _ _).mpr (Or.inr hx'), hmatch⟩

namespace Graph

/-- Two graphs whose scopes are being finished, of which the second has a scope
more. -/
structure Alongside (new : String) (f : NodeId → NodeId) (size : Nat) (g g' : Graph) : Prop where
  le : size ≤ g.size
  nodes : ∀ id < size, g'.node? (f id) = g.node? id
  words : ∀ word id, g.globals.lookup word = some id → ∃ id', g'.globals.lookup word = some id'
  scopes : ∀ sc, sc ≠ new →
    Option.Rel (Scope.Alongside (Paired f size g g') f) (g.scope? sc) (g'.scope? sc)
  indexed : g.Indexed ∧ g'.Indexed

section Alongside

variable {new : String} {f : NodeId → NodeId} {size : Nat} {g g' h h' : Graph}

theorem Paired.own {id : NodeId} (hid : id < size) : Paired f size g g' id (f id) :=
  Or.inl ⟨hid, rfl⟩

theorem Paired.mono {a b : NodeId} (hab : Paired f size g g' a b) (hg : Retains g h)
    (hg' : Retains g' h') : Paired f size h h' a b := by
  rcases hab with hown | ⟨word, hword, hword'⟩
  · exact Or.inl hown
  · exact Or.inr ⟨word, hg.words word a hword, hg'.words word b hword'⟩

theorem Alongside.constantOf (hg : Alongside new f size g g') {id : NodeId} (hid : id < size) :
    Flow.constantOf g' (f id) = Flow.constantOf g id := by
  rw [Flow.constantOf, Flow.constantOf, hg.nodes id hid]

theorem Alongside.addEdge (hg : Alongside new f size g g') (sc : String) {a a' b b' : NodeId}
    (ha : Paired f size g g' a a') (hb : Paired f size g g' b b') :
    Alongside new f size (g.addEdge sc a b) (g'.addEdge sc a' b') := by
  refine ⟨hg.le, hg.nodes, hg.words, fun other hother => ?_,
    (extends_addEdge g sc a b).indexed hg.indexed.1,
    (extends_addEdge g' sc a' b').indexed hg.indexed.2⟩
  have hrel := hg.scopes other hother
  rw [scope?_addEdge, scope?_addEdge]
  split
  · generalize g.scope? other = s at hrel ⊢
    generalize g'.scope? other = s' at hrel ⊢
    cases hrel with
    | none => exact .none
    | some hs => exact .some (hs.insertEdge ⟨ha, hb⟩)
  · exact hrel

theorem lookup_global {word other : String} {id : NodeId}
    (hid : (g.global word).2.globals.lookup other = some id) :
    g.globals.lookup other = some id ∨ other = word := by
  rcases global_eq g word with ⟨_, _, heq⟩ | ⟨_, heq⟩
  · rw [heq] at hid
    exact Or.inl hid
  · rw [heq] at hid
    have hor : (g.globals ++ [(word, g.size)]).lookup other = some id := hid
    rw [List.lookup_append, Option.or_eq_some_iff] at hor
    refine hor.imp_right fun hnew => ?_
    exact congrArg Prod.fst (List.mem_singleton.mp (mem_of_lookup_eq_some hnew.2))

/-- The word of a name, in both graphs. -/
theorem Alongside.global (hg : Alongside new f size g g') (word : String) :
    Alongside new f size (g.global word).2 (g'.global word).2 ∧
      Paired f size (g.global word).2 (g'.global word).2 (g.global word).1 (g'.global word).1 := by
  obtain ⟨hext, hlookup⟩ := extends_global g word
  obtain ⟨hext', hlookup'⟩ := extends_global g' word
  refine ⟨⟨hg.le.trans hext.size, fun id hid => ?_, fun other id hid => ?_, fun sc hsc => ?_,
    hext.indexed hg.indexed.1, hext'.indexed hg.indexed.2⟩, Or.inr ⟨word, hlookup, hlookup'⟩⟩
  · have hlt : id < g.size := hid.trans_le hg.le
    obtain ⟨n, hn⟩ := node?_isSome hlt
    have hn' := hg.nodes id hid
    rw [hn] at hn'
    rw [hext.old id hlt, hn, hext'.old (f id) (lt_size_of_node? hn'), hn']
  · rcases lookup_global hid with hold | rfl
    · obtain ⟨id', hid'⟩ := hg.words other id hold
      exact ⟨id', hext'.words other id' hid'⟩
    · exact ⟨_, hlookup'⟩
  · have hrel := hg.scopes sc hsc
    rw [scope?_global, scope?_global]
    generalize g.scope? sc = s at hrel ⊢
    generalize g'.scope? sc = s' at hrel ⊢
    cases hrel with
    | none => exact .none
    | some hs => exact .some (hs.imp fun a b hab => hab.mono hext.toRetains hext'.toRetains)

theorem Alongside.modifyNode (hg : Alongside new f size g g') (hf : Function.Injective f)
    (id : NodeId) (F : FlowNode → FlowNode) :
    Alongside new f size (g.modifyNode id F) (g'.modifyNode (f id) F) := by
  refine ⟨?_, fun other hother => ?_, hg.words, hg.scopes, ⟨?_, hg.indexed.1.injective⟩,
    ⟨?_, hg.indexed.2.injective⟩⟩
  · rw [size_modifyNode]
    exact hg.le
  · rw [node?_modifyNode, node?_modifyNode, hg.nodes other hother]
    simp only [hf.eq_iff]
  · rw [size_modifyNode]
    exact hg.indexed.1.lt
  · rw [size_modifyNode]
    exact hg.indexed.2.lt

end Alongside

end Graph

namespace Memory

open YulTaint.Graph (Alongside Paired Retains extends_addEdge extends_global)

variable {new : String} {f : NodeId → NodeId} {size : Nat} {g g' h h' : Graph}

/-- The nodes of the same names. -/
theorem Named.paired {names : List String} {ids ids' : List NodeId} (hids : Named g names ids)
    (hids' : Named g' names ids') : List.Forall₂ (Paired f size g g') ids ids' := by
  induction hids generalizing ids' with
  | nil =>
    cases hids'
    exact .nil
  | cons hid _ ih =>
    cases hids' with
    | cons hid' hrest' => exact .cons (Or.inr ⟨_, hid, hid'⟩) (ih hrest')

theorem globals_alongside (hg : Alongside new f size g g') (names : List String) :
    Alongside new f size (globals g names).2 (globals g' names).2 := by
  induction names generalizing g g' with
  | nil => exact hg
  | cons name rest ih => exact ih (hg.global name).1

/-- Edges between nodes that stand for each other are drawn one after the other. -/
theorem foldl_alongside {F F' : Graph → NodeId → Graph}
    (hF : ∀ g word, Retains g (F g word)) (hF' : ∀ g word, Retains g (F' g word))
    (hstep : ∀ {g g' word word'}, Alongside new f size g g' → Paired f size g g' word word' →
      Alongside new f size (F g word) (F' g' word'))
    {ids ids' : List NodeId} (hids : List.Forall₂ (Paired f size g g') ids ids')
    (hg : Alongside new f size g g') :
    Alongside new f size (ids.foldl F g) (ids'.foldl F' g') := by
  let P (x x' : Graph) : Prop := Alongside new f size x x' ∧ Retains g x ∧ Retains g' x'
  have hall : P (ids.foldl F g) (ids'.foldl F' g') := by
    refine List.rel_foldl (P := P) ?_ ⟨hg, Retains.refl g, Retains.refl g'⟩ hids
    rintro x x' ⟨hx, hkept, hkept'⟩ word word' hword
    exact ⟨hstep hx (hword.mono hkept hkept'), hkept.trans (hF x word), hkept'.trans (hF' x' word')⟩
  exact hall.1

theorem writeWord_alongside (hf : Function.Injective f) (sc : String)
    {offsetVar valueVar block word word' : NodeId} (hoffset : offsetVar < size)
    (hvalue : valueVar < size) (hblock : block < size) (hg : Alongside new f size g g')
    (hword : Paired f size g g' word word') :
    Alongside new f size (writeWord sc offsetVar valueVar (some block) g word)
      (writeWord sc (f offsetVar) (f valueVar) (some (f block)) g' word') := by
  have hfirst := hg.addEdge sc (.own hvalue) hword
  refine Alongside.addEdge ?_ sc (.own hblock) ?_
  · simp only [hf.eq_iff]
    split
    · exact hfirst
    · exact hfirst.addEdge sc (.own hoffset) hword
  · simp only [hf.eq_iff]
    split
    · exact hword
    · exact hword

/-- A store does the same to both graphs. -/
theorem store_alongside (hf : Function.Injective f) (hg : Alongside new f size g g') (sc : String)
    {offsetVar valueVar block : NodeId} (hoffset : offsetVar < size) (hvalue : valueVar < size)
    (hblock : block < size) (offset width : Option Int) :
    Alongside new f size (store g sc offsetVar offset width valueVar (some block)).2
      (store g' sc (f offsetVar) offset width (f valueVar) (some (f block))).2 := by
  have hresolve : Alongside new f size (resolve g offset width).2 (resolve g' offset width).2 :=
    globals_alongside hg _
  have hnamed := (resolve_named g offset width).2
  have hnamed' := (resolve_named g' offset width).2
  rw [store_eq, store_eq]
  by_cases hnone : coverNames (cover offset width) = []
  · rw [if_pos (hnamed.eq_nil_iff.mpr hnone), if_pos (hnamed'.eq_nil_iff.mpr hnone)]
    exact hresolve
  · rw [if_neg fun h => hnone (hnamed.eq_nil_iff.mp h),
      if_neg fun h => hnone (hnamed'.eq_nil_iff.mp h)]
    obtain ⟨hall, hpair⟩ := hresolve.global anyRegion
    have hwords := (hnamed.paired hnamed').imp fun a b (hab : Paired f size _ _ a b) =>
      hab.mono (extends_global _ anyRegion).1.toRetains (extends_global _ anyRegion).1.toRetains
    exact foldl_alongside (fun g word => (extends_writeWord sc _ _ _ g word).toRetains)
      (fun g word => (extends_writeWord sc _ _ _ g word).toRetains)
      (writeWord_alongside hf sc hoffset hvalue hblock) (List.rel_append hwords (.cons hpair .nil))
      hall

theorem readNodes_alongside (hg : Alongside new f size g g') {c : Cover} {ids ids' : List NodeId}
    (hids : Named g (coverNames c) ids) (hids' : Named g' (coverNames c) ids') :
    Alongside new f size (readNodes g ids).2 (readNodes g' ids').2 ∧
      List.Forall₂ (Paired f size (readNodes g ids).2 (readNodes g' ids').2) (readNodes g ids).1
        (readNodes g' ids').1 := by
  have hknown := isKnown_iff hg.indexed.1 hids
  have hknown' := isKnown_iff hg.indexed.2 hids'
  unfold readNodes
  by_cases hc : c = .unknown
  · rw [if_neg fun h => hknown.mp h hc, if_neg fun h => hknown'.mp h hc]
    obtain ⟨hall, hpair⟩ := hg.global anyRegion
    exact ⟨hall, .cons hpair .nil⟩
  · rw [if_pos (hknown.mpr hc), if_pos (hknown'.mpr hc)]
    obtain ⟨hunknown, hpair⟩ := hg.global unknownRegion
    have hwords := (hids.paired hids').imp fun a b (hab : Paired f size g g' a b) =>
      hab.mono (extends_global g unknownRegion).1.toRetains
        (extends_global g' unknownRegion).1.toRetains
    exact ⟨hunknown, List.rel_append hwords (.cons hpair .nil)⟩

theorem load_alongside (hg : Alongside new f size g g') (sc : String)
    {offsetVar resultVar : NodeId} (hoffset : offsetVar < size) (hresult : resultVar < size)
    (offset width : Option Int) :
    Alongside new f size (load g sc offsetVar offset width resultVar).2
      (load g' sc (f offsetVar) offset width (f resultVar)).2 := by
  have hresolve : Alongside new f size (resolve g offset width).2 (resolve g' offset width).2 :=
    globals_alongside hg _
  have hnamed := (resolve_named g offset width).2
  have hnamed' := (resolve_named g' offset width).2
  rw [load_eq, load_eq]
  by_cases hnone : coverNames (cover offset width) = []
  · rw [if_pos (hnamed.eq_nil_iff.mpr hnone), if_pos (hnamed'.eq_nil_iff.mpr hnone)]
    exact hresolve
  · rw [if_neg fun h => hnone (hnamed.eq_nil_iff.mp h),
      if_neg fun h => hnone (hnamed'.eq_nil_iff.mp h)]
    obtain ⟨hread, hpairs⟩ := readNodes_alongside hresolve hnamed hnamed'
    refine Alongside.addEdge ?_ sc (.own hoffset) (.own hresult)
    exact foldl_alongside (fun g word => (extends_addEdge g sc word _).toRetains)
      (fun g word => (extends_addEdge g sc word _).toRetains)
      (fun hg hword => hg.addEdge sc hword (.own hresult)) hpairs hread

end Memory

structure Application.Below (a : Application) (size : Nat) : Prop where
  node : a.node < size
  operands : ∀ id ∈ a.operands, id < size
  block : a.block < size

theorem Application.Fits.below {a : Application} {g : Graph} {sc : String} (ha : a.Fits g sc)
    (hg : g.Coherent) : a.Below g.size := by
  have hlt {id : NodeId} (hid : g.Owns sc id) : id < g.size := by
    obtain ⟨s, hs, hmem⟩ := hid
    exact Graph.Coherent.lt_size (hg.scopes sc s hs) hmem
  exact ⟨hlt ha.node, fun id hid => hlt (ha.operands id hid).owns, hlt ha.block⟩

namespace Flow

open YulTaint.Graph (Alongside Paired Retains)

variable {new : String} {f : NodeId → NodeId} {size : Nat} {g g' : Graph} {a : Application}

/-- A move of the arena that leaves its first node in place. -/
structure IsMove (f : NodeId → NodeId) (size : Nat) : Prop where
  injective : Function.Injective f
  zero : f 0 = 0
  pos : 0 < size

section Move

variable (hf : IsMove f size)

include hf

theorem getD_move (a : Application) (i : Nat) :
    (a.move f).operands.getD i 0 = f (a.operands.getD i 0) := by
  rw [Application.move, List.getD_eq_getElem?_getD, List.getD_eq_getElem?_getD, List.getElem?_map]
  cases a.operands[i]? with
  | none => exact hf.zero.symm
  | some id => rfl

theorem getD_lt (ha : a.Below size) (i : Nat) : a.operands.getD i 0 < size := by
  rw [List.getD_eq_getElem?_getD]
  cases hi : a.operands[i]? with
  | none => exact hf.pos
  | some id => exact ha.operands id (List.mem_of_getElem? hi)

theorem applyRead_alongside (hg : Alongside new f size g g') (sc : String) (ha : a.Below size)
    (constants : List (Option Int)) (access : MemoryAccess) :
    Alongside new f size (applyRead sc a constants g access)
      (applyRead sc (a.move f) constants g' access) := by
  unfold applyRead
  rw [getD_move hf]
  exact Memory.load_alongside hg sc (getD_lt hf ha _) ha.node _ _

theorem applyWrite_alongside (hg : Alongside new f size g g') (sc : String) (ha : a.Below size)
    (constants : List (Option Int)) (access : MemoryAccess) :
    Alongside new f size (applyWrite sc a constants g access)
      (applyWrite sc (a.move f) constants g' access) := by
  unfold applyWrite
  rw [getD_move hf]
  cases access.value? with
  | none =>
    exact Memory.store_alongside hf.injective hg sc (getD_lt hf ha _) ha.node ha.block _ _
  | some index =>
    simp only [getD_move hf]
    exact Memory.store_alongside hf.injective hg sc (getD_lt hf ha _) (getD_lt hf ha _) ha.block
      _ _

/-- An application does the same to both graphs. -/
theorem applyEffect_alongside (hg : Alongside new f size g g') (sc : String) (ha : a.Below size) :
    Alongside new f size (applyEffect sc g a) (applyEffect sc g' (a.move f)) := by
  have hconstants : constantsOf g' (a.move f) = constantsOf g a := by
    rw [constantsOf, Application.move, List.map_map]
    exact List.map_congr_left fun id hid => hg.constantOf (ha.operands id hid)
  have heffect : effectOf g' (a.move f) = effectOf g a := by
    rw [effectOf, effectOf, hconstants]
    rfl
  rw [applyEffect_eq, applyEffect_eq, hconstants, heffect]
  have hdraw : Alongside new f size (drawOperands sc a (effectOf g a) g)
      (drawOperands sc (a.move f) (effectOf g a) g') := by
    unfold drawOperands
    split
    · rw [Application.move, List.foldl_map]
      refine foldl_both (P := Alongside new f size) a.operands (fun id hid x x' hx => ?_) hg
      exact hx.addEdge sc (.own (ha.operands id hid)) (.own ha.node)
    · exact hg
  have hsource : Alongside new f size
      (markSource a (effectOf g a) (drawOperands sc a (effectOf g a) g))
      (markSource (a.move f) (effectOf g a) (drawOperands sc (a.move f) (effectOf g a) g')) := by
    unfold markSource
    split
    · exact hdraw.modifyNode hf.injective _ _
    · exact hdraw
  have haddresses : Alongside new f size
      (markAddresses a (effectOf g a)
        (markSource a (effectOf g a) (drawOperands sc a (effectOf g a) g)))
      (markAddresses (a.move f) (effectOf g a)
        (markSource (a.move f) (effectOf g a) (drawOperands sc (a.move f) (effectOf g a) g'))) := by
    unfold markAddresses
    simp only [getD_move hf]
    refine foldl_both (P := Alongside new f size) _ (fun index _ x x' hx => ?_) hsource
    exact hx.modifyNode hf.injective _ _
  have hreads := foldl_both (P := Alongside new f size) (effectOf g a).reads
    (fun access _ _ _ hx => applyRead_alongside hf hx sc ha (constantsOf g a) access) haddresses
  exact foldl_both (P := Alongside new f size) (effectOf g a).writes
    (fun access _ _ _ hx => applyWrite_alongside hf hx sc ha (constantsOf g a) access) hreads

/-- Records of one scope: the same constants are found, and the same applications
made, at other nodes. -/
structure Echoes (f : NodeId → NodeId) (size : Nat) (r r' : ScopeRecord) : Prop where
  scope : r'.scope = r.scope
  solved : Constant.solve r'.definitions = (Constant.solve r.definitions).move f
  applications : r'.applications = r.applications.map (Application.move f)
  below : ∀ a ∈ r.applications, a.Below size

theorem setConstant_alongside (hg : Alongside new f size g g') (id : NodeId) (k : Knowledge) :
    Alongside new f size (setConstant g (id, k)) (setConstant g' (f id, k)) := by
  cases k with
  | constant value => exact hg.modifyNode hf.injective _ _
  | undefined => exact hg
  | varying => exact hg

omit hf in
theorem nodes_alongside (hg : Alongside new f size g g') {sc : String} (hsc : sc ≠ new) :
    ((g'.scope? sc).map (·.nodes)).getD [] = (((g.scope? sc).map (·.nodes)).getD []).map f := by
  have hrel := hg.scopes sc hsc
  generalize g.scope? sc = s at hrel ⊢
  generalize g'.scope? sc = s' at hrel ⊢
  cases hrel with
  | none => rfl
  | some hs => exact congrArg Scope.nodes hs.core

/-- The same scope is finished in both graphs. -/
theorem finishScope_alongside (hg : Alongside new f size g g') {r r' : ScopeRecord}
    (hr : Echoes f size r r') (hnew : r.scope ≠ new) :
    Alongside new f size (finishScope g r) (finishScope g' r') := by
  have hset : Alongside new f size (withConstants g r) (withConstants g' r') := by
    rw [withConstants, withConstants, hr.solved, Constant.Assignment.move, List.foldl_map]
    exact foldl_both (P := Alongside new f size) (Constant.solve r.definitions)
      (fun entry _ _ _ hx => setConstant_alongside hf hx entry.1 entry.2) hg
  have happly : Alongside new f size (withEffects g r) (withEffects g' r') := by
    rw [withEffects, withEffects, hr.scope, hr.applications, List.foldl_map]
    refine foldl_both (P := Alongside new f size) r.applications (fun a ha x x' hx => ?_) hset
    exact applyEffect_alongside hf hx r.scope (hr.below a ha)
  rw [finishScope_eq, finishScope_eq, hr.scope, nodes_alongside happly hnew, List.foldl_map]
  refine foldl_both (P := Alongside new f size) _ (fun id _ x x' hx => ?_) happly
  exact hx.modifyNode hf.injective id _

end Move

/-- A scope that only the second graph has is finished. -/
theorem finishNew_alongside (hg : Alongside new f size g g') (hcoherent : g'.Coherent)
    {r : ScopeRecord} (hr : Records g' r) (hscope : r.scope = new)
    (hothers : ∀ id n, g.node? id = some n → n.scope ≠ some new) :
    Alongside new f size g (finishScope g' r) := by
  have hmarks := (finishScope_marks hr).1
  refine ⟨hg.le, fun id hid => ?_, fun word id hid => ?_, fun sc hsc => ?_, hg.indexed.1,
    (finishScope_finishing hcoherent hr).coherent.indexed⟩
  · obtain ⟨n, hn⟩ := Graph.node?_isSome (hid.trans_le hg.le)
    have hn' := hg.nodes id hid
    rw [hn] at hn' ⊢
    exact (finishScope_confined hcoherent hr).others _ n hn' (hscope ▸ hothers id n hn)
  · obtain ⟨id', hid'⟩ := hg.words word id hid
    exact ⟨id', hmarks.words word id' hid'⟩
  · have hchanges : Graph.Changes r.scope (fun _ => True) g' (finishScope g' r) :=
      changes_finishScope g' r (fun _ _ => trivial) (Or.inr fun _ => trivial)
    have hrel := hg.scopes sc hsc
    rw [hchanges.others (hscope ▸ hsc)]
    generalize g.scope? sc = s at hrel ⊢
    generalize g'.scope? sc = s' at hrel ⊢
    cases hrel with
    | none => exact .none
    | some hs =>
      exact .some (hs.imp fun a b hab => hab.mono (Graph.Retains.refl g) hmarks.toRetains)

theorem echoes_move (hf : Function.Injective f) {r : ScopeRecord}
    (hr : ∀ a ∈ r.applications, a.Below size) : Echoes f size r (r.move f) :=
  ⟨rfl, Constant.solve_move hf _, rfl, hr⟩

/-- A record of nodes that stay in place. -/
theorem echoes_self {r : ScopeRecord} (hg : g.Coherent) (hr : Records g r) (hle : g.size ≤ size)
    (hsame : ∀ id < g.size, f id = id) : Echoes f size r r := by
  have hbelow (a : Application) (ha : a ∈ r.applications) := (hr.applications a ha).below hg
  refine ⟨rfl, ?_, ?_, fun a ha => ?_⟩
  · rw [Constant.Assignment.move, eq_comm]
    refine map_eq_self fun entry hentry => ?_
    have hkey : entry.1 ∈ (Constant.solve r.definitions).keys := List.mem_map_of_mem hentry
    rw [(Constant.solve_spec _).1, (eraseDups_spec _).2.1] at hkey
    obtain ⟨d, hd, htarget⟩ := List.mem_map.mp hkey
    have hlt := (hr.definitions d hd).owns.lt_size hg
    rw [htarget] at hlt
    exact Prod.ext (hsame _ hlt) rfl
  · rw [eq_comm]
    refine map_eq_self fun a ha => ?_
    have ha := hbelow a ha
    exact a.move_eq (hsame _ ha.node) (fun id hid => hsame id (ha.operands id hid))
      (hsame _ ha.block)
  · have ha := hbelow a ha
    exact ⟨ha.node.trans_le hle, fun id hid => (ha.operands id hid).trans_le hle,
      ha.block.trans_le hle⟩

/-- Before any scope is finished there are no words yet. -/
theorem alongside_of_inserts {start count : Nat} (hg : g.Coherent) (hg' : g'.Coherent)
    (hwords : g.globals = []) (h : Graph.Inserts new start count g g') :
    Alongside new (shiftFrom start count) g.size g g' := by
  refine ⟨Nat.le_refl _, fun id _ => h.nodes id, fun word id hid => ?_, fun sc hsc => ?_,
    hg.indexed, hg'.indexed⟩
  · rw [hwords] at hid
    cases hid
  · rw [h.scopes sc hsc]
    cases hs : g.scope? sc with
    | none => exact .none
    | some s =>
      have hend (id : NodeId) (hid : id ∈ s.nodes ∨ g.IsShared id) :
          Paired (shiftFrom start count) g.size g g' id (shiftFrom start count id) := by
        rcases hid with hid | hid
        · exact .own (Graph.Coherent.lt_size (hg.scopes sc s hs) hid)
        · exact .own hid.lt_size
      have hmatch (x : Edge) (hx : x ∈ s.edges) :
          x.Matches (Paired (shiftFrom start count) g.size g g')
            (x.map (shiftFrom start count)) := by
        have hatt := ((hg.scopes sc s hs).edges x hx).2
        exact ⟨hend _ hatt.source, hend _ hatt.target⟩
      refine .some ⟨rfl, fun x hx => ⟨_, List.mem_map_of_mem hx, hmatch x hx⟩, fun y hy => ?_⟩
      obtain ⟨x, hx, rfl⟩ := List.mem_map.mp hy
      exact ⟨x, hx, hmatch x hx⟩

/-- The graph of a program and that of the program with one function more. The
nodes of scopes come before the words. -/
theorem collect_alongside {name : String} {items : List Node} {loc : Loc} {e : FunctionEntry}
    (hname : e.scope = e.name) (hbody : e.body.functionCount = 0)
    (hcalls : .call e.name ∉ mentionsOf items) (hg : collect (.program name items loc) = .ok g)
    (hg' : collect (.program name (items ++ [e.node]) loc) = .ok g')
    (hfree : e.name ∉ g.scopeNames) :
    ∃ f size, Function.Injective f ∧ Alongside e.name f size g g' ∧
      ∀ id, id < size ↔ ∃ sc, g.Owns sc id := by
  obtain ⟨rs, t, hwalk, rfl⟩ := collect_eq_ok hg
  obtain ⟨rs', t', hwalk', rfl⟩ := collect_eq_ok hg'
  obtain ⟨done, hstands, _, hscopes, hrecords⟩ := walkProgram_spec hwalk
  obtain ⟨done', hstands', _, _, hrecords'⟩ := walkProgram_spec hwalk'
  have hcoherent := hstands.walked.coherent
  have hcoherent' := hstands'.walked.coherent
  have hfinish := finishAll_finishing hcoherent rs hrecords
  have hlacks : e.name ∉ t.graph.scopeNames := hfinish.scopeNames ▸ hfree
  have hother (r : ScopeRecord) (hr : r ∈ rs) : r.scope ≠ e.name := by
    rintro heq
    rw [hstands.walked.scopes, ← hscopes, ← heq] at hlacks
    exact hlacks (List.mem_map_of_mem hr)
  obtain ⟨start, count, first, rest, r, hinserts, hpos, rfl, rfl, hscope, g₀, hg₀, hsize, hfirst⟩ :=
    Mirror.walkProgram_extended hname hbody hcalls hwalk hwalk' hlacks
  rw [hname] at hinserts hscope
  have hmove : IsMove (shiftFrom start count) t.graph.size :=
    ⟨shiftFrom_injective, shiftFrom_of_lt hpos, hpos.trans_le hinserts.le⟩
  have hstart := alongside_of_inserts hcoherent hcoherent' hstands.walked.globals hinserts
  -- the records of the first scopes are the same
  have hbefore : Alongside e.name (shiftFrom start count) t.graph.size
      (first.foldl finishScope t.graph) (first.foldl finishScope t'.graph) := by
    refine foldl_both (P := Alongside e.name (shiftFrom start count) t.graph.size) first
      (fun r hr x x' hx => ?_) hstart
    refine finishScope_alongside hmove hx ?_ (hother r (List.mem_append_left _ hr))
    exact echoes_self hg₀ (hfirst r hr) (hsize ▸ hinserts.le)
      fun id hid => shiftFrom_of_lt (hsize ▸ hid)
  have hmiddle : Alongside e.name (shiftFrom start count) t.graph.size
      (first.foldl finishScope t.graph) (finishScope (first.foldl finishScope t'.graph) r) := by
    have hfirsts := finishAll_finishing hcoherent first
      fun r hr => hrecords r (List.mem_append_left _ hr)
    have hfirsts' := finishAll_finishing hcoherent' first
      fun r hr => hrecords' r (List.mem_append_left _ hr)
    have hr := hrecords' r (List.mem_append_right _ List.mem_cons_self)
    refine finishNew_alongside hbefore hfirsts'.coherent (hr.mono hfirsts'.keeps) hscope ?_
    intro id n hn hnew
    exact hlacks (hfirsts.scopeNames ▸ hfirsts.coherent.owned id n e.name hn hnew)
  refine ⟨shiftFrom start count, t.graph.size, shiftFrom_injective, ?_, fun id => ?_⟩
  · rw [List.foldl_append, List.foldl_append, List.foldl_cons, List.foldl_map]
    refine foldl_both (P := Alongside e.name (shiftFrom start count) t.graph.size) rest
      (fun r hr x x' hx => ?_) hmiddle
    have hmem : r ∈ first ++ rest := List.mem_append_right _ hr
    refine finishScope_alongside hmove hx (echoes_move shiftFrom_injective fun a ha => ?_)
      (hother r hmem)
    exact ((hrecords r hmem).applications a ha).below hcoherent
  · simp only [hfinish.owns_iff]
    constructor
    · intro hid
      obtain ⟨n, hn⟩ := Graph.node?_isSome hid
      obtain ⟨sc, hsc⟩ := Option.isSome_iff_exists.mp (hstands.walked.nodes id n hn).owned
      obtain ⟨s, hs⟩ := Graph.mem_scopeNames.mp (hcoherent.owned id n sc hn hsc)
      refine ⟨sc, s, hs, ((hcoherent.scopes sc s hs).owns id).mpr ⟨n, hn, ?_⟩⟩
      rw [hsc, Graph.name_of_scope? hs]
    · rintro ⟨sc, hid⟩
      exact hid.lt_size hcoherent

end Flow

end YulTaint
