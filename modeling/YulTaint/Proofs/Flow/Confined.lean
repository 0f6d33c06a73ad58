import Mathlib.Tactic
import YulTaint.Proofs.Flow.Applied

/-!
Which nodes change when a scope is finished. Only nodes of the scope do, and new
nodes are memory words without constant and marks; so what a scope's nodes look
like in the end is decided when that scope is finished. A node becomes a source
by an application that takes its value from outside, and every protected
constant of the scope is kept free of taint.
-/

namespace YulTaint

/-- A protected constant is kept free of taint. -/
def FlowNode.IsMarked (n : FlowNode) : Prop :=
  n.isProtected = true → n.constant.isSome = true → n.isUntaintable = true

namespace Graph

/-- A change of one scope's nodes; only some of them may become sources. -/
structure Confined (sc : String) (sources : NodeId → Prop) (g g' : Graph) : Prop where
  others : ∀ id n, g.node? id = some n → n.scope ≠ some sc → g'.node? id = some n
  own : ∀ id n, g.node? id = some n → ∃ n', g'.node? id = some n' ∧ n'.scope = n.scope ∧
    (n'.isSource = true → n.isSource = true ∨ sources id)
  new : ∀ id n, g.size ≤ id → g'.node? id = some n → n = sharedNode n.name

/-- A node that a scope owns by its own account. -/
def BelongsTo (g : Graph) (sc : String) (id : NodeId) : Prop :=
  ∃ n, g.node? id = some n ∧ n.scope = some sc

section Confined

variable {sc : String} {sources sources' : NodeId → Prop} {g g' g'' : Graph}

theorem Confined.refl (sc : String) (sources : NodeId → Prop) (g : Graph) :
    Confined sc sources g g := by
  refine ⟨fun _ _ hn _ => hn, fun id n hn => ⟨n, hn, rfl, Or.inl⟩, fun id n hge hn => ?_⟩
  exact absurd (lt_size_of_node? hn) (Nat.not_lt.mpr hge)

theorem Confined.trans (h : Confined sc sources g g') (h' : Confined sc sources g' g'') :
    Confined sc sources g g'' := by
  refine ⟨fun id n hn hsc => h'.others id n (h.others id n hn hsc) hsc, fun id n hn => ?_,
    fun id n hge hn => ?_⟩
  · obtain ⟨n', hn', hscope, hsource⟩ := h.own id n hn
    obtain ⟨n'', hn'', hscope', hsource'⟩ := h'.own id n' hn'
    exact ⟨n'', hn'', hscope'.trans hscope, fun hmark => (hsource' hmark).elim hsource Or.inr⟩
  · -- a new node is a memory word from the first, which no later change is about
    rcases Nat.lt_or_ge id g'.size with hlt | hge'
    · obtain ⟨n', hn'⟩ := node?_isSome hlt
      have hword := h.new id n' hge hn'
      have hsame := h'.others id n' hn' (by rw [hword]; exact fun heq => nomatch heq)
      cases hsame.symm.trans hn
      exact hword
    · exact h'.new id n hge' hn

theorem Confined.imp (h : Confined sc sources g g') (hsources : ∀ id, sources id → sources' id) :
    Confined sc sources' g g' := by
  refine ⟨h.others, fun id n hn => ?_, h.new⟩
  obtain ⟨n', hn', hscope, hsource⟩ := h.own id n hn
  exact ⟨n', hn', hscope, fun hmark => (hsource hmark).imp_right (hsources id)⟩

theorem BelongsTo.confined {id : NodeId} (h : g.BelongsTo sc id)
    (hconfined : Confined sc sources g g') : g'.BelongsTo sc id := by
  obtain ⟨n, hn, hscope⟩ := h
  obtain ⟨n', hn', hsame, _⟩ := hconfined.own id n hn
  exact ⟨n', hn', hsame.trans hscope⟩

theorem Extends.confined (h : Extends g g') : Confined sc sources g g' := by
  have hold {id : NodeId} {n : FlowNode} (hn : g.node? id = some n) : g'.node? id = some n := by
    rw [h.old id (lt_size_of_node? hn), hn]
  exact ⟨fun id n hn _ => hold hn, fun id n hn => ⟨n, hold hn, rfl, Or.inl⟩, h.new⟩

theorem BelongsTo.modifyNode {id : NodeId} (h : g.BelongsTo sc id) {f : FlowNode → FlowNode}
    (hscope : ∀ n, (f n).scope = n.scope)
    (hsource : ∀ n, (f n).isSource = true → n.isSource = true ∨ sources id) :
    Confined sc sources g (g.modifyNode id f) := by
  obtain ⟨m, hm, hown⟩ := h
  refine ⟨fun other n hn hsc => ?_, fun other n hn => ?_, fun other n hge hn => ?_⟩
  · rw [node?_modifyNode, if_neg, hn]
    rintro rfl
    cases hn.symm.trans hm
    exact hsc hown
  · rw [node?_modifyNode, hn]
    split
    · rename_i heq
      exact ⟨f n, rfl, hscope n, heq ▸ hsource n⟩
    · exact ⟨n, rfl, rfl, Or.inl⟩
  · rw [← size_modifyNode g id f] at hge
    exact absurd (lt_size_of_node? hn) (Nat.not_lt.mpr hge)

/-- A fold of changes to nodes that belong to the scope at the start. -/
theorem Confined.foldl {α : Type} {f : Graph → α → Graph} (items : List α) (g : Graph)
    (hf : ∀ x ∈ items, ∀ g', Confined sc sources g g' → Confined sc sources g' (f g' x)) :
    Confined sc sources g (items.foldl f g) := by
  have hrest (items : List α) (g' : Graph) (hg' : Confined sc sources g g')
      (hf : ∀ x ∈ items, ∀ g', Confined sc sources g g' → Confined sc sources g' (f g' x)) :
      Confined sc sources g (items.foldl f g') := by
    induction items generalizing g' with
    | nil => exact hg'
    | cons x rest ih =>
      exact ih (f g' x) (hg'.trans (hf x List.mem_cons_self g' hg'))
        fun y hy => hf y (List.mem_cons_of_mem _ hy)
  exact hrest items g (Confined.refl sc sources g) hf

end Confined

end Graph

namespace Flow

open YulTaint.Graph (BelongsTo Confined Extends)

variable {g g' : Graph} {sc : String} {a : Application} {r : ScopeRecord} {id : NodeId}
  {n : FlowNode}

/-- An application touches its own value and its operands. -/
theorem applyEffect_confined (hg : g.Coherent) (ha : a.Fits g sc) :
    Confined sc (fun id => id = a.node ∧ (effectOf g a).source = true) g (applyEffect sc g a) := by
  let P : NodeId → Prop := fun id => id = a.node ∧ (effectOf g a).source = true
  let e := effectOf g a
  let constants := constantsOf g a
  let g₁ := drawOperands sc a e g
  let g₂ := markSource a e g₁
  let g₃ := markAddresses a e g₂
  let g₄ := e.reads.foldl (applyRead sc a constants) g₃
  obtain ⟨haddresses, _, _⟩ := Builtin.effectFor_within constants ha.arity
  have h₁ : Confined sc P g g₁ := (extends_drawOperands sc a e g).confined
  have h₂ : Confined sc P g₁ g₂ := by
    change Confined sc P g₁ (markSource a e g₁)
    unfold markSource
    split
    · rename_i hsource
      have hnode : g₁.BelongsTo sc a.node := BelongsTo.confined (ha.node.node hg) h₁
      exact hnode.modifyNode (fun _ => rfl) fun _ _ => Or.inr ⟨rfl, hsource⟩
    · exact Confined.refl sc P g₁
  have h₃ : Confined sc P g₂ g₃ := by
    refine Confined.foldl e.addresses g₂ fun i hi g' hg' => ?_
    have hoperand : g'.BelongsTo sc (a.operands.getD i 0) :=
      BelongsTo.confined ((ha.operand (haddresses i hi)).node hg) ((h₁.trans h₂).trans hg')
    exact hoperand.modifyNode (fun _ => rfl) fun _ hmark => Or.inl hmark
  have h₄ : Confined sc P g₃ g₄ :=
    (Extends.foldl (fun g' access => extends_applyRead constants access g') _ g₃).confined
  have h₅ : Confined sc P g₄ (applyEffect sc g a) :=
    (Extends.foldl (fun g' access => extends_applyWrite constants access g') _ g₄).confined
  exact (((h₁.trans h₂).trans h₃).trans h₄).trans h₅

def BecomesSource (g : Graph) (r : ScopeRecord) (id : NodeId) : Prop :=
  ∃ a ∈ r.applications, a.node = id ∧ (effectOf g a).source = true

theorem withConstants_confined (hg : g.Coherent) (hr : Records g r) (sources : NodeId → Prop) :
    Confined r.scope sources g (withConstants g r) := by
  refine Confined.foldl _ g fun entry hentry g' hg' => ?_
  have hkey : entry.1 ∈ (Constant.solve r.definitions).keys := List.mem_map_of_mem hentry
  rw [(Constant.solve_spec _).1, (eraseDups_spec _).2.1] at hkey
  obtain ⟨d, hd, htarget⟩ := List.mem_map.mp hkey
  have hown : g'.BelongsTo r.scope entry.1 :=
    BelongsTo.confined (htarget ▸ (hr.definitions d hd).owns.node hg) hg'
  unfold setConstant
  split
  · exact hown.modifyNode (fun _ => rfl) fun _ hmark => Or.inl hmark
  · exact Confined.refl r.scope sources g'

theorem applyEffects_confined (apps : List Application) (hg : g.Coherent)
    (happs : ∀ a ∈ apps, a.Fits g sc) :
    Confined sc (fun id => ∃ a ∈ apps, a.node = id ∧ (effectOf g a).source = true) g
      (apps.foldl (applyEffect sc) g) := by
  induction apps generalizing g with
  | nil => exact Confined.refl sc _ g
  | cons a rest ih =>
    have ha := happs a List.mem_cons_self
    have hfinish := applyEffect_finishing hg ha
    have hrest := ih hfinish.coherent fun b hb =>
      (happs b (List.mem_cons_of_mem _ hb)).finishing hfinish
    refine ((applyEffect_confined hg ha).imp ?_).trans (hrest.imp ?_)
    · rintro id ⟨rfl, hsource⟩
      exact ⟨a, List.mem_cons_self, rfl, hsource⟩
    · rintro id ⟨b, hb, hnode, hsource⟩
      refine ⟨b, List.mem_cons_of_mem _ hb, hnode, ?_⟩
      have hconstants := constantsOf_eq (a := b) fun id _ =>
        constantOf_touches (applyEffect_touches sc g ha.arity) id
      rwa [effectOf, hconstants] at hsource

theorem markAll_confined {ids : List NodeId} (hids : ∀ id ∈ ids, g.BelongsTo sc id)
    (sources : NodeId → Prop) : Confined sc sources g (ids.foldl markUntaintable g) := by
  refine Confined.foldl ids g fun id hid g' hg' => ?_
  refine ((hids id hid).confined hg').modifyNode (fun n => ?_) fun n hmark => Or.inl ?_
  · split <;> rfl
  · split at hmark <;> exact hmark

def withEffects (g : Graph) (r : ScopeRecord) : Graph :=
  r.applications.foldl (applyEffect r.scope) (withConstants g r)

theorem finishScope_eq (g : Graph) (r : ScopeRecord) :
    finishScope g r = ((((withEffects g r).scope? r.scope).map (·.nodes)).getD []).foldl
      markUntaintable (withEffects g r) := rfl

theorem withEffects_finishing (hg : g.Coherent) (hr : Records g r) :
    Graph.Finishing g (withEffects g r) := by
  have hset := withConstants_finishing hg r
  exact hset.trans (applyEffects_finishing r.applications hset.coherent
    fun a ha => (hr.applications a ha).finishing hset)

/-- To finish a scope changes no nodes of others. -/
theorem finishScope_confined (hg : g.Coherent) (hr : Records g r) :
    Confined r.scope (BecomesSource (withConstants g r) r) g (finishScope g r) := by
  have hset := withConstants_finishing hg r
  have happly : Confined r.scope (BecomesSource (withConstants g r) r) (withConstants g r)
      (withEffects g r) :=
    applyEffects_confined r.applications hset.coherent
      fun a ha => (hr.applications a ha).finishing hset
  rw [finishScope_eq]
  refine ((withConstants_confined hg hr _).trans happly).trans (markAll_confined ?_ _)
  intro id hid
  cases hs : (withEffects g r).scope? r.scope with
  | none =>
    rw [hs] at hid
    cases hid
  | some s =>
    rw [hs] at hid
    exact Graph.Owns.node ⟨s, hs, hid⟩ (withEffects_finishing hg hr).coherent

theorem node?_markUntaintable {other : NodeId} (hn : (markUntaintable g id).node? other = some n)
    (hold : other = id ∨ ∀ n, g.node? other = some n → n.IsMarked) : n.IsMarked := by
  rw [markUntaintable, Graph.node?_modifyNode] at hn
  split at hn
  · obtain ⟨m, _, rfl⟩ := Option.map_eq_some_iff.mp hn
    intro hprotected hconstant
    split
    · rfl
    · rename_i hmark
      simp only [if_neg hmark] at hprotected hconstant
      exact absurd (Bool.and_eq_true_iff.mpr ⟨hprotected, hconstant⟩) hmark
  · rename_i hne
    exact hold.resolve_left hne n hn

/-- Marked nodes stay so, and all of the list are marked in the end. -/
theorem isMarked_of_markAll {ids : List NodeId}
    (hn : (ids.foldl markUntaintable g).node? id = some n)
    (h : id ∈ ids ∨ ∀ n, g.node? id = some n → n.IsMarked) : n.IsMarked := by
  induction ids generalizing g with
  | nil => exact h.resolve_left List.not_mem_nil n hn
  | cons other rest ih =>
    refine ih hn ?_
    rcases h with hmem | hmarked
    · rcases List.mem_cons.mp hmem with heq | hrest
      · exact Or.inr fun m hm => node?_markUntaintable hm (Or.inl heq)
      · exact Or.inl hrest
    · exact Or.inr fun m hm => node?_markUntaintable hm (Or.inr hmarked)

theorem finishScope_isMarked (hg : g.Coherent) (hr : Records g r) (hid : g.Owns r.scope id)
    (hn : (finishScope g r).node? id = some n) :
    n.IsMarked := by
  obtain ⟨s, hs, hmem⟩ := (withEffects_finishing hg hr).owns hid
  rw [finishScope_eq, hs] at hn
  exact isMarked_of_markAll hn (Or.inl hmem)

/-- A node gets exactly the constant that its entry gives. -/
theorem constantOf_foldl_setConstant {entries : Constant.Assignment} (hkeys : entries.keys.Nodup)
    (hn : g.node? id = some n) (hnone : n.constant = none) :
    constantOf (entries.foldl setConstant g) id = (entries.get id).value? := by
  induction entries generalizing g with
  | nil =>
    rw [List.foldl_nil, constantOf, hn]
    exact hnone
  | cons entry rest ih =>
    obtain ⟨other, k⟩ := entry
    obtain ⟨hfirst, hrest⟩ := List.nodup_cons.mp hkeys
    rw [List.foldl_cons, Constant.Assignment.get, List.lookup_cons]
    by_cases heq : id = other
    · subst heq
      rw [constantOf_setConstants hfirst, beq_self_eq_true]
      cases k with
      | constant value =>
        rw [setConstant, constantOf, Graph.node?_modifyNode, if_pos rfl, hn]
        rfl
      | undefined => rw [setConstant, constantOf, hn]; exact hnone
      | varying => rw [setConstant, constantOf, hn]; exact hnone
    · rw [beq_eq_false_iff_ne.mpr heq]
      refine ih hrest ?_
      unfold setConstant
      split
      · rw [Graph.node?_modifyNode, if_neg heq, hn]
      · exact hn

/-- Other scopes are finished, and a scope's nodes stay as they are. -/
theorem finishOthers_node? (rs : List ScopeRecord) (hg : g.Coherent) (hrs : ∀ r ∈ rs, Records g r)
    (hne : ∀ r ∈ rs, r.scope ≠ sc) (hn : g.node? id = some n) (hsc : n.scope = some sc) :
    (rs.foldl finishScope g).node? id = some n := by
  induction rs generalizing g with
  | nil => exact hn
  | cons r rest ih =>
    have hr := hrs r List.mem_cons_self
    have hfinish := finishScope_finishing hg hr
    refine ih hfinish.coherent
      (fun r' hr' => (hrs r' (List.mem_cons_of_mem _ hr')).mono hfinish.keeps)
      (fun r' hr' => hne r' (List.mem_cons_of_mem _ hr')) ?_
    refine (finishScope_confined hg hr).others id n hn fun heq => ?_
    exact hne r List.mem_cons_self (Option.some.inj (heq.symm.trans hsc))

/-- A scope's nodes are as they were until the scope is finished, and then stay as
they are. -/
theorem exists_finishScope_node? {rs : List ScopeRecord} (hg : g.Coherent)
    (hrs : ∀ r ∈ rs, Records g r) (hdistinct : (rs.map (·.scope)).Nodup) {r : ScopeRecord}
    (hr : r ∈ rs) :
    ∃ g₁, g₁.Coherent ∧ Records g₁ r ∧ ∀ id, g.Owns r.scope id → g₁.Owns r.scope id ∧
      g₁.node? id = g.node? id ∧
      (rs.foldl finishScope g).node? id = (finishScope g₁ r).node? id := by
  obtain ⟨before, after, rfl⟩ := List.append_of_mem hr
  rw [List.map_append, List.map_cons, List.nodup_append, List.nodup_cons] at hdistinct
  obtain ⟨_, ⟨hafter, _⟩, hbefore⟩ := hdistinct
  have hfirsts (r' : ScopeRecord) (hr' : r' ∈ before) := hrs r' (List.mem_append_left _ hr')
  have hfirst := finishAll_finishing hg before hfirsts
  have hr₁ := (hrs r hr).mono hfirst.keeps
  have hscope := finishScope_finishing hfirst.coherent hr₁
  have hall := hfirst.trans hscope
  have hrest (r' : ScopeRecord) (hr' : r' ∈ after) :=
    (hrs r' (List.mem_append_right _ (List.mem_cons_of_mem _ hr'))).mono hall.keeps
  rw [List.foldl_append, List.foldl_cons]
  refine ⟨_, hfirst.coherent, hr₁, fun id hid => ⟨hfirst.owns hid, ?_, ?_⟩⟩
  · obtain ⟨n, hn, hown⟩ := hid.node hg
    rw [hn]
    refine finishOthers_node? before hg hfirsts (fun r' hr' => ?_) hn hown
    exact hbefore _ (List.mem_map_of_mem hr') _ List.mem_cons_self
  · obtain ⟨n, hn, hown⟩ := (hall.owns hid).node hscope.coherent
    rw [hn]
    refine finishOthers_node? after hscope.coherent hrest (fun r' hr' heq => ?_) hn hown
    exact hafter (heq ▸ List.mem_map_of_mem (f := ScopeRecord.scope) hr')

/-- A memory word has neither constant nor marks. -/
theorem finishAll_shared (rs : List ScopeRecord) (hg : g.Coherent) (hrs : ∀ r ∈ rs, Records g r)
    (hshared : ∀ id n, g.node? id = some n → n.scope = none → n = Graph.sharedNode n.name)
    (hn : (rs.foldl finishScope g).node? id = some n) (hnone : n.scope = none) :
    n = Graph.sharedNode n.name := by
  induction rs generalizing g with
  | nil => exact hshared id n hn hnone
  | cons r rest ih =>
    have hr := hrs r List.mem_cons_self
    have hfinish := finishScope_finishing hg hr
    have hconfined := finishScope_confined hg hr
    refine ih hfinish.coherent
      (fun r' hr' => (hrs r' (List.mem_cons_of_mem _ hr')).mono hfinish.keeps) ?_ hn
    intro id n hn hnone
    rcases Nat.lt_or_ge id g.size with hlt | hge
    · obtain ⟨m, hm⟩ := Graph.node?_isSome hlt
      obtain ⟨m', hm', hscope, _⟩ := hconfined.own id m hm
      cases hn.symm.trans hm'
      have hsame := hconfined.others id m hm (by rw [← hscope, hnone]; exact fun h => nomatch h)
      cases hn.symm.trans hsame
      exact hshared id n hm hnone
    · exact hconfined.new id n hge hn

/-- What the nodes of a scope look like in the graph of a program. -/
structure Marked (g : Graph) (r : ScopeRecord) : Prop where
  constants : ∀ id, g.Owns r.scope id →
    constantOf g id = ((Constant.solve r.definitions).get id).value?
  sources : ∀ id n, g.Owns r.scope id → g.node? id = some n → n.isSource = true →
    BecomesSource g r id
  untaintable : ∀ id n, g.Owns r.scope id → g.node? id = some n → n.IsMarked

/-- The constants and marks of a scope are those that its records call for. -/
theorem marked_of_walkProgram {program : Node} {rs : List ScopeRecord} {s : WalkState}
    (hwalk : walkProgram program { graph := {} } = .ok rs s) {r : ScopeRecord} (hr : r ∈ rs) :
    Marked (rs.foldl finishScope s.graph) r := by
  obtain ⟨done, hstands, _, hscopes, hrecords⟩ := walkProgram_spec hwalk
  have hwalked := hstands.walked
  have hg := hwalked.coherent
  have hfinish := finishAll_finishing hg rs hrecords
  have hdistinct : (rs.map (·.scope)).Nodup := by
    rw [hscopes, ← hwalked.scopes]
    exact hg.names
  obtain ⟨g₁, hg₁, hr₁, hnodes⟩ := exists_finishScope_node? hg hrecords hdistinct hr
  have hnew (id : NodeId) (hid : s.graph.Owns r.scope id) :
      ∃ n, g₁.node? id = some n ∧ IsNew n := by
    obtain ⟨n, hn, _⟩ := hid.node hg
    exact ⟨n, (hnodes id hid).2.1.trans hn, hwalked.nodes id n hn⟩
  have hconstant (id : NodeId) (hid : s.graph.Owns r.scope id) :
      constantOf (rs.foldl finishScope s.graph) id = constantOf (withConstants g₁ r) id := by
    rw [← (finishScope_marks hr₁).2 id, constantOf, constantOf, (hnodes id hid).2.2]
  constructor
  · intro id hid
    have hown := hfinish.owns_iff.mp hid
    obtain ⟨n, hn, hempty⟩ := hnew id hown
    rw [hconstant id hown]
    exact constantOf_foldl_setConstant (Constant.nodup_keys_solve _) hn hempty.constant
  · intro id n hid hn hsource
    have hown := hfinish.owns_iff.mp hid
    rw [(hnodes id hown).2.2] at hn
    obtain ⟨n₁, hn₁, hempty⟩ := hnew id hown
    obtain ⟨n₂, hn₂, _, hmark⟩ := (finishScope_confined hg₁ hr₁).own id n₁ hn₁
    cases hn.symm.trans hn₂
    rcases hmark hsource with hold | ⟨a, ha, hnode, heffect⟩
    · rw [hempty.isSource] at hold
      cases hold
    · refine ⟨a, ha, hnode, ?_⟩
      have hconstants := constantsOf_eq (a := a) fun id hid =>
        hconstant id ((hrecords r hr).applications a ha |>.operands id hid).owns
      rwa [effectOf, hconstants]
  · intro id n hid hn
    obtain ⟨hown, _, hlast⟩ := hnodes id (hfinish.owns_iff.mp hid)
    rw [hlast] at hn
    exact finishScope_isMarked hg₁ hr₁ hown hn

end Flow

end YulTaint
