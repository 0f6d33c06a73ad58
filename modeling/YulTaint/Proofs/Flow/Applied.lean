import Mathlib.Tactic
import YulTaint.Proofs.Flow.Solution
import YulTaint.Proofs.Flow.Touch

/-!
What the applications of a scope leave in the finished graph. Whatever is done
after an application keeps its edges, its words and its marks, and the constants
of its operands; so all that an application does can be read off the graph in
the end. The constants are those of the solved definitions.
-/

namespace YulTaint

namespace Graph

/-- Edges stay, and so do the nodes of names and the marks of sources and
addresses. -/
structure Marks (g g' : Graph) : Prop extends Retains g g' where
  marks : ∀ id n, g.node? id = some n → ∃ n', g'.node? id = some n' ∧
    (n.isSource = true → n'.isSource = true) ∧ (n.isProtected = true → n'.isProtected = true)

variable {g g' g'' : Graph}

theorem Marks.refl (g : Graph) : Marks g g :=
  ⟨Retains.refl g, fun _ n hn => ⟨n, hn, fun h => h, fun h => h⟩⟩

theorem Marks.trans (h : Marks g g') (h' : Marks g' g'') : Marks g g'' := by
  refine ⟨h.toRetains.trans h'.toRetains, fun id n hn => ?_⟩
  obtain ⟨n', hn', hsource, hprotected⟩ := h.marks id n hn
  obtain ⟨n'', hn'', hsource', hprotected'⟩ := h'.marks id n' hn'
  exact ⟨n'', hn'', fun hn => hsource' (hsource hn), fun hn => hprotected' (hprotected hn)⟩

theorem Extends.marks (h : Extends g g') : Marks g g' := by
  refine ⟨h.toRetains, fun id n hn => ⟨n, ?_, fun h => h, fun h => h⟩⟩
  rw [h.old id (lt_size_of_node? hn), hn]

theorem marks_modifyNode (g : Graph) (id : NodeId) {f : FlowNode → FlowNode}
    (hsource : ∀ n, n.isSource = true → (f n).isSource = true)
    (hprotected : ∀ n, n.isProtected = true → (f n).isProtected = true) :
    Marks g (g.modifyNode id f) := by
  refine ⟨retains_modifyNode g id f, fun other n hn => ?_⟩
  rw [node?_modifyNode, hn]
  split
  · exact ⟨f n, rfl, hsource n, hprotected n⟩
  · exact ⟨n, rfl, fun h => h, fun h => h⟩

theorem Marks.foldl {α : Type} {f : Graph → α → Graph} (items : List α) (g : Graph)
    (hf : ∀ x ∈ items, ∀ g, Marks g (f g x)) : Marks g (items.foldl f g) := by
  induction items generalizing g with
  | nil => exact Marks.refl g
  | cons x rest ih =>
    exact (hf x List.mem_cons_self g).trans
      (ih (f g x) fun y hy => hf y (List.mem_cons_of_mem _ hy))

/-- The node of a scope. -/
theorem Owns.node {sc : String} {id : NodeId} (h : g.Owns sc id) (hg : g.Coherent) :
    ∃ n, g.node? id = some n ∧ n.scope = some sc := by
  obtain ⟨s, hs, hmem⟩ := h
  obtain ⟨n, hn, hscope⟩ := ((hg.scopes sc s hs).owns id).mp hmem
  exact ⟨n, hn, hscope.trans (congrArg some (name_of_scope? hs))⟩

theorem Owns.unique {sc sc' : String} {id : NodeId} (h : g.Owns sc id) (h' : g.Owns sc' id)
    (hg : g.Coherent) : sc = sc' := by
  obtain ⟨n, hn, hscope⟩ := h.node hg
  obtain ⟨n', hn', hscope'⟩ := h'.node hg
  cases hn.symm.trans hn'
  exact Option.some.inj (hscope.symm.trans hscope')

/-- Finishing leaves the nodes of scopes alone. -/
theorem Finishing.owns_iff (h : Finishing g g') {sc : String} {id : NodeId} :
    g'.Owns sc id ↔ g.Owns sc id := by
  refine ⟨?_, h.owns⟩
  rintro ⟨s', hs', hmem⟩
  have hcore := scope?_core h.scopes sc
  rw [hs'] at hcore
  obtain ⟨s, hs, heq⟩ := Option.map_eq_some_iff.mp hcore.symm
  have hnodes : s.core.nodes = s'.core.nodes := congrArg Scope.nodes heq
  exact ⟨s, hs, hnodes.symm ▸ hmem⟩

end Graph

namespace Flow

open YulTaint.Graph (Extends Retains Marks)

open Relation (ReflTransGen)

variable {g g' : Graph} {sc : String} {a : Application} {id : NodeId}

def storedNode (a : Application) (access : MemoryAccess) : NodeId :=
  match access.value? with
  | some index => a.operands.getD index 0
  | none => a.node

def readNames (g : Graph) (a : Application) (access : MemoryAccess) : List String :=
  Memory.loadNames (accessOffset (constantsOf g a) access)
    (accessWidth (constantsOf g a) access.extent)

def writtenNames (g : Graph) (a : Application) (access : MemoryAccess) : List String :=
  Memory.storeNames (accessOffset (constantsOf g a) access)
    (accessWidth (constantsOf g a) access.extent)

/-- All that an application does is there. -/
structure Applied (g : Graph) (sc : String) (a : Application) : Prop where
  operands : (effectOf g a).taints = true → ∀ id ∈ a.operands, g.Draws sc id a.node
  source : (effectOf g a).source = true → ∃ n, g.node? a.node = some n ∧ n.isSource = true
  addresses : ∀ i ∈ (effectOf g a).addresses,
    ∃ n, g.node? (a.operands.getD i 0) = some n ∧ n.isProtected = true
  reads : ∀ access ∈ (effectOf g a).reads, ∀ name ∈ readNames g a access,
    ∃ word, g.globals.lookup name = some word ∧ g.Draws sc word a.node
  writes : ∀ access ∈ (effectOf g a).writes, ∀ name ∈ writtenNames g a access,
    ∃ word, g.globals.lookup name = some word ∧
      Memory.Written g sc (a.operands.getD access.offset 0) (storedNode a access) (some a.block)
        word

theorem constantsOf_eq (h : ∀ id ∈ a.operands, constantOf g' id = constantOf g id) :
    constantsOf g' a = constantsOf g a :=
  List.map_congr_left h

/-- What an application has done stays. -/
theorem Applied.mono (h : Applied g sc a) (hg : Marks g g')
    (hconstants : ∀ id ∈ a.operands, constantOf g' id = constantOf g id) : Applied g' sc a := by
  have heq := constantsOf_eq hconstants
  have heffect : effectOf g' a = effectOf g a := by rw [effectOf, effectOf, heq]
  constructor
  · intro htaints id hid
    exact hg.draws (h.operands (heffect ▸ htaints) id hid)
  · intro hsource
    obtain ⟨n, hn, hmark⟩ := h.source (heffect ▸ hsource)
    obtain ⟨n', hn', hkeep, _⟩ := hg.marks _ n hn
    exact ⟨n', hn', hkeep hmark⟩
  · intro i hi
    obtain ⟨n, hn, hmark⟩ := h.addresses i (heffect ▸ hi)
    obtain ⟨n', hn', _, hkeep⟩ := hg.marks _ n hn
    exact ⟨n', hn', hkeep hmark⟩
  · intro access haccess name hname
    rw [readNames, heq] at hname
    obtain ⟨word, hword, hdraws⟩ := h.reads access (heffect ▸ haccess) name hname
    exact ⟨word, hg.words name word hword, hg.draws hdraws⟩
  · intro access haccess name hname
    rw [writtenNames, heq] at hname
    obtain ⟨word, hword, hwritten⟩ := h.writes access (heffect ▸ haccess) name hname
    exact ⟨word, hg.words name word hword, hwritten.mono hg.toRetains⟩

theorem Touch.marks (h : Touch a g g') : Marks g g' := by
  cases h with
  | extend h => exact h.marks
  | source => exact Graph.marks_modifyNode _ _ (fun _ _ => rfl) fun _ h => h
  | protect => exact Graph.marks_modifyNode _ _ (fun _ h => h) fun _ _ => rfl

theorem marks_of_touches (h : ReflTransGen (Touch a) g g') : Marks g g' := by
  induction h with
  | refl => exact Marks.refl g
  | tail _ hstep ih => exact ih.trans hstep.marks

theorem indexed_of_touches (h : ReflTransGen (Touch a) g g') (hg : g.Indexed) : g'.Indexed := by
  have hmodify {g : Graph} (id : NodeId) (f : FlowNode → FlowNode) (hg : g.Indexed) :
      (g.modifyNode id f).Indexed :=
    ⟨fun name id hid => by rw [Graph.size_modifyNode]; exact hg.lt name id hid, hg.injective⟩
  induction h with
  | refl => exact hg
  | tail _ hstep ih =>
    cases hstep with
    | extend h => exact h.indexed ih
    | source => exact hmodify _ _ ih
    | protect => exact hmodify _ _ ih

theorem drawOperands_draws {e : Effect} (he : e.taints = true) {id : NodeId}
    (hid : id ∈ a.operands) (g : Graph) : (drawOperands sc a e g).Draws sc id a.node := by
  rw [drawOperands, if_pos he]
  exact Extends.foldl_draws (fun g operand => Graph.extends_addEdge g sc operand a.node) hid
    (fun g => Graph.draws_addEdge g sc id a.node) g

theorem markSource_isSource {e : Effect} (he : e.source = true) {n : FlowNode}
    (hn : g.node? a.node = some n) :
    ∃ n', (markSource a e g).node? a.node = some n' ∧ n'.isSource = true := by
  rw [markSource, if_pos he, Graph.node?_modifyNode, if_pos rfl, hn]
  exact ⟨_, rfl, rfl⟩

theorem markAddresses_isProtected {e : Effect} {i : Nat} (hi : i ∈ e.addresses) {n : FlowNode}
    (hn : g.node? (a.operands.getD i 0) = some n) :
    ∃ n', (markAddresses a e g).node? (a.operands.getD i 0) = some n' ∧
      n'.isProtected = true := by
  have hmark (g : Graph) (i : Nat) : Marks g
      (g.modifyNode (a.operands.getD i 0) fun n => { n with isProtected := true }) :=
    Graph.marks_modifyNode _ _ (fun _ h => h) fun _ _ => rfl
  obtain ⟨g₁, hbefore, hafter⟩ := exists_foldl_step Marks.refl Marks.trans hmark hi g
  obtain ⟨m, hm, _⟩ := hbefore.marks _ n hn
  have hmarked : (g₁.modifyNode (a.operands.getD i 0) fun n =>
      { n with isProtected := true }).node? (a.operands.getD i 0) =
        some { m with isProtected := true } := by
    rw [Graph.node?_modifyNode, if_pos rfl, hm]
    rfl
  obtain ⟨n', hn', _, hprotected⟩ := hafter.marks _ _ hmarked
  exact ⟨n', hn', hprotected rfl⟩

/-- Each access of a list of reads finds its words. -/
theorem applyReads_draws (hg : g.Indexed) (constants : List (Option Int))
    {accesses : List MemoryAccess} {access : MemoryAccess} (haccess : access ∈ accesses)
    {name : String} (hname : name ∈ Memory.loadNames (accessOffset constants access)
      (accessWidth constants access.extent)) :
    ∃ word, (accesses.foldl (applyRead sc a constants) g).globals.lookup name = some word ∧
      (accesses.foldl (applyRead sc a constants) g).Draws sc word a.node := by
  obtain ⟨g₁, hbefore, hafter⟩ := exists_foldl_step Extends.refl Extends.trans
    (f := applyRead sc a constants) (fun g access => extends_applyRead constants access g)
    haccess g
  obtain ⟨_, hnamed, hdraws⟩ := Memory.load_spec (hbefore.indexed hg) sc
    (a.operands.getD access.offset 0) (accessOffset constants access)
    (accessWidth constants access.extent) a.node rfl
  obtain ⟨word, hword, hlookup⟩ := exists_of_mem_left hnamed hname
  exact ⟨word, hafter.words name word hlookup, hafter.draws (hdraws word hword)⟩

/-- Each access of a list of writes leaves its words written. -/
theorem applyWrites_written (g : Graph) (constants : List (Option Int))
    {accesses : List MemoryAccess} {access : MemoryAccess} (haccess : access ∈ accesses)
    {name : String} (hname : name ∈ Memory.storeNames (accessOffset constants access)
      (accessWidth constants access.extent)) :
    ∃ word, (accesses.foldl (applyWrite sc a constants) g).globals.lookup name = some word ∧
      Memory.Written (accesses.foldl (applyWrite sc a constants) g) sc
        (a.operands.getD access.offset 0) (storedNode a access) (some a.block) word := by
  obtain ⟨g₁, _, hafter⟩ := exists_foldl_step Extends.refl Extends.trans
    (f := applyWrite sc a constants) (fun g access => extends_applyWrite constants access g)
    haccess g
  obtain ⟨_, hnamed, hwritten⟩ := Memory.store_spec g₁ sc (a.operands.getD access.offset 0)
    (accessOffset constants access) (accessWidth constants access.extent) (storedNode a access)
    (some a.block) rfl
  obtain ⟨word, hword, hlookup⟩ := exists_of_mem_left hnamed hname
  exact ⟨word, hafter.words name word hlookup, (hwritten word hword).mono hafter.toRetains⟩

/-- An application does all that its effect says. -/
theorem applyEffect_applied (hg : g.Coherent) (ha : a.Fits g sc) :
    Applied (applyEffect sc g a) sc a := by
  let e := effectOf g a
  let constants := constantsOf g a
  let g₁ := drawOperands sc a e g
  let g₂ := markSource a e g₁
  let g₃ := markAddresses a e g₂
  let g₄ := e.reads.foldl (applyRead sc a constants) g₃
  let g₅ := e.writes.foldl (applyWrite sc a constants) g₄
  obtain ⟨haddresses, _, _⟩ := Builtin.effectFor_within constants ha.arity
  have hsource := touches_markSource a e g₁
  have haddress := touches_markAddresses haddresses g₂
  have h₁ := extends_drawOperands sc a e g
  have h₂ : Marks g₁ g₂ := marks_of_touches hsource
  have h₃ : Marks g₂ g₃ := marks_of_touches haddress
  have h₄ : Marks g₃ g₄ :=
    (Extends.foldl (fun g' access => extends_applyRead constants access g') _ g₃).marks
  have h₅ : Marks g₄ g₅ :=
    (Extends.foldl (fun g' access => extends_applyWrite constants access g') _ g₄).marks
  have hindexed : g₃.Indexed :=
    indexed_of_touches (hsource.trans haddress) (h₁.indexed hg.indexed)
  have hconstants : constantsOf g₅ a = constants :=
    constantsOf_eq fun id _ => constantOf_touches (applyEffect_touches sc g ha.arity) id
  have heffect : effectOf g₅ a = e := by rw [effectOf, hconstants]; rfl
  change Applied g₅ sc a
  constructor
  · intro htaints id hid
    rw [heffect] at htaints
    exact (((h₂.trans h₃).trans h₄).trans h₅).draws (drawOperands_draws htaints hid g)
  · intro hkind
    rw [heffect] at hkind
    obtain ⟨n, hn, _⟩ := ha.node.node hg
    obtain ⟨n₁, hn₁, _⟩ := h₁.marks.marks _ n hn
    obtain ⟨n₂, hn₂, hmark⟩ := markSource_isSource hkind hn₁
    obtain ⟨n₅, hn₅, hkeep, _⟩ := ((h₃.trans h₄).trans h₅).marks _ n₂ hn₂
    exact ⟨n₅, hn₅, hkeep hmark⟩
  · intro i hi
    rw [heffect] at hi
    obtain ⟨n, hn, _⟩ := (ha.operand (haddresses i hi)).node hg
    obtain ⟨n₂, hn₂, _⟩ := (h₁.marks.trans h₂).marks _ n hn
    obtain ⟨n₃, hn₃, hmark⟩ := markAddresses_isProtected hi hn₂
    obtain ⟨n₅, hn₅, _, hkeep⟩ := (h₄.trans h₅).marks _ n₃ hn₃
    exact ⟨n₅, hn₅, hkeep hmark⟩
  · intro access haccess name hname
    rw [heffect] at haccess
    rw [readNames, hconstants] at hname
    obtain ⟨word, hlookup, hdraws⟩ := applyReads_draws hindexed constants haccess hname
    exact ⟨word, h₅.words name word hlookup, h₅.draws hdraws⟩
  · intro access haccess name hname
    rw [heffect] at haccess
    rw [writtenNames, hconstants] at hname
    exact applyWrites_written g₄ constants haccess hname

theorem setConstant_marks (g : Graph) (entry : NodeId × Knowledge) :
    Marks g (setConstant g entry) := by
  unfold setConstant
  split
  · exact Graph.marks_modifyNode _ _ (fun _ h => h) fun _ h => h
  · exact Marks.refl g

theorem markUntaintable_marks (g : Graph) (id : NodeId) : Marks g (markUntaintable g id) := by
  have hkeep (n : FlowNode) :
      (if n.isProtected && n.constant.isSome then { n with isUntaintable := true } else n).isSource =
          n.isSource ∧
        (if n.isProtected && n.constant.isSome then { n with isUntaintable := true }
          else n).isProtected = n.isProtected := by
    split
    · exact ⟨rfl, rfl⟩
    · exact ⟨rfl, rfl⟩
  refine Graph.marks_modifyNode g id (fun n h => ?_) fun n h => ?_
  · rw [(hkeep n).1, h]
  · rw [(hkeep n).2, h]

theorem constantOf_markUntaintable (g : Graph) (id other : NodeId) :
    constantOf (markUntaintable g id) other = constantOf g other := by
  refine constantOf_modifyNode g id _ (fun n => ?_) other
  split
  · rfl
  · rfl

/-- The constants of other nodes stay. -/
theorem constantOf_setConstants {entries : List (NodeId × Knowledge)} {id : NodeId}
    (hid : id ∉ entries.map (·.1)) (g : Graph) :
    constantOf (entries.foldl setConstant g) id = constantOf g id := by
  induction entries generalizing g with
  | nil => rfl
  | cons entry rest ih =>
    obtain ⟨hne, hrest⟩ := not_or.mp (List.mem_cons.not.mp hid)
    rw [List.foldl_cons, ih hrest]
    unfold setConstant
    split
    · rw [constantOf, Graph.node?_modifyNode, if_neg hne]
      rfl
    · rfl

/-- A constant that a node gets is that of its entry. -/
theorem constant_of_setConstants {entries : List (NodeId × Knowledge)} {value : Int}
    (h : constantOf (entries.foldl setConstant g) id = some value) :
    constantOf g id = some value ∨ (id, .constant value) ∈ entries := by
  induction entries generalizing g with
  | nil => exact Or.inl h
  | cons entry rest ih =>
    rcases ih h with hfirst | hrest
    · obtain ⟨target, k⟩ := entry
      cases k with
      | constant c =>
        simp only [setConstant, constantOf] at hfirst ⊢
        rw [Graph.node?_modifyNode] at hfirst
        split at hfirst
        · rename_i heq
          subst heq
          obtain ⟨n, hn, hvalue⟩ := Option.bind_eq_some_iff.mp hfirst
          obtain ⟨m, _, rfl⟩ := Option.map_eq_some_iff.mp hn
          obtain rfl : c = value := Option.some.inj hvalue
          exact Or.inr List.mem_cons_self
        · exact Or.inl hfirst
      | undefined => exact Or.inl hfirst
      | varying => exact Or.inl hfirst
    · exact Or.inr (List.mem_cons_of_mem _ hrest)

section FinishScope

variable {r : ScopeRecord}

def withConstants (g : Graph) (r : ScopeRecord) : Graph :=
  (Constant.solve r.definitions).foldl setConstant g

theorem withConstants_finishing (hg : g.Coherent) (r : ScopeRecord) :
    Graph.Finishing g (withConstants g r) :=
  Graph.Finishing.foldl _ hg fun entry _ _ hg' => setConstant_finishing hg'.coherent entry

theorem applyEffects_finishing (apps : List Application) (hg : g.Coherent)
    (happs : ∀ a ∈ apps, a.Fits g sc) :
    Graph.Finishing g (apps.foldl (applyEffect sc) g) :=
  Graph.Finishing.foldl _ hg fun a ha _ hg' =>
    applyEffect_finishing hg'.coherent ((happs a ha).finishing hg')

/-- Applications keep marks and constants. -/
theorem applyEffects_marks (sc : String) (apps : List Application)
    (happs : ∀ a ∈ apps, ∀ b, Builtin.lookup? a.name = some b → a.operands.length = b.arity)
    (g : Graph) : Marks g (apps.foldl (applyEffect sc) g) ∧
      ∀ id, constantOf (apps.foldl (applyEffect sc) g) id = constantOf g id := by
  induction apps generalizing g with
  | nil => exact ⟨Marks.refl g, fun _ => rfl⟩
  | cons a rest ih =>
    have htouches := applyEffect_touches sc g (happs a List.mem_cons_self)
    obtain ⟨hmarks, hconstants⟩ :=
      ih (fun b hb => happs b (List.mem_cons_of_mem _ hb)) (applyEffect sc g a)
    refine ⟨(marks_of_touches htouches).trans hmarks, fun id => ?_⟩
    rw [List.foldl_cons, hconstants, constantOf_touches htouches]

theorem markAll_marks (ids : List NodeId) (g : Graph) :
    Marks g (ids.foldl markUntaintable g) ∧
      ∀ id, constantOf (ids.foldl markUntaintable g) id = constantOf g id := by
  refine ⟨Marks.foldl ids g fun id _ g => markUntaintable_marks g id, fun id => ?_⟩
  induction ids generalizing g with
  | nil => rfl
  | cons other rest ih => rw [List.foldl_cons, ih, constantOf_markUntaintable]

theorem applyEffects_applied {apps : List Application} (hg : g.Coherent)
    (happs : ∀ a ∈ apps, a.Fits g sc) (ha : a ∈ apps) :
    Applied (apps.foldl (applyEffect sc) g) sc a := by
  obtain ⟨before, after, rfl⟩ := List.append_of_mem ha
  have hbefore := applyEffects_finishing before hg fun b hb =>
    happs b (List.mem_append_left _ hb)
  have happlied := applyEffect_applied hbefore.coherent ((happs a ha).finishing hbefore)
  have harity (b : Application) (hb : b ∈ after) : _ :=
    (happs b (List.mem_append_right _ (List.mem_cons_of_mem _ hb))).arity
  obtain ⟨hmarks, hconstants⟩ := applyEffects_marks sc after harity
    (applyEffect sc (before.foldl (applyEffect sc) g) a)
  rw [List.foldl_append, List.foldl_cons]
  exact happlied.mono hmarks fun id _ => hconstants id

/-- What is done once the constants of a scope are set keeps marks and
constants. -/
theorem finishScope_marks (hr : Records g r) :
    Marks g (finishScope g r) ∧
      ∀ id, constantOf (finishScope g r) id = constantOf (withConstants g r) id := by
  have hset : Marks g (withConstants g r) :=
    Marks.foldl _ g fun entry _ g => setConstant_marks g entry
  obtain ⟨happly, hconstants⟩ := applyEffects_marks r.scope r.applications
    (fun a ha => (hr.applications a ha).arity) (withConstants g r)
  obtain ⟨hmark, hconstants'⟩ := markAll_marks
    (((r.applications.foldl (applyEffect r.scope) (withConstants g r)).scope? r.scope).map
      (·.nodes) |>.getD []) (r.applications.foldl (applyEffect r.scope) (withConstants g r))
  exact ⟨(hset.trans happly).trans hmark, fun id => (hconstants' id).trans (hconstants id)⟩

theorem finishScope_applied (hg : g.Coherent) (hr : Records g r) (ha : a ∈ r.applications) :
    Applied (finishScope g r) r.scope a := by
  have hset := withConstants_finishing hg r
  have happlied := applyEffects_applied hset.coherent
    (fun b hb => (hr.applications b hb).finishing hset) ha
  obtain ⟨hmark, hconstants⟩ := markAll_marks
    (((r.applications.foldl (applyEffect r.scope) (withConstants g r)).scope? r.scope).map
      (·.nodes) |>.getD []) (r.applications.foldl (applyEffect r.scope) (withConstants g r))
  exact happlied.mono hmark fun id _ => hconstants id

/-- The constants of other scopes stay. -/
theorem finishScope_constantOf (hg : g.Coherent) (hr : Records g r) {id : NodeId}
    (hid : g.Owns sc id) (hne : sc ≠ r.scope) :
    constantOf (finishScope g r) id = constantOf g id := by
  rw [(finishScope_marks hr).2 id]
  refine constantOf_setConstants ?_ g
  intro hmem
  have hkeys := (Constant.solve_spec r.definitions).1
  rw [Constant.Assignment.keys] at hkeys
  rw [hkeys, (eraseDups_spec _).2.1] at hmem
  obtain ⟨d, hd, rfl⟩ := List.mem_map.mp hmem
  exact hne (hid.unique (hr.definitions d hd).owns hg)

/-- A constant of a scope's own node is what the solution knows of it. -/
theorem finishScope_solve (hr : Records g r) (hnone : constantOf g id = none)
    {value : Int} (h : constantOf (finishScope g r) id = some value) :
    (Constant.solve r.definitions).get id = .constant value := by
  rw [(finishScope_marks hr).2 id] at h
  rcases constant_of_setConstants h with hold | hentry
  · rw [hnone] at hold
    cases hold
  · exact Constant.Assignment.get_of_mem (Constant.nodup_keys_solve _) hentry

end FinishScope

theorem finishAll_marks (rs : List ScopeRecord) (hg : g.Coherent)
    (hrs : ∀ r ∈ rs, Records g r) : Marks g (rs.foldl finishScope g) := by
  induction rs generalizing g with
  | nil => exact Marks.refl g
  | cons r rest ih =>
    have hr := hrs r List.mem_cons_self
    have hfinish := finishScope_finishing hg hr
    exact (finishScope_marks hr).1.trans (ih hfinish.coherent fun r' hr' =>
      (hrs r' (List.mem_cons_of_mem _ hr')).mono hfinish.keeps)

/-- Other scopes are finished, and a scope's constants stay. -/
theorem finishOthers_constantOf (rs : List ScopeRecord) (hg : g.Coherent)
    (hrs : ∀ r ∈ rs, Records g r) (hne : ∀ r ∈ rs, r.scope ≠ sc) {id : NodeId}
    (hid : g.Owns sc id) : constantOf (rs.foldl finishScope g) id = constantOf g id := by
  induction rs generalizing g with
  | nil => rfl
  | cons r rest ih =>
    have hr := hrs r List.mem_cons_self
    have hfinish := finishScope_finishing hg hr
    rw [List.foldl_cons, ih hfinish.coherent
      (fun r' hr' => (hrs r' (List.mem_cons_of_mem _ hr')).mono hfinish.keeps)
      (fun r' hr' => hne r' (List.mem_cons_of_mem _ hr')) (hfinish.owns hid)]
    exact finishScope_constantOf hg hr hid (Ne.symm (hne r List.mem_cons_self))

/-- The graph in which a scope is finished, with what comes before and after. -/
theorem exists_finishScope {rs : List ScopeRecord} (hg : g.Coherent)
    (hrs : ∀ r ∈ rs, Records g r) (hdistinct : (rs.map (·.scope)).Nodup) {r : ScopeRecord}
    (hr : r ∈ rs) :
    ∃ g₁, g₁.Coherent ∧ Records g₁ r ∧ Marks (finishScope g₁ r) (rs.foldl finishScope g) ∧
      ∀ id, g.Owns r.scope id → constantOf g₁ id = constantOf g id ∧
        constantOf (rs.foldl finishScope g) id = constantOf (finishScope g₁ r) id := by
  obtain ⟨before, after, rfl⟩ := List.append_of_mem hr
  rw [List.map_append, List.map_cons, List.nodup_append, List.nodup_cons] at hdistinct
  obtain ⟨_, ⟨hafter, _⟩, hbefore⟩ := hdistinct
  have hfirst := finishAll_finishing hg before fun r' hr' =>
    hrs r' (List.mem_append_left _ hr')
  have hr₁ := (hrs r hr).mono hfirst.keeps
  have hscope := finishScope_finishing hfirst.coherent hr₁
  have hall := hfirst.trans hscope
  have hrest (r' : ScopeRecord) (hr' : r' ∈ after) :=
    (hrs r' (List.mem_append_right _ (List.mem_cons_of_mem _ hr'))).mono hall.keeps
  have hmarks := finishAll_marks after hscope.coherent hrest
  rw [List.foldl_append, List.foldl_cons]
  refine ⟨_, hfirst.coherent, hr₁, hmarks, fun id hid => ⟨?_, ?_⟩⟩
  · exact finishOthers_constantOf before hg (fun r' hr' => hrs r' (List.mem_append_left _ hr'))
      (fun r' hr' => hbefore _ (List.mem_map_of_mem hr') _ List.mem_cons_self) hid
  · refine finishOthers_constantOf after hscope.coherent hrest ?_ (hall.owns hid)
    intro r' hr' heq
    exact hafter (heq ▸ List.mem_map_of_mem (f := ScopeRecord.scope) hr')

/-- In the graph of a program every application is applied, and the constants
of a scope are those of its solved definitions. -/
structure Settled (g : Graph) (r : ScopeRecord) : Prop where
  applied : ∀ a ∈ r.applications, Applied g r.scope a
  constants : ∀ id value, g.Owns r.scope id → constantOf g id = some value →
    (Constant.solve r.definitions).get id = .constant value

/-- In the graph of a program every scope is settled. -/
theorem settled_of_walkProgram {program : Node} {rs : List ScopeRecord} {s : WalkState}
    (hwalk : walkProgram program { graph := {} } = .ok rs s) {r : ScopeRecord} (hr : r ∈ rs) :
    Settled (rs.foldl finishScope s.graph) r := by
  obtain ⟨done, hstands, _, hscopes, hrecords⟩ := walkProgram_spec hwalk
  have hwalked := hstands.walked
  have hfinish := finishAll_finishing hwalked.coherent rs hrecords
  have hdistinct : (rs.map (·.scope)).Nodup := by
    rw [hscopes, ← hwalked.scopes]
    exact hwalked.coherent.names
  obtain ⟨g₁, hg₁, hr₁, hmarks, hconstants⟩ :=
    exists_finishScope hwalked.coherent hrecords hdistinct hr
  constructor
  · intro a ha
    refine (finishScope_applied hg₁ hr₁ ha).mono hmarks fun id hid => ?_
    exact (hconstants id ((hrecords r hr).applications a ha |>.operands id hid).owns).2
  · intro id value hid hvalue
    have hown := hfinish.owns_iff.mp hid
    obtain ⟨hbefore, hafter⟩ := hconstants id hown
    obtain ⟨n, hn, _⟩ := hown.node hwalked.coherent
    refine finishScope_solve hr₁ ?_ (hafter.symm.trans hvalue)
    rw [hbefore, constantOf, hn]
    exact (hwalked.nodes id n hn).constant

end Flow

end YulTaint
