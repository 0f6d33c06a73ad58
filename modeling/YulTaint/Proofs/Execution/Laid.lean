import Mathlib.Tactic
import YulTaint.Proofs.Execution.Layout
import YulTaint.Proofs.Flow.Applied

/-!
The walk over a program numbers nodes as the numbering of its code does, and
writes down the layout of that code. Each function of the walk gets one lemma;
the lemmas on statements follow the shape of the program, and the main statement
is about all scopes of a program at once.
-/

namespace YulTaint.Execution

variable {g : Graph}

open YulTaint.Flow

def numbering (s : WalkState) : Numbering :=
  { next := s.graph.size, taken := s.scopeNames, queue := s.pending }

def surroundings (ctx : Context) : Surroundings :=
  { scope := ctx.scope, functions := ctx.functions }

def regionOf (ctx : Context) : Region :=
  { scope := ctx.scope, root := ctx.root, block := ctx.block, loop := ctx.loop }

structure Gains (l : Layout) (before after : Scope) : Prop where
  root : after.root = before.root
  params : after.params = before.params ++ l.params
  returns : after.returns = before.returns ++ l.returns
  nodes : after.nodes = before.nodes ++ l.nodes
  sites : after.sites = before.sites ++ l.sites
  old : before.edges ⊆ after.edges
  edges : l.edges ⊆ after.edges

def IsBlock (g : Graph) (id : NodeId) : Prop :=
  ∃ n, g.node? id = some n ∧ n.kind = .block

mutual

def Term.IsValue : Term → Prop
  | .literal _ _ | .read _ => True
  | .apply _ name args =>
    (∀ b, Builtin.lookup? name = some b → b.returns = 1) ∧ Term.AreValues args
  | .call _ _ args _ => Term.AreValues args

def Term.AreValues : List Term → Prop
  | [] => True
  | t :: rest => t.IsValue ∧ Term.AreValues rest

end

/-- What the walk checks beside what it writes down: jumps stand in loops, and
the conditions of loops have a value. -/
structure Layout.Checked (l : Layout) : Prop where
  jumps : ∀ loop ∈ l.jumps, loop.isSome = true
  conditions : ∀ t ∈ l.conditions, t.IsValue

theorem Layout.Checked.of_nil {l : Layout} (hjumps : l.jumps = [])
    (hconditions : l.conditions = []) : l.Checked :=
  ⟨fun _ h => (nomatch hjumps ▸ h), fun _ h => (nomatch hconditions ▸ h)⟩

theorem Layout.Checked.append {l l' : Layout} (h : l.Checked) (h' : l'.Checked) :
    (l ++ l').Checked :=
  ⟨List.forall_mem_append.mpr ⟨h.jumps, h'.jumps⟩,
    List.forall_mem_append.mpr ⟨h.conditions, h'.conditions⟩⟩

/-- The walk from one state to another adds a layout to a scope. -/
structure Adds (sc : String) (l : Layout) (s t : WalkState) : Prop where
  scope : Option.Rel (Gains l) (s.graph.scope? sc) (t.graph.scope? sc)
  others : ∀ other, other ≠ sc → t.graph.scope? other = s.graph.scope? other
  nodes : ∀ id n, s.graph.node? id = some n → t.graph.node? id = some n
  blocks : ∀ id ∈ l.blocks, IsBlock t.graph id
  definitions : t.definitions = s.definitions ++ l.definitions
  applications : t.applications = s.applications ++ l.applications
  checked : l.Checked

theorem Gains.trans {l l' : Layout} {a b c : Scope} (h : Gains l a b) (h' : Gains l' b c) :
    Gains (l ++ l') a c where
  root := h'.root.trans h.root
  params := by rw [h'.params, h.params, Layout.params_append, List.append_assoc]
  returns := by rw [h'.returns, h.returns, Layout.returns_append, List.append_assoc]
  nodes := by rw [h'.nodes, h.nodes, Layout.nodes_append, List.append_assoc]
  sites := by rw [h'.sites, h.sites, Layout.sites_append, List.append_assoc]
  old _ he := h'.old (h.old he)
  edges := List.append_subset.mpr ⟨fun _ he => h'.old (h.edges he), h'.edges⟩

section Adds

variable {sc : String} {l l' : Layout} {s t u : WalkState}

theorem Adds.of_map {f : Scope → Scope}
    (hscopes : ∀ other, t.graph.scope? other =
      if other = sc then (s.graph.scope? other).map f else s.graph.scope? other)
    (hf : ∀ scope, Gains l scope (f scope))
    (hnodes : ∀ id n, s.graph.node? id = some n → t.graph.node? id = some n)
    (hblocks : ∀ id ∈ l.blocks, IsBlock t.graph id)
    (hdefinitions : t.definitions = s.definitions ++ l.definitions)
    (happlications : t.applications = s.applications ++ l.applications)
    (hchecked : l.Checked) : Adds sc l s t := by
  refine ⟨?_, fun other hother => (hscopes other).trans (if_neg hother), hnodes, hblocks,
    hdefinitions, happlications, hchecked⟩
  rw [hscopes sc, if_pos rfl]
  cases s.graph.scope? sc with
  | none => exact .none
  | some scope => exact .some (hf scope)

/-- Records that leave the graph alone. -/
theorem Adds.of_graph (hgraph : t.graph = s.graph)
    (hdefinitions : t.definitions = s.definitions ++ l.definitions)
    (happlications : t.applications = s.applications ++ l.applications)
    (hl : l = { definitions := l.definitions, applications := l.applications }) :
    Adds sc l s t := by
  refine .of_map (f := id) (fun other => ?_) (fun scope => ?_) (fun id n hn => hgraph ▸ hn) ?_
    hdefinitions happlications
    (.of_nil (congrArg Layout.jumps hl) (congrArg Layout.conditions hl))
  · rw [hgraph, Option.map_id_fun, id, ite_self]
  · rw [hl]
    exact ⟨rfl, by simp, by simp, by simp, by simp, List.Subset.refl _, by simp⟩
  · intro id hid
    rw [hl] at hid
    cases hid

theorem Adds.refl (sc : String) (s : WalkState) : Adds sc {} s s :=
  .of_graph rfl (List.append_nil _).symm (List.append_nil _).symm rfl

theorem Adds.trans (h : Adds sc l s t) (h' : Adds sc l' t u) : Adds sc (l ++ l') s u := by
  refine ⟨?_, fun other hother => (h'.others other hother).trans (h.others other hother),
    fun id n hn => h'.nodes id n (h.nodes id n hn), ?_, ?_, ?_,
    h.checked.append h'.checked⟩
  · have hfirst := h.scope
    have hsecond := h'.scope
    generalize s.graph.scope? sc = a at hfirst ⊢
    generalize t.graph.scope? sc = b at hfirst hsecond
    generalize u.graph.scope? sc = c at hsecond ⊢
    cases hfirst with
    | none =>
      cases hsecond
      exact .none
    | some hgains =>
      cases hsecond with
      | some hgains' => exact .some (hgains.trans hgains')
  · intro id hid
    rcases List.mem_append.mp hid with hid | hid
    · obtain ⟨n, hn, hkind⟩ := h.blocks id hid
      exact ⟨n, h'.nodes id n hn, hkind⟩
    · exact h'.blocks id hid
  · rw [h'.definitions, h.definitions, Layout.definitions_append, List.append_assoc]
  · rw [h'.applications, h.applications, Layout.applications_append, List.append_assoc]

/-- The scope after an addition. -/
theorem Adds.exists_after (h : Adds sc l s t) {before : Scope}
    (hs : s.graph.scope? sc = some before) :
    ∃ after, t.graph.scope? sc = some after ∧ Gains l before after := by
  have hrel := h.scope
  rw [hs] at hrel
  generalize t.graph.scope? sc = b at hrel
  cases hrel with
  | some hgains => exact ⟨_, rfl, hgains⟩

theorem Adds.exists_before (h : Adds sc l s t) {after : Scope}
    (ht : t.graph.scope? sc = some after) :
    ∃ before, s.graph.scope? sc = some before ∧ Gains l before after := by
  have hrel := h.scope
  rw [ht] at hrel
  generalize s.graph.scope? sc = a at hrel
  cases hrel with
  | some hgains => exact ⟨_, rfl, hgains⟩

/-- Another layout that differs in what the scope gains, if the scope gains it as
well. -/
theorem Adds.imp (h : Adds sc l s t) (hblocks : l'.blocks = l.blocks)
    (hdefinitions : l'.definitions = l.definitions)
    (happlications : l'.applications = l.applications)
    (hchecked : l'.Checked)
    (hgains : ∀ before after, s.graph.scope? sc = some before → Gains l before after →
      Gains l' before after) : Adds sc l' s t := by
  refine ⟨?_, h.others, h.nodes, hblocks ▸ h.blocks, hdefinitions ▸ h.definitions,
    happlications ▸ h.applications, hchecked⟩
  have hrel := h.scope
  generalize s.graph.scope? sc = a at hrel hgains ⊢
  generalize t.graph.scope? sc = b at hrel ⊢
  cases hrel with
  | none => exact .none
  | some hold => exact .some (hgains _ _ rfl hold)

end Adds

namespace Label

variable {α β : Type} {n n' : Numbering}

theorem bind_eq {m : Label α} {f : α → Label β} {a : α} (h : m n = (a, n')) :
    (m >>= f) n = f a n' := by
  simp only [bind, StateT.bind, h]

end Label

section Recording

variable {ctx : Context} {vars : Variables} {s t : WalkState} {loc : Loc} {id : NodeId}

theorem adds_addEdge (sc : String) (a b : NodeId) (s : WalkState) :
    Adds sc { edges := [⟨a, b⟩] } s { s with graph := s.graph.addEdge sc a b } := by
  refine .of_map (fun other => Graph.scope?_addEdge s.graph sc other a b) (fun scope => ?_)
    (fun _ _ hn => hn) (fun _ h => nomatch h) (List.append_nil _).symm (List.append_nil _).symm
    (.of_nil rfl rfl)
  refine ⟨rfl, by simp, by simp, by simp, by simp, ?_, ?_⟩
  · exact fun e he => (Graph.mem_insertEdge e _ _).mpr (Or.inr he)
  · exact fun e he => (Graph.mem_insertEdge e _ _).mpr (Or.inl (List.mem_singleton.mp he))

theorem adds_addEdges (sc : String) (edges : List Edge) (s : WalkState) :
    Adds sc { edges } s
      { s with graph := edges.foldl (fun g e => g.addEdge sc e.source e.target) s.graph } := by
  induction edges generalizing s with
  | nil => exact .refl sc s
  | cons e rest ih => exact (adds_addEdge sc e.source e.target s).trans (ih _)

theorem numbering_addEdges (sc : String) (edges : List Edge) (s : WalkState) :
    numbering
        { s with graph := edges.foldl (fun g e => g.addEdge sc e.source e.target) s.graph } =
      numbering s := by
  induction edges generalizing s with
  | nil => rfl
  | cons e rest ih => exact ih { s with graph := s.graph.addEdge sc e.source e.target }

theorem adds_define (sc : String) (definitions : List Definition) (s : WalkState) :
    Adds sc { definitions } s { s with definitions := s.definitions ++ definitions } :=
  .of_graph rfl rfl (List.append_nil _).symm rfl

theorem adds_condition (sc : String) {t : Term} (ht : t.IsValue) (s : WalkState) :
    Adds sc { conditions := [t] } s s := by
  refine (Adds.refl sc s).imp rfl rfl rfl ⟨fun _ h => (nomatch h), ?_⟩ fun _ _ _ hgains =>
    ⟨hgains.root, hgains.params, hgains.returns, hgains.nodes, hgains.sites, hgains.old,
      hgains.edges⟩
  exact List.forall_mem_singleton.mpr ht

theorem newVariable_adds {name : String} (hrun : newVariable ctx name loc s = .ok id t) :
    Label.fresh (numbering s) = (id, numbering t) ∧
      Adds ctx.scope ((regionOf ctx).declare [id]) s t := by
  rw [newVariable_eq] at hrun
  cases hrun
  constructor
  · simp only [numbering, Graph.size_addEdge, Graph.size_addVariable]
    rfl
  · have hvariable : Adds ctx.scope { nodes := [s.graph.size] } s
        { s with graph := s.graph.addVariable ctx.scope name (some loc) } := by
      refine .of_map (fun other => Graph.scope?_addVariable _ _ other _ _) (fun scope => ?_)
        (fun id n hn => ?_) (fun _ h => nomatch h) (List.append_nil _).symm
        (List.append_nil _).symm (.of_nil rfl rfl)
      · exact ⟨rfl, by simp, by simp, rfl, by simp, List.Subset.refl _, by simp⟩
      · exact (Graph.node?_addVariable _ _ _ _ id).trans
          ((if_neg (Graph.lt_size_of_node? hn).ne).trans hn)
    exact hvariable.trans (adds_addEdge ctx.scope ctx.block s.graph.size _)

theorem temporary_adds {stem : String} (hrun : temporary ctx stem loc s = .ok id t) :
    Label.fresh (numbering s) = (id, numbering t) ∧
      Adds ctx.scope ((regionOf ctx).declare [id]) s t := by
  rw [temporary_eq] at hrun
  obtain ⟨hfresh, hadds⟩ := newVariable_adds hrun
  exact ⟨hfresh, hadds.scope, hadds.others, hadds.nodes, hadds.blocks, hadds.definitions,
    hadds.applications, hadds.checked.jumps, hadds.checked.conditions⟩

theorem newGoverned_adds {stem : String} {condition : NodeId}
    (hrun : newGoverned ctx stem condition loc s = .ok id t) :
    Label.fresh (numbering s) = (id, numbering t) ∧
      Adds ctx.scope ((regionOf ctx).governed condition id) s t := by
  obtain ⟨u, hblock, hedge⟩ := newGoverned_eq_ok hrun
  rw [newBlock_eq] at hblock
  cases hblock
  cases hedge
  constructor
  · simp only [numbering, Graph.size_addEdge, Graph.size_addBlock]
    rfl
  · have hblock : Adds ctx.scope { nodes := [s.graph.size], blocks := [s.graph.size] } s
        { s with
          counter := s.counter + 1
          graph := s.graph.addBlock ctx.scope s!"{stem}#{s.counter + 1}" (some loc) } := by
      refine .of_map (fun other => Graph.scope?_addBlock _ _ other _ _) (fun scope => ?_)
        (fun id n hn => ?_) (fun id hid => ?_) (List.append_nil _).symm (List.append_nil _).symm
        (.of_nil rfl rfl)
      · exact ⟨rfl, by simp, by simp, rfl, by simp, List.Subset.refl _, by simp⟩
      · exact (Graph.node?_addBlock _ _ _ _ id).trans
          ((if_neg (Graph.lt_size_of_node? hn).ne).trans hn)
      · obtain rfl := List.mem_singleton.mp hid
        exact ⟨_, (Graph.node?_addBlock _ _ _ _ _).trans (if_pos rfl), rfl⟩
    exact (hblock.trans (adds_addEdge ctx.scope ctx.block s.graph.size _)).trans
      (adds_addEdge ctx.scope condition s.graph.size _)

theorem application_adds (ctx : Context) (name : String) (operands : List NodeId) (node : NodeId)
    (s : WalkState) :
    Adds ctx.scope ((regionOf ctx).application node name operands) s
      { s with
        definitions := s.definitions ++ [.application node name operands]
        applications := s.applications ++ [{ node, name, operands, block := ctx.block }] } :=
  .of_graph rfl rfl rfl rfl

theorem callSite_adds (ctx : Context) (e : FunctionEntry) (arguments results : List NodeId)
    (loc : Loc) (s : WalkState) :
    Adds ctx.scope ((regionOf ctx).site e.scope arguments results loc) s
      { s with
        definitions := s.definitions ++ results.map .arbitrary
        graph := s.graph.addSite (siteOf ctx e arguments results loc) } := by
  refine .of_map (fun other => Graph.scope?_addSite _ _ other) (fun scope => ?_)
    (fun _ _ hn => hn) (fun _ h => nomatch h) rfl (List.append_nil _).symm (.of_nil rfl rfl)
  exact ⟨rfl, by simp [Region.site], by simp [Region.site], by simp [Region.site], rfl,
    List.Subset.refl _, by simp [Region.site]⟩

end Recording

section Expressions

variable {ctx : Context} {vars : Variables}

theorem variableOf_eq {name : String} {id : NodeId} (h : vars.lookup name = some id) :
    variableOf vars name = id := by
  rw [variableOf, h, Option.getD_some]

theorem literalValue_eq {value : Literal} {word : Nat} (h : value.word? = .ok word) :
    literalValue value = word := by
  rw [literalValue, h]

mutual

/-- The walk of an expression adds the layout of its code. -/
theorem operand_adds (e : Node) {s t : WalkState} {id : NodeId}
    (hrun : operand ctx vars e s = .ok id t) :
    ∃ term, Label.term (surroundings ctx) vars e (numbering s) = (term, numbering t) ∧
      term.node = id ∧ term.IsValue ∧ Adds ctx.scope (term.layout (regionOf ctx)) s t := by
  cases e with
  | literal value loc =>
    obtain ⟨u, word, htemporary, hword, rfl⟩ := operand_literal_eq_ok hrun
    obtain ⟨hfresh, hadds⟩ := temporary_adds htemporary
    refine ⟨.literal id word, ?_, rfl, trivial,
      hadds.trans (adds_define ctx.scope [.constant id word] u)⟩
    rw [Label.term, Label.bind_eq hfresh, literalValue_eq hword]
    rfl
  | identifier name loc =>
    obtain ⟨hlookup, rfl⟩ := resolveName_eq_ok hrun
    refine ⟨.read id, ?_, rfl, trivial, .refl ctx.scope s⟩
    rw [Label.term, variableOf_eq hlookup]
    rfl
  | call name args loc =>
    obtain ⟨target, ids, u, v, hfits, hoperands, htemporary, hdeliver⟩ := operand_call_eq_ok hrun
    obtain ⟨terms, hterms, rfl, hvalues, hargs⟩ := operands_adds args hoperands
    obtain ⟨hfresh, htemp⟩ := temporary_adds htemporary
    cases target with
    | user entry =>
      cases hdeliver
      refine ⟨.call id entry.scope terms loc, ?_, rfl, hvalues,
        (hargs.trans htemp).trans (callSite_adds ctx entry _ [id] loc v)⟩
      have hfind : (surroundings ctx).function? name = some entry := hfits.1
      rw [Label.term, Label.bind_eq hterms, Label.bind_eq hfresh, hfind]
      rfl
    | builtin =>
      cases hdeliver
      refine ⟨.apply id name terms, ?_, rfl, ⟨fun b hb => (hfits.2 b hb).2.symm, hvalues⟩,
        (hargs.trans htemp).trans (application_adds ctx name _ id v)⟩
      have hfind : (surroundings ctx).function? name = none := hfits.1
      rw [Label.term, Label.bind_eq hterms, Label.bind_eq hfresh, hfind]
      rfl
  | _ => cases hrun

theorem operands_adds (es : List Node) {s t : WalkState} {ids : List NodeId}
    (hrun : operands ctx vars es s = .ok ids t) :
    ∃ terms, Label.terms (surroundings ctx) vars es (numbering s) = (terms, numbering t) ∧
      terms.map (·.node) = ids ∧ Term.AreValues terms ∧
      Adds ctx.scope (Term.layouts (regionOf ctx) terms) s t := by
  cases es with
  | nil =>
    obtain ⟨rfl, rfl⟩ := pure_eq_ok hrun
    exact ⟨[], rfl, rfl, trivial, .refl ctx.scope s⟩
  | cons e rest =>
    obtain ⟨id, ids', u, hoperand, hoperands, rfl⟩ := operands_cons_eq_ok hrun
    obtain ⟨term, hterm, rfl, hvalue, hfirst⟩ := operand_adds e hoperand
    obtain ⟨terms, hterms, rfl, hvalues, hrest⟩ := operands_adds rest hoperands
    refine ⟨term :: terms, ?_, rfl, ⟨hvalue, hvalues⟩, hfirst.trans hrest⟩
    rw [Label.terms, Label.bind_eq hterm, Label.bind_eq hterms]
    rfl

end

end Expressions

section Assignments

variable {ctx : Context} {vars : Variables} {s t : WalkState} {targets : List NodeId} {loc : Loc}
  {name : String} {names : List String}

def Governs (ctx : Context) (targets : List NodeId) (s : WalkState) : Prop :=
  ∀ scope, s.graph.scope? ctx.scope = some scope → (regionOf ctx).under targets ⊆ scope.edges

theorem Governs.adds {l : Layout} (h : Governs ctx targets s) (hadds : Adds ctx.scope l s t) :
    Governs ctx targets t := by
  intro after hafter e he
  obtain ⟨before, hs, hgains⟩ := hadds.exists_before hafter
  exact hgains.old (h before hs he)

theorem governs_of_adds {l : Layout} (hadds : Adds ctx.scope l s t)
    (hl : (regionOf ctx).under targets ⊆ l.edges) : Governs ctx targets t := by
  intro after hafter e he
  obtain ⟨before, hs, hgains⟩ := hadds.exists_before hafter
  exact hgains.edges (hl he)

/-- A value goes into nodes that the block governs. -/
theorem Adds.assign (sources : List NodeId) {definitions : List Definition}
    (h : Adds ctx.scope
      { edges := sources.flatMap fun source => targets.map fun target => ⟨source, target⟩
        definitions } s t) (hgoverns : Governs ctx targets s) :
    Adds ctx.scope ((regionOf ctx).assign targets sources definitions) s t := by
  refine h.imp rfl rfl rfl ⟨h.checked.jumps, h.checked.conditions⟩ fun before after hs hgains => ?_
  exact ⟨hgains.root, hgains.params, hgains.returns, hgains.nodes, hgains.sites, hgains.old,
    List.append_subset.mpr ⟨fun e he => hgains.old (hgoverns before hs he), hgains.edges⟩⟩

theorem distribute_adds {node : NodeId} (hgoverns : Governs ctx targets s)
    (hrun : distribute ctx node targets s = .ok () t) :
    numbering t = numbering s ∧
      Adds ctx.scope ((regionOf ctx).assign targets [node] (targets.map .arbitrary)) s t := by
  have hedges := adds_addEdges ctx.scope (targets.map fun target => ⟨node, target⟩) s
  have hnumbering := numbering_addEdges ctx.scope (targets.map fun target => ⟨node, target⟩) s
  rw [List.foldl_map] at hedges hnumbering
  rw [distribute_eq] at hrun
  cases hrun
  refine ⟨hnumbering, Adds.assign [node] ?_ hgoverns⟩
  have hadds := hedges.trans (adds_define ctx.scope (targets.map .arbitrary) _)
  convert hadds using 1
  ext1 <;> simp

/-- The value of a builtin that does not go into a single variable. -/
theorem Label.callInto_scatter {env : Surroundings} {args : List Node} {terms : List Term}
    {node : NodeId} {n n' n'' : Numbering} (hone : targets.length ≠ 1)
    (hfind : env.function? name = none) (hterms : Label.terms env vars args n = (terms, n'))
    (hfresh : Label.fresh n' = (node, n'')) :
    Label.callInto env vars targets name args loc n =
      (.scatter (.apply node name terms) targets, n'') := by
  rw [Label.callInto, Label.bind_eq hterms, hfind]
  cases targets with
  | nil => exact Label.bind_eq hfresh
  | cons first rest =>
    cases rest with
    | nil => exact absurd rfl hone
    | cons second rest => exact Label.bind_eq hfresh

theorem callInto_adds {args : List Node} (hgoverns : Governs ctx targets s)
    (hrun : callInto ctx vars targets name args loc s = .ok () t) :
    ∃ code, Label.callInto (surroundings ctx) vars targets name args loc (numbering s) =
        (code, numbering t) ∧ Adds ctx.scope (code.layout (regionOf ctx)) s t := by
  obtain ⟨target, ids, u, hfits, hoperands, hdeliver⟩ := callInto_eq_ok hrun
  obtain ⟨terms, hterms, rfl, _, hargs⟩ := operands_adds args hoperands
  have hunder : Adds ctx.scope ((regionOf ctx).assign targets [] []) u u :=
    (Adds.refl ctx.scope u).assign [] (hgoverns.adds hargs)
  cases target with
  | user entry =>
    have hfind : (surroundings ctx).function? name = some entry := hfits.1
    cases deliverAll_user_eq_ok hdeliver
    refine ⟨.call entry.scope terms targets loc, ?_,
      (hargs.trans hunder).trans (callSite_adds ctx entry _ targets loc u)⟩
    rw [Label.callInto, Label.bind_eq hterms, hfind]
    rfl
  | builtin =>
    have hfind : (surroundings ctx).function? name = none := hfits.1
    by_cases hone : targets.length = 1
    · obtain ⟨target, rfl⟩ := List.length_eq_one_iff.mp hone
      cases hdeliver
      refine ⟨.compute target name terms, ?_,
        (hargs.trans hunder).trans (application_adds ctx name _ target u)⟩
      rw [Label.callInto, Label.bind_eq hterms, hfind]
      rfl
    · obtain ⟨node, v, w, htemporary, happlication, hdistribute⟩ :=
        deliverAll_builtin_eq_ok hone hdeliver
      obtain ⟨hfresh, htemp⟩ := temporary_adds htemporary
      cases happlication
      have happly := (hargs.trans htemp).trans
        (application_adds ctx name (terms.map (·.node)) node v)
      obtain ⟨hnumbering, hvalue⟩ := distribute_adds (hgoverns.adds happly) hdistribute
      refine ⟨.scatter (.apply node name terms) targets, ?_, happly.trans hvalue⟩
      rw [hnumbering]
      exact Label.callInto_scatter hone hfind hterms hfresh

theorem assign_adds {value : Node} (hgoverns : Governs ctx targets s)
    (hrun : assign ctx vars targets loc value s = .ok () t) :
    ∃ code, Label.assign (surroundings ctx) vars targets value (numbering s) =
        (code, numbering t) ∧ Adds ctx.scope (code.layout (regionOf ctx)) s t := by
  rcases assign_eq_ok hrun with ⟨name, args, callLoc, rfl, hcall⟩ | ⟨target, rfl, hone⟩
  · exact callInto_adds hgoverns hcall
  · cases value with
    | call name args callLoc => cases hone
    | literal value literalLoc =>
      obtain ⟨word, hword, rfl⟩ := assignOne_literal_eq_ok hone
      refine ⟨.constant [target] word, ?_,
        (adds_define ctx.scope [.constant target word] s).assign [] hgoverns⟩
      rw [Label.assign, literalValue_eq hword]
      rfl
    | identifier name nameLoc =>
      obtain ⟨source, hlookup, rfl⟩ := assignOne_identifier_eq_ok hone
      have hadds := (adds_addEdge ctx.scope source target s).trans
        (adds_define ctx.scope [.copy target source] _)
      refine ⟨.copy [target] source, ?_, hadds.assign [source] hgoverns⟩
      rw [Label.assign, variableOf_eq hlookup]
      rfl
    | _ => cases hone

theorem newLocal_adds {id : NodeId} (hrun : newLocal ctx vars name loc s = .ok id t) :
    Label.fresh (numbering s) = (id, numbering t) ∧
      Adds ctx.scope ((regionOf ctx).declare [id]) s t := by
  obtain ⟨_, _, _, hvariable⟩ := newLocal_eq_ok hrun
  exact newVariable_adds hvariable

theorem declareAll_adds (names : List String) {vars after : Variables} {s : WalkState}
    {ids : List NodeId} (hrun : declareAll ctx loc vars names s = .ok (after, ids) t) :
    Label.declare vars names (numbering s) = ((after, ids), numbering t) ∧
      Adds ctx.scope ((regionOf ctx).declare ids) s t := by
  induction names generalizing vars s ids with
  | nil =>
    cases hrun
    exact ⟨rfl, .refl ctx.scope t⟩
  | cons name rest ih =>
    obtain ⟨id, ids', u, hlocal, hrest, rfl⟩ := declareAll_cons_eq_ok hrun
    obtain ⟨hfresh, hfirst⟩ := newLocal_adds hlocal
    obtain ⟨hdeclare, hothers⟩ := ih hrest
    refine ⟨?_, hfirst.trans hothers⟩
    rw [Label.declare, Label.bind_eq hfresh, Label.bind_eq hdeclare]
    rfl

theorem declaration_adds {value : Option Node} {after : Variables}
    (hrun : declaration ctx vars names value loc s = .ok after t) :
    ∃ code, Label.statement (surroundings ctx) vars (.declaration names value loc) (numbering s) =
        ((code, after), numbering t) ∧ Adds ctx.scope (code.layout (regionOf ctx)) s t := by
  obtain ⟨ids, u, _, hdeclare, hinitialise⟩ := declaration_eq_ok hrun
  obtain ⟨hlabel, hadds⟩ := declareAll_adds names hdeclare
  have hgoverns : Governs ctx ids u := governs_of_adds hadds (List.Subset.refl _)
  cases value with
  | none =>
    cases hinitialise
    refine ⟨.seq (.declare ids) (.constant ids 0), ?_, hadds.trans
      ((adds_define ctx.scope (ids.map (.constant · 0)) u).assign [] hgoverns)⟩
    rw [Label.statement, Label.bind_eq hlabel]
    rfl
  | some value =>
    obtain ⟨code, hcode, hvalue⟩ := assign_adds hgoverns hinitialise
    refine ⟨.seq (.declare ids) code, ?_, hadds.trans hvalue⟩
    rw [Label.statement, Label.bind_eq hlabel]
    exact Label.bind_eq hcode

theorem variableOf_map {ids : List NodeId}
    (h : List.Forall₂ (fun name id => vars.lookup name = some id) names ids) :
    names.map (variableOf vars) = ids := by
  induction h with
  | nil => rfl
  | cons hlookup _ ih => rw [List.map_cons, variableOf_eq hlookup, ih]

theorem assignment_adds {value : Node} (hrun : assignment ctx vars names value loc s = .ok () t) :
    ∃ code, Label.assign (surroundings ctx) vars (names.map (variableOf vars)) value
        (numbering s) = (code, numbering t) ∧ Adds ctx.scope (code.layout (regionOf ctx)) s t := by
  obtain ⟨targets, _, hnames, hassign⟩ := assignment_eq_ok hrun
  have hedges := adds_addEdges ctx.scope ((regionOf ctx).under targets) s
  have hnumbering := numbering_addEdges ctx.scope ((regionOf ctx).under targets) s
  rw [Region.under, List.foldl_map] at hedges hnumbering
  have hgoverns := governs_of_adds hedges (List.Subset.refl _)
  obtain ⟨code, hcode, hadds⟩ := assign_adds hgoverns hassign
  refine ⟨code, ?_, ?_⟩
  · rw [variableOf_map hnames, ← hcode]
    exact congrArg _ hnumbering.symm
  · refine (hedges.trans hadds).imp rfl rfl rfl hadds.checked fun before after _ hgains => ?_
    exact ⟨hgains.root, hgains.params, hgains.returns, hgains.nodes, hgains.sites, hgains.old,
      (List.append_subset.mp hgains.edges).2⟩

end Assignments

section Statements

variable {ctx : Context} {vars : Variables} {s t : WalkState}

theorem Label.nameFunctions_cons (scope : String) (e : FunctionEntry) (rest : List FunctionEntry)
    (n : Numbering) :
    Label.nameFunctions scope (e :: rest) n =
      (do
        let frame ← Label.nameFunctions scope rest
        return { e with scope := uniqueScopeName n.taken scope e.name } :: frame : Label _)
        { n with taken := uniqueScopeName n.taken scope e.name :: n.taken } := rfl

theorem bindFunctions_label (entries : List FunctionEntry) {s : WalkState}
    {frame frame' : FunctionFrame} (hrun : bindFunctions ctx frame entries s = .ok frame' t) :
    ∃ added names, frame' = frame ++ added ∧ t = { s with scopeNames := names } ∧
      Label.nameFunctions ctx.scope entries (numbering s) = (added, numbering t) := by
  induction entries generalizing s frame with
  | nil =>
    obtain ⟨rfl, rfl⟩ := pure_eq_ok hrun
    exact ⟨[], s.scopeNames, (List.append_nil _).symm, rfl, rfl⟩
  | cons e rest ih =>
    obtain ⟨added, names, rfl, rfl, hlabel⟩ := ih (bindFunctions_cons_eq_ok hrun)
    refine ⟨_, names, List.append_assoc frame [_] added, rfl, ?_⟩
    rw [Label.nameFunctions_cons]
    exact Label.bind_eq hlabel

/-- To enter a block queues its functions and adds nothing. -/
theorem enter_adds {items : List Node} {inner : Context}
    (hrun : enter ctx items s = .ok inner t) :
    Label.enter (surroundings ctx) items (numbering s) = (surroundings inner, numbering t) ∧
      inner.scope = ctx.scope ∧ regionOf inner = regionOf ctx ∧ Adds ctx.scope {} s t := by
  obtain ⟨frame, u, hbind, h⟩ := bind_eq_ok hrun
  obtain ⟨added, names, hframe, rfl, hlabel⟩ := bindFunctions_label _ hbind
  obtain rfl : frame = added := by simpa using hframe
  cases h
  refine ⟨?_, rfl, rfl, .of_graph rfl (List.append_nil _).symm (List.append_nil _).symm rfl⟩
  rw [Label.enter]
  exact Label.bind_eq hlabel

theorem jump_adds {target : NodeId} (hrun : jump ctx target s = .ok () t) :
    numbering t = numbering s ∧
      Adds ctx.scope { edges := (regionOf ctx).jump target } s t := by
  unfold jump at hrun
  by_cases hsame : ctx.block = target
  · rw [if_pos hsame] at hrun
    cases hrun
    have hjump : (regionOf ctx).jump target = [] := if_pos hsame
    exact ⟨rfl, hjump ▸ .refl ctx.scope s⟩
  · rw [if_neg hsame, addEdge_eq] at hrun
    cases hrun
    have hjump : (regionOf ctx).jump target = [⟨ctx.block, target⟩] := if_neg hsame
    exact ⟨rfl, hjump ▸ adds_addEdge ctx.scope ctx.block target s⟩

theorem loopJump_adds {keyword : String} {loc : Loc}
    (hrun : loopJump ctx keyword loc s = .ok () t) :
    numbering t = numbering s ∧
      Adds ctx.scope (Code.breakOut.layout (regionOf ctx)) s t := by
  obtain ⟨block, hloop, hjump⟩ := loopJump_eq_ok hrun
  obtain ⟨hnumbering, hadds⟩ := jump_adds hjump
  have hlayout : Code.breakOut.layout (regionOf ctx) =
      { edges := (regionOf ctx).jump block, jumps := [some block] } := by
    rw [Code.layout, regionOf, hloop]
    rfl
  refine ⟨hnumbering, hlayout ▸ hadds.imp rfl rfl rfl ?_ fun _ _ _ hgains => ?_⟩
  · refine ⟨fun loop hjumps => ?_, fun _ h => (nomatch h)⟩
    rw [List.mem_singleton.mp hjumps]
    rfl
  · exact ⟨hgains.root, hgains.params, hgains.returns, hgains.nodes, hgains.sites, hgains.old,
      hgains.edges⟩

/-- The value of a case is that of its literal. -/
theorem caseValue_eq {seen : List Nat} {loc : Loc} {value : Node} {word : Nat}
    (hrun : armValue seen loc value s = .ok word t) : caseValue value = word := by
  obtain ⟨_, _, literal, literalLoc, rfl, hword⟩ := armValue_eq_ok hrun
  exact literalValue_eq hword

mutual

/-- The walk of a statement adds the layout of its code. -/
theorem statement_adds (item : Node) {ctx : Context} {vars after : Variables} {s t : WalkState}
    (hrun : Flow.statement ctx vars item s = .ok after t) :
    ∃ code, Label.statement (surroundings ctx) vars item (numbering s) =
        ((code, after), numbering t) ∧ Adds ctx.scope (code.layout (regionOf ctx)) s t := by
  cases item with
  | declaration names value loc => exact declaration_adds hrun
  | assignment names value loc =>
    obtain ⟨_, u, hassignment, hpure⟩ := bind_eq_ok hrun
    obtain ⟨rfl, rfl⟩ := pure_eq_ok hpure
    obtain ⟨code, hcode, hadds⟩ := assignment_adds hassignment
    exact ⟨code, Label.bind_eq hcode, hadds⟩
  | expression value loc =>
    obtain ⟨_, u, hexpression, hpure⟩ := bind_eq_ok hrun
    obtain ⟨rfl, rfl⟩ := pure_eq_ok hpure
    cases value with
    | call name args callLoc =>
      obtain ⟨code, hcode, hadds⟩ :=
        callInto_adds (fun _ _ => List.nil_subset _) hexpression
      exact ⟨code, Label.bind_eq hcode, hadds⟩
    | _ => cases hexpression
  | branch condition body loc =>
    obtain ⟨id, block, u, v, rfl, hoperand, hblock, hbody⟩ := statement_branch_eq_ok hrun
    obtain ⟨term, hterm, rfl, _, hcondition⟩ := operand_adds condition hoperand
    obtain ⟨hfresh, hnew⟩ := newGoverned_adds hblock
    obtain ⟨code, hcode, hinside⟩ := governed_adds body hbody
    refine ⟨.branch term block code, ?_, (hcondition.trans hnew).trans hinside⟩
    rw [Label.statement, Label.bind_eq hterm, Label.bind_eq hfresh]
    exact Label.bind_eq hcode
  | switch selector arms fallback loc =>
    obtain ⟨id, u, v, rfl, hoperand, harms, hfallback⟩ := statement_switch_eq_ok hrun
    obtain ⟨term, hterm, rfl, _, hselector⟩ := operand_adds selector hoperand
    obtain ⟨last, hlast, hlastAdds⟩ := switchFallback_adds fallback hfallback
    obtain ⟨cases, hcases, hadds⟩ := switchArms_adds arms harms hlast hlastAdds
    refine ⟨.switch term cases, ?_, hselector.trans hadds⟩
    rw [Label.statement, Label.bind_eq hterm]
    exact Label.bind_eq hcases
  | loop init condition post body loc =>
    obtain ⟨initVars, id, block, v, w, x, y, rfl, hinit, hoperand, hblock, hbody, hpost⟩ :=
      statement_loop_eq_ok hrun
    obtain ⟨initCode, hinitCode, hinitAdds⟩ := loopInit_adds init hinit
    obtain ⟨term, hterm, rfl, hvalue, hcondition⟩ := operand_adds condition hoperand
    have htested : Adds ctx.scope (term.tested (regionOf ctx)) v w :=
      hcondition.trans (adds_condition ctx.scope hvalue w)
    obtain ⟨hfresh, hnew⟩ := newGoverned_adds hblock
    obtain ⟨bodyCode, hbodyCode, hbodyAdds⟩ := governed_adds body hbody
    obtain ⟨postCode, hpostCode, hpostAdds⟩ := governed_adds post hpost
    refine ⟨.loop initCode term block bodyCode postCode, ?_,
      (((hinitAdds.trans htested).trans hnew).trans hbodyAdds).trans hpostAdds⟩
    rw [Label.statement, Label.bind_eq hinitCode]
    dsimp only
    rw [Label.bind_eq hterm, Label.bind_eq hfresh]
    have hbodyCode' : Label.governed (surroundings ctx) initVars body (numbering x) =
        (bodyCode, numbering y) := hbodyCode
    rw [Label.bind_eq hbodyCode']
    exact Label.bind_eq hpostCode
  | block items loc =>
    obtain ⟨inner, last, u, rfl, henter, hitems⟩ := statement_block_eq_ok hrun
    obtain ⟨hentered, hscope, hregion, hqueued⟩ := enter_adds henter
    obtain ⟨code, hcode, hadds⟩ := statements_adds items hitems
    rw [hscope, hregion] at hadds
    refine ⟨code, ?_, hqueued.trans hadds⟩
    rw [Label.statement, Label.bind_eq hentered]
    exact Label.bind_eq hcode
  | function name params returns body loc =>
    obtain ⟨rfl, rfl⟩ := pure_eq_ok hrun
    exact ⟨.skip, rfl, .refl ctx.scope s⟩
  | breakOut loc =>
    obtain ⟨_, u, hjump, hpure⟩ := bind_eq_ok hrun
    obtain ⟨rfl, rfl⟩ := pure_eq_ok hpure
    obtain ⟨hnumbering, hadds⟩ := loopJump_adds hjump
    exact ⟨.breakOut, hnumbering ▸ rfl, hadds⟩
  | continueOn loc =>
    obtain ⟨_, u, hjump, hpure⟩ := bind_eq_ok hrun
    obtain ⟨rfl, rfl⟩ := pure_eq_ok hpure
    obtain ⟨hnumbering, hadds⟩ := loopJump_adds hjump
    exact ⟨.continueOn, hnumbering ▸ rfl, hadds⟩
  | leave loc =>
    obtain ⟨rfl, _, hjump⟩ := statement_leave_eq_ok hrun
    obtain ⟨hnumbering, hadds⟩ := jump_adds hjump
    exact ⟨.leave, hnumbering ▸ rfl, hadds⟩
  | _ => cases hrun

theorem statements_adds (items : List Node) {ctx : Context} {vars last : Variables}
    {s t : WalkState} (hrun : Flow.statements ctx vars items s = .ok last t) :
    ∃ code, Label.statements (surroundings ctx) vars items (numbering s) =
        ((code, last), numbering t) ∧ Adds ctx.scope (code.layout (regionOf ctx)) s t := by
  cases items with
  | nil =>
    obtain ⟨rfl, rfl⟩ := pure_eq_ok hrun
    exact ⟨.skip, rfl, .refl ctx.scope s⟩
  | cons item rest =>
    obtain ⟨after, u, hfirst, hrest⟩ := statements_cons_eq_ok hrun
    obtain ⟨code, hcode, hadds⟩ := statement_adds item hfirst
    obtain ⟨code', hcode', hadds'⟩ := statements_adds rest hrest
    refine ⟨.seq code code', ?_, hadds.trans hadds'⟩
    rw [Label.statements, Label.bind_eq hcode]
    exact Label.bind_eq hcode'

theorem governed_adds (body : Node) {ctx : Context} {vars : Variables} {s t : WalkState}
    (hrun : Flow.governed ctx vars body s = .ok () t) :
    ∃ code, Label.governed (surroundings ctx) vars body (numbering s) = (code, numbering t) ∧
      Adds ctx.scope (code.layout (regionOf ctx)) s t := by
  cases body with
  | block items loc =>
    obtain ⟨items', loc', inner, last, v, heq, henter, hitems⟩ := governed_eq_ok hrun
    cases heq
    obtain ⟨hentered, hscope, hregion, hqueued⟩ := enter_adds henter
    obtain ⟨code, hcode, hadds⟩ := statements_adds items hitems
    rw [hscope, hregion] at hadds
    refine ⟨code, ?_, hqueued.trans hadds⟩
    rw [Label.governed, Label.bind_eq hentered]
    exact Label.bind_eq hcode
  | _ => cases hrun

theorem loopInit_adds (init : Node) {ctx : Context} {vars after : Variables} {s t : WalkState}
    (hrun : Flow.loopInit ctx vars init s = .ok after t) :
    ∃ code, Label.loopInit (surroundings ctx) vars init (numbering s) =
        ((code, after), numbering t) ∧ Adds ctx.scope (code.layout (regionOf ctx)) s t := by
  cases init with
  | block items loc | program name items loc =>
    obtain ⟨inner, u, henter, hitems⟩ := bind_eq_ok hrun
    obtain ⟨hentered, hscope, hregion, hqueued⟩ := enter_adds henter
    obtain ⟨code, hcode, hadds⟩ := statements_adds items hitems
    rw [hscope, hregion] at hadds
    refine ⟨code, ?_, hqueued.trans hadds⟩
    rw [Label.loopInit, Label.bind_eq hentered]
    exact hcode
  | _ => cases hrun

/-- The cases of a switch, before a rest of them that stands already. -/
theorem switchArms_adds (arms : List Node) {ctx : Context} {vars : Variables} {s t u : WalkState}
    {selector : NodeId} {seen : List Nat} {rest : Label Cases} {last : Cases}
    (hrun : Flow.switchArms ctx vars selector seen arms s = .ok () t)
    (hlast : rest (numbering t) = (last, numbering u))
    (hadds : Adds ctx.scope (last.layout (regionOf ctx) selector) t u) :
    ∃ cases, Label.switchArms (surroundings ctx) vars rest arms (numbering s) =
        (cases, numbering u) ∧ Adds ctx.scope (cases.layout (regionOf ctx) selector) s u := by
  cases arms with
  | nil =>
    obtain ⟨_, rfl⟩ := pure_eq_ok hrun
    exact ⟨last, hlast, hadds⟩
  | cons arm others =>
    cases arm with
    | caseArm value body loc =>
      obtain ⟨_, _, _, heq, word, block, v, w, hvalue, hblock, hbody, hothers⟩ :=
        switchArms_cons_eq_ok hrun
      cases heq
      obtain ⟨hfresh, hnew⟩ := newGoverned_adds hblock
      obtain ⟨code, hcode, hinside⟩ := governed_adds body hbody
      obtain ⟨cases, hcases, hrest⟩ := switchArms_adds others hothers hlast hadds
      refine ⟨.cons word block code cases, ?_, (hnew.trans hinside).trans hrest⟩
      have hcode' : Label.governed (surroundings ctx) vars body (numbering v) =
          (code, numbering w) := hcode
      rw [Label.switchArms, Label.bind_eq hfresh, Label.bind_eq hcode', caseValue_eq hvalue]
      exact Label.bind_eq hcases
    | _ => exact absurd hrun strayArm_ne_ok

theorem switchFallback_adds (fallback : Option Node) {ctx : Context} {vars : Variables}
    {s t : WalkState} {selector : NodeId} {loc : Loc}
    (hrun : Flow.switchFallback ctx vars selector loc fallback s = .ok () t) :
    ∃ cases, Label.switchFallback (surroundings ctx) vars fallback (numbering s) =
        (cases, numbering t) ∧ Adds ctx.scope (cases.layout (regionOf ctx) selector) s t := by
  cases fallback with
  | none =>
    obtain ⟨_, rfl⟩ := pure_eq_ok hrun
    exact ⟨.nil, rfl, .refl ctx.scope s⟩
  | some body =>
    obtain ⟨block, v, hblock, hbody⟩ := switchFallback_some_eq_ok hrun
    obtain ⟨hfresh, hnew⟩ := newGoverned_adds hblock
    obtain ⟨code, hcode, hinside⟩ := governed_adds body hbody
    refine ⟨.fallback block code, ?_, hnew.trans hinside⟩
    rw [Label.switchFallback, Label.bind_eq hfresh]
    exact Label.bind_eq hcode

end

end Statements

/-- A scope stands as the code of a function lays it out, and so do its
records. -/
structure Lays (g : Graph) (f : Function) (r : ScopeRecord) : Prop where
  scope : ∃ scope, g.scope? f.scope = some scope ∧ scope.root = f.root ∧
    scope.params = f.params ∧ scope.returns = f.returns ∧ scope.nodes = f.layout.nodes ∧
    scope.sites = f.layout.sites ∧ f.layout.edges ⊆ scope.edges
  blocks : ∀ id ∈ f.layout.blocks, IsBlock g id
  checked : f.layout.Checked
  record : r =
    { scope := f.scope
      definitions := f.layout.definitions
      applications := f.layout.applications }

section Scopes

variable {ctx : Context} {done : List FunctionEntry} {s t : WalkState} {g : Graph} {r : ScopeRecord}
  {rs : List ScopeRecord}

/-- Scopes and nodes stay as they are. -/
structure Stays (g g' : Graph) : Prop where
  scopes : ∀ name scope, g.scope? name = some scope → g'.scope? name = some scope
  nodes : ∀ id n, g.node? id = some n → g'.node? id = some n

theorem Stays.refl (g : Graph) : Stays g g :=
  ⟨fun _ _ hs => hs, fun _ _ hn => hn⟩

theorem Stays.trans {g' g'' : Graph} (h : Stays g g') (h' : Stays g' g'') : Stays g g'' :=
  ⟨fun name scope hs => h'.scopes name scope (h.scopes name scope hs),
    fun id n hn => h'.nodes id n (h.nodes id n hn)⟩

theorem Lays.mono {g' : Graph} {f : Function} (h : Lays g f r) (hstays : Stays g g') :
    Lays g' f r := by
  obtain ⟨⟨scope, hs, hrest⟩, hblocks, hchecked, hrecord⟩ := h
  refine ⟨⟨scope, hstays.scopes _ scope hs, hrest⟩, fun id hid => ?_, hchecked, hrecord⟩
  obtain ⟨n, hn, hkind⟩ := hblocks id hid
  exact ⟨n, hstays.nodes id n hn, hkind⟩

theorem Lays.map_scope {fs : List Function} (h : List.Forall₂ (Lays g) fs rs) :
    fs.map (·.scope) = rs.map (·.scope) := by
  induction h with
  | nil => rfl
  | cons hlays _ ih => rw [List.map_cons, List.map_cons, ih, hlays.record]

theorem declareParams_adds {loc : Loc} (names : List String) {vars after : Variables}
    {s : WalkState} (hrun : declareParams ctx loc vars names s = .ok after t) :
    ∃ ids, Label.declare vars names (numbering s) = ((after, ids), numbering t) ∧
      Adds ctx.scope ((regionOf ctx).params ids) s t := by
  induction names generalizing vars s with
  | nil =>
    obtain ⟨rfl, rfl⟩ := pure_eq_ok hrun
    exact ⟨[], rfl, .refl ctx.scope s⟩
  | cons name rest ih =>
    obtain ⟨id, u, hlocal, hrest⟩ := declareParams_cons_eq_ok hrun
    obtain ⟨hfresh, hfirst⟩ := newLocal_adds hlocal
    obtain ⟨ids, hdeclare, hothers⟩ := ih hrest
    have hparam : Adds ctx.scope { params := [id], definitions := [.arbitrary id] } u
        { u with
          graph := u.graph.addParam ctx.scope id
          definitions := u.definitions ++ [.arbitrary id] } := by
      refine .of_map (fun other => Graph.scope?_addParam _ _ other _) (fun scope => ?_)
        (fun _ _ hn => hn) (fun _ h => nomatch h) rfl (List.append_nil _).symm (.of_nil rfl rfl)
      exact ⟨rfl, rfl, by simp, by simp, by simp, List.Subset.refl _, by simp⟩
    refine ⟨id :: ids, ?_, (hfirst.trans hparam).trans hothers⟩
    rw [Label.declare, Label.bind_eq hfresh]
    exact Label.bind_eq hdeclare

theorem declareReturns_adds {loc : Loc} (names : List String) {vars after : Variables}
    {s : WalkState} (hrun : declareReturns ctx loc vars names s = .ok after t) :
    ∃ ids, Label.declare vars names (numbering s) = ((after, ids), numbering t) ∧
      Adds ctx.scope ((regionOf ctx).returns ids) s t := by
  induction names generalizing vars s with
  | nil =>
    obtain ⟨rfl, rfl⟩ := pure_eq_ok hrun
    exact ⟨[], rfl, .refl ctx.scope s⟩
  | cons name rest ih =>
    obtain ⟨id, u, hlocal, hrest⟩ := declareReturns_cons_eq_ok hrun
    obtain ⟨hfresh, hfirst⟩ := newLocal_adds hlocal
    obtain ⟨ids, hdeclare, hothers⟩ := ih hrest
    have hreturn : Adds ctx.scope { returns := [id], definitions := [.constant id 0] } u
        { u with
          graph := u.graph.addReturn ctx.scope id
          definitions := u.definitions ++ [.constant id 0] } := by
      refine .of_map (fun other => Graph.scope?_addReturn _ _ other _) (fun scope => ?_)
        (fun _ _ hn => hn) (fun _ h => nomatch h) rfl (List.append_nil _).symm (.of_nil rfl rfl)
      exact ⟨rfl, by simp, rfl, by simp, by simp, List.Subset.refl _, by simp⟩
    refine ⟨id :: ids, ?_, (hfirst.trans hreturn).trans hothers⟩
    rw [Label.declare, Label.bind_eq hfresh]
    exact Label.bind_eq hdeclare

/-- A scope that was opened and then walked. -/
theorem lays_of_adds {f : Function} {loc : Option Loc} {w : WalkState}
    (hfree : f.scope ∉ s.graph.scopeNames) (hdefinitions : s.definitions = [])
    (happlications : s.applications = []) (hroot : f.root = s.graph.size)
    (hadds : Adds f.scope f.inner { s with graph := s.graph.addScope f.scope loc } w) :
    Lays w.graph f (w.record f.scope) ∧ Stays s.graph w.graph := by
  have hopened : (s.graph.addScope f.scope loc).scope? f.scope =
      some (s.graph.emptyScope f.scope) := by
    rw [Graph.scope?_addScope hfree, if_pos rfl]
  obtain ⟨hparams, hreturns⟩ := f.body.isInner_layout f.region
  obtain ⟨scope, hs, hgains⟩ := hadds.exists_after hopened
  refine ⟨⟨⟨scope, hs, ?_, ?_, ?_, ?_, hgains.sites, hgains.edges⟩, ?_, ?_, ?_⟩, ?_, ?_⟩
  · rw [hgains.root, hroot]
    rfl
  · rw [hgains.params]
    simp [Graph.emptyScope, Function.inner, Region.params, Region.returns, Region.declare, hparams]
  · rw [hgains.returns]
    simp [Graph.emptyScope, Function.inner, Region.params, Region.returns, Region.declare, hreturns]
  · rw [hgains.nodes, Function.layout, hroot]
    rfl
  · intro id hid
    rcases List.mem_cons.mp hid with rfl | hid
    · refine ⟨_, hadds.nodes _ _ ((Graph.node?_addScope _ _).trans (if_pos hroot)), rfl⟩
    · exact hadds.blocks id hid
  · exact ⟨hadds.checked.jumps, hadds.checked.conditions⟩
  · have hrecord := hadds.definitions
    have hrecord' := hadds.applications
    simp only [hdefinitions, happlications, List.nil_append] at hrecord hrecord'
    rw [WalkState.record, hrecord, hrecord']
    rfl
  · intro name other hother
    have hne : name ≠ f.scope := by
      rintro rfl
      exact hfree (Graph.mem_scopeNames.mpr ⟨other, hother⟩)
    rw [hadds.others name hne, Graph.scope?_addScope hfree, if_neg hne, hother]
  · intro id n hn
    exact hadds.nodes id n ((Graph.node?_addScope _ id).trans
      ((if_neg (Graph.lt_size_of_node? hn).ne).trans hn))

/-- The walk of a function lays its code out in a scope of its own. -/
theorem walkFunction_lays {f : PendingFunction} (hfree : f.entry.scope ∉ s.graph.scopeNames)
    (hdefinitions : s.definitions = []) (happlications : s.applications = [])
    (hrun : walkFunction f s = .ok r t) :
    ∃ code, Label.function f (numbering s) = (code, numbering t) ∧ Lays t.graph code r ∧
      Stays s.graph t.graph := by
  obtain ⟨vars, vars', u, v, w, hparams, hreturns, hbody, rfl, rfl⟩ := walkFunction_eq_ok hrun
  obtain ⟨params, hlabel₁, hadds₁⟩ := declareParams_adds f.entry.params hparams
  obtain ⟨returns, hlabel₂, hadds₂⟩ := declareReturns_adds f.entry.returns hreturns
  obtain ⟨body, hlabel₃, hadds₃⟩ := governed_adds f.entry.body hbody
  let code : Function :=
    { scope := f.entry.scope, root := s.graph.size, params, returns, body }
  obtain ⟨hlays, hothers⟩ := lays_of_adds (f := code) hfree hdefinitions happlications rfl
    ((hadds₁.trans hadds₂).trans hadds₃)
  refine ⟨code, ?_, hlays, hothers⟩
  have hfresh : Label.fresh (numbering s) = (s.graph.size, numbering
      { s with graph := s.graph.addScope f.entry.scope (some f.entry.loc) }) := by
    simp only [numbering, Graph.size_addScope]
    rfl
  rw [Label.function, Label.bind_eq hfresh, Label.bind_eq hlabel₁]
  dsimp only
  rw [Label.bind_eq hlabel₂]
  exact Label.bind_eq hlabel₃

theorem Label.pending_cons {n : Numbering} {f : PendingFunction} {rest : List PendingFunction}
    (h : n.queue = f :: rest) (bound : Nat) :
    Label.pending (bound + 1) n =
      (do
        let first ← Label.function f
        let others ← Label.pending bound
        return first :: others : Label _) { n with queue := rest } := by
  simp only [Label.pending, bind, StateT.bind, get, getThe, MonadStateOf.get, StateT.get, pure, h]
  rfl

/-- All functions of the queue are laid out, in order. -/
theorem walkPending_lays (bound : Nat) (h : Stands done s) (hrun : walkPending bound s = .ok rs t) :
    ∃ codes, Label.pending bound (numbering s) = (codes, numbering t) ∧
      List.Forall₂ (Lays t.graph) codes rs ∧ Stays s.graph t.graph := by
  induction bound generalizing done s rs with
  | zero =>
    obtain ⟨rfl, rfl⟩ := pure_eq_ok hrun
    exact ⟨[], rfl, .nil, .refl _⟩
  | succ bound ih =>
    rcases walkPending_succ_eq_ok hrun with
      ⟨hempty, rfl, rfl⟩ | ⟨f, rest, r, rs', u, hpending, hfunction, hrest, rfl⟩
    · refine ⟨[], ?_, .nil, .refl _⟩
      simp only [Label.pending, numbering, hempty]
      rfl
    · obtain ⟨hstands, _⟩ := walkFunction_spec h hpending hfunction
      obtain ⟨code, hlabel, hlays, hkept⟩ :=
        walkFunction_lays (s := { s with pending := rest }) (h.walked.free hpending)
          h.definitions h.applications hfunction
      obtain ⟨codes, hlabels, hall, hkept'⟩ := ih hstands hrest
      refine ⟨code :: codes, ?_, .cons (hlays.mono hkept') hall, hkept.trans hkept'⟩
      have hqueue : (numbering s).queue = f :: rest := hpending
      exact (Label.pending_cons hqueue bound).trans
        ((Label.bind_eq hlabel).trans (Label.bind_eq hlabels))

theorem walkMain_lays {items : List Node} (hrun : walkMain items { graph := {} } = .ok r s) :
    ∃ code, Label.main items {} = (code, numbering s) ∧ Lays s.graph code r := by
  obtain ⟨inner, last, w, x, henter, hitems, rfl, rfl⟩ := walkMain_eq_ok hrun
  obtain ⟨hentered, hscope, hregion, hqueued⟩ := enter_adds henter
  obtain ⟨body, hbody, hadds⟩ := statements_adds items hitems
  rw [hscope, hregion] at hadds
  let code : Function := { scope := mainScope, root := 0, body }
  obtain ⟨hlays, _⟩ := lays_of_adds (s := { graph := {} }) (f := code) List.not_mem_nil rfl rfl
    rfl (hqueued.trans hadds)
  have hfresh : Label.fresh {} = (0, numbering { graph := Graph.addScope {} mainScope none }) := rfl
  exact ⟨code, (Label.bind_eq hfresh).trans ((Label.bind_eq hentered).trans (Label.bind_eq hbody)),
    hlays⟩

/-- The walk over a program lays out the code of each of its scopes, in order. -/
theorem walkProgram_lays {program : Node} (hrun : walkProgram program { graph := {} } = .ok rs s) :
    List.Forall₂ (Lays s.graph) (functions program) rs := by
  cases program with
  | program name items loc =>
    obtain ⟨main, u, hmain, h⟩ := bind_eq_ok hrun
    obtain ⟨rest, v, hrest, h⟩ := bind_eq_ok h
    obtain ⟨rfl, rfl⟩ := pure_eq_ok h
    obtain ⟨hstands, _⟩ := walkMain_spec hmain
    obtain ⟨code, hcode, hlays⟩ := walkMain_lays hmain
    obtain ⟨codes, hlabels, hall, hkept⟩ := walkPending_lays _ hstands hrest
    have hfunctions : functions (.program name items loc) = code :: codes := by
      simp only [functions, hcode, hlabels]
    rw [hfunctions]
    exact .cons (hlays.mono hkept) hall
  | _ => cases hrun

end Scopes

/-- The graph of a program holds the code of a function: its layout, all that
its applications do, and the constants of its definitions. -/
structure Laid (g : Graph) (f : Function) : Prop where
  scope : ∃ scope, g.scope? f.scope = some scope ∧ scope.root = f.root ∧
    scope.params = f.params ∧ scope.returns = f.returns ∧ scope.nodes = f.layout.nodes ∧
    scope.sites = f.layout.sites ∧ f.layout.edges ⊆ scope.edges
  applied : ∀ a ∈ f.layout.applications, Applied g f.scope a
  constants : ∀ id value, g.Owns f.scope id → constantOf g id = some value →
    (Constant.solve f.layout.definitions).get id = .constant value
  blocks : ∀ id ∈ f.layout.blocks, IsBlock g id
  defined : ∀ d ∈ f.layout.definitions, g.OwnsVariable f.scope d.target
  checked : f.layout.Checked

/-- The graph of a program holds the code of each of its scopes. -/
theorem laid_of_collect {program : Node} (h : collect program = .ok g) :
    (functions program).map (·.scope) = g.scopeNames ∧ ∀ f ∈ functions program, Laid g f := by
  obtain ⟨rs, s, hwalk, rfl⟩ := collect_eq_ok h
  obtain ⟨done, hstands, _, hscopes, hrecords⟩ := walkProgram_spec hwalk
  have hcoh := hstands.walked.coherent
  have hfinish := finishAll_finishing hcoh rs hrecords
  have hmarks := finishAll_marks rs hcoh hrecords
  have hlays := walkProgram_lays hwalk
  constructor
  · rw [Lays.map_scope hlays, hscopes, hfinish.scopeNames, hstands.walked.scopes]
  · intro f hf
    obtain ⟨r, hr, hlay⟩ := exists_of_mem_left hlays hf
    obtain ⟨⟨scope, hs, hroot, hparams, hreturns, hnodes, hsites, hedges⟩, hblocks, hchecked,
      rfl⟩ := hlay
    have hsettled := settled_of_walkProgram hwalk hr
    obtain ⟨scope', hs', hcore⟩ := hfinish.scope hs
    obtain ⟨scope'', hs'', hsub⟩ := hmarks.locals _ scope' hs'
    cases hs.symm.trans hs''
    refine ⟨⟨scope', hs', ?_, ?_, ?_, ?_, ?_, fun e he => hsub e (hedges he)⟩,
      hsettled.applied, hsettled.constants, ?_, ?_, hchecked⟩
    · exact (congrArg Scope.root hcore).trans hroot
    · exact (congrArg Scope.params hcore).trans hparams
    · exact (congrArg Scope.returns hcore).trans hreturns
    · exact (congrArg Scope.nodes hcore).trans hnodes
    · exact (congrArg Scope.sites hcore).trans hsites
    · intro id hid
      obtain ⟨n, hn, hkind⟩ := hblocks id hid
      obtain ⟨n', hn', hsame⟩ := hfinish.keeps.kinds id n hn
      exact ⟨n', hn', hsame.trans hkind⟩
    · exact fun d hd => hfinish.keeps.ownsVariable ((hrecords _ hr).definitions d hd)

/-- The first scope is the top-level code. Its root block is the first node, and
it has no parameters. -/
theorem exists_main {program : Node} (hg : collect program = .ok g) :
    ∃ f rest, functions program = f :: rest ∧ f.scope = mainScope ∧ f.root = 0 ∧ f.params = [] := by
  cases program with
  | program name items loc => exact ⟨_, _, rfl, rfl, rfl, rfl⟩
  | _ => cases hg

/-- Only variables have constants. -/
theorem Laid.ownsVariable_of_constant {f : Function} (h : Laid g f) {id : NodeId} {value : Int}
    (hown : g.Owns f.scope id) (hconstant : constantOf g id = some value) :
    g.OwnsVariable f.scope id := by
  have hget := h.constants id value hown hconstant
  have hkey : id ∈ (Constant.solve f.layout.definitions).keys := by
    by_contra hnot
    rw [Constant.Assignment.get_eq_varying hnot] at hget
    cases hget
  rw [(Constant.solve_spec _).1, (eraseDups_spec _).2.1] at hkey
  obtain ⟨d, hd, rfl⟩ := List.mem_map.mp hkey
  exact h.defined d hd

theorem IsBlock.not_ownsVariable {id : NodeId} (h : IsBlock g id) (sc : String) :
    ¬ g.OwnsVariable sc id := by
  rintro ⟨_, m, hm, hvar⟩
  obtain ⟨n, hn, hblock⟩ := h
  cases hn.symm.trans hm
  rw [hblock] at hvar
  cases hvar

end YulTaint.Execution
