import Mathlib.Tactic
import YulTaint.Proofs.Flow.Run

/-!
The walk of statements is a run of moves. The weight of the functions that it
queues is the number of functions that the statement defines; those that a
statement defines itself were queued by the block around it.
-/

namespace YulTaint.Flow

variable {done : List FunctionEntry} {ctx : Context} {vars : Variables} {s t : WalkState}
  {loc : Loc} {u : Unit} {name : String} {after : Variables} {value body : Node}
  {results ids targets : List NodeId} {target id : NodeId} {names : List String}
  {frame : FunctionFrame} {items : List Node} {inner : Context}

theorem addEdges_moves (edges : List (NodeId × NodeId)) (h : Ready done ctx vars s)
    (hedges : ∀ e ∈ edges, s.graph.Owns ctx.scope e.1 ∧ s.graph.Owns ctx.scope e.2) :
    Moves done ctx.scope 0 s
      { s with graph := edges.foldl (fun g e => g.addEdge ctx.scope e.1 e.2) s.graph } := by
  induction edges generalizing s with
  | nil => exact .refl s
  | cons e rest ih =>
    obtain ⟨hsource, htarget⟩ := hedges e List.mem_cons_self
    have hedge : Move done ctx.scope 0 s
        { s with graph := s.graph.addEdge ctx.scope e.1 e.2 } := .addEdge hsource htarget
    refine hedge.moves.trans (ih (h.moves hedge.moves) fun e' he' => ?_)
    obtain ⟨hsource', htarget'⟩ := hedges e' (List.mem_cons_of_mem _ he')
    exact ⟨h.owns hedge.moves hsource', h.owns hedge.moves htarget'⟩

theorem distribute_eq (ctx : Context) (node : NodeId) (targets : List NodeId) (s : WalkState) :
    distribute ctx node targets s = .ok ()
      { s with
        graph := targets.foldl (fun g target => g.addEdge ctx.scope node target) s.graph
        definitions := s.definitions ++ targets.map .arbitrary } := rfl

theorem distribute_moves (h : Ready done ctx vars s) {node : NodeId}
    (hnode : s.graph.Owns ctx.scope node)
    (htargets : ∀ id ∈ targets, s.graph.OwnsVariable ctx.scope id)
    (hrun : distribute ctx node targets s = .ok u t) : Moves done ctx.scope 0 s t := by
  have hedges := addEdges_moves (targets.map (node, ·)) h (by
    intro e he
    obtain ⟨id, hid, rfl⟩ := List.mem_map.mp he
    exact ⟨hnode, (htargets id hid).owns⟩)
  rw [List.foldl_map] at hedges
  rw [distribute_eq] at hrun
  cases hrun
  refine hedges.trans (defineAll_moves (targets.map .arbitrary) _ ?_)
  intro d hd
  obtain ⟨id, hid, rfl⟩ := List.mem_map.mp hd
  exact ⟨h.ownsVariable hedges (htargets id hid), trivial⟩

theorem deliverAll_builtin_eq_ok {operands : List NodeId} (hresults : results.length ≠ 1)
    (hrun : deliverAll ctx .builtin name operands results loc s = .ok u t) :
    ∃ node v w, temporary ctx "expr" loc s = .ok node v ∧
      application ctx name operands node v = .ok () w ∧
      distribute ctx node results w = .ok () t := by
  have hrun' : (do
      let node ← temporary ctx "expr" loc
      application ctx name operands node
      distribute ctx node results : Walk Unit) s = .ok u t := by
    cases results with
    | nil => exact hrun
    | cons first rest =>
      cases rest with
      | nil => exact absurd rfl hresults
      | cons second rest => exact hrun
  obtain ⟨node, v, htemporary, hrest⟩ := bind_eq_ok hrun'
  obtain ⟨_, w, happlication, hdistribute⟩ := bind_eq_ok hrest
  exact ⟨node, v, w, htemporary, happlication, hdistribute⟩

theorem deliverAll_user_eq_ok {e : FunctionEntry} {operands : List NodeId}
    (hrun : deliverAll ctx (.user e) name operands results loc s = .ok u t) :
    callSite ctx e operands results loc s = .ok u t := by
  cases results with
  | nil => exact hrun
  | cons first rest =>
    cases rest with
    | nil => exact hrun
    | cons second rest => exact hrun

/-- A call in statement position is one site or one application. -/
theorem deliverAll_moves (h : Ready done ctx vars s) {target : Callee} {operands : List NodeId}
    (hfits : target.Fits ctx name operands.length results.length)
    (hoperands : ∀ id ∈ operands, s.graph.OwnsVariable ctx.scope id)
    (hresults : ∀ id ∈ results, s.graph.OwnsVariable ctx.scope id)
    (hrun : deliverAll ctx target name operands results loc s = .ok u t) :
    Moves done ctx.scope 0 s t := by
  cases target with
  | user e =>
    exact callSite_moves h hfits (fun id hid => (hoperands id hid).owns) hresults
      (deliverAll_user_eq_ok hrun)
  | builtin =>
    by_cases hone : results.length = 1
    · obtain ⟨result, rfl⟩ := List.length_eq_one_iff.mp hone
      exact application_moves h hfits hoperands (hresults result List.mem_cons_self) hrun
    · obtain ⟨node, v, w, htemporary, happlication, hdistribute⟩ :=
        deliverAll_builtin_eq_ok hone hrun
      obtain ⟨htemp, hnode⟩ := temporary_moves h htemporary
      have hready := h.moves htemp
      have happly := application_moves hready hfits
        (fun id hid => h.ownsVariable htemp (hoperands id hid)) hnode happlication
      have hrest := distribute_moves (hready.moves happly) (hready.owns happly hnode.owns)
        (fun id hid => hready.ownsVariable happly (h.ownsVariable htemp (hresults id hid)))
        hdistribute
      exact (htemp.trans happly).trans hrest

theorem callInto_eq_ok {args : List Node}
    (hrun : callInto ctx vars results name args loc s = .ok u t) :
    ∃ target ids v, target.Fits ctx name args.length results.length ∧
      operands ctx vars args s = .ok ids v ∧
      deliverAll ctx target name ids results loc v = .ok () t := by
  obtain ⟨target, s', hcallee, h⟩ := bind_eq_ok hrun
  obtain ⟨rfl, hfits⟩ := callee_eq_ok hcallee
  obtain ⟨ids, v, hoperands, hdeliver⟩ := bind_eq_ok h
  exact ⟨target, ids, v, hfits, hoperands, hdeliver⟩

theorem callInto_moves (h : Ready done ctx vars s) {args : List Node}
    (hresults : ∀ id ∈ results, s.graph.OwnsVariable ctx.scope id)
    (hrun : callInto ctx vars results name args loc s = .ok u t) : Moves done ctx.scope 0 s t := by
  obtain ⟨target, ids, v, hfits, hoperands, hdeliver⟩ := callInto_eq_ok hrun
  obtain ⟨hargs, hids, hlength⟩ := operands_moves args h hoperands
  exact hargs.trans (deliverAll_moves (h.moves hargs) (hlength ▸ hfits) hids
    (fun id hid => h.ownsVariable hargs (hresults id hid)) hdeliver)

theorem assignOne_identifier_eq_ok {nameLoc : Loc}
    (hrun : assignOne ctx vars target loc (.identifier name nameLoc) s = .ok u t) :
    ∃ source, vars.lookup name = some source ∧
      t = { s with
        graph := s.graph.addEdge ctx.scope source target
        definitions := s.definitions ++ [.copy target source] } := by
  obtain ⟨source, s', hname, h⟩ := bind_eq_ok hrun
  obtain ⟨hlookup, rfl⟩ := resolveName_eq_ok hname
  cases h
  exact ⟨source, hlookup, rfl⟩

theorem assignOne_literal_eq_ok {literalLoc : Loc} {value : Literal}
    (hrun : assignOne ctx vars target loc (.literal value literalLoc) s = .ok u t) :
    ∃ word, value.word? = .ok word ∧
      t = { s with definitions := s.definitions ++ [.constant target word] } := by
  obtain ⟨word, s', hliteral, h⟩ := bind_eq_ok hrun
  obtain ⟨hword, rfl⟩ := literalWord_eq_ok hliteral
  cases h
  exact ⟨word, hword, rfl⟩

theorem assignOne_moves (h : Ready done ctx vars s)
    (htarget : s.graph.OwnsVariable ctx.scope target)
    (hrun : assignOne ctx vars target loc value s = .ok u t) : Moves done ctx.scope 0 s t := by
  cases value with
  | literal value literalLoc =>
    obtain ⟨word, hvalue, rfl⟩ := assignOne_literal_eq_ok hrun
    exact (Move.define (d := .constant target word) htarget
      (isWord_natCast (Literal.word?_lt hvalue))).moves
  | identifier name nameLoc =>
    obtain ⟨source, hlookup, rfl⟩ := assignOne_identifier_eq_ok hrun
    have hsource := h.vars _ (mem_of_lookup_eq_some hlookup)
    have hedge : Move done ctx.scope 0 s
        { s with graph := s.graph.addEdge ctx.scope source target } :=
      .addEdge hsource.owns htarget.owns
    have hdefine : Move done ctx.scope 0
        { s with graph := s.graph.addEdge ctx.scope source target } _ :=
      .define (d := .copy target source) (h.ownsVariable hedge.moves htarget) trivial
    exact hedge.moves.trans hdefine.moves
  | _ => cases hrun

/-- A value is assigned either as a call or to a single target. -/
theorem assign_eq_ok (hrun : assign ctx vars targets loc value s = .ok u t) :
    (∃ name args callLoc, value = .call name args callLoc ∧
      callInto ctx vars targets name args callLoc s = .ok u t) ∨
    ∃ target, targets = [target] ∧ assignOne ctx vars target loc value s = .ok u t := by
  cases value with
  | call name args callLoc => exact Or.inl ⟨name, args, callLoc, rfl, hrun⟩
  | _ =>
    right
    cases targets with
    | nil => cases hrun
    | cons target rest =>
      cases rest with
      | nil => exact ⟨target, rfl, hrun⟩
      | cons _ _ => cases hrun

theorem assign_moves (h : Ready done ctx vars s)
    (htargets : ∀ id ∈ targets, s.graph.OwnsVariable ctx.scope id)
    (hrun : assign ctx vars targets loc value s = .ok u t) : Moves done ctx.scope 0 s t := by
  rcases assign_eq_ok hrun with ⟨name, args, callLoc, _, hcall⟩ | ⟨target, rfl, hone⟩
  · exact callInto_moves h htargets hcall
  · exact assignOne_moves h (htargets target List.mem_cons_self) hone

theorem newLocal_eq_ok (hrun : newLocal ctx vars name loc s = .ok id t) :
    vars.lookup name = none ∧ ctx.function? name = none ∧ Builtin.isBuiltin name = false ∧
      newVariable ctx (uniqueName s.graph ctx.scope name) loc s = .ok id t := by
  obtain ⟨_, u, hshadow, h⟩ := bind_eq_ok hrun
  obtain ⟨hvar, rfl⟩ := require_eq_ok hshadow
  obtain ⟨_, v, hfunction, h⟩ := bind_eq_ok h
  obtain ⟨hfree, rfl⟩ := require_eq_ok hfunction
  simp only [Bool.and_eq_true, Option.isNone_iff_eq_none, Bool.not_eq_true'] at hvar hfree
  exact ⟨hvar, hfree.1, hfree.2, h⟩

theorem newLocal_moves (h : Ready done ctx vars s)
    (hrun : newLocal ctx vars name loc s = .ok id t) :
    Moves done ctx.scope 0 s t ∧ t.graph.OwnsVariable ctx.scope id := by
  obtain ⟨_, _, _, hvariable⟩ := newLocal_eq_ok hrun
  obtain ⟨scope, hs, _⟩ := h.block
  have hfree := uniqueName_not_bound hs name
  rw [newVariable_eq] at hvariable
  cases hvariable
  exact ⟨(Move.newVariable _ loc h.block hfree).moves, owns_newVariable h _ loc⟩

theorem Ready.cons (h : Ready done ctx vars s) (name : String)
    (hid : s.graph.OwnsVariable ctx.scope id) : Ready done ctx ((name, id) :: vars) s :=
  { h with
    vars := by
      intro entry hentry
      rcases List.mem_cons.mp hentry with rfl | hentry
      · exact hid
      · exact h.vars entry hentry }

theorem declareAll_cons_eq_ok {rest : List String}
    (hrun : declareAll ctx loc vars (name :: rest) s = .ok (after, ids) t) :
    ∃ id ids' u, newLocal ctx vars name loc s = .ok id u ∧
      declareAll ctx loc ((name, id) :: vars) rest u = .ok (after, ids') t ∧ ids = id :: ids' := by
  obtain ⟨id, u, hlocal, h⟩ := bind_eq_ok hrun
  obtain ⟨⟨after', ids'⟩, v, hrest, h⟩ := bind_eq_ok h
  cases h
  exact ⟨id, ids', u, hlocal, hrest, rfl⟩

theorem declareAll_moves (names : List String) (h : Ready done ctx vars s)
    (hrun : declareAll ctx loc vars names s = .ok (after, ids) t) :
    Moves done ctx.scope 0 s t ∧ Ready done ctx after t ∧
      ∀ id ∈ ids, t.graph.OwnsVariable ctx.scope id := by
  induction names generalizing vars s ids with
  | nil =>
    cases hrun
    exact ⟨.refl t, h, List.forall_mem_nil _⟩
  | cons name rest ih =>
    obtain ⟨id, ids', u, hlocal, hrest, rfl⟩ := declareAll_cons_eq_ok hrun
    obtain ⟨hfirst, hown⟩ := newLocal_moves h hlocal
    have hready := (h.moves hfirst).cons name hown
    obtain ⟨hmoves, hready', howns⟩ := ih hready hrest
    refine ⟨hfirst.trans hmoves, hready', ?_⟩
    intro x hx
    rcases List.mem_cons.mp hx with rfl | hx
    · exact hready.ownsVariable hmoves hown
    · exact howns x hx

theorem initialise_moves (h : Ready done ctx vars s) {value : Option Node}
    (hids : ∀ id ∈ ids, s.graph.OwnsVariable ctx.scope id)
    (hrun : initialise ctx vars ids loc value s = .ok u t) : Moves done ctx.scope 0 s t := by
  cases value with
  | none =>
    cases hrun
    apply defineAll_moves
    intro d hd
    obtain ⟨id, hid, rfl⟩ := List.mem_map.mp hd
    exact ⟨hids id hid, isWord_zero⟩
  | some value => exact assign_moves h hids hrun

theorem declaration_eq_ok {value : Option Node}
    (hrun : declaration ctx vars names value loc s = .ok after t) :
    ∃ ids u, names.Nodup ∧ declareAll ctx loc vars names s = .ok (after, ids) u ∧
      initialise ctx vars ids loc value u = .ok () t := by
  obtain ⟨_, u, hnonempty, h⟩ := bind_eq_ok hrun
  obtain ⟨_, rfl⟩ := require_eq_ok hnonempty
  obtain ⟨_, v, hnodup, h⟩ := bind_eq_ok h
  obtain ⟨hdistinct, rfl⟩ := require_eq_ok hnodup
  obtain ⟨⟨after', ids⟩, w, hdeclare, h⟩ := bind_eq_ok h
  obtain ⟨_, x, hinitialise, h⟩ := bind_eq_ok h
  cases h
  exact ⟨ids, w, of_decide_eq_true hdistinct, hdeclare, hinitialise⟩

theorem declaration_moves (h : Ready done ctx vars s) {value : Option Node}
    (hrun : declaration ctx vars names value loc s = .ok after t) :
    Moves done ctx.scope 0 s t ∧ Ready done ctx after t := by
  obtain ⟨ids, u, _, hdeclare, hinitialise⟩ := declaration_eq_ok hrun
  obtain ⟨hmoves, hready, hids⟩ := declareAll_moves names h hdeclare
  have hinit := initialise_moves (h.moves hmoves) hids hinitialise
  exact ⟨hmoves.trans hinit, hready.moves hinit⟩

theorem resolveNames_cons_eq_ok {rest : List String}
    (hrun : resolveNames ctx vars loc (name :: rest) s = .ok ids t) :
    ∃ id ids', vars.lookup name = some id ∧ resolveNames ctx vars loc rest s = .ok ids' t ∧
      ids = id :: ids' := by
  obtain ⟨id, u, hname, h⟩ := bind_eq_ok hrun
  obtain ⟨hlookup, rfl⟩ := resolveName_eq_ok hname
  obtain ⟨ids', v, hrest, h⟩ := bind_eq_ok h
  obtain ⟨rfl, rfl⟩ := pure_eq_ok h
  exact ⟨id, ids', hlookup, hrest, rfl⟩

theorem resolveNames_eq_ok (names : List String)
    (hrun : resolveNames ctx vars loc names s = .ok ids t) :
    s = t ∧ List.Forall₂ (fun name id => vars.lookup name = some id) names ids := by
  induction names generalizing ids with
  | nil =>
    obtain ⟨rfl, rfl⟩ := pure_eq_ok hrun
    exact ⟨rfl, .nil⟩
  | cons name rest ih =>
    obtain ⟨id, ids', hlookup, hrest, rfl⟩ := resolveNames_cons_eq_ok hrun
    obtain ⟨rfl, hids⟩ := ih hrest
    exact ⟨rfl, .cons hlookup hids⟩

theorem assignment_eq_ok (hrun : assignment ctx vars names value loc s = .ok u t) :
    ∃ targets, targets.Nodup ∧
      List.Forall₂ (fun name id => vars.lookup name = some id) names targets ∧
      assign ctx vars targets loc value
        { s with
          graph := targets.foldl (fun g id => g.addEdge ctx.scope ctx.block id) s.graph } =
        .ok () t := by
  obtain ⟨_, v, hnonempty, h⟩ := bind_eq_ok hrun
  obtain ⟨_, rfl⟩ := require_eq_ok hnonempty
  obtain ⟨targets, v, hnames, h⟩ := bind_eq_ok h
  obtain ⟨rfl, htargets⟩ := resolveNames_eq_ok names hnames
  obtain ⟨_, v, hnodup, h⟩ := bind_eq_ok h
  obtain ⟨hdistinct, rfl⟩ := require_eq_ok hnodup
  obtain ⟨_, v, hedges, h⟩ := bind_eq_ok h
  cases hedges
  exact ⟨targets, of_decide_eq_true hdistinct, htargets, h⟩

theorem assignment_moves (h : Ready done ctx vars s)
    (hrun : assignment ctx vars names value loc s = .ok u t) :
    Moves done ctx.scope 0 s t := by
  obtain ⟨targets, _, hnames, hassign⟩ := assignment_eq_ok hrun
  have htargets (id : NodeId) (hid : id ∈ targets) : s.graph.OwnsVariable ctx.scope id := by
    obtain ⟨name, _, hlookup⟩ := exists_of_mem_right hnames hid
    exact h.vars _ (mem_of_lookup_eq_some hlookup)
  have hedges := addEdges_moves (targets.map (ctx.block, ·)) h (by
    intro e he
    obtain ⟨id, hid, rfl⟩ := List.mem_map.mp he
    exact ⟨h.block, (htargets id hid).owns⟩)
  rw [List.foldl_map] at hedges
  exact hedges.trans (assign_moves (h.moves hedges)
    (fun id hid => h.ownsVariable hedges (htargets id hid)) hassign)

def FunctionEntry.IsNamed (e named : FunctionEntry) : Prop :=
  named = { e with scope := named.scope }

/-- Scope names given one after the other: new, distinct, and not that of the
top-level code. -/
structure Names (frame : FunctionFrame) (before after : List String) : Prop where
  mem : ∀ name, name ∈ after ↔ name ∈ frame.map (·.scope) ∨ name ∈ before
  distinct : (frame.map (·.scope)).Nodup
  fresh : ∀ e ∈ frame, e.scope ∉ before ∧ e.scope ≠ mainScope

theorem bindFunctions_cons_eq_ok {e : FunctionEntry} {rest : List FunctionEntry}
    {frame' : FunctionFrame} (hrun : bindFunctions ctx frame (e :: rest) s = .ok frame' t) :
    let scope := uniqueScopeName s.scopeNames ctx.scope e.name
    bindFunctions ctx (frame ++ [{ e with scope }]) rest
      { s with scopeNames := scope :: s.scopeNames } = .ok frame' t := by
  obtain ⟨_, u, hduplicate, h⟩ := bind_eq_ok hrun
  obtain ⟨_, rfl⟩ := require_eq_ok hduplicate
  obtain ⟨_, u, hbuiltin, h⟩ := bind_eq_ok h
  obtain ⟨_, rfl⟩ := require_eq_ok hbuiltin
  exact h

/-- Scope names are given in order, each of them new. -/
theorem bindFunctions_eq_ok (entries : List FunctionEntry) {frame' : FunctionFrame}
    (hrun : bindFunctions ctx frame entries s = .ok frame' t) :
    ∃ added names, frame' = frame ++ added ∧
      List.Forall₂ FunctionEntry.IsNamed entries added ∧ t = { s with scopeNames := names } ∧
      Names added s.scopeNames names := by
  induction entries generalizing s frame with
  | nil =>
    obtain ⟨rfl, rfl⟩ := pure_eq_ok hrun
    refine ⟨[], s.scopeNames, (List.append_nil _).symm, .nil, rfl, ?_, List.nodup_nil, ?_⟩
    · simp
    · exact List.forall_mem_nil _
  | cons e rest ih =>
    let scope := uniqueScopeName s.scopeNames ctx.scope e.name
    obtain ⟨hnew, hmain⟩ := uniqueScopeName_free s.scopeNames ctx.scope e.name
    have hrest : bindFunctions ctx (frame ++ [{ e with scope }]) rest
        { s with scopeNames := scope :: s.scopeNames } = .ok frame' t :=
      bindFunctions_cons_eq_ok hrun
    obtain ⟨added, names, rfl, hadded, rfl, hnames⟩ := ih hrest
    refine ⟨{ e with scope } :: added, names, by simp, .cons rfl hadded, rfl, ?_, ?_, ?_⟩
    · intro name
      rw [hnames.mem, List.map_cons, List.mem_cons, List.mem_cons]
      tauto
    · rw [List.map_cons, List.nodup_cons]
      refine ⟨?_, hnames.distinct⟩
      intro hmem
      obtain ⟨e', he', heq⟩ := List.mem_map.mp hmem
      exact (hnames.fresh e' he').1 (heq ▸ List.mem_cons_self)
    · intro e' he'
      rcases List.mem_cons.mp he' with rfl | he'
      · exact ⟨hnew, hmain⟩
      · obtain ⟨hfresh, hmain'⟩ := hnames.fresh e' he'
        exact ⟨fun hmem => hfresh (List.mem_cons_of_mem _ hmem), hmain'⟩

/-- The functions of a block as they are queued: each sees the whole block and
what is around it. -/
def queueOf (ctx : Context) (frame : FunctionFrame) : List PendingFunction :=
  frame.map fun entry => { entry, visible := frame :: ctx.functions }

theorem enter_eq_ok (hrun : enter ctx items s = .ok inner t) :
    ∃ frame names, inner = { ctx with functions := frame :: ctx.functions } ∧
      List.Forall₂ FunctionEntry.IsNamed (definedFunctions items) frame ∧
      Names frame s.scopeNames names ∧
      t = { s with pending := s.pending ++ queueOf ctx frame, scopeNames := names } := by
  obtain ⟨frame, u, hbind, h⟩ := bind_eq_ok hrun
  obtain ⟨added, names, hframe, hadded, rfl, hnames⟩ := bindFunctions_eq_ok _ hbind
  obtain rfl : frame = added := by simpa using hframe
  cases h
  exact ⟨frame, names, rfl, hadded, hnames, rfl⟩

/-- How many functions a list of statements defines directly, those inside
their bodies included. -/
def definedWeight (items : List Node) : Nat :=
  ((definedFunctions items).map fun e => e.body.functionCount + 1).sum

theorem queueWeight_queueOf {entries : List FunctionEntry}
    (h : List.Forall₂ FunctionEntry.IsNamed entries frame) (ctx : Context) :
    queueWeight (queueOf ctx frame) =
      (entries.map fun e => e.body.functionCount + 1).sum := by
  have hweights (visible : List FunctionFrame) :
      queueWeight (frame.map fun entry => { entry, visible }) =
        (entries.map fun e => e.body.functionCount + 1).sum := by
    induction h with
    | nil => rfl
    | cons hnamed _ ih =>
      have hbody := congrArg FunctionEntry.body hnamed
      simp only [queueWeight, List.map_cons, List.sum_cons] at ih ⊢
      rw [ih, hbody]
  exact hweights _

/-- To enter a block queues its functions, which see the block from then on. -/
theorem enter_moves (h : Ready done ctx vars s) (hrun : enter ctx items s = .ok inner t) :
    Moves done ctx.scope (definedWeight items) s t ∧ Ready done inner vars t ∧
      inner.scope = ctx.scope := by
  obtain ⟨frame, names, rfl, hnamed, hnames, rfl⟩ := enter_eq_ok hrun
  have hentry (e : FunctionEntry) (he : e ∈ frame) :
      ∃ f ∈ queueOf ctx frame, f.entry = e :=
    ⟨_, List.mem_map_of_mem he, rfl⟩
  have hscopes : (queueOf ctx frame).map (·.entry.scope) = frame.map (·.scope) := by
    simp [queueOf]
  have hqueued : Queued s done (queueOf ctx frame) := by
    refine ⟨hscopes ▸ hnames.distinct, ?_, ?_⟩
    · intro f hf
      obtain ⟨e, he, rfl⟩ := List.mem_map.mp hf
      exact hnames.fresh e he
    · intro f hf scope hscope e he
      obtain ⟨e', _, rfl⟩ := List.mem_map.mp hf
      rcases List.mem_cons.mp hscope with rfl | hscope
      · exact Or.inr (hentry e he)
      · exact Or.inl (h.functions scope hscope e he)
  have hqueue : Move done ctx.scope (queueWeight (queueOf ctx frame)) s _ :=
    .queue hqueued (hscopes ▸ hnames.mem)
  have hweight : queueWeight (queueOf ctx frame) = definedWeight items :=
    queueWeight_queueOf hnamed ctx
  have hmove := hweight ▸ hqueue
  have hready := h.moves hmove.moves
  refine ⟨hmove.moves, ?_, rfl⟩
  exact
    { coherent := hready.coherent
      root := hready.root
      block := hready.block
      loop := hready.loop
      vars := hready.vars
      functions := by
        intro scope hscope e he
        rcases List.mem_cons.mp hscope with rfl | hscope
        · obtain ⟨f, hf, hfe⟩ := hentry e he
          exact Or.inr ⟨f, List.mem_append_right _ hf, hfe⟩
        · exact hready.functions scope hscope e he }

theorem jump_moves (h : Ready done ctx vars s) (htarget : s.graph.Owns ctx.scope target)
    (hrun : jump ctx target s = .ok u t) :
    Moves done ctx.scope 0 s t := by
  unfold jump at hrun
  by_cases hsame : ctx.block = target
  · rw [if_pos hsame] at hrun
    cases hrun
    exact .refl s
  · rw [if_neg hsame, addEdge_eq] at hrun
    cases hrun
    exact (Move.addEdge h.block htarget).moves

theorem loopJump_eq_ok {keyword : String} (hrun : loopJump ctx keyword loc s = .ok u t) :
    ∃ block, ctx.loop = some block ∧ jump ctx block s = .ok u t := by
  unfold loopJump at hrun
  cases hloop : ctx.loop with
  | some block =>
    simp only [hloop] at hrun
    exact ⟨block, rfl, hrun⟩
  | none =>
    simp only [hloop] at hrun
    cases hrun

theorem loopJump_moves (h : Ready done ctx vars s) {keyword : String}
    (hrun : loopJump ctx keyword loc s = .ok u t) : Moves done ctx.scope 0 s t := by
  obtain ⟨block, hloop, hjump⟩ := loopJump_eq_ok hrun
  exact jump_moves h (h.loop block hloop) hjump

theorem armValue_eq_ok {seen : List Nat} {word : Nat}
    (hrun : armValue seen loc value s = .ok word t) :
    s = t ∧ word ∉ seen ∧ ∃ literal literalLoc, value = .literal literal literalLoc ∧
      literal.word? = .ok word := by
  cases value with
  | literal literal literalLoc =>
    obtain ⟨word', u, hword, h⟩ := bind_eq_ok hrun
    obtain ⟨hvalue, rfl⟩ := literalWord_eq_ok hword
    obtain ⟨_, v, hseen, h⟩ := bind_eq_ok h
    obtain ⟨hnew, rfl⟩ := require_eq_ok hseen
    obtain ⟨rfl, rfl⟩ := pure_eq_ok h
    refine ⟨rfl, ?_, literal, literalLoc, rfl, hvalue⟩
    simpa using hnew
  | _ => cases hrun

theorem statement_branch_eq_ok {condition : Node}
    (hrun : statement ctx vars (.branch condition body loc) s = .ok after t) :
    ∃ id block u v, after = vars ∧ operand ctx vars condition s = .ok id u ∧
      newGoverned ctx "if" id loc u = .ok block v ∧
      governed { ctx with block } vars body v = .ok () t := by
  obtain ⟨id, u, hoperand, h⟩ := bind_eq_ok hrun
  obtain ⟨block, v, hblock, h⟩ := bind_eq_ok h
  obtain ⟨_, w, hbody, h⟩ := bind_eq_ok h
  obtain ⟨rfl, rfl⟩ := pure_eq_ok h
  exact ⟨id, block, u, v, rfl, hoperand, hblock, hbody⟩

theorem statement_switch_eq_ok {selector : Node} {arms : List Node} {fallback : Option Node}
    (hrun : statement ctx vars (.switch selector arms fallback loc) s = .ok after t) :
    ∃ id u v, after = vars ∧ operand ctx vars selector s = .ok id u ∧
      switchArms ctx vars id [] arms u = .ok () v ∧
      switchFallback ctx vars id loc fallback v = .ok () t := by
  obtain ⟨_, u, hcases, h⟩ := bind_eq_ok hrun
  obtain ⟨_, rfl⟩ := require_eq_ok hcases
  obtain ⟨id, u, hoperand, h⟩ := bind_eq_ok h
  obtain ⟨_, v, harms, h⟩ := bind_eq_ok h
  obtain ⟨_, w, hfallback, h⟩ := bind_eq_ok h
  obtain ⟨rfl, rfl⟩ := pure_eq_ok h
  exact ⟨id, u, v, rfl, hoperand, harms, hfallback⟩

theorem statement_loop_eq_ok {init condition post : Node}
    (hrun : statement ctx vars (.loop init condition post body loc) s = .ok after t) :
    ∃ initVars id block v w x y, after = vars ∧ loopInit ctx vars init s = .ok initVars v ∧
      operand ctx initVars condition v = .ok id w ∧
      newGoverned ctx "for" id loc w = .ok block x ∧
      governed { ctx with block, loop := some block } initVars body x = .ok () y ∧
      governed { ctx with block, loop := some block } initVars post y = .ok () t := by
  obtain ⟨initVars, v, hinit, h⟩ := bind_eq_ok hrun
  obtain ⟨id, w, hoperand, h⟩ := bind_eq_ok h
  obtain ⟨block, x, hblock, h⟩ := bind_eq_ok h
  obtain ⟨_, y, hbody, h⟩ := bind_eq_ok h
  obtain ⟨_, z, hpost, h⟩ := bind_eq_ok h
  obtain ⟨rfl, rfl⟩ := pure_eq_ok h
  exact ⟨initVars, id, block, v, w, x, y, rfl, hinit, hoperand, hblock, hbody, hpost⟩

/-- The statements of a block, in the scope of its functions. -/
theorem statement_block_eq_ok (hrun : statement ctx vars (.block items loc) s = .ok after t) :
    ∃ inner last u, after = vars ∧ enter ctx items s = .ok inner u ∧
      statements inner vars items u = .ok last t := by
  obtain ⟨inner, u, henter, h⟩ := bind_eq_ok hrun
  obtain ⟨last, v, hitems, h⟩ := bind_eq_ok h
  obtain ⟨rfl, rfl⟩ := pure_eq_ok h
  exact ⟨inner, last, u, rfl, henter, hitems⟩

theorem governed_eq_ok (hrun : governed ctx vars body s = .ok u t) :
    ∃ items loc inner last v, body = .block items loc ∧ enter ctx items s = .ok inner v ∧
      statements inner vars items v = .ok last t := by
  cases body with
  | block items loc =>
    obtain ⟨inner, v, henter, h⟩ := bind_eq_ok hrun
    obtain ⟨last, w, hitems, h⟩ := bind_eq_ok h
    obtain ⟨_, rfl⟩ := pure_eq_ok h
    exact ⟨items, loc, inner, last, v, rfl, henter, hitems⟩
  | _ => cases hrun

theorem statement_leave_eq_ok (hrun : statement ctx vars (.leave loc) s = .ok after t) :
    after = vars ∧ ctx.scope ≠ mainScope ∧ jump ctx ctx.root s = .ok () t := by
  obtain ⟨_, u, hmain, h⟩ := bind_eq_ok hrun
  obtain ⟨hscope, rfl⟩ := require_eq_ok hmain
  obtain ⟨_, v, hjump, h⟩ := bind_eq_ok h
  obtain ⟨rfl, rfl⟩ := pure_eq_ok h
  exact ⟨rfl, by simpa using hscope, hjump⟩

/-- The walk does not get past an arm that is no case. -/
theorem strayArm_ne_ok {selector : NodeId} {seen : List Nat} {arm : Node} :
    strayArm ctx selector seen arm s ≠ .ok u t := by
  intro hrun
  unfold strayArm at hrun
  split at hrun
  · cases hrun
  · cases hrun
  · obtain ⟨_, _, _, hrun⟩ := bind_eq_ok hrun
    obtain ⟨_, _, _, hrun⟩ := bind_eq_ok hrun
    cases hrun
  · obtain ⟨_, _, _, hrun⟩ := bind_eq_ok hrun
    obtain ⟨_, _, _, hrun⟩ := bind_eq_ok hrun
    cases hrun
  · cases hrun

/-- Only a case is walked to its end. -/
theorem switchArms_cons_eq_ok {selector : NodeId} {seen : List Nat} {arm : Node}
    {rest : List Node} (hrun : switchArms ctx vars selector seen (arm :: rest) s = .ok u t) :
    ∃ value body loc, arm = .caseArm value body loc ∧
      ∃ word block v w, armValue seen loc value s = .ok word s ∧
        newGoverned ctx "case" selector loc s = .ok block v ∧
        governed { ctx with block } vars body v = .ok () w ∧
        switchArms ctx vars selector (word :: seen) rest w = .ok () t := by
  cases arm with
  | caseArm value body loc =>
    obtain ⟨word, v, hvalue, h⟩ := bind_eq_ok hrun
    obtain ⟨rfl, _⟩ := armValue_eq_ok hvalue
    obtain ⟨block, v, hblock, h⟩ := bind_eq_ok h
    obtain ⟨_, w, hbody, h⟩ := bind_eq_ok h
    exact ⟨value, body, loc, rfl, word, block, v, w, hvalue, hblock, hbody, h⟩
  | _ => exact absurd hrun strayArm_ne_ok

theorem switchFallback_some_eq_ok {selector : NodeId}
    (hrun : switchFallback ctx vars selector loc (some body) s = .ok u t) :
    ∃ block v, newGoverned ctx "default" selector loc s = .ok block v ∧
      governed { ctx with block } vars body v = .ok () t := by
  obtain ⟨block, v, hblock, h⟩ := bind_eq_ok hrun
  exact ⟨block, v, hblock, h⟩

theorem statements_cons_eq_ok {item : Node} {rest : List Node} {last : Variables}
    (hrun : statements ctx vars (item :: rest) s = .ok last t) :
    ∃ after u, statement ctx vars item s = .ok after u ∧
      statements ctx after rest u = .ok last t := by
  obtain ⟨after, u, hfirst, h⟩ := bind_eq_ok hrun
  exact ⟨after, u, hfirst, h⟩

theorem definedWeight_cons (item : Node) (rest : List Node) :
    definedWeight (item :: rest) = definedWeight [item] + definedWeight rest := by
  cases item <;> simp [definedWeight, definedFunctions]

/-- A block of the scope's own takes the current one's place. -/
theorem Ready.under (h : Ready done ctx vars s) {block : NodeId}
    (hblock : s.graph.Owns ctx.scope block) : Ready done { ctx with block } vars s :=
  ⟨h.coherent, h.root, hblock, h.loop, h.vars, h.functions⟩

theorem Ready.looping (h : Ready done ctx vars s) {block : NodeId}
    (hblock : s.graph.Owns ctx.scope block) :
    Ready done { ctx with block, loop := some block } vars s := by
  refine ⟨h.coherent, h.root, hblock, ?_, h.vars, h.functions⟩
  intro id hid
  cases hid
  exact hblock

/-- The variables of an inner list of statements, seen from around it. -/
theorem Ready.leave {last : Variables} (h : Ready done ctx vars s)
    (hinner : Ready done inner last s) (hscope : inner.scope = ctx.scope) :
    Ready done ctx last s :=
  { h with vars := hscope ▸ hinner.vars }

mutual

/-- The walk of a statement is a run of moves in its scope. -/
theorem statement_moves (item : Node) {ctx : Context} {vars after : Variables} {s t : WalkState}
    (h : Ready done ctx vars s) (hrun : statement ctx vars item s = .ok after t) :
    ∃ k, k + definedWeight [item] = item.functionCount ∧ Moves done ctx.scope k s t ∧
      Ready done ctx after t := by
  cases item with
  | declaration names value loc =>
    obtain ⟨hmoves, hready⟩ := declaration_moves h hrun
    exact ⟨0, rfl, hmoves, hready⟩
  | assignment names value loc =>
    obtain ⟨_, u, hassignment, hpure⟩ := bind_eq_ok hrun
    obtain ⟨rfl, rfl⟩ := pure_eq_ok hpure
    have hmoves := assignment_moves h hassignment
    exact ⟨0, rfl, hmoves, h.moves hmoves⟩
  | expression value loc =>
    obtain ⟨_, u, hexpression, hpure⟩ := bind_eq_ok hrun
    obtain ⟨rfl, rfl⟩ := pure_eq_ok hpure
    cases value with
    | call name args callLoc =>
      have hmoves := callInto_moves h (List.forall_mem_nil _) hexpression
      exact ⟨0, rfl, hmoves, h.moves hmoves⟩
    | _ => cases hexpression
  | branch condition body loc =>
    obtain ⟨id, block, u, v, rfl, hoperand, hblock, hbody⟩ := statement_branch_eq_ok hrun
    obtain ⟨hmoves, hid⟩ := operand_moves condition h hoperand
    have hready := h.moves hmoves
    obtain ⟨hnew, hown⟩ := newGoverned_moves hready hid.owns hblock
    have hready' := hready.moves hnew
    have hrest := governed_moves body (hready'.under hown) hbody
    refine ⟨0 + 0 + body.functionCount, by simp [definedWeight, definedFunctions,
      Node.functionCount], (hmoves.trans hnew).trans hrest, hready'.moves hrest⟩
  | switch selector arms fallback loc =>
    obtain ⟨id, u, v, rfl, hoperand, harms, hfallback⟩ := statement_switch_eq_ok hrun
    obtain ⟨hmoves, hid⟩ := operand_moves selector h hoperand
    have hready := h.moves hmoves
    have harmMoves := switchArms_moves arms hready hid.owns harms
    have hready' := hready.moves harmMoves
    have hrest := switchFallback_moves fallback hready' (hready.owns harmMoves hid.owns)
      hfallback
    refine ⟨0 + functionCounts arms + fallbackFunctionCount fallback, by simp [definedWeight,
      definedFunctions, Node.functionCount], (hmoves.trans harmMoves).trans hrest,
      hready'.moves hrest⟩
  | loop init condition post body loc =>
    obtain ⟨initVars, id, block, v, w, x, y, rfl, hinit, hoperand, hblock, hbody, hpost⟩ :=
      statement_loop_eq_ok hrun
    obtain ⟨hinitMoves, hloop⟩ := loopInit_moves init h hinit
    obtain ⟨hcondition, hid⟩ := operand_moves condition hloop hoperand
    have hloop' := hloop.moves hcondition
    obtain ⟨hnew, hown⟩ := newGoverned_moves hloop' hid.owns hblock
    have hgoverned := (hloop'.moves hnew).looping hown
    have hbodyMoves := governed_moves body hgoverned hbody
    have hpostMoves := governed_moves post (hgoverned.moves hbodyMoves) hpost
    have hall := (((hinitMoves.trans hcondition).trans hnew).trans hbodyMoves).trans hpostMoves
    refine ⟨_, ?_, hall, h.moves hall⟩
    simp only [definedWeight, definedFunctions, Node.functionCount, List.map_nil,
      List.sum_nil]
    omega
  | block items loc =>
    obtain ⟨inner, last, u, rfl, henter, hitems⟩ := statement_block_eq_ok hrun
    obtain ⟨hentered, hinner, hscope⟩ := enter_moves h henter
    obtain ⟨k, hk, hmoves, _⟩ := statements_moves items hinner hitems
    rw [hscope] at hmoves
    have hall := hentered.trans hmoves
    refine ⟨_, ?_, hall, h.moves hall⟩
    simp only [definedWeight, definedFunctions, Node.functionCount, List.map_nil,
      List.sum_nil] at hk ⊢
    omega
  | function name params returns body loc =>
    obtain ⟨rfl, rfl⟩ := pure_eq_ok hrun
    exact ⟨0, by simp [definedWeight, definedFunctions, Node.functionCount], .refl s, h⟩
  | breakOut loc =>
    obtain ⟨_, u, hjump, hpure⟩ := bind_eq_ok hrun
    obtain ⟨rfl, rfl⟩ := pure_eq_ok hpure
    have hmoves := loopJump_moves h hjump
    exact ⟨0, rfl, hmoves, h.moves hmoves⟩
  | continueOn loc =>
    obtain ⟨_, u, hjump, hpure⟩ := bind_eq_ok hrun
    obtain ⟨rfl, rfl⟩ := pure_eq_ok hpure
    have hmoves := loopJump_moves h hjump
    exact ⟨0, rfl, hmoves, h.moves hmoves⟩
  | leave loc =>
    obtain ⟨rfl, _, hjump⟩ := statement_leave_eq_ok hrun
    have hmoves := jump_moves h h.root hjump
    exact ⟨0, rfl, hmoves, h.moves hmoves⟩
  | _ => cases hrun

theorem statements_moves (items : List Node) {ctx : Context} {vars last : Variables}
    {s t : WalkState} (h : Ready done ctx vars s)
    (hrun : statements ctx vars items s = .ok last t) :
    ∃ k, k + definedWeight items = functionCounts items ∧ Moves done ctx.scope k s t ∧
      Ready done ctx last t := by
  cases items with
  | nil =>
    obtain ⟨rfl, rfl⟩ := pure_eq_ok hrun
    exact ⟨0, rfl, .refl s, h⟩
  | cons item rest =>
    obtain ⟨after, u, hfirst, hrest⟩ := statements_cons_eq_ok hrun
    obtain ⟨k, hk, hmoves, hready⟩ := statement_moves item h hfirst
    obtain ⟨l, hl, hmoves', hready'⟩ := statements_moves rest hready hrest
    refine ⟨k + l, ?_, hmoves.trans hmoves', hready'⟩
    rw [definedWeight_cons, functionCounts]
    omega

theorem governed_moves (body : Node) {ctx : Context} {vars : Variables} {s t : WalkState}
    {u : Unit} (h : Ready done ctx vars s) (hrun : governed ctx vars body s = .ok u t) :
    Moves done ctx.scope body.functionCount s t := by
  cases body with
  | block items loc =>
    obtain ⟨items', loc', inner, last, v, heq, henter, hitems⟩ := governed_eq_ok hrun
    cases heq
    obtain ⟨hentered, hinner, hscope⟩ := enter_moves h henter
    obtain ⟨k, hk, hmoves, _⟩ := statements_moves items hinner hitems
    rw [hscope] at hmoves
    have hcount : definedWeight items + k = (Node.block items loc).functionCount := by
      rw [Node.functionCount, ← hk, Nat.add_comm]
    exact hcount ▸ hentered.trans hmoves
  | _ => cases hrun

theorem loopInit_moves (init : Node) {ctx : Context} {vars after : Variables} {s t : WalkState}
    (h : Ready done ctx vars s) (hrun : loopInit ctx vars init s = .ok after t) :
    Moves done ctx.scope init.functionCount s t ∧ Ready done ctx after t := by
  cases init with
  | block items loc | program name items loc =>
    obtain ⟨inner, u, henter, hitems⟩ := bind_eq_ok hrun
    obtain ⟨hentered, hinner, hscope⟩ := enter_moves h henter
    obtain ⟨k, hk, hmoves, hready⟩ := statements_moves items hinner hitems
    rw [hscope] at hmoves
    have hall := hentered.trans hmoves
    rw [Node.functionCount, ← hk, Nat.add_comm]
    exact ⟨hall, (h.moves hall).leave hready hscope⟩
  | _ => cases hrun

theorem switchArms_moves (arms : List Node) {ctx : Context} {vars : Variables} {s t : WalkState}
    {selector : NodeId} {seen : List Nat} {u : Unit} (h : Ready done ctx vars s)
    (hselector : s.graph.Owns ctx.scope selector)
    (hrun : switchArms ctx vars selector seen arms s = .ok u t) :
    Moves done ctx.scope (functionCounts arms) s t := by
  cases arms with
  | nil =>
    obtain ⟨_, rfl⟩ := pure_eq_ok hrun
    exact .refl s
  | cons arm rest =>
    cases arm with
    | caseArm value body loc =>
      obtain ⟨_, _, _, heq, word, block, v, w, _, hblock, hbody, hrest⟩ :=
        switchArms_cons_eq_ok hrun
      cases heq
      obtain ⟨hnew, hown⟩ := newGoverned_moves h hselector hblock
      have hready := h.moves hnew
      have hbodyMoves := governed_moves body (hready.under hown) hbody
      have hready' := hready.moves hbodyMoves
      have hrestMoves := switchArms_moves rest hready'
        (hready.owns hbodyMoves (h.owns hnew hselector)) hrest
      have hcount : 0 + body.functionCount + functionCounts rest =
          functionCounts (.caseArm value body loc :: rest) := by
        rw [functionCounts, Node.functionCount, Nat.zero_add]
      exact hcount ▸ (hnew.trans hbodyMoves).trans hrestMoves
    | _ => exact absurd hrun strayArm_ne_ok

theorem switchFallback_moves (fallback : Option Node) {ctx : Context} {vars : Variables}
    {s t : WalkState} {selector : NodeId} {loc : Loc} {u : Unit} (h : Ready done ctx vars s)
    (hselector : s.graph.Owns ctx.scope selector)
    (hrun : switchFallback ctx vars selector loc fallback s = .ok u t) :
    Moves done ctx.scope (fallbackFunctionCount fallback) s t := by
  cases fallback with
  | none =>
    obtain ⟨_, rfl⟩ := pure_eq_ok hrun
    exact .refl s
  | some body =>
    obtain ⟨block, v, hblock, hbody⟩ := switchFallback_some_eq_ok hrun
    obtain ⟨hnew, hown⟩ := newGoverned_moves h hselector hblock
    have hbodyMoves := governed_moves body ((h.moves hnew).under hown) hbody
    have hcount : 0 + body.functionCount = fallbackFunctionCount (some body) := by
      rw [fallbackFunctionCount, Nat.zero_add]
    exact hcount ▸ hnew.trans hbodyMoves

end

end YulTaint.Flow
