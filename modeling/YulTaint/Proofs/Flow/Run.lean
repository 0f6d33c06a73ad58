import Mathlib.Tactic
import YulTaint.Proofs.Flow.Move

/-!
A walk that succeeds is a run of moves. Each function of the walk gets one
lemma that says what a successful run did and what it returns; the lemmas on
statements follow the shape of the program.
-/

namespace YulTaint.Flow

section Inversion

variable {α β : Type} {s t : WalkState}

theorem bind_eq_ok {m : Walk α} {f : α → Walk β} {b : β} (h : (m >>= f) s = .ok b t) :
    ∃ a u, m s = .ok a u ∧ f a u = .ok b t := by
  simp only [bind, EStateM.bind] at h
  split at h
  · rename_i a u hm
    exact ⟨a, u, hm, h⟩
  · cases h

theorem pure_eq_ok {a b : α} (h : (pure a : Walk α) s = .ok b t) : a = b ∧ s = t := by
  cases h
  exact ⟨rfl, rfl⟩

/-- A run whose value passes a check has ended well. -/
theorem exists_of_run' {m : Walk α} {p : α → Bool} (h : (EStateM.run' m s).any p = true) :
    ∃ a t, m s = .ok a t ∧ p a = true := by
  have hrun {r : EStateM.Result Failure WalkState α} (hr : m s = r) :
      EStateM.run' m s = EStateM.run' (fun _ => r) s :=
    congrArg (fun r => EStateM.run' (fun _ => r) s) hr
  cases hm : m s with
  | ok a t =>
    rw [hrun hm] at h
    exact ⟨a, t, rfl, h⟩
  | error failure t =>
    rw [hrun hm] at h
    cases h

theorem require_eq_ok {condition : Bool} {fault : Fault} {u : Unit}
    (h : require condition fault s = .ok u t) : condition = true ∧ s = t := by
  cases condition with
  | false => cases h
  | true => exact ⟨rfl, (pure_eq_ok h).2⟩

end Inversion

/-- The nodes of a context and the visible variables are the scope's own, and
the visible functions are known. -/
structure Ready (done : List FunctionEntry) (ctx : Context) (vars : Variables) (s : WalkState) :
    Prop where
  coherent : s.graph.Coherent
  root : s.graph.Owns ctx.scope ctx.root
  block : s.graph.Owns ctx.scope ctx.block
  loop : ∀ id, ctx.loop = some id → s.graph.Owns ctx.scope id
  vars : ∀ entry ∈ vars, s.graph.OwnsVariable ctx.scope entry.2
  functions : ∀ frame ∈ ctx.functions, ∀ e ∈ frame, s.Knows done e

section Ready

variable {done : List FunctionEntry} {ctx : Context} {vars : Variables} {k : Nat}
  {s t : WalkState}

theorem Move.knows {sc : String} (h : Move done sc k s t) {e : FunctionEntry}
    (he : s.Knows done e) : t.Knows done e := by
  rcases he with he | ⟨f, hf, rfl⟩
  · exact Or.inl he
  · cases h with
    | queue hfs hnames => exact Or.inr ⟨f, List.mem_append_left _ hf, rfl⟩
    | newVariable | newBlock | addEdge | define | record | addSite | count =>
      exact Or.inr ⟨f, hf, rfl⟩

theorem Moves.growth {sc : String} {scope : Scope} (hg : s.graph.Coherent)
    (hs : s.graph.scope? sc = some scope) (h : Moves done sc k s t) :
    Graph.Growth sc s.graph t.graph ∧ t.graph.Coherent := by
  induction h generalizing scope with
  | refl s => exact ⟨hg.growth_refl sc, hg⟩
  | step h _ ih =>
    obtain ⟨hgrowth, hcoh⟩ := h.growth hg hs
    obtain ⟨scope', hs', _⟩ := hgrowth.scope scope hs
    obtain ⟨hgrowth', hcoh'⟩ := ih hcoh hs'
    exact ⟨hgrowth.trans hgrowth', hcoh'⟩

theorem Moves.knows {sc : String} (h : Moves done sc k s t) {e : FunctionEntry}
    (he : s.Knows done e) : t.Knows done e := by
  induction h with
  | refl s => exact he
  | step h _ ih => exact ih (h.knows he)

theorem Ready.owns (h : Ready done ctx vars s) (hm : Moves done ctx.scope k s t) {id : NodeId}
    (hid : s.graph.Owns ctx.scope id) : t.graph.Owns ctx.scope id := by
  obtain ⟨scope, hs, _⟩ := h.block
  exact (hm.growth h.coherent hs).1.owns hid

theorem Ready.ownsVariable (h : Ready done ctx vars s) (hm : Moves done ctx.scope k s t)
    {id : NodeId} (hid : s.graph.OwnsVariable ctx.scope id) :
    t.graph.OwnsVariable ctx.scope id := by
  obtain ⟨scope, hs, _⟩ := h.block
  exact (hm.growth h.coherent hs).1.keeps.ownsVariable hid

theorem Ready.moves (h : Ready done ctx vars s) (hm : Moves done ctx.scope k s t) :
    Ready done ctx vars t := by
  obtain ⟨scope, hs, _⟩ := h.block
  exact
    { coherent := (hm.growth h.coherent hs).2
      root := h.owns hm h.root
      block := h.owns hm h.block
      loop := fun id hid => h.owns hm (h.loop id hid)
      vars := fun entry hentry => h.ownsVariable hm (h.vars entry hentry)
      functions := fun frame hframe e he => hm.knows (h.functions frame hframe e he) }

end Ready

section Recording

variable {done : List FunctionEntry} {ctx : Context} {vars : Variables} {s t : WalkState}
  {stem : String} {loc : Loc} {id : NodeId}

theorem newVariable_eq (ctx : Context) (name : String) (loc : Loc) (s : WalkState) :
    newVariable ctx name loc s = .ok s.graph.size
      { s with
        graph :=
          (s.graph.addVariable ctx.scope name (some loc)).addEdge ctx.scope ctx.block
            s.graph.size } := rfl

theorem owns_newVariable (h : Ready done ctx vars s) (name : String) (loc : Loc) :
    ((s.graph.addVariable ctx.scope name (some loc)).addEdge ctx.scope ctx.block
      s.graph.size).OwnsVariable ctx.scope s.graph.size := by
  obtain ⟨scope, hs, _⟩ := h.block
  have hs' := Graph.scope?_addVariable_self hs name (some loc)
  have hnode := Graph.node?_addVariable s.graph ctx.scope name (some loc) s.graph.size
  rw [if_pos rfl] at hnode
  exact ⟨⟨_, Graph.scope?_addEdge_self hs' _ _, by simp⟩, _, hnode, rfl⟩

def nextSuffix (ctx : Context) (stem : String) (s : WalkState) : Nat :=
  freshSuffix (isBound s.graph ctx.scope) stem (boundCount s.graph ctx.scope + 1) (s.counter + 1)

theorem temporary_eq (ctx : Context) (stem : String) (loc : Loc) (s : WalkState) :
    temporary ctx stem loc s =
      newVariable ctx s!"{stem}#{nextSuffix ctx stem s}" loc
        { s with counter := nextSuffix ctx stem s } := rfl

theorem temporary_moves (h : Ready done ctx vars s) (hrun : temporary ctx stem loc s = .ok id t) :
    Moves done ctx.scope 0 s t ∧ t.graph.OwnsVariable ctx.scope id := by
  obtain ⟨scope, hs, _⟩ := h.block
  have hcount : Move done ctx.scope 0 s { s with counter := nextSuffix ctx stem s } := .count _
  have hready := h.moves hcount.moves
  have hfree : isBound s.graph ctx.scope s!"{stem}#{nextSuffix ctx stem s}" = false :=
    freshSuffix_not_bound hs stem _
  have hvariable : Move done ctx.scope 0 _ _ := .newVariable _ loc hready.block hfree
  rw [temporary_eq, newVariable_eq] at hrun
  cases hrun
  exact ⟨hcount.moves.trans hvariable.moves, owns_newVariable hready _ loc⟩

theorem newBlock_eq (ctx : Context) (stem : String) (loc : Loc) (s : WalkState) :
    newBlock ctx stem loc s = .ok s.graph.size
      { s with
        counter := s.counter + 1
        graph :=
          (s.graph.addBlock ctx.scope s!"{stem}#{s.counter + 1}" (some loc)).addEdge ctx.scope
            ctx.block s.graph.size } := rfl

theorem newBlock_moves (h : Ready done ctx vars s) (hrun : newBlock ctx stem loc s = .ok id t) :
    Moves done ctx.scope 0 s t ∧ t.graph.Owns ctx.scope id := by
  obtain ⟨scope, hs, _⟩ := h.block
  have hcount : Move done ctx.scope 0 s { s with counter := s.counter + 1 } := .count _
  have hblock : Move done ctx.scope 0 _ _ :=
    .newBlock s!"{stem}#{s.counter + 1}" loc (h.moves hcount.moves).block
  rw [newBlock_eq] at hrun
  cases hrun
  constructor
  · exact hcount.moves.trans hblock.moves
  · have hs' := Graph.scope?_addBlock_self hs s!"{stem}#{s.counter + 1}" (some loc)
    exact ⟨_, Graph.scope?_addEdge_self hs' _ _, by simp⟩

theorem addEdge_eq (ctx : Context) (a b : NodeId) (s : WalkState) :
    addEdge ctx a b s = .ok () { s with graph := s.graph.addEdge ctx.scope a b } := rfl

theorem newGoverned_eq_ok {condition : NodeId}
    (hrun : newGoverned ctx stem condition loc s = .ok id t) :
    ∃ u, newBlock ctx stem loc s = .ok id u ∧ addEdge ctx condition id u = .ok () t := by
  obtain ⟨block, u, hblock, hrest⟩ := bind_eq_ok hrun
  obtain ⟨_, v, hedge, hpure⟩ := bind_eq_ok hrest
  obtain ⟨rfl, rfl⟩ := pure_eq_ok hpure
  exact ⟨u, hblock, hedge⟩

theorem newGoverned_moves (h : Ready done ctx vars s) {condition : NodeId}
    (hcondition : s.graph.Owns ctx.scope condition)
    (hrun : newGoverned ctx stem condition loc s = .ok id t) :
    Moves done ctx.scope 0 s t ∧ t.graph.Owns ctx.scope id := by
  obtain ⟨u, hblock, hedge⟩ := newGoverned_eq_ok hrun
  obtain ⟨hmoves, hown⟩ := newBlock_moves h hblock
  have hmove : Move done ctx.scope 0 u _ := .addEdge (h.owns hmoves hcondition) hown
  cases hedge
  exact ⟨hmoves.trans hmove.moves, (h.moves hmoves).owns hmove.moves hown⟩

/-- Definitions of a scope's own nodes. -/
theorem defineAll_moves (ds : List Definition) (s : WalkState)
    (hds : ∀ d ∈ ds, s.graph.OwnsVariable ctx.scope d.target ∧ d.HoldsWord) :
    Moves done ctx.scope 0 s { s with definitions := s.definitions ++ ds } := by
  induction ds generalizing s with
  | nil =>
    rw [List.append_nil]
    exact .refl s
  | cons d ds ih =>
    have hrest := ih { s with definitions := s.definitions ++ [d] }
      fun d' hd' => hds d' (List.mem_cons_of_mem _ hd')
    simp only [List.append_assoc, List.singleton_append] at hrest
    obtain ⟨hown, hword⟩ := hds d List.mem_cons_self
    exact .step (.define hown hword) hrest

end Recording

/-- What the number of arguments and results says of a callee. -/
def Callee.Fits (ctx : Context) (name : String) (argumentCount resultCount : Nat) :
    Callee → Prop
  | .user e => ctx.function? name = some e ∧ e.params.length = argumentCount ∧
      resultCount = e.returns.length
  | .builtin => ctx.function? name = none ∧
      ∀ b, Builtin.lookup? name = some b → b.arity = argumentCount ∧ resultCount = b.returns

section Calls

variable {done : List FunctionEntry} {ctx : Context} {vars : Variables} {s t : WalkState}
  {name : String} {loc : Loc} {u : Unit} {e : FunctionEntry}

theorem requireCount_eq_ok {what : String} {expected actual : Nat}
    (h : requireCount name what expected actual loc s = .ok u t) : expected = actual ∧ s = t := by
  obtain ⟨hcount, hst⟩ := require_eq_ok h
  exact ⟨of_decide_eq_true hcount, hst⟩

/-- A callee that is found fits the numbers of arguments and results. -/
theorem callee_eq_ok {argumentCount resultCount : Nat} {target : Callee}
    (h : callee ctx name argumentCount resultCount loc s = .ok target t) :
    s = t ∧ target.Fits ctx name argumentCount resultCount := by
  unfold callee at h
  cases hentry : ctx.function? name with
  | some entry =>
    simp only [hentry] at h
    obtain ⟨_, u, hargs, h⟩ := bind_eq_ok h
    obtain ⟨_, v, hresults, h⟩ := bind_eq_ok h
    obtain ⟨hargCount, rfl⟩ := requireCount_eq_ok hargs
    obtain ⟨hresultCount, rfl⟩ := requireCount_eq_ok hresults
    obtain ⟨rfl, rfl⟩ := pure_eq_ok h
    exact ⟨rfl, hentry, hargCount, hresultCount⟩
  | none =>
    simp only [hentry] at h
    cases hb : Builtin.lookup? name with
    | some b =>
      simp only [hb] at h
      obtain ⟨_, u, hargs, h⟩ := bind_eq_ok h
      obtain ⟨_, v, hresults, h⟩ := bind_eq_ok h
      obtain ⟨hargCount, rfl⟩ := requireCount_eq_ok hargs
      obtain ⟨hresultCount, rfl⟩ := requireCount_eq_ok hresults
      obtain ⟨rfl, rfl⟩ := pure_eq_ok h
      refine ⟨rfl, hentry, fun b' hb' => ?_⟩
      cases hb.symm.trans hb'
      exact ⟨hargCount, hresultCount⟩
    | none =>
      simp only [hb] at h
      obtain ⟨rfl, rfl⟩ := pure_eq_ok h
      exact ⟨rfl, hentry, fun b hb' => absurd hb' (by simp [hb])⟩

theorem mem_of_function? (h : ctx.function? name = some e) :
    ∃ frame ∈ ctx.functions, e ∈ frame := by
  obtain ⟨frame, hframe, hfind⟩ := List.exists_of_findSome?_eq_some h
  exact ⟨frame, hframe, List.mem_of_find?_eq_some hfind⟩

theorem Ready.knows (h : Ready done ctx vars s) (he : ctx.function? name = some e) :
    s.Knows done e := by
  obtain ⟨frame, hframe, hmem⟩ := mem_of_function? he
  exact h.functions frame hframe e hmem

def siteOf (ctx : Context) (e : FunctionEntry) (arguments results : List NodeId) (loc : Loc) :
    CallSite :=
  { caller := ctx.scope, callee := e.scope, arguments, results, block := ctx.block,
    loc := some loc }

theorem callSite_eq (ctx : Context) (e : FunctionEntry) (arguments results : List NodeId)
    (loc : Loc) (s : WalkState) :
    callSite ctx e arguments results loc s = .ok ()
      { s with
        definitions := s.definitions ++ results.map .arbitrary
        graph := s.graph.addSite (siteOf ctx e arguments results loc) } := rfl

/-- A call between variables of a scope is recorded there. -/
theorem callSite_moves (h : Ready done ctx vars s) {arguments results : List NodeId}
    (he : Callee.Fits ctx name arguments.length results.length (.user e))
    (harguments : ∀ id ∈ arguments, s.graph.Owns ctx.scope id)
    (hresults : ∀ id ∈ results, s.graph.OwnsVariable ctx.scope id)
    (hrun : callSite ctx e arguments results loc s = .ok u t) :
    Moves done ctx.scope 0 s t := by
  obtain ⟨hfind, hargCount, hresultCount⟩ := he
  have hdefine : Moves done ctx.scope 0 s
      { s with definitions := s.definitions ++ results.map .arbitrary } := by
    apply defineAll_moves
    intro d hd
    obtain ⟨id, hid, rfl⟩ := List.mem_map.mp hd
    exact ⟨hresults id hid, trivial⟩
  have hready := h.moves hdefine
  have hsite : (siteOf ctx e arguments results loc).Fits s.graph ctx.scope e :=
    ⟨rfl, rfl, harguments, fun id hid => (hresults id hid).owns, h.block, hargCount.symm, hresultCount, rfl⟩
  rw [callSite_eq] at hrun
  cases hrun
  exact hdefine.trans (Move.addSite (hready.knows hfind) hsite).moves

theorem application_eq (ctx : Context) (name : String) (operands : List NodeId) (node : NodeId)
    (s : WalkState) :
    application ctx name operands node s = .ok ()
      { s with
        definitions := s.definitions ++ [.application node name operands]
        applications := s.applications ++ [{ node, name, operands, block := ctx.block }] } := rfl

theorem application_moves (h : Ready done ctx vars s) {operands : List NodeId} {node : NodeId}
    {resultCount : Nat} (hfits : Callee.Fits ctx name operands.length resultCount .builtin)
    (hoperands : ∀ id ∈ operands, s.graph.OwnsVariable ctx.scope id)
    (hnode : s.graph.OwnsVariable ctx.scope node)
    (hrun : application ctx name operands node s = .ok u t) : Moves done ctx.scope 0 s t := by
  have hdefine : Move done ctx.scope 0 s
      { s with definitions := s.definitions ++ [.application node name operands] } :=
    .define hnode trivial
  have happlication : Application.Fits { node, name, operands, block := ctx.block } s.graph
      ctx.scope :=
    ⟨hnode.owns, hoperands, h.block, fun b hb => ((hfits.2 b hb).1).symm⟩
  have hrecord : Move done ctx.scope 0
      { s with definitions := s.definitions ++ [.application node name operands] } _ :=
    .record happlication
  rw [application_eq] at hrun
  cases hrun
  exact hdefine.moves.trans hrecord.moves

theorem deliver_moves (h : Ready done ctx vars s) {target : Callee} {operands : List NodeId}
    {result : NodeId} (hfits : target.Fits ctx name operands.length 1)
    (hoperands : ∀ id ∈ operands, s.graph.OwnsVariable ctx.scope id)
    (hresult : s.graph.OwnsVariable ctx.scope result)
    (hrun : deliver ctx target name operands result loc s = .ok u t) :
    Moves done ctx.scope 0 s t := by
  cases target with
  | user e =>
    refine callSite_moves h hfits (fun id hid => (hoperands id hid).owns) ?_ hrun
    intro id hid
    rw [List.mem_singleton.mp hid]
    exact hresult
  | builtin => exact application_moves h hfits hoperands hresult hrun

end Calls

section Expressions

variable {done : List FunctionEntry} {ctx : Context} {vars : Variables} {s t : WalkState}
  {loc : Loc} {id : NodeId}

theorem resolveName_eq_ok {name : String} (h : resolveName ctx vars name loc s = .ok id t) :
    vars.lookup name = some id ∧ s = t := by
  unfold resolveName at h
  cases hlookup : vars.lookup name with
  | some found =>
    simp only [hlookup] at h
    obtain ⟨rfl, rfl⟩ := pure_eq_ok h
    exact ⟨rfl, rfl⟩
  | none =>
    simp only [hlookup] at h
    cases h

theorem literalWord_eq_ok {value : Literal} {loc : Loc} {word : Nat}
    (h : literalWord value loc s = .ok word t) : value.word? = .ok word ∧ s = t := by
  unfold literalWord at h
  cases hword : value.word? with
  | ok found =>
    simp only [hword] at h
    obtain ⟨rfl, rfl⟩ := pure_eq_ok h
    exact ⟨rfl, rfl⟩
  | error reason =>
    simp only [hword] at h
    cases h

theorem operand_literal_eq_ok {value : Literal}
    (h : operand ctx vars (.literal value loc) s = .ok id t) :
    ∃ u word, temporary ctx "lit" loc s = .ok id u ∧ value.word? = .ok word ∧
      t = { u with definitions := u.definitions ++ [.constant id word] } := by
  obtain ⟨id', u, htemporary, h⟩ := bind_eq_ok h
  obtain ⟨word, v, hword, h⟩ := bind_eq_ok h
  obtain ⟨hvalue, rfl⟩ := literalWord_eq_ok hword
  cases h
  exact ⟨u, word, htemporary, hvalue, rfl⟩

theorem operand_call_eq_ok {name : String} {args : List Node}
    (h : operand ctx vars (.call name args loc) s = .ok id t) :
    ∃ target ids u v, target.Fits ctx name args.length 1 ∧
      operands ctx vars args s = .ok ids u ∧ temporary ctx "expr" loc u = .ok id v ∧
      deliver ctx target name ids id loc v = .ok () t := by
  obtain ⟨target, s', hcallee, h⟩ := bind_eq_ok h
  obtain ⟨rfl, hfits⟩ := callee_eq_ok hcallee
  obtain ⟨ids, u, hoperands, h⟩ := bind_eq_ok h
  obtain ⟨id', v, htemporary, h⟩ := bind_eq_ok h
  obtain ⟨_, w, hdeliver, h⟩ := bind_eq_ok h
  obtain ⟨rfl, rfl⟩ := pure_eq_ok h
  exact ⟨target, ids, u, v, hfits, hoperands, htemporary, hdeliver⟩

theorem operands_cons_eq_ok {e : Node} {rest : List Node} {ids : List NodeId}
    (h : operands ctx vars (e :: rest) s = .ok ids t) :
    ∃ id ids' u, operand ctx vars e s = .ok id u ∧ operands ctx vars rest u = .ok ids' t ∧
      ids = id :: ids' := by
  obtain ⟨id, u, hoperand, h⟩ := bind_eq_ok h
  obtain ⟨ids', v, hoperands, h⟩ := bind_eq_ok h
  obtain ⟨rfl, rfl⟩ := pure_eq_ok h
  exact ⟨id, ids', u, hoperand, hoperands, rfl⟩

mutual

/-- The variable that holds an operand is the scope's own. -/
theorem operand_moves (e : Node) {s t : WalkState} (h : Ready done ctx vars s) {id : NodeId}
    (hrun : operand ctx vars e s = .ok id t) :
    Moves done ctx.scope 0 s t ∧ t.graph.OwnsVariable ctx.scope id := by
  cases e with
  | literal value loc =>
    obtain ⟨u, word, htemporary, hvalue, rfl⟩ := operand_literal_eq_ok hrun
    obtain ⟨hmoves, hown⟩ := temporary_moves h htemporary
    have hdefine : Move done ctx.scope 0 u
        { u with definitions := u.definitions ++ [.constant id word] } :=
      .define hown (isWord_natCast (Literal.word?_lt hvalue))
    exact ⟨hmoves.trans hdefine.moves, hown⟩
  | identifier name loc =>
    obtain ⟨hlookup, rfl⟩ := resolveName_eq_ok hrun
    exact ⟨.refl s, h.vars _ (mem_of_lookup_eq_some hlookup)⟩
  | call name args loc =>
    obtain ⟨target, ids, u, v, hfits, hoperands, htemporary, hdeliver⟩ :=
      operand_call_eq_ok hrun
    obtain ⟨hargs, hids, hlength⟩ := operands_moves args h hoperands
    have hready := h.moves hargs
    obtain ⟨htemp, hown⟩ := temporary_moves hready htemporary
    have hready' := hready.moves htemp
    have hrest := deliver_moves hready' (hlength ▸ hfits)
      (fun x hx => hready.ownsVariable htemp (hids x hx)) hown hdeliver
    exact ⟨(hargs.trans htemp).trans hrest, hready'.ownsVariable hrest hown⟩
  | _ => cases hrun

theorem operands_moves (es : List Node) {s t : WalkState} (h : Ready done ctx vars s)
    {ids : List NodeId} (hrun : operands ctx vars es s = .ok ids t) :
    Moves done ctx.scope 0 s t ∧ (∀ id ∈ ids, t.graph.OwnsVariable ctx.scope id) ∧
      es.length = ids.length := by
  cases es with
  | nil =>
    obtain ⟨rfl, rfl⟩ := pure_eq_ok hrun
    exact ⟨.refl s, List.forall_mem_nil _, rfl⟩
  | cons e rest =>
    obtain ⟨id, ids', u, hoperand, hoperands, rfl⟩ := operands_cons_eq_ok hrun
    obtain ⟨hfirst, hown⟩ := operand_moves e h hoperand
    have hready := h.moves hfirst
    obtain ⟨hrest, howns, hlength⟩ := operands_moves rest hready hoperands
    refine ⟨hfirst.trans hrest, ?_, congrArg Nat.succ hlength⟩
    intro x hx
    rcases List.mem_cons.mp hx with rfl | hx
    · exact hready.ownsVariable hrest hown
    · exact howns x hx

end

end Expressions

end YulTaint.Flow
