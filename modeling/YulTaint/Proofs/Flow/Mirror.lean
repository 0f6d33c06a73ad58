import Mathlib.Tactic
import YulTaint.Proofs.Flow.Walked
import YulTaint.Proofs.Graph.Moved
import YulTaint.Proofs.Program.Renaming

/-!
Two walks side by side. The second program has other names for the variables of
the first, its nodes may stand elsewhere in the arena, and it may have functions
of its own at the top level, which the code of the first does not call. What is
alike about two graphs is left open: it need only survive what the walk of a
scope does. Then whatever the first walk queues and records, the second does so
under the other names.
-/

namespace YulTaint.Flow

/-- How a second walk looks back on a first one. -/
structure Mirror where
  /-- The names of the variables. -/
  rename : String → String
  /-- The places of the nodes. -/
  move : NodeId → NodeId
  /-- The functions at the top level that the first program lacks. -/
  extra : FunctionFrame
  /-- What two graphs, each with the number of its last made-up name, have in
  common. -/
  Alike : Graph → Nat → Graph → Nat → Prop

namespace Mirror

variable (M : Mirror)

/-- The scopes of the functions that the first program lacks. -/
def hidden : List String :=
  M.extra.map (·.scope)

def entry (e : FunctionEntry) : FunctionEntry :=
  { e with
    params := e.params.map M.rename
    returns := e.returns.map M.rename
    body := e.body.rename M.rename }

def frames : List FunctionFrame → List FunctionFrame
  | [] => []
  | [top] => [top.map M.entry ++ M.extra]
  | frame :: outer => frame.map M.entry :: frames outer

def queued (f : PendingFunction) : PendingFunction :=
  { entry := M.entry f.entry, visible := M.frames f.visible }

def vars (vars : Variables) : Variables :=
  vars.map fun v => (M.rename v.1, M.move v.2)

def context (ctx : Context) : Context :=
  { scope := ctx.scope
    root := M.move ctx.root
    functions := M.frames ctx.functions
    block := M.move ctx.block
    loop := ctx.loop.map M.move }

def callee : Callee → Callee
  | .user e => .user (M.entry e)
  | .builtin => .builtin

def definition (d : Definition) : Definition :=
  d.move M.move

def application (a : Application) : Application :=
  a.move M.move

def record (r : ScopeRecord) : ScopeRecord :=
  r.move M.move

def site (site : CallSite) : CallSite :=
  site.move M.move

/-- What the walk of a scope does to two graphs leaves them alike. -/
structure IsKept : Prop where
  rename : Function.Injective M.rename
  move : Function.Injective M.move
  size : ∀ {g k g' k'}, M.Alike g k g' k' → g'.size = M.move g.size
  scope : ∀ {g k g' k'} {sc : String}, M.Alike g k g' k' → sc ∉ M.hidden → ∀ loc,
    M.Alike (g.addScope sc loc) k (g'.addScope sc loc) k'
  temporary : ∀ {s t : WalkState} {ctx : Context},
    M.Alike s.graph s.counter t.graph t.counter → ctx.scope ∉ M.hidden →
    ∀ stem ∈ ["lit", "expr"], ∀ loc,
    M.Alike (s.graph.addVariable ctx.scope s!"{stem}#{nextSuffix ctx stem s}" loc)
      (nextSuffix ctx stem s)
      (t.graph.addVariable ctx.scope s!"{stem}#{nextSuffix ctx stem t}" loc)
      (nextSuffix ctx stem t)
  declared : ∀ {g k g' k'} {sc : String}, M.Alike g k g' k' → sc ∉ M.hidden → ∀ name loc,
    M.Alike (g.addVariable sc (uniqueName g sc name) loc) k
      (g'.addVariable sc (uniqueName g' sc (M.rename name)) loc) k'
  block : ∀ {g k g' l} {sc : String}, M.Alike g k g' l → sc ∉ M.hidden →
    ∀ (stem : String) (loc : Option Loc),
    M.Alike (g.addBlock sc s!"{stem}#{k + 1}" loc) (k + 1)
      (g'.addBlock sc s!"{stem}#{l + 1}" loc) (l + 1)
  edge : ∀ {g k g' k'} {sc : String}, M.Alike g k g' k' → sc ∉ M.hidden → ∀ a b,
    M.Alike (g.addEdge sc a b) k (g'.addEdge sc (M.move a) (M.move b)) k'
  site : ∀ {g k g' k'}, M.Alike g k g' k' → ∀ site : CallSite, site.caller ∉ M.hidden →
    M.Alike (g.addSite site) k (g'.addSite (M.site site)) k'
  param : ∀ {g k g' k'} {sc : String}, M.Alike g k g' k' → sc ∉ M.hidden → ∀ id,
    M.Alike (g.addParam sc id) k (g'.addParam sc (M.move id)) k'
  result : ∀ {g k g' k'} {sc : String}, M.Alike g k g' k' → sc ∉ M.hidden → ∀ id,
    M.Alike (g.addReturn sc id) k (g'.addReturn sc (M.move id)) k'
  restart : ∀ {g k g' k'}, M.Alike g k g' k' → M.Alike g 0 g' 0

/-- Names that call none of the functions that the first program lacks. -/
def Avoids (ms : List Mention) : Prop :=
  ∀ e ∈ M.extra, .call e.name ∉ ms

/-- A place in a function of both programs. -/
structure Fits (ctx : Context) : Prop where
  scope : ctx.scope ∉ M.hidden
  functions : M.extra = [] ∨ ctx.functions ≠ []

structure IsShared (f : PendingFunction) : Prop where
  scope : f.entry.scope ∉ M.hidden
  visible : M.extra = [] ∨ f.visible ≠ []
  body : M.Avoids f.entry.body.mentions

/-- The states of two walks, each of which queued some functions before. -/
structure States (base base' : List PendingFunction) (s s' : WalkState) : Prop where
  graph : M.Alike s.graph s.counter s'.graph s'.counter
  pending : ∃ new, s.pending = base ++ new ∧ s'.pending = base' ++ new.map M.queued ∧
    ∀ f ∈ new, M.IsShared f
  scopeNames : ∀ name, name ∈ s'.scopeNames ↔ name ∈ s.scopeNames ∨ name ∈ M.hidden
  definitions : s'.definitions = s.definitions.map M.definition
  applications : s'.applications = s.applications.map M.application

/-- When both walks succeed and the first takes no scope name of a function that
it lacks, the second ends in a state to match, and returns what `F` says. -/
structure Mimics {α β : Type} (F : α → β) (m : Walk α) (m' : Walk β) : Prop where
  grows : ∀ {s a t}, m s = .ok a t → s.scopeNames ⊆ t.scopeNames
  sim : ∀ {base base' s s' a t a' t'}, M.States base base' s s' → m s = .ok a t →
    m' s' = .ok a' t' → (∀ name ∈ M.hidden, name ∉ t.scopeNames) →
    M.States base base' t t' ∧ a' = F a

section Rules

variable {M} {α β γ δ : Type} {F : α → β} {m' : Walk β}

/-- Walks mirror each other if their steps do. -/
theorem Mimics.bind {G : γ → δ} {m : Walk α} {k : α → Walk γ} {k' : β → Walk δ}
    (h : M.Mimics F m m') (hk : ∀ a, M.Mimics G (k a) (k' (F a))) :
    M.Mimics G (m >>= k) (m' >>= k') := by
  constructor
  · intro s b t hrun
    obtain ⟨a, u, hm, hrest⟩ := bind_eq_ok hrun
    exact List.Subset.trans (h.grows hm) ((hk a).grows hrest)
  · intro base base' s s' b t b' t' hs hrun hrun' hfresh
    obtain ⟨a, u, hm, hrest⟩ := bind_eq_ok hrun
    obtain ⟨a', u', hm', hrest'⟩ := bind_eq_ok hrun'
    obtain ⟨hu, rfl⟩ := h.sim hs hm hm' fun name hname hmem =>
      hfresh name hname ((hk a).grows hrest hmem)
    exact (hk a).sim hu hrest hrest' hfresh

theorem mimics_pure (a : α) : M.Mimics F (pure a) (pure (F a)) := by
  constructor
  · intro s b t hrun
    obtain ⟨_, rfl⟩ := pure_eq_ok hrun
    exact List.Subset.refl _
  · intro base base' s s' b t b' t' hs hrun hrun' _
    obtain ⟨rfl, rfl⟩ := pure_eq_ok hrun
    obtain ⟨rfl, rfl⟩ := pure_eq_ok hrun'
    exact ⟨hs, rfl⟩

/-- Anything mimics a walk that never ends well. -/
theorem mimics_of_ne_ok (h : ∀ {s a t}, m s ≠ .ok a t) : M.Mimics F m m' :=
  ⟨fun hrun => absurd hrun h, fun _ hrun => absurd hrun h⟩

theorem mimics_throw (failure : Failure) : M.Mimics F (throw failure) m' :=
  mimics_of_ne_ok nofun

theorem mimics_require {condition condition' : Bool} (fault fault' : Fault) :
    M.Mimics id (require condition fault) (require condition' fault') := by
  constructor
  · intro s b t hrun
    obtain ⟨_, rfl⟩ := require_eq_ok hrun
    exact List.Subset.refl _
  · intro base base' s s' b t b' t' hs hrun hrun' _
    obtain ⟨_, rfl⟩ := require_eq_ok hrun
    obtain ⟨_, rfl⟩ := require_eq_ok hrun'
    exact ⟨hs, rfl⟩

/-- A part that queues nothing and gives no scope names. -/
theorem mimics_of_eq {F : α → β} {m : Walk α} {m' : Walk β} {a : WalkState → α}
    {f : WalkState → WalkState} {a' : WalkState → β} {f' : WalkState → WalkState}
    (hm : ∀ s, m s = .ok (a s) (f s)) (hm' : ∀ s', m' s' = .ok (a' s') (f' s'))
    (hkeeps : ∀ s, (f s).scopeNames = s.scopeNames)
    (h : ∀ {base base' s s'}, M.States base base' s s' →
      M.States base base' (f s) (f' s') ∧ a' s' = F (a s)) : M.Mimics F m m' := by
  constructor
  · intro s b t hrun
    cases (hm s).symm.trans hrun
    rw [hkeeps]
    exact List.Subset.refl _
  · intro base base' s s' b t b' t' hs hrun hrun' _
    cases (hm s).symm.trans hrun
    cases (hm' s').symm.trans hrun'
    exact h hs

end Rules

section Names

variable {M} {ctx : Context}

theorem lookup_vars (hM : M.IsKept) (vars : Variables) (name : String) :
    (M.vars vars).lookup (M.rename name) = (vars.lookup name).map M.move :=
  lookup_map hM.rename M.move vars name

theorem frames_cons (frame : FunctionFrame) {outer : List FunctionFrame}
    (h : M.extra = [] ∨ outer ≠ []) : M.frames (frame :: outer) = frame.map M.entry :: M.frames outer := by
  cases outer with
  | nil =>
    have hextra : M.extra = [] := h.resolve_right fun hne => hne rfl
    simp [frames, hextra]
  | cons => rfl

theorem find?_entry (frame : FunctionFrame) (name : String) :
    (frame.map M.entry).find? (·.name = name) = (frame.find? (·.name = name)).map M.entry := by
  rw [List.find?_map]
  rfl

/-- The second program's own functions stay out of sight. -/
theorem function?_context (ctx : Context) {name : String} (h : ∀ e ∈ M.extra, e.name ≠ name) :
    (M.context ctx).function? name = (ctx.function? name).map M.entry := by
  have hextra : M.extra.find? (·.name = name) = none := by
    rw [List.find?_eq_none]
    simpa using h
  simp only [Context.function?, context]
  induction ctx.functions with
  | nil => rfl
  | cons frame outer ih =>
    cases outer with
    | nil =>
      rw [frames, List.findSome?_singleton, List.findSome?_singleton, List.find?_append,
        hextra, find?_entry, Option.or_none]
    | cons next rest =>
      rw [frames_cons frame (Or.inr (List.cons_ne_nil _ _)), List.findSome?_cons,
        List.findSome?_cons, find?_entry, ih]
      cases frame.find? (·.name = name) <;> rfl

end Names

section Recording

variable {M} {ctx : Context} {base base' : List PendingFunction} {s s' : WalkState}

theorem States.withGraph {g g' : Graph} {k k' : Nat} (h : M.States base base' s s')
    (hg : M.Alike g k g' k') :
    M.States base base' { s with graph := g, counter := k } { s' with graph := g', counter := k' } :=
  ⟨hg, h.pending, h.scopeNames, h.definitions, h.applications⟩

theorem States.withDefinitions (h : M.States base base' s s') (ds : List Definition) :
    M.States base base' { s with definitions := s.definitions ++ ds }
      { s' with definitions := s'.definitions ++ ds.map M.definition } :=
  ⟨h.graph, h.pending, h.scopeNames, by rw [h.definitions, List.map_append], h.applications⟩

theorem mimics_modifyGraph {f f' : Graph → Graph}
    (h : ∀ {g k g' k'}, M.Alike g k g' k' → M.Alike (f g) k (f' g') k') :
    M.Mimics id (modifyGraph f) (modifyGraph f') :=
  mimics_of_eq (fun _ => rfl) (fun _ => rfl) (fun _ => rfl) fun hs =>
    ⟨hs.withGraph (h hs.graph), rfl⟩

theorem mimics_addEdge (hM : M.IsKept) (hctx : M.Fits ctx) (a b : NodeId) :
    M.Mimics id (addEdge ctx a b) (addEdge (M.context ctx) (M.move a) (M.move b)) :=
  mimics_modifyGraph fun hg => hM.edge hg hctx.scope a b

/-- Edges to or from several nodes. -/
theorem mimics_addEdges (hM : M.IsKept) (hctx : M.Fits ctx) (source target : NodeId → NodeId)
    (source' target' : NodeId → NodeId) (hsource : ∀ id, source' (M.move id) = M.move (source id))
    (htarget : ∀ id, target' (M.move id) = M.move (target id)) (ids : List NodeId) :
    M.Mimics id
      (modifyGraph fun g => ids.foldl (fun g id => g.addEdge ctx.scope (source id) (target id)) g)
      (modifyGraph fun g =>
        (ids.map M.move).foldl (fun g id => g.addEdge ctx.scope (source' id) (target' id)) g) := by
  apply mimics_modifyGraph
  intro g k g' k' hg
  induction ids generalizing g g' with
  | nil => exact hg
  | cons id rest ih =>
    rw [List.map_cons, List.foldl_cons, List.foldl_cons, hsource, htarget]
    exact ih (hM.edge hg hctx.scope _ _)

theorem mimics_defineAll (ds : List Definition) :
    M.Mimics id (defineAll ds) (defineAll (ds.map M.definition)) :=
  mimics_of_eq (fun _ => rfl) (fun _ => rfl) (fun _ => rfl) fun hs =>
    ⟨hs.withDefinitions ds, rfl⟩

theorem mimics_define (d : Definition) : M.Mimics id (define d) (define (M.definition d)) :=
  mimics_defineAll [d]

/-- A new node below the current block. -/
theorem alike_below (hM : M.IsKept) (hctx : M.Fits ctx) {g g' : Graph} {k k' : Nat}
    {id id' : NodeId} (h : M.Alike g k g' k') (hid : id' = M.move id) :
    M.Alike (g.addEdge ctx.scope ctx.block id) k
      (g'.addEdge ctx.scope (M.move ctx.block) id') k' :=
  hid ▸ hM.edge h hctx.scope ctx.block id

theorem mimics_temporary (hM : M.IsKept) (hctx : M.Fits ctx) {stem : String}
    (hstem : stem ∈ ["lit", "expr"]) (loc : Loc) :
    M.Mimics M.move (temporary ctx stem loc) (temporary (M.context ctx) stem loc) :=
  mimics_of_eq (fun s => (temporary_eq ctx stem loc s).trans (newVariable_eq _ _ _ _))
    (fun s' => (temporary_eq _ stem loc s').trans (newVariable_eq _ _ _ _)) (fun _ => rfl)
    fun hs =>
      ⟨hs.withGraph (alike_below hM hctx (hM.temporary hs.graph hctx.scope stem hstem (some loc))
        (hM.size hs.graph)), hM.size hs.graph⟩

theorem mimics_newBlock (hM : M.IsKept) (hctx : M.Fits ctx) (stem : String) (loc : Loc) :
    M.Mimics M.move (newBlock ctx stem loc) (newBlock (M.context ctx) stem loc) :=
  mimics_of_eq (newBlock_eq ctx stem loc) (newBlock_eq _ stem loc) (fun _ => rfl) fun hs =>
    ⟨hs.withGraph (alike_below hM hctx (hM.block hs.graph hctx.scope stem (some loc))
      (hM.size hs.graph)), hM.size hs.graph⟩

theorem mimics_newGoverned (hM : M.IsKept) (hctx : M.Fits ctx) (stem : String)
    (condition : NodeId) (loc : Loc) :
    M.Mimics M.move (newGoverned ctx stem condition loc)
      (newGoverned (M.context ctx) stem (M.move condition) loc) :=
  (mimics_newBlock hM hctx stem loc).bind fun block =>
    (mimics_addEdge hM hctx condition block).bind fun _ => mimics_pure block

theorem mimics_newLocal (hM : M.IsKept) (hctx : M.Fits ctx) (vars : Variables) (name : String)
    (loc : Loc) :
    M.Mimics M.move (newLocal ctx vars name loc)
      (newLocal (M.context ctx) (M.vars vars) (M.rename name) loc) := by
  refine (mimics_require _ _).bind fun _ => (mimics_require _ _).bind fun _ => ?_
  refine mimics_of_eq (fun s => newVariable_eq ctx (uniqueName s.graph ctx.scope name) loc s)
    (fun s' => newVariable_eq (M.context ctx) (uniqueName s'.graph ctx.scope (M.rename name)) loc s')
    (fun _ => rfl) fun hs => ?_
  exact ⟨hs.withGraph (alike_below hM hctx (hM.declared hs.graph hctx.scope name (some loc))
    (hM.size hs.graph)), hM.size hs.graph⟩

end Recording

section Calls

variable {M} {ctx : Context}

theorem mimics_declareAll (hM : M.IsKept) (hctx : M.Fits ctx) (loc : Loc) (names : List String)
    (vars : Variables) :
    M.Mimics (Prod.map M.vars (List.map M.move)) (declareAll ctx loc vars names)
      (declareAll (M.context ctx) loc (M.vars vars) (names.map M.rename)) := by
  induction names generalizing vars with
  | nil => exact mimics_pure (vars, [])
  | cons name rest ih =>
    exact (mimics_newLocal hM hctx vars name loc).bind fun id =>
      (ih ((name, id) :: vars)).bind fun r => mimics_pure (r.1, id :: r.2)

theorem mimics_resolveName (hM : M.IsKept) (vars : Variables) (name : String) (loc : Loc) :
    M.Mimics M.move (resolveName ctx vars name loc)
      (resolveName (M.context ctx) (M.vars vars) (M.rename name) loc) := by
  unfold resolveName
  rw [lookup_vars hM]
  cases vars.lookup name with
  | some id => exact mimics_pure id
  | none => exact mimics_throw _

theorem mimics_resolveNames (hM : M.IsKept) (vars : Variables) (loc : Loc) (names : List String) :
    M.Mimics (List.map M.move) (resolveNames ctx vars loc names)
      (resolveNames (M.context ctx) (M.vars vars) loc (names.map M.rename)) := by
  induction names with
  | nil => exact mimics_pure []
  | cons name rest ih =>
    exact (mimics_resolveName hM vars name loc).bind fun id => ih.bind fun ids =>
      mimics_pure (id :: ids)

theorem mimics_literalWord (value : Literal) (loc : Loc) :
    M.Mimics id (literalWord value loc) (literalWord value loc) := by
  unfold literalWord
  cases value.word? with
  | ok word => exact mimics_pure word
  | error reason => exact mimics_throw _

theorem mimics_callee {name : String} (hname : ∀ e ∈ M.extra, e.name ≠ name)
    (argumentCount resultCount : Nat) (loc : Loc) :
    M.Mimics M.callee (Flow.callee ctx name argumentCount resultCount loc)
      (Flow.callee (M.context ctx) name argumentCount resultCount loc) := by
  unfold Flow.callee
  rw [function?_context ctx hname]
  cases ctx.function? name with
  | some e =>
    exact (mimics_require _ _).bind fun _ => (mimics_require _ _).bind fun _ =>
      mimics_pure (Callee.user e)
  | none =>
    cases Builtin.lookup? name with
    | some b =>
      exact (mimics_require _ _).bind fun _ => (mimics_require _ _).bind fun _ =>
        mimics_pure Callee.builtin
    | none => exact mimics_pure Callee.builtin

theorem mimics_callSite (hM : M.IsKept) (hctx : M.Fits ctx) (e : FunctionEntry)
    (arguments results : List NodeId) (loc : Loc) :
    M.Mimics id (callSite ctx e arguments results loc)
      (callSite (M.context ctx) (M.entry e) (arguments.map M.move) (results.map M.move) loc) := by
  have hdefinitions : (results.map .arbitrary).map M.definition =
      (results.map M.move).map .arbitrary := by simp [definition, Definition.move]
  refine Mimics.bind (F := id) ?_ fun _ => mimics_modifyGraph fun hg =>
    hM.site hg (siteOf ctx e arguments results loc) hctx.scope
  rw [← hdefinitions]
  exact mimics_defineAll _

theorem mimics_application (name : String) (operands : List NodeId) (node : NodeId) :
    M.Mimics id (Flow.application ctx name operands node)
      (Flow.application (M.context ctx) name (operands.map M.move) (M.move node)) :=
  mimics_of_eq (application_eq ctx name operands node) (application_eq _ name _ _)
    (fun _ => rfl) fun hs =>
      ⟨{ hs.withDefinitions [.application node name operands] with
        applications := by
          rw [hs.applications, List.map_append]
          rfl }, rfl⟩

theorem mimics_deliver (hM : M.IsKept) (hctx : M.Fits ctx) (target : Callee) (name : String)
    (operands : List NodeId) (result : NodeId) (loc : Loc) :
    M.Mimics id (deliver ctx target name operands result loc)
      (deliver (M.context ctx) (M.callee target) name (operands.map M.move) (M.move result)
        loc) := by
  cases target with
  | user e => exact mimics_callSite hM hctx e operands [result] loc
  | builtin => exact mimics_application name operands result

theorem mimics_distribute (hM : M.IsKept) (hctx : M.Fits ctx) (node : NodeId)
    (targets : List NodeId) :
    M.Mimics id (distribute ctx node targets)
      (distribute (M.context ctx) (M.move node) (targets.map M.move)) := by
  have hdefinitions : (targets.map .arbitrary).map M.definition =
      (targets.map M.move).map .arbitrary := by simp [definition, Definition.move]
  refine (mimics_addEdges hM hctx (fun _ => node) id (fun _ => M.move node) id (fun _ => rfl)
    (fun _ => rfl) targets).bind fun _ => ?_
  rw [← hdefinitions]
  exact mimics_defineAll _

theorem mimics_deliverAll (hM : M.IsKept) (hctx : M.Fits ctx) (target : Callee) (name : String)
    (operands results : List NodeId) (loc : Loc) :
    M.Mimics id (deliverAll ctx target name operands results loc)
      (deliverAll (M.context ctx) (M.callee target) name (operands.map M.move)
        (results.map M.move) loc) := by
  have hbuiltin (results : List NodeId) : M.Mimics id
      (do
        let node ← temporary ctx "expr" loc
        Flow.application ctx name operands node
        distribute ctx node results)
      (do
        let node ← temporary (M.context ctx) "expr" loc
        Flow.application (M.context ctx) name (operands.map M.move) node
        distribute (M.context ctx) node (results.map M.move)) :=
    (mimics_temporary hM hctx (by decide) loc).bind fun node =>
      (mimics_application name operands node).bind fun _ => mimics_distribute hM hctx node results
  cases results with
  | nil =>
    cases target with
    | user e => exact mimics_callSite hM hctx e operands [] loc
    | builtin => exact hbuiltin []
  | cons first rest =>
    cases rest with
    | nil =>
      cases target with
      | user e => exact mimics_deliver hM hctx (.user e) name operands first loc
      | builtin => exact mimics_deliver hM hctx .builtin name operands first loc
    | cons second rest =>
      cases target with
      | user e => exact mimics_callSite hM hctx e operands (first :: second :: rest) loc
      | builtin => exact hbuiltin (first :: second :: rest)

end Calls

section Expressions

variable {M} {ctx : Context}

theorem Avoids.mono {ms ms' : List Mention} (h : M.Avoids ms) (hsub : ms' ⊆ ms) : M.Avoids ms' :=
  fun e he hmem => h e he (hsub hmem)

theorem Avoids.ne {name : String} {args : List Node} {loc : Loc}
    (h : M.Avoids (Node.call name args loc).mentions) : ∀ e ∈ M.extra, e.name ≠ name := by
  rintro e he rfl
  exact h e he List.mem_cons_self

theorem Avoids.args {name : String} {args : List Node} {loc : Loc}
    (h : M.Avoids (Node.call name args loc).mentions) : M.Avoids (mentionsOf args) :=
  h.mono fun _ hm => List.mem_cons_of_mem _ hm

mutual

theorem mimics_operand (hM : M.IsKept) (hctx : M.Fits ctx) (vars : Variables) (e : Node)
    (he : M.Avoids e.mentions) :
    M.Mimics M.move (operand ctx vars e)
      (operand (M.context ctx) (M.vars vars) (e.rename M.rename)) := by
  cases e with
  | literal value loc =>
    exact (mimics_temporary hM hctx (by decide) loc).bind fun id =>
      (mimics_literalWord value loc).bind fun word =>
        (mimics_define (.constant id word)).bind fun _ => mimics_pure id
  | identifier name loc => exact mimics_resolveName hM vars name loc
  | call name args loc =>
    rw [Node.rename, operand, operand, length_renameAll]
    exact (mimics_callee he.ne args.length 1 loc).bind fun target =>
      (mimics_operands hM hctx vars args he.args).bind fun ids =>
        (mimics_temporary hM hctx (by decide) loc).bind fun id =>
          (mimics_deliver hM hctx target name ids id loc).bind fun _ => mimics_pure id
  | _ => exact mimics_throw _

theorem mimics_operands (hM : M.IsKept) (hctx : M.Fits ctx) (vars : Variables) (es : List Node)
    (hes : M.Avoids (mentionsOf es)) :
    M.Mimics (List.map M.move) (operands ctx vars es)
      (operands (M.context ctx) (M.vars vars) (renameAll M.rename es)) := by
  cases es with
  | nil => exact mimics_pure []
  | cons e rest =>
    exact (mimics_operand hM hctx vars e (hes.mono fun m hm => by simp [mentionsOf, hm])).bind
      fun id => (mimics_operands hM hctx vars rest
        (hes.mono fun m hm => by simp [mentionsOf, hm])).bind fun ids => mimics_pure (id :: ids)

end

theorem mimics_callInto (hM : M.IsKept) (hctx : M.Fits ctx) (vars : Variables)
    (results : List NodeId) {name : String} {args : List Node} {loc : Loc}
    (h : M.Avoids (Node.call name args loc).mentions) :
    M.Mimics id (callInto ctx vars results name args loc)
      (callInto (M.context ctx) (M.vars vars) (results.map M.move) name
        (renameAll M.rename args) loc) := by
  rw [callInto, callInto, length_renameAll, List.length_map]
  exact (mimics_callee h.ne args.length results.length loc).bind fun target =>
    (mimics_operands hM hctx vars args h.args).bind fun ids =>
      mimics_deliverAll hM hctx target name ids results loc

theorem mimics_assignOne (hM : M.IsKept) (hctx : M.Fits ctx) (vars : Variables) (target : NodeId)
    (loc : Loc) (value : Node) :
    M.Mimics id (assignOne ctx vars target loc value)
      (assignOne (M.context ctx) (M.vars vars) (M.move target) loc (value.rename M.rename)) := by
  cases value with
  | literal value literalLoc =>
    exact (mimics_literalWord value literalLoc).bind fun word =>
      mimics_define (.constant target word)
  | identifier name nameLoc =>
    exact (mimics_resolveName hM vars name nameLoc).bind fun source =>
      (mimics_addEdge hM hctx source target).bind fun _ => mimics_define (.copy target source)
  | _ => exact mimics_throw _

theorem mimics_assign (hM : M.IsKept) (hctx : M.Fits ctx) (vars : Variables)
    (targets : List NodeId) (loc : Loc) (value : Node) (h : M.Avoids value.mentions) :
    M.Mimics id (assign ctx vars targets loc value)
      (assign (M.context ctx) (M.vars vars) (targets.map M.move) loc (value.rename M.rename)) := by
  have hone (target : NodeId) := mimics_assignOne hM hctx vars target loc value
  cases value with
  | call name args callLoc => exact mimics_callInto hM hctx vars targets h
  | _ =>
    cases targets with
    | nil => exact mimics_throw _
    | cons target rest =>
      cases rest with
      | nil => exact hone target
      | cons => exact mimics_throw _

end Expressions

section Blocks

variable {M} {ctx : Context} {items : List Node} {frame : FunctionFrame}

theorem definedFunctions_renameAll (items : List Node) :
    definedFunctions (renameAll M.rename items) = (definedFunctions items).map M.entry := by
  induction items with
  | nil => rfl
  | cons n rest ih =>
    cases n <;> simp [renameAll, Node.rename, definedFunctions, ih, entry]

theorem avoids_body (h : M.Avoids (mentionsOf items)) {e : FunctionEntry}
    (he : e ∈ definedFunctions items) : M.Avoids e.body.mentions := by
  induction items with
  | nil => cases he
  | cons n rest ih =>
    have hrest := ih (h.mono fun m hm => by simp [mentionsOf, hm])
    cases n with
    | function name params returns body loc =>
      rcases List.mem_cons.mp he with rfl | he
      · exact h.mono fun m hm => by simp [mentionsOf, Node.mentions, hm]
      · exact hrest he
    | _ => exact hrest he

/-- Both programs choose the same scope names. -/
theorem bindFunctions_mirror (entries : List FunctionEntry) {frame result result' : FunctionFrame}
    {s s' t t' : WalkState}
    (hnames : ∀ name, name ∈ s'.scopeNames ↔ name ∈ s.scopeNames ∨ name ∈ M.hidden)
    (hrun : bindFunctions ctx frame entries s = .ok result t)
    (hrun' : bindFunctions (M.context ctx) (frame.map M.entry) (entries.map M.entry) s' =
      .ok result' t')
    (hfresh : ∀ name ∈ M.hidden, name ∉ t.scopeNames) :
    result' = result.map M.entry ∧
      ∀ name, name ∈ t'.scopeNames ↔ name ∈ t.scopeNames ∨ name ∈ M.hidden := by
  induction entries generalizing s s' frame with
  | nil =>
    obtain ⟨rfl, rfl⟩ := pure_eq_ok hrun
    obtain ⟨rfl, rfl⟩ := pure_eq_ok hrun'
    exact ⟨rfl, hnames⟩
  | cons e rest ih =>
    let scope := uniqueScopeName s.scopeNames ctx.scope e.name
    have hrest := bindFunctions_cons_eq_ok hrun
    have hscopeName : uniqueScopeName s'.scopeNames ctx.scope e.name = scope := by
      refine uniqueScopeName_eq hnames fun hmem => hfresh scope hmem ?_
      obtain ⟨added, names, _, _, rfl, hadded⟩ := bindFunctions_eq_ok _ hrest
      exact (hadded.mem scope).mpr (Or.inr List.mem_cons_self)
    have hrest' : bindFunctions (M.context ctx) ((frame ++ [{ e with scope }]).map M.entry)
        (rest.map M.entry) { s' with scopeNames := scope :: s'.scopeNames } =
          .ok result' t' := by
      rw [← hscopeName, List.map_append]
      exact bindFunctions_cons_eq_ok hrun'
    refine ih ?_ hrest hrest'
    intro name
    rw [List.mem_cons, List.mem_cons, hnames, or_assoc]

theorem queueOf_mirror (hctx : M.Fits ctx) (frame : FunctionFrame) :
    queueOf (M.context ctx) (frame.map M.entry) = (queueOf ctx frame).map M.queued := by
  rw [queueOf, queueOf, List.map_map, List.map_map]
  refine List.map_congr_left fun e _ => ?_
  simp only [Function.comp, queued, frames_cons frame hctx.functions, context]

/-- The functions of a block are queued. -/
theorem States.queue {base base' : List PendingFunction} {s s' : WalkState}
    {names names' : List String} (hs : M.States base base' s s') (hctx : M.Fits ctx)
    (hshared : ∀ f ∈ queueOf ctx frame, M.IsShared f)
    (hnames : ∀ name, name ∈ names' ↔ name ∈ names ∨ name ∈ M.hidden) :
    M.States base base'
      { s with pending := s.pending ++ queueOf ctx frame, scopeNames := names }
      { s' with
        pending := s'.pending ++ queueOf (M.context ctx) (frame.map M.entry)
        scopeNames := names' } := by
  obtain ⟨new, hpending, hpending', hnew⟩ := hs.pending
  refine ⟨hs.graph, ⟨new ++ queueOf ctx frame, ?_, ?_, ?_⟩, hnames, hs.definitions,
    hs.applications⟩
  · rw [hpending, List.append_assoc]
  · rw [hpending', queueOf_mirror hctx, List.map_append, List.append_assoc]
  · exact fun f hf => (List.mem_append.mp hf).elim (hnew f) (hshared f)

theorem isShared_of_enter (h : M.Avoids (mentionsOf items)) {before names : List String}
    (hnamed : List.Forall₂ FunctionEntry.IsNamed (definedFunctions items) frame)
    (hnames : Names frame before names) (hfresh : ∀ name ∈ M.hidden, name ∉ names) :
    ∀ f ∈ queueOf ctx frame, M.IsShared f := by
  intro f hf
  obtain ⟨e, he, rfl⟩ := List.mem_map.mp hf
  obtain ⟨d, hd, hsame⟩ := exists_of_mem_right hnamed he
  refine ⟨fun hmem => hfresh e.scope hmem ?_, Or.inr (List.cons_ne_nil _ _), ?_⟩
  · exact (hnames.mem e.scope).mpr (Or.inl (List.mem_map_of_mem he))
  · have hbody : e.body = d.body := by rw [hsame]
    exact hbody ▸ avoids_body h hd

/-- The functions of a block are bound and queued in the mirror as well. -/
theorem mimics_enter (hctx : M.Fits ctx) {items : List Node} (h : M.Avoids (mentionsOf items))
    {α β : Type} {F : α → β} {k : Context → Walk α} {k' : Context → Walk β}
    (hk : ∀ frame, M.Mimics F (k { ctx with functions := frame :: ctx.functions })
      (k' (M.context { ctx with functions := frame :: ctx.functions }))) :
    M.Mimics F (enter ctx items >>= k)
      (enter (M.context ctx) (renameAll M.rename items) >>= k') := by
  constructor
  · intro s a t hrun
    obtain ⟨inner, u, henter, hrest⟩ := bind_eq_ok hrun
    obtain ⟨frame, names, rfl, _, hnames, rfl⟩ := enter_eq_ok henter
    exact List.Subset.trans (fun name hname => (hnames.mem name).mpr (Or.inr hname))
      ((hk frame).grows hrest)
  · intro base base' s s' a t a' t' hs hrun hrun' hfresh
    obtain ⟨inner, u, henter, hrest⟩ := bind_eq_ok hrun
    obtain ⟨frame, v, hbind, hqueue⟩ := bind_eq_ok henter
    obtain ⟨added, names, hadded, hnamed, rfl, hnames⟩ := bindFunctions_eq_ok _ hbind
    obtain rfl : frame = added := by simpa using hadded
    cases hqueue
    obtain ⟨inner', u', henter', hrest'⟩ := bind_eq_ok hrun'
    obtain ⟨frame', v', hbind', hqueue'⟩ := bind_eq_ok henter'
    obtain ⟨added', names', _, _, rfl, _⟩ := bindFunctions_eq_ok _ hbind'
    cases hqueue'
    have hfresh' (name : String) (hname : name ∈ M.hidden) : name ∉ names := fun hmem =>
      hfresh name hname ((hk frame).grows hrest hmem)
    rw [definedFunctions_renameAll] at hbind'
    obtain ⟨rfl, hscopeNames⟩ := bindFunctions_mirror _ hs.scopeNames hbind hbind' hfresh'
    have hstates := hs.queue hctx (isShared_of_enter h hnamed hnames hfresh') hscopeNames
    refine (hk frame).sim hstates hrest ?_ hfresh
    rw [context, frames_cons frame hctx.functions]
    exact hrest'

end Blocks

section Statements

variable {M} {ctx : Context}

theorem Fits.under (h : M.Fits ctx) (block : NodeId) : M.Fits { ctx with block } :=
  ⟨h.scope, h.functions⟩

theorem Fits.looping (h : M.Fits ctx) (block : NodeId) :
    M.Fits { ctx with block, loop := some block } :=
  ⟨h.scope, h.functions⟩

theorem Fits.entering (h : M.Fits ctx) (frame : FunctionFrame) :
    M.Fits { ctx with functions := frame :: ctx.functions } :=
  ⟨h.scope, Or.inr (List.cons_ne_nil _ _)⟩

theorem mimics_initialise (hM : M.IsKept) (hctx : M.Fits ctx) (vars : Variables)
    (ids : List NodeId) (loc : Loc) (value : Option Node)
    (h : M.Avoids (mentionsOfOption value)) :
    M.Mimics id (initialise ctx vars ids loc value)
      (initialise (M.context ctx) (M.vars vars) (ids.map M.move) loc
        (renameOption M.rename value)) := by
  cases value with
  | none =>
    have hdefinitions : (ids.map (.constant · 0)).map M.definition =
        (ids.map M.move).map (.constant · 0) := by simp [definition, Definition.move]
    rw [renameOption, initialise, initialise, ← hdefinitions]
    exact mimics_defineAll _
  | some value => exact mimics_assign hM hctx vars ids loc value h

theorem mimics_declaration (hM : M.IsKept) (hctx : M.Fits ctx) (vars : Variables)
    (names : List String) (value : Option Node) (loc : Loc)
    (h : M.Avoids (mentionsOfOption value)) :
    M.Mimics M.vars (declaration ctx vars names value loc)
      (declaration (M.context ctx) (M.vars vars) (names.map M.rename)
        (renameOption M.rename value) loc) :=
  (mimics_require _ _).bind fun _ => (mimics_require _ _).bind fun _ =>
    (mimics_declareAll hM hctx loc names vars).bind fun r =>
      (mimics_initialise hM hctx vars r.2 loc value h).bind fun _ => mimics_pure r.1

theorem mimics_assignment (hM : M.IsKept) (hctx : M.Fits ctx) (vars : Variables)
    (names : List String) (value : Node) (loc : Loc) (h : M.Avoids value.mentions) :
    M.Mimics id (assignment ctx vars names value loc)
      (assignment (M.context ctx) (M.vars vars) (names.map M.rename) (value.rename M.rename)
        loc) :=
  (mimics_require _ _).bind fun _ => (mimics_resolveNames hM vars loc names).bind fun targets =>
    (mimics_require _ _).bind fun _ =>
      (mimics_addEdges hM hctx (fun _ => ctx.block) id (fun _ => M.move ctx.block) id
        (fun _ => rfl) (fun _ => rfl) targets).bind fun _ =>
        mimics_assign hM hctx vars targets loc value h

theorem mimics_expressionStatement (hM : M.IsKept) (hctx : M.Fits ctx) (vars : Variables)
    (loc : Loc) (value : Node) (h : M.Avoids value.mentions) :
    M.Mimics id (expressionStatement ctx vars loc value)
      (expressionStatement (M.context ctx) (M.vars vars) loc (value.rename M.rename)) := by
  cases value with
  | call name args callLoc => exact mimics_callInto hM hctx vars [] h
  | _ => exact mimics_throw _

theorem mimics_jump (hM : M.IsKept) (hctx : M.Fits ctx) (target : NodeId) :
    M.Mimics id (jump ctx target) (jump (M.context ctx) (M.move target)) := by
  have hiff : (M.context ctx).block = M.move target ↔ ctx.block = target := hM.move.eq_iff
  unfold jump
  by_cases hsame : ctx.block = target
  · rw [if_pos hsame, if_pos (hiff.mpr hsame)]
    exact mimics_pure ()
  · rw [if_neg hsame, if_neg fun heq => hsame (hiff.mp heq)]
    exact mimics_addEdge hM hctx ctx.block target

theorem mimics_loopJump (hM : M.IsKept) (hctx : M.Fits ctx) (keyword : String) (loc : Loc) :
    M.Mimics id (loopJump ctx keyword loc) (loopJump (M.context ctx) keyword loc) := by
  unfold loopJump
  rw [context]
  cases ctx.loop with
  | some block => exact mimics_jump hM hctx block
  | none => exact mimics_throw _

theorem mimics_armValue (seen : List Nat) (loc : Loc) (value : Node) :
    M.Mimics id (armValue seen loc value) (armValue seen loc (value.rename M.rename)) := by
  cases value with
  | literal value literalLoc =>
    exact (mimics_literalWord value literalLoc).bind fun word =>
      (mimics_require _ _).bind fun _ => mimics_pure word
  | _ => exact mimics_throw _

mutual

/-- The walk of a statement is mirrored. -/
theorem mimics_statement (hM : M.IsKept) (n : Node) {ctx : Context} (hctx : M.Fits ctx)
    (vars : Variables) (hn : M.Avoids n.mentions) :
    M.Mimics M.vars (statement ctx vars n)
      (statement (M.context ctx) (M.vars vars) (n.rename M.rename)) := by
  cases n with
  | declaration names value loc =>
    exact mimics_declaration hM hctx vars names value loc
      (hn.mono fun m hm => by simp [Node.mentions, hm])
  | assignment names value loc =>
    exact (mimics_assignment hM hctx vars names value loc
      (hn.mono fun m hm => by simp [Node.mentions, hm])).bind fun _ => mimics_pure vars
  | expression value loc =>
    exact (mimics_expressionStatement hM hctx vars loc value hn).bind fun _ => mimics_pure vars
  | branch condition body loc =>
    exact (mimics_operand hM hctx vars condition
      (hn.mono fun m hm => by simp [Node.mentions, hm])).bind fun id =>
        (mimics_newGoverned hM hctx "if" id loc).bind fun block =>
          (mimics_governed hM body (hctx.under block) vars
            (hn.mono fun m hm => by simp [Node.mentions, hm])).bind fun _ => mimics_pure vars
  | switch selector arms fallback loc =>
    exact (mimics_require _ _).bind fun _ => (mimics_operand hM hctx vars selector
      (hn.mono fun m hm => by simp [Node.mentions, hm])).bind fun id =>
        (mimics_switchArms hM arms hctx vars id []
          (hn.mono fun m hm => by simp [Node.mentions, hm])).bind fun _ =>
            (mimics_switchFallback hM fallback hctx vars id loc
              (hn.mono fun m hm => by simp [Node.mentions, hm])).bind fun _ => mimics_pure vars
  | loop init condition post body loc =>
    exact (mimics_loopInit hM init hctx vars
      (hn.mono fun m hm => by simp [Node.mentions, hm])).bind fun initVars =>
        (mimics_operand hM hctx initVars condition
          (hn.mono fun m hm => by simp [Node.mentions, hm])).bind fun id =>
            (mimics_newGoverned hM hctx "for" id loc).bind fun block =>
              (mimics_governed hM body (hctx.looping block) initVars
                (hn.mono fun m hm => by simp [Node.mentions, hm])).bind fun _ =>
                  (mimics_governed hM post (hctx.looping block) initVars
                    (hn.mono fun m hm => by simp [Node.mentions, hm])).bind fun _ =>
                      mimics_pure vars
  | block items loc =>
    refine mimics_enter hctx hn fun frame => ?_
    exact (mimics_statements hM items (hctx.entering frame) vars hn).bind fun _ =>
      mimics_pure vars
  | function => exact mimics_pure vars
  | breakOut loc => exact (mimics_loopJump hM hctx "break" loc).bind fun _ => mimics_pure vars
  | continueOn loc =>
    exact (mimics_loopJump hM hctx "continue" loc).bind fun _ => mimics_pure vars
  | leave loc =>
    exact (mimics_require _ _).bind fun _ => (mimics_jump hM hctx ctx.root).bind fun _ =>
      mimics_pure vars
  | _ => exact mimics_throw _

theorem mimics_statements (hM : M.IsKept) (ns : List Node) {ctx : Context} (hctx : M.Fits ctx)
    (vars : Variables) (hns : M.Avoids (mentionsOf ns)) :
    M.Mimics M.vars (statements ctx vars ns)
      (statements (M.context ctx) (M.vars vars) (renameAll M.rename ns)) := by
  cases ns with
  | nil => exact mimics_pure vars
  | cons n rest =>
    exact (mimics_statement hM n hctx vars (hns.mono fun m hm => by simp [mentionsOf, hm])).bind
      fun vars => mimics_statements hM rest hctx vars
        (hns.mono fun m hm => by simp [mentionsOf, hm])

theorem mimics_governed (hM : M.IsKept) (n : Node) {ctx : Context} (hctx : M.Fits ctx)
    (vars : Variables) (hn : M.Avoids n.mentions) :
    M.Mimics id (governed ctx vars n)
      (governed (M.context ctx) (M.vars vars) (n.rename M.rename)) := by
  cases n with
  | block items loc =>
    refine mimics_enter hctx hn fun frame => ?_
    exact (mimics_statements hM items (hctx.entering frame) vars hn).bind fun _ =>
      mimics_pure ()
  | _ => exact mimics_throw _

theorem mimics_loopInit (hM : M.IsKept) (n : Node) {ctx : Context} (hctx : M.Fits ctx)
    (vars : Variables) (hn : M.Avoids n.mentions) :
    M.Mimics M.vars (loopInit ctx vars n)
      (loopInit (M.context ctx) (M.vars vars) (n.rename M.rename)) := by
  cases n with
  | block items loc | program name items loc =>
    refine mimics_enter hctx hn fun frame => ?_
    exact mimics_statements hM items (hctx.entering frame) vars hn
  | _ => exact mimics_throw _

theorem mimics_switchArms (hM : M.IsKept) (arms : List Node) {ctx : Context} (hctx : M.Fits ctx)
    (vars : Variables) (selector : NodeId) (seen : List Nat)
    (harms : M.Avoids (mentionsOf arms)) :
    M.Mimics id (switchArms ctx vars selector seen arms)
      (switchArms (M.context ctx) (M.vars vars) (M.move selector) seen
        (renameAll M.rename arms)) := by
  cases arms with
  | nil => exact mimics_pure ()
  | cons arm rest =>
    cases arm with
    | caseArm value body loc =>
      exact (mimics_armValue seen loc value).bind fun word =>
        (mimics_newGoverned hM hctx "case" selector loc).bind fun block =>
          (mimics_governed hM body (hctx.under block) vars
            (harms.mono fun m hm => by simp [mentionsOf, Node.mentions, hm])).bind fun _ =>
              mimics_switchArms hM rest hctx vars selector (word :: seen)
                (harms.mono fun m hm => by simp [mentionsOf, hm])
    | _ => exact mimics_of_ne_ok strayArm_ne_ok

theorem mimics_switchFallback (hM : M.IsKept) (fallback : Option Node) {ctx : Context}
    (hctx : M.Fits ctx) (vars : Variables) (selector : NodeId) (loc : Loc)
    (h : M.Avoids (mentionsOfOption fallback)) :
    M.Mimics id (switchFallback ctx vars selector loc fallback)
      (switchFallback (M.context ctx) (M.vars vars) (M.move selector) loc
        (renameOption M.rename fallback)) := by
  cases fallback with
  | none => exact mimics_pure ()
  | some body =>
    exact (mimics_newGoverned hM hctx "default" selector loc).bind fun block =>
      mimics_governed hM body (hctx.under block) vars h

end

end Statements

section Scopes

variable {M} {ctx : Context}

theorem mimics_takeRecord (hM : M.IsKept) (scope : String) :
    M.Mimics M.record (takeRecord scope) (takeRecord scope) :=
  mimics_of_eq (fun _ => rfl) (fun _ => rfl) (fun _ => rfl) fun hs =>
    ⟨⟨hM.restart hs.graph, hs.pending, hs.scopeNames, rfl, rfl⟩, by
      rw [hs.definitions, hs.applications]
      rfl⟩

/-- What follows the opening of a scope. -/
theorem mimics_openScope (hM : M.IsKept) {name : String} (hname : name ∉ M.hidden)
    (functions : List FunctionFrame) (loc : Option Loc) {α β : Type} {F : α → β}
    {k : Context → Walk α} {k' : Context → Walk β}
    (hk : ∀ root, M.Mimics F (k { scope := name, root, functions, block := root })
      (k' (M.context { scope := name, root, functions, block := root }))) :
    M.Mimics F (openScope name functions loc >>= k)
      (openScope name (M.frames functions) loc >>= k') := by
  let openRoot : Walk NodeId := do
    let root := (← get).graph.size
    modifyGraph (·.addScope name loc)
    return root
  have hroot : M.Mimics M.move openRoot openRoot :=
    mimics_of_eq (fun _ => rfl) (fun _ => rfl) (fun _ => rfl) fun hs =>
      ⟨hs.withGraph (hM.scope hs.graph hname loc), hM.size hs.graph⟩
  change M.Mimics F (openRoot >>= fun root => k { scope := name, root, functions, block := root })
    (openRoot >>= fun root =>
      k' { scope := name, root, functions := M.frames functions, block := root })
  exact hroot.bind hk

theorem mimics_declareParams (hM : M.IsKept) (hctx : M.Fits ctx) (loc : Loc) (names : List String)
    (vars : Variables) :
    M.Mimics M.vars (declareParams ctx loc vars names)
      (declareParams (M.context ctx) loc (M.vars vars) (names.map M.rename)) := by
  induction names generalizing vars with
  | nil => exact mimics_pure vars
  | cons name rest ih =>
    exact (mimics_newLocal hM hctx vars name loc).bind fun id =>
      (mimics_modifyGraph fun hg => hM.param hg hctx.scope id).bind fun _ =>
        (mimics_define (.arbitrary id)).bind fun _ => ih ((name, id) :: vars)

theorem mimics_declareReturns (hM : M.IsKept) (hctx : M.Fits ctx) (loc : Loc)
    (names : List String) (vars : Variables) :
    M.Mimics M.vars (declareReturns ctx loc vars names)
      (declareReturns (M.context ctx) loc (M.vars vars) (names.map M.rename)) := by
  induction names generalizing vars with
  | nil => exact mimics_pure vars
  | cons name rest ih =>
    exact (mimics_newLocal hM hctx vars name loc).bind fun id =>
      (mimics_modifyGraph fun hg => hM.result hg hctx.scope id).bind fun _ =>
        (mimics_define (.constant id 0)).bind fun _ => ih ((name, id) :: vars)

theorem mimics_walkFunction (hM : M.IsKept) {f : PendingFunction} (hf : M.IsShared f) :
    M.Mimics M.record (walkFunction f) (walkFunction (M.queued f)) := by
  refine mimics_openScope hM hf.scope f.visible (some f.entry.loc) fun root => ?_
  have hctx : M.Fits { scope := f.entry.scope, root, functions := f.visible, block := root } :=
    ⟨hf.scope, hf.visible⟩
  exact (mimics_declareParams hM hctx f.entry.loc f.entry.params []).bind fun params =>
    (mimics_declareReturns hM hctx f.entry.loc f.entry.returns params).bind fun vars =>
      (mimics_governed hM f.entry.body hctx vars hf.body).bind fun _ =>
        mimics_takeRecord hM f.entry.scope

theorem mimics_walkMain (hM : M.IsKept) (hextra : M.extra = []) (items : List Node) :
    M.Mimics M.record (walkMain items) (walkMain (renameAll M.rename items)) := by
  have hhidden : mainScope ∉ M.hidden := by simp [hidden, hextra]
  have havoids : M.Avoids (mentionsOf items) := by simp [Avoids, hextra]
  refine mimics_openScope hM hhidden [] none fun root => ?_
  have hctx : M.Fits { scope := mainScope, root, functions := [], block := root } :=
    ⟨hhidden, Or.inl hextra⟩
  refine mimics_enter hctx havoids fun frame => ?_
  exact (mimics_statements hM items (hctx.entering frame) [] havoids).bind fun _ =>
    mimics_takeRecord hM mainScope

def blank : Mirror :=
  { rename := id, move := id, extra := [], Alike := fun _ _ _ _ => False }

theorem isKept_blank : blank.IsKept where
  rename := Function.injective_id
  move := Function.injective_id
  size := fun h => h.elim
  scope := fun h => h.elim
  temporary := fun h => h.elim
  declared := fun h => h.elim
  block := fun h => h.elim
  edge := fun h => h.elim
  site := fun h => h.elim
  param := fun h => h.elim
  result := fun h => h.elim
  restart := fun h => h.elim

theorem scopeNames_walkPending (bound : Nat) {s t : WalkState} {rs : List ScopeRecord}
    (hrun : walkPending bound s = .ok rs t) : s.scopeNames ⊆ t.scopeNames := by
  induction bound generalizing s rs with
  | zero =>
    obtain ⟨_, rfl⟩ := pure_eq_ok hrun
    exact List.Subset.refl _
  | succ bound ih =>
    rcases walkPending_succ_eq_ok hrun with ⟨_, _, rfl⟩ | ⟨f, rest, r, rs', u, _, hfirst, hrest, _⟩
    · exact List.Subset.refl _
    · have hf : blank.IsShared f := ⟨List.not_mem_nil, Or.inl rfl, fun e he => nomatch he⟩
      have hgrows := (mimics_walkFunction isKept_blank hf).grows hfirst
      exact List.Subset.trans hgrows (ih hrest)

/-- The functions of both programs are walked in the same order. -/
theorem walkPending_mirror (hM : M.IsKept) (bound : Nat) {s s' t t' : WalkState}
    {rs rs' : List ScopeRecord} (h : M.States [] [] s s')
    (hrun : walkPending bound s = .ok rs t) (hrun' : walkPending bound s' = .ok rs' t')
    (hfresh : ∀ name ∈ M.hidden, name ∉ t.scopeNames) :
    M.States [] [] t t' ∧ rs' = rs.map M.record := by
  induction bound generalizing s s' rs rs' with
  | zero =>
    obtain ⟨rfl, rfl⟩ := pure_eq_ok hrun
    obtain ⟨rfl, rfl⟩ := pure_eq_ok hrun'
    exact ⟨h, rfl⟩
  | succ bound ih =>
    obtain ⟨new, hpending, hpending', hshared⟩ := h.pending
    rw [List.nil_append] at hpending hpending'
    rcases walkPending_succ_eq_ok hrun with ⟨hnone, rfl, rfl⟩ |
      ⟨f, rest, r, rs₁, u, hsome, hfirst, hrest, rfl⟩
    · obtain rfl : new = [] := hpending.symm.trans hnone
      rcases walkPending_succ_eq_ok hrun' with ⟨_, rfl, rfl⟩ | ⟨f', rest', _, _, _, hsome', _⟩
      · exact ⟨h, rfl⟩
      · cases hpending'.symm.trans hsome'
    · obtain rfl : new = f :: rest := hpending.symm.trans hsome
      rcases walkPending_succ_eq_ok hrun' with ⟨hnone', _⟩ |
        ⟨f', rest', r', rs₁', u', hsome', hfirst', hrest', rfl⟩
      · cases hpending'.symm.trans hnone'
      · obtain ⟨rfl, rfl⟩ := List.cons.inj (hpending'.symm.trans hsome')
        have hpopped : M.States [] [] { s with pending := rest }
            { s' with pending := rest.map M.queued } :=
          ⟨h.graph, ⟨rest, rfl, rfl, fun e he => hshared e (List.mem_cons_of_mem _ he)⟩,
            h.scopeNames, h.definitions, h.applications⟩
        obtain ⟨hu, rfl⟩ := (mimics_walkFunction hM (hshared f List.mem_cons_self)).sim hpopped
          hfirst hfirst' fun name hname hmem =>
            hfresh name hname (scopeNames_walkPending bound hrest hmem)
        obtain ⟨ht, rfl⟩ := ih hu hrest hrest'
        exact ⟨ht, rfl⟩

end Scopes

end Mirror

end YulTaint.Flow
