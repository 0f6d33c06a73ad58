import Mathlib.Tactic
import YulTaint.Flow.Collect
import YulTaint.Proofs.Flow.Statement
import YulTaint.Proofs.Graph.Labels

/-!
The walk over a whole program. The scopes of the graph are the top-level code
and the functions walked so far, every call goes to a function that the walk
knows, and when the queue is empty every known function has a scope with its
parameters and return variables.
-/

namespace YulTaint.Flow

variable {r : ScopeRecord}

structure IsNew (n : FlowNode) : Prop where
  constant : n.constant = none
  isTainted : n.isTainted = false
  isUntaintable : n.isUntaintable = false
  isProtected : n.isProtected = false
  isSource : n.isSource = false
  origin : n.origin = none
  embedding : n.embedding = none
  callChain : n.callChain = n.scope.toList
  owned : n.scope.isSome = true

def HasSignature (g : Graph) (e : FunctionEntry) : Prop :=
  ∃ scope, g.scope? e.scope = some scope ∧ scope.params.length = e.params.length ∧
    scope.returns.length = e.returns.length

/-- An open site that calls a known function with the right numbers. -/
structure IsCall (done : List FunctionEntry) (s : WalkState) (site : CallSite) : Prop where
  isOpen : site.resolved = false
  known : ∃ e, s.Knows done e ∧ site.callee = e.scope ∧
    site.arguments.length = e.params.length ∧ site.results.length = e.returns.length

/-- What the walk keeps while it goes through a scope. -/
structure Walked (done : List FunctionEntry) (s : WalkState) : Prop where
  coherent : s.graph.Coherent
  labelled : s.graph.Labelled
  scopes : s.graph.scopeNames = mainScope :: done.map (·.scope)
  distinct : ((done ++ s.pending.map (·.entry)).map (·.scope)).Nodup
  taken : ∀ e, s.Knows done e → e.scope ∈ s.scopeNames ∧ e.scope ≠ mainScope
  named : ∀ name ∈ s.scopeNames, ∃ e, s.Knows done e ∧ e.scope = name
  visible : ∀ f ∈ s.pending, ∀ frame ∈ f.visible, ∀ e ∈ frame, s.Knows done e
  sites : ∀ name scope, s.graph.scope? name = some scope → ∀ site ∈ scope.sites,
    IsCall done s site
  nodes : ∀ id n, s.graph.node? id = some n → IsNew n
  globals : s.graph.globals = []

section Moves

variable {done : List FunctionEntry} {sc : String} {k : Nat} {s t : WalkState}

theorem IsCall.mono {site : CallSite} {done' : List FunctionEntry} (h : IsCall done s site)
    (hknows : ∀ e, s.Knows done e → t.Knows done' e) : IsCall done' t site := by
  obtain ⟨hopen, e, he, hcallee, hargs, hresults⟩ := h
  exact ⟨hopen, e, hknows e he, hcallee, hargs, hresults⟩

/-- A move keeps the parameters and return variables of every scope, and adds
call sites at the end of the list. -/
theorem Move.scope (hm : Move done sc k s t) {name : String} {scope : Scope}
    (hs : s.graph.scope? name = some scope) :
    ∃ scope', t.graph.scope? name = some scope' ∧ scope'.params = scope.params ∧
      scope'.returns = scope.returns ∧
      ∃ added, scope'.sites = scope.sites ++ added ∧ ∀ site ∈ added, IsCall done s site := by
  have hnone : scope.sites = scope.sites ++ [] := (List.append_nil _).symm
  have hempty : ∀ site ∈ ([] : List CallSite), IsCall done s site :=
    List.forall_mem_nil _
  cases hm with
  | newVariable var loc hblock hfree =>
    by_cases hname : name = sc
    · subst hname
      have hs' := Graph.scope?_addVariable_self hs var (some loc)
      exact ⟨_, Graph.scope?_addEdge_self hs' _ _, rfl, rfl, [], hnone, hempty⟩
    · refine ⟨scope, ?_, rfl, rfl, [], hnone, hempty⟩
      rw [Graph.scope?_addEdge, if_neg hname, Graph.scope?_addVariable, if_neg hname, hs]
  | newBlock block loc hblock =>
    by_cases hname : name = sc
    · subst hname
      have hs' := Graph.scope?_addBlock_self hs block (some loc)
      exact ⟨_, Graph.scope?_addEdge_self hs' _ _, rfl, rfl, [], hnone, hempty⟩
    · refine ⟨scope, ?_, rfl, rfl, [], hnone, hempty⟩
      rw [Graph.scope?_addEdge, if_neg hname, Graph.scope?_addBlock, if_neg hname, hs]
  | addEdge ha hb =>
    by_cases hname : name = sc
    · subst hname
      exact ⟨_, Graph.scope?_addEdge_self hs _ _, rfl, rfl, [], hnone, hempty⟩
    · refine ⟨scope, ?_, rfl, rfl, [], hnone, hempty⟩
      rw [Graph.scope?_addEdge, if_neg hname, hs]
  | @addSite _ site e he hsite =>
    have hcaller := hsite.caller
    by_cases hname : name = sc
    · subst hname
      subst hcaller
      refine ⟨_, Graph.scope?_addSite_self hs, rfl, rfl, [site], rfl, ?_⟩
      intro site' hsite'
      rw [List.mem_singleton.mp hsite']
      exact ⟨hsite.isOpen, e, he, hsite.callee, hsite.argumentCount, hsite.resultCount⟩
    · refine ⟨scope, ?_, rfl, rfl, [], hnone, hempty⟩
      rw [Graph.scope?_addSite, if_neg (hcaller ▸ hname), hs]
  | define | record | queue | count => exact ⟨scope, hs, rfl, rfl, [], hnone, hempty⟩

/-- The nodes that a move adds are new. -/
theorem Move.node? (hm : Move done sc k s t) {id : NodeId} {n : FlowNode}
    (hn : t.graph.node? id = some n) : s.graph.node? id = some n ∨ IsNew n := by
  cases hm with
  | newVariable name loc hblock hfree =>
    rw [Graph.node?_addEdge, Graph.node?_addVariable] at hn
    split at hn
    · cases hn
      exact Or.inr ⟨rfl, rfl, rfl, rfl, rfl, rfl, rfl, rfl, rfl⟩
    · exact Or.inl hn
  | newBlock name loc hblock =>
    rw [Graph.node?_addEdge, Graph.node?_addBlock] at hn
    split at hn
    · cases hn
      exact Or.inr ⟨rfl, rfl, rfl, rfl, rfl, rfl, rfl, rfl, rfl⟩
    · exact Or.inl hn
  | addEdge | addSite | define | record | queue | count => exact Or.inl hn

/-- A move gives new variables new names. -/
theorem Move.labelled {scope : Scope} (hg : s.graph.Coherent) (h : s.graph.Labelled)
    (hs : s.graph.scope? sc = some scope) (hm : Move done sc k s t) : t.graph.Labelled := by
  cases hm with
  | newVariable name loc hblock hfree =>
    have hunbound : scope.lookup? name = none := by simpa [isBound, hs] using hfree
    exact (h.addVariable hg hs hunbound (some loc)).addEdge (hg.addVariable hs name (some loc))
      (Graph.scope?_addVariable_self hs name (some loc)) _ _
  | newBlock name loc hblock =>
    exact (h.addBlock hg sc name (some loc)).addEdge (hg.addBlock hs name (some loc))
      (Graph.scope?_addBlock_self hs name (some loc)) _ _
  | addEdge ha hb => exact h.addEdge hg hs _ _
  | addSite he hsite => exact h.modifyScope (fun _ => rfl) (fun _ => rfl) (fun _ => rfl)
  | define | record | queue | count => exact h

theorem HasSignature.move {e : FunctionEntry} (h : HasSignature s.graph e)
    (hm : Move done sc k s t) : HasSignature t.graph e := by
  obtain ⟨scope, hs, hparams, hreturns⟩ := h
  obtain ⟨scope', hs', hp, hr, _⟩ := hm.scope hs
  exact ⟨scope', hs', hp ▸ hparams, hr ▸ hreturns⟩

theorem HasSignature.moves {e : FunctionEntry} (h : HasSignature s.graph e)
    (hm : Moves done sc k s t) : HasSignature t.graph e := by
  induction hm with
  | refl => exact h
  | step hmove _ ih => exact ih (h.move hmove)

/-- A move keeps the invariant of the walk. -/
theorem Walked.move (h : Walked done s) (hsc : sc ∈ s.graph.scopeNames)
    (hm : Move done sc k s t) : Walked done t := by
  obtain ⟨scope, hs⟩ := Graph.mem_scopeNames.mp hsc
  obtain ⟨hgrowth, hcoh⟩ := hm.growth h.coherent hs
  have hlabelled := hm.labelled h.coherent h.labelled hs
  have hsites (name : String) (scope' : Scope) (hs' : t.graph.scope? name = some scope')
      (site : CallSite) (hsite : site ∈ scope'.sites) : IsCall done t site := by
    obtain ⟨scope, hs⟩ := Graph.mem_scopeNames.mp
      (hgrowth.scopeNames ▸ Graph.mem_scopeNames.mpr ⟨scope', hs'⟩)
    obtain ⟨scope'', hs'', _, _, added, hadded, hcalls⟩ := hm.scope hs
    cases hs'.symm.trans hs''
    rw [hadded, List.mem_append] at hsite
    rcases hsite with hold | hnew
    · exact (h.sites name scope hs site hold).mono fun _ => hm.knows
    · exact (hcalls site hnew).mono fun _ => hm.knows
  have hnodes (id : NodeId) (n : FlowNode) (hn : t.graph.node? id = some n) : IsNew n := by
    rcases hm.node? hn with hold | hnew
    · exact h.nodes id n hold
    · exact hnew
  have hscopes : t.graph.scopeNames = mainScope :: done.map (·.scope) :=
    hgrowth.scopeNames.trans h.scopes
  have hglobals : t.graph.globals = [] := hgrowth.globals.trans h.globals
  have hknows (e : FunctionEntry) (he : s.Knows done e) : t.Knows done e := hm.knows he
  cases hm with
  | @queue _ fs names hfs hnames =>
    refine ⟨hcoh, hlabelled, hscopes, ?_, ?_, ?_, ?_, hsites, hnodes, hglobals⟩
    · have hsplit : done ++ (s.pending ++ fs).map (·.entry) =
          (done ++ s.pending.map (·.entry)) ++ fs.map (·.entry) := by simp
      rw [hsplit, List.map_append, List.nodup_append]
      refine ⟨h.distinct, by rw [List.map_map]; exact hfs.distinct, ?_⟩
      rintro name hold _ hnew rfl
      obtain ⟨e, he, rfl⟩ := List.mem_map.mp hold
      obtain ⟨e', he', heq⟩ := List.mem_map.mp hnew
      obtain ⟨f, hf, rfl⟩ := List.mem_map.mp he'
      have hknown : s.Knows done e := by
        rcases List.mem_append.mp he with hdone | hpending
        · exact Or.inl hdone
        · exact Or.inr (List.mem_map.mp hpending)
      exact (hfs.fresh f hf).1 (heq ▸ (h.taken e hknown).1)
    · rintro e (hdone | ⟨f, hf, rfl⟩)
      · obtain ⟨htaken, hmain⟩ := h.taken e (Or.inl hdone)
        exact ⟨(hnames _).mpr (Or.inr htaken), hmain⟩
      · rcases List.mem_append.mp hf with hold | hnew
        · obtain ⟨htaken, hmain⟩ := h.taken f.entry (Or.inr ⟨f, hold, rfl⟩)
          exact ⟨(hnames _).mpr (Or.inr htaken), hmain⟩
        · exact ⟨(hnames _).mpr (Or.inl (List.mem_map.mpr ⟨f, hnew, rfl⟩)),
            (hfs.fresh f hnew).2⟩
    · intro name hname
      rcases (hnames name).mp hname with hnew | hold
      · obtain ⟨f, hf, rfl⟩ := List.mem_map.mp hnew
        exact ⟨f.entry, Or.inr ⟨f, List.mem_append_right _ hf, rfl⟩, rfl⟩
      · obtain ⟨e, he, rfl⟩ := h.named name hold
        exact ⟨e, hknows e he, rfl⟩
    · intro f hf frame hframe e he
      rcases List.mem_append.mp hf with hold | hnew
      · exact hknows e (h.visible f hold frame hframe e he)
      · rcases hfs.visible f hnew frame hframe e he with hknown | ⟨f', hf', heq⟩
        · exact hknows e hknown
        · exact Or.inr ⟨f', List.mem_append_right _ hf', heq⟩
  | newVariable | newBlock | addEdge | define | record | addSite | count =>
    exact ⟨hcoh, hlabelled, hscopes, h.distinct, h.taken, h.named, h.visible, hsites, hnodes,
      hglobals⟩

theorem Walked.moves (h : Walked done s) (hsc : sc ∈ s.graph.scopeNames)
    (hm : Moves done sc k s t) : Walked done t := by
  induction hm with
  | refl => exact h
  | step hmove _ ih =>
    have hnext := h.move hsc hmove
    exact ih hnext (by rw [hnext.scopes, ← h.scopes]; exact hsc)

end Moves

/-- The records of a scope refer to its own nodes, and their constants are
words. -/
structure Records (g : Graph) (r : ScopeRecord) : Prop where
  definitions : ∀ d ∈ r.definitions, g.OwnsVariable r.scope d.target
  words : ∀ d ∈ r.definitions, d.HoldsWord
  applications : ∀ a ∈ r.applications, a.Fits g r.scope

def WalkState.record (s : WalkState) (scope : String) : ScopeRecord :=
  { scope, definitions := s.definitions, applications := s.applications }

theorem Records.mono {g g' : Graph} (h : Records g r) (hkeeps : g.Keeps g') :
    Records g' r := by
  refine ⟨fun d hd => hkeeps.ownsVariable (h.definitions d hd), h.words, ?_⟩
  intro a ha
  obtain ⟨hnode, hoperands, hblock, harity⟩ := h.applications a ha
  exact ⟨hkeeps.owns _ _ hnode, fun id hid => hkeeps.ownsVariable (hoperands id hid),
    hkeeps.owns _ _ hblock, harity⟩

section Records

variable {done : List FunctionEntry} {sc : String} {k : Nat} {s t : WalkState}

/-- A move records what belongs to its scope. -/
theorem Move.records (h : Walked done s) (hsc : sc ∈ s.graph.scopeNames)
    (hm : Move done sc k s t) (hr : Records s.graph (s.record sc)) :
    Records t.graph (t.record sc) := by
  obtain ⟨scope, hs⟩ := Graph.mem_scopeNames.mp hsc
  have hold : Records t.graph (s.record sc) :=
    hr.mono (hm.growth h.coherent hs).1.keeps
  cases hm with
  | define hd hword =>
    refine ⟨?_, ?_, hold.applications⟩
    · intro d' hd'
      rcases List.mem_append.mp hd' with hmem | hmem
      · exact hold.definitions d' hmem
      · rw [List.mem_singleton.mp hmem]
        exact hd
    · intro d' hd'
      rcases List.mem_append.mp hd' with hmem | hmem
      · exact hold.words d' hmem
      · rw [List.mem_singleton.mp hmem]
        exact hword
  | record ha =>
    refine ⟨hold.definitions, hold.words, ?_⟩
    intro a' ha'
    rcases List.mem_append.mp ha' with hmem | hmem
    · exact hold.applications a' hmem
    · rw [List.mem_singleton.mp hmem]
      exact ha
  | newVariable | newBlock | addEdge | addSite | queue | count => exact hold

theorem Moves.records (h : Walked done s) (hsc : sc ∈ s.graph.scopeNames)
    (hm : Moves done sc k s t) (hr : Records s.graph (s.record sc)) :
    Records t.graph (t.record sc) := by
  induction hm with
  | refl => exact hr
  | step hmove _ ih =>
    have hnext := h.move hsc hmove
    exact ih hnext (by rw [hnext.scopes, ← h.scopes]; exact hsc) (hmove.records h hsc hr)

theorem Moves.weight (hm : Moves done sc k s t) :
    queueWeight t.pending = queueWeight s.pending + k := by
  induction hm with
  | refl => rfl
  | step hmove _ ih =>
    rw [ih]
    cases hmove with
    | queue => simp [queueWeight, Nat.add_assoc]
    | newVariable | newBlock | addEdge | define | record | addSite | count =>
      rw [Nat.zero_add]

/-- Moves without weight queue no function. -/
theorem Moves.idle (hm : Moves done sc k s t) (hk : k = 0) :
    t.pending = s.pending ∧ ∀ name, name ∈ t.scopeNames ↔ name ∈ s.scopeNames := by
  induction hm with
  | refl => exact ⟨rfl, fun _ => Iff.rfl⟩
  | step hmove _ ih =>
    obtain ⟨hpending, hnames⟩ := ih (by omega)
    cases hmove with
    | @queue _ fs names hfs hmem =>
      have hnone : fs = [] := by
        cases fs with
        | nil => rfl
        | cons => simp [queueWeight] at hk
      subst hnone
      exact ⟨hpending.trans (List.append_nil _), fun name => by simp [hnames, hmem]⟩
    | newVariable | newBlock | addEdge | define | record | addSite | count =>
      exact ⟨hpending, hnames⟩

end Records

/-- The walk inside a scope: the invariant, the context and the records. -/
structure Walking (done : List FunctionEntry) (ctx : Context) (vars : Variables)
    (s : WalkState) : Prop where
  walked : Walked done s
  ready : Ready done ctx vars s
  records : Records s.graph (s.record ctx.scope)

section Walking

variable {done : List FunctionEntry} {ctx : Context} {vars : Variables} {k : Nat} {s t : WalkState}
  {loc : Loc} {name : String} {after : Variables} {scope : Scope}

theorem Ready.mem_scopeNames (h : Ready done ctx vars s) : ctx.scope ∈ s.graph.scopeNames := by
  obtain ⟨scope, hs, _⟩ := h.block
  exact Graph.mem_scopeNames.mpr ⟨scope, hs⟩

theorem Walking.moves (h : Walking done ctx vars s) (hm : Moves done ctx.scope k s t) :
    Walking done ctx vars t :=
  ⟨h.walked.moves h.ready.mem_scopeNames hm, h.ready.moves hm,
    hm.records h.walked h.ready.mem_scopeNames h.records⟩

theorem Walking.cons (h : Walking done ctx vars s) (name : String) {id : NodeId}
    (hid : s.graph.OwnsVariable ctx.scope id) : Walking done ctx ((name, id) :: vars) s :=
  ⟨h.walked, h.ready.cons name hid, h.records⟩

/-- A change of the scope that leaves its nodes, names and call sites alone. -/
theorem Walking.modifyScope (h : Walking done ctx vars s) {f : Scope → Scope}
    (hname : ∀ scope, (f scope).name = scope.name) (hroot : ∀ scope, (f scope).root = scope.root)
    (hnodes : ∀ scope, (f scope).nodes = scope.nodes)
    (hedges : ∀ scope, (f scope).edges = scope.edges)
    (hsites : ∀ scope, (f scope).sites = scope.sites)
    (hnames : ∀ scope, (f scope).names = scope.names)
    (hcoh : (s.graph.modifyScope ctx.scope f).Coherent) :
    Walking done ctx vars { s with graph := s.graph.modifyScope ctx.scope f } := by
  have hgrowth := h.walked.coherent.growth_modifyScope ctx.scope hname hroot hnodes hedges
  have hready := h.ready
  constructor
  · refine ⟨hcoh, h.walked.labelled.modifyScope hname hnodes hnames,
      hgrowth.scopeNames.trans h.walked.scopes, h.walked.distinct, h.walked.taken,
      h.walked.named, h.walked.visible, ?_, h.walked.nodes, h.walked.globals⟩
    intro name scope hs site hsite
    rw [Graph.scope?_modifyScope _ _ _ hname] at hs
    split at hs
    · obtain ⟨old, hold, rfl⟩ := Option.map_eq_some_iff.mp hs
      exact (h.walked.sites name old hold site (hsites old ▸ hsite)).mono fun _ he => he
    · exact (h.walked.sites name scope hs site hsite).mono fun _ he => he
  · exact ⟨hcoh, hgrowth.owns hready.root, hgrowth.owns hready.block,
      fun id hid => hgrowth.owns (hready.loop id hid),
      fun entry hentry => hgrowth.keeps.ownsVariable (hready.vars entry hentry), hready.functions⟩
  · exact h.records.mono hgrowth.keeps

theorem Walking.addParam (h : Walking done ctx vars s) {id : NodeId}
    (hid : s.graph.Owns ctx.scope id) :
    Walking done ctx vars { s with graph := s.graph.addParam ctx.scope id } := by
  obtain ⟨scope, hs, hmem⟩ := hid
  exact h.modifyScope (fun _ => rfl) (fun _ => rfl) (fun _ => rfl) (fun _ => rfl) (fun _ => rfl)
    (fun _ => rfl) (h.walked.coherent.addParam hs hmem)

theorem Walking.addReturn (h : Walking done ctx vars s) {id : NodeId}
    (hid : s.graph.Owns ctx.scope id) :
    Walking done ctx vars { s with graph := s.graph.addReturn ctx.scope id } := by
  obtain ⟨scope, hs, hmem⟩ := hid
  exact h.modifyScope (fun _ => rfl) (fun _ => rfl) (fun _ => rfl) (fun _ => rfl) (fun _ => rfl)
    (fun _ => rfl) (h.walked.coherent.addReturn hs hmem)

theorem declareParams_cons_eq_ok {rest : List String}
    (hrun : declareParams ctx loc vars (name :: rest) s = .ok after t) :
    ∃ id u, newLocal ctx vars name loc s = .ok id u ∧
      declareParams ctx loc ((name, id) :: vars) rest
        { u with
          graph := u.graph.addParam ctx.scope id
          definitions := u.definitions ++ [.arbitrary id] } = .ok after t := by
  obtain ⟨id, u, hlocal, h⟩ := bind_eq_ok hrun
  exact ⟨id, u, hlocal, h⟩

theorem declareReturns_cons_eq_ok {rest : List String}
    (hrun : declareReturns ctx loc vars (name :: rest) s = .ok after t) :
    ∃ id u, newLocal ctx vars name loc s = .ok id u ∧
      declareReturns ctx loc ((name, id) :: vars) rest
        { u with
          graph := u.graph.addReturn ctx.scope id
          definitions := u.definitions ++ [.constant id 0] } = .ok after t := by
  obtain ⟨id, u, hlocal, h⟩ := bind_eq_ok hrun
  exact ⟨id, u, hlocal, h⟩

/-- A walk that stays in one scope: it grows the scope and queues nothing. -/
structure Grows (sc : String) (s t : WalkState) : Prop where
  growth : Graph.Growth sc s.graph t.graph
  pending : t.pending = s.pending
  scopeNames : t.scopeNames = s.scopeNames

theorem Grows.trans {sc : String} {u : WalkState} (h : Grows sc s t) (h' : Grows sc t u) :
    Grows sc s u :=
  ⟨h.growth.trans h'.growth, h'.pending.trans h.pending, h'.scopeNames.trans h.scopeNames⟩

theorem newLocal_grows (h : Walking done ctx vars s) {id : NodeId}
    (hs : s.graph.scope? ctx.scope = some scope) (hrun : newLocal ctx vars name loc s = .ok id t) :
    Grows ctx.scope s t ∧ ∃ scope', t.graph.scope? ctx.scope = some scope' ∧
      scope'.params = scope.params ∧ scope'.returns = scope.returns := by
  obtain ⟨hmoves, _⟩ := newLocal_moves h.ready hrun
  obtain ⟨_, _, _, hvariable⟩ := newLocal_eq_ok hrun
  have hgrowth := (hmoves.growth h.walked.coherent hs).1
  rw [newVariable_eq] at hvariable
  cases hvariable
  have hs' := Graph.scope?_addVariable_self hs (uniqueName s.graph ctx.scope name) (some loc)
  exact ⟨⟨hgrowth, rfl, rfl⟩, _, Graph.scope?_addEdge_self hs' _ _, rfl, rfl⟩

/-- One declaration of a function's header. `f` adds the variable to the
parameters or to the return variables. -/
theorem header_step (h : Walking done ctx vars s) {name : String} {loc : Loc} {id : NodeId}
    (d : Definition) (f : Scope → Scope) (hd : d.target = id) (hword : d.HoldsWord)
    (hlocal : newLocal ctx vars name loc s = .ok id t)
    (hname : ∀ scope, (f scope).name = scope.name) (hroot : ∀ scope, (f scope).root = scope.root)
    (hnodes : ∀ scope, (f scope).nodes = scope.nodes)
    (hedges : ∀ scope, (f scope).edges = scope.edges)
    (hwalking : ∀ {t}, Walking done ctx vars t → t.graph.Owns ctx.scope id →
      Walking done ctx vars { t with graph := t.graph.modifyScope ctx.scope f })
    {scope : Scope} (hs : s.graph.scope? ctx.scope = some scope) :
    let u := { t with
      graph := t.graph.modifyScope ctx.scope f
      definitions := t.definitions ++ [d] }
    Walking done ctx ((name, id) :: vars) u ∧ Grows ctx.scope s u ∧
      ∃ scope', u.graph.scope? ctx.scope = some (f scope') ∧ scope'.params = scope.params ∧
        scope'.returns = scope.returns := by
  obtain ⟨hmoves, hown⟩ := newLocal_moves h.ready hlocal
  obtain ⟨hgrows, scope', hs', hparams, hreturns⟩ := newLocal_grows h hs hlocal
  have hnext := h.moves hmoves
  have hadded := hwalking hnext hown.owns
  have hgrowth := hnext.walked.coherent.growth_modifyScope ctx.scope hname hroot hnodes hedges
  have hdefine : Move done ctx.scope 0 { t with graph := t.graph.modifyScope ctx.scope f } _ :=
    .define (d := d) (hd ▸ hgrowth.keeps.ownsVariable hown) hword
  refine ⟨(hadded.moves hdefine.moves).cons name (hgrowth.keeps.ownsVariable hown),
    hgrows.trans ⟨hgrowth, rfl, rfl⟩, scope', ?_, hparams, hreturns⟩
  rw [Graph.scope?_modifyScope _ _ _ hname, if_pos rfl, hs']
  rfl

/-- The parameters are declared in order. -/
theorem declareParams_spec (names : List String) (h : Walking done ctx vars s)
    (hs : s.graph.scope? ctx.scope = some scope)
    (hrun : declareParams ctx loc vars names s = .ok after t) :
    Walking done ctx after t ∧ Grows ctx.scope s t ∧
      ∃ scope', t.graph.scope? ctx.scope = some scope' ∧
        scope'.params.length = scope.params.length + names.length ∧
        scope'.returns = scope.returns := by
  induction names generalizing vars s scope with
  | nil =>
    obtain ⟨rfl, rfl⟩ := pure_eq_ok hrun
    exact ⟨h, ⟨h.walked.coherent.growth_refl _, rfl, rfl⟩, scope, hs, rfl, rfl⟩
  | cons name rest ih =>
    obtain ⟨id, u, hlocal, hrest⟩ := declareParams_cons_eq_ok hrun
    obtain ⟨hwalking, hgrows, scope₁, hs₁, hparams₁, hreturns₁⟩ :=
      header_step h (.arbitrary id) (fun scope => { scope with params := scope.params ++ [id] })
        rfl trivial hlocal (fun _ => rfl) (fun _ => rfl) (fun _ => rfl) (fun _ => rfl)
        (fun hwalking hown => hwalking.addParam hown) hs
    obtain ⟨hwalking', hgrows', scope₂, hs₂, hparams₂, hreturns₂⟩ := ih hwalking hs₁ hrest
    refine ⟨hwalking', hgrows.trans hgrows', scope₂, hs₂, ?_, hreturns₂.trans hreturns₁⟩
    rw [hparams₂, List.length_append, hparams₁, List.length_singleton, List.length_cons]
    omega

/-- The return variables are declared in order. -/
theorem declareReturns_spec (names : List String) (h : Walking done ctx vars s)
    (hs : s.graph.scope? ctx.scope = some scope)
    (hrun : declareReturns ctx loc vars names s = .ok after t) :
    Walking done ctx after t ∧ Grows ctx.scope s t ∧
      ∃ scope', t.graph.scope? ctx.scope = some scope' ∧ scope'.params = scope.params ∧
        scope'.returns.length = scope.returns.length + names.length := by
  induction names generalizing vars s scope with
  | nil =>
    obtain ⟨rfl, rfl⟩ := pure_eq_ok hrun
    exact ⟨h, ⟨h.walked.coherent.growth_refl _, rfl, rfl⟩, scope, hs, rfl, rfl⟩
  | cons name rest ih =>
    obtain ⟨id, u, hlocal, hrest⟩ := declareReturns_cons_eq_ok hrun
    obtain ⟨hwalking, hgrows, scope₁, hs₁, hparams₁, hreturns₁⟩ :=
      header_step h (.constant id 0)
        (fun scope => { scope with returns := scope.returns ++ [id] })
        rfl isWord_zero hlocal (fun _ => rfl) (fun _ => rfl) (fun _ => rfl) (fun _ => rfl)
        (fun hwalking hown => hwalking.addReturn hown) hs
    obtain ⟨hwalking', hgrows', scope₂, hs₂, hparams₂, hreturns₂⟩ := ih hwalking hs₁ hrest
    refine ⟨hwalking', hgrows.trans hgrows', scope₂, hs₂, hparams₂.trans hparams₁, ?_⟩
    rw [hreturns₂, List.length_append, hreturns₁, List.length_singleton, List.length_cons]
    omega

end Walking

/-- What holds between the walks of two scopes. -/
structure Stands (done : List FunctionEntry) (s : WalkState) : Prop where
  walked : Walked done s
  signed : ∀ e ∈ done, HasSignature s.graph e
  definitions : s.definitions = []
  applications : s.applications = []
  counter : s.counter = 0

def rootContext (g : Graph) (name : String) (functions : List FunctionFrame) : Context :=
  { scope := name, root := g.size, functions, block := g.size }

theorem takeRecord_eq (scope : String) (s : WalkState) :
    takeRecord scope s =
      .ok (s.record scope) { s with definitions := [], applications := [], counter := 0 } := rfl

theorem walkFunction_eq_ok {f : PendingFunction} {s t : WalkState}
    (hrun : walkFunction f s = .ok r t) :
    let ctx := rootContext s.graph f.entry.scope f.visible
    ∃ vars vars' u v w,
      declareParams ctx f.entry.loc [] f.entry.params
        { s with graph := s.graph.addScope f.entry.scope (some f.entry.loc) } = .ok vars u ∧
      declareReturns ctx f.entry.loc vars f.entry.returns u = .ok vars' v ∧
      governed ctx vars' f.entry.body v = .ok () w ∧ r = w.record f.entry.scope ∧
      t = { w with definitions := [], applications := [], counter := 0 } := by
  obtain ⟨ctx, u, hopen, h⟩ := bind_eq_ok hrun
  cases hopen
  obtain ⟨vars, u, hparams, h⟩ := bind_eq_ok h
  obtain ⟨vars', v, hreturns, h⟩ := bind_eq_ok h
  obtain ⟨_, w, hbody, h⟩ := bind_eq_ok h
  rw [takeRecord_eq] at h
  cases h
  exact ⟨vars, vars', u, v, w, hparams, hreturns, hbody, rfl, rfl⟩

theorem walkMain_eq_ok {items : List Node} {s t : WalkState} (hrun : walkMain items s = .ok r t) :
    ∃ inner last u w,
      enter (rootContext s.graph mainScope []) items
        { s with graph := s.graph.addScope mainScope none } = .ok inner u ∧
      statements inner [] items u = .ok last w ∧ r = w.record mainScope ∧
      t = { w with definitions := [], applications := [], counter := 0 } := by
  obtain ⟨ctx, u, hopen, h⟩ := bind_eq_ok hrun
  cases hopen
  obtain ⟨inner, u, henter, h⟩ := bind_eq_ok h
  obtain ⟨last, w, hitems, h⟩ := bind_eq_ok h
  rw [takeRecord_eq] at h
  cases h
  exact ⟨inner, last, u, w, henter, hitems, rfl, rfl⟩

section Scopes

variable {done : List FunctionEntry} {s t : WalkState} {f : PendingFunction}
  {rest : List PendingFunction}

theorem knows_pop (hpending : s.pending = f :: rest) {e : FunctionEntry} (he : s.Knows done e)
    {g : Graph} : WalkState.Knows { s with graph := g, pending := rest } (done ++ [f.entry]) e := by
  rcases he with hdone | ⟨f', hf', rfl⟩
  · exact Or.inl (List.mem_append_left _ hdone)
  · rw [hpending] at hf'
    rcases List.mem_cons.mp hf' with rfl | hf'
    · exact Or.inl (List.mem_append_right _ (List.mem_singleton.mpr rfl))
    · exact Or.inr ⟨f', hf', rfl⟩

theorem isNew_addScope {g : Graph} (hg : ∀ id n, g.node? id = some n → IsNew n) (name : String)
    (loc : Option Loc) {id : NodeId} {n : FlowNode}
    (hn : (g.addScope name loc).node? id = some n) : IsNew n := by
  rw [Graph.node?_addScope] at hn
  split at hn
  · cases hn
    exact ⟨rfl, rfl, rfl, rfl, rfl, rfl, rfl, rfl, rfl⟩
  · exact hg id n hn

theorem Walked.free (h : Walked done s) (hpending : s.pending = f :: rest) :
    f.entry.scope ∉ s.graph.scopeNames := by
  have hknown : s.Knows done f.entry := Or.inr ⟨f, by rw [hpending]; simp, rfl⟩
  have hdistinct := h.distinct
  rw [hpending, List.map_append, List.nodup_append] at hdistinct
  rw [h.scopes, List.mem_cons, not_or]
  refine ⟨(h.taken f.entry hknown).2, fun hmem => ?_⟩
  exact hdistinct.2.2 _ hmem f.entry.scope (by simp) rfl

/-- The scope of the next queued function is opened. -/
theorem Stands.opens (h : Stands done s) (hpending : s.pending = f :: rest) :
    Walking (done ++ [f.entry]) (rootContext s.graph f.entry.scope f.visible) []
      { s with
        graph := s.graph.addScope f.entry.scope (some f.entry.loc)
        pending := rest } := by
  have hfree := h.walked.free hpending
  have hcoh := h.walked.coherent.addScope hfree (some f.entry.loc)
  have hroot := Graph.owns_root_addScope hfree (some f.entry.loc)
  have hknows {e : FunctionEntry} (he : s.Knows done e) := knows_pop hpending he
    (g := s.graph.addScope f.entry.scope (some f.entry.loc))
  constructor
  · refine ⟨hcoh, h.walked.labelled.addScope h.walked.coherent hfree _, ?_, ?_, ?_, ?_, ?_, ?_, ?_,
      h.walked.globals⟩
    · rw [Graph.scopeNames_addScope hfree, h.walked.scopes]
      simp
    · have hdistinct := h.walked.distinct
      rw [hpending] at hdistinct
      simpa using hdistinct
    · intro e he
      apply h.walked.taken
      rcases he with hdone | ⟨f', hf', rfl⟩
      · rcases List.mem_append.mp hdone with hdone | hlast
        · exact Or.inl hdone
        · rw [List.mem_singleton.mp hlast]
          exact Or.inr ⟨f, by rw [hpending]; simp, rfl⟩
      · exact Or.inr ⟨f', by rw [hpending]; exact List.mem_cons_of_mem _ hf', rfl⟩
    · intro name hname
      obtain ⟨e, he, rfl⟩ := h.walked.named name hname
      exact ⟨e, hknows he, rfl⟩
    · intro f' hf' frame hframe e he
      refine hknows (h.walked.visible f' ?_ frame hframe e he)
      rw [hpending]
      exact List.mem_cons_of_mem _ hf'
    · intro name scope hs site hsite
      rw [Graph.scope?_addScope hfree] at hs
      split at hs
      · cases hs
        exact absurd hsite List.not_mem_nil
      · exact (h.walked.sites name scope hs site hsite).mono fun _ he => hknows he
    · exact fun id n hn => isNew_addScope h.walked.nodes _ _ hn
  · refine ⟨hcoh, hroot, hroot, fun id hid => ?_, fun entry hentry => ?_, ?_⟩
    · cases hid
    · exact absurd hentry List.not_mem_nil
    · intro frame hframe e he
      exact hknows (h.walked.visible f (by rw [hpending]; simp) frame hframe e he)
  · have hempty : ∀ d, d ∉ s.definitions := by
      intro d
      rw [h.definitions]
      exact List.not_mem_nil
    refine ⟨fun d hd => absurd hd (hempty d), fun d hd => absurd hd (hempty d), ?_⟩
    · intro a ha
      have hmem : a ∈ s.applications := ha
      rw [h.applications] at hmem
      exact absurd hmem List.not_mem_nil

/-- Dropping the records of a scope keeps the invariant. -/
theorem Walked.reset (h : Walked done s) :
    Walked done { s with definitions := [], applications := [], counter := 0 } :=
  ⟨h.coherent, h.labelled, h.scopes, h.distinct, h.taken, h.named, h.visible,
    fun name scope hs site hsite => (h.sites name scope hs site hsite).mono fun _ he => he,
    h.nodes, h.globals⟩

/-- The walk of a function opens its scope, declares its variables and then moves
through its body. -/
theorem walkFunction_moves (h : Stands done s) (hpending : s.pending = f :: rest)
    {r : ScopeRecord} (hrun : walkFunction f { s with pending := rest } = .ok r t) :
    ∃ vars v w,
      Walking (done ++ [f.entry]) (rootContext s.graph f.entry.scope f.visible) vars v ∧
      Grows f.entry.scope
        { s with
          graph := s.graph.addScope f.entry.scope (some f.entry.loc)
          pending := rest } v ∧
      HasSignature v.graph f.entry ∧
      Moves (done ++ [f.entry]) f.entry.scope f.entry.body.functionCount v w ∧
      r = w.record f.entry.scope ∧
      t = { w with definitions := [], applications := [], counter := 0 } := by
  have hopen := h.opens hpending
  have hscope : (s.graph.addScope f.entry.scope (some f.entry.loc)).scope? f.entry.scope =
      some (s.graph.emptyScope f.entry.scope) := by
    rw [Graph.scope?_addScope (h.walked.free hpending), if_pos rfl]
  obtain ⟨vars, vars', u, v, w, hparams, hreturns, hbody, hr, ht⟩ := walkFunction_eq_ok hrun
  obtain ⟨hwalking₁, hgrows₁, scope₁, hs₁, hparams₁, hreturns₁⟩ :=
    declareParams_spec f.entry.params hopen hscope hparams
  obtain ⟨hwalking₂, hgrows₂, scope₂, hs₂, hparams₂, hreturns₂⟩ :=
    declareReturns_spec f.entry.returns hwalking₁ hs₁ hreturns
  refine ⟨vars', v, w, hwalking₂, hgrows₁.trans hgrows₂, ⟨scope₂, hs₂, ?_, ?_⟩,
    governed_moves f.entry.body hwalking₂.ready hbody, hr, ht⟩
  · rw [hparams₂, hparams₁]
    exact Nat.zero_add _
  · rw [hreturns₂, hreturns₁]
    exact Nat.zero_add _

/-- The walk of a queued function ends between scopes again. -/
theorem walkFunction_spec (h : Stands done s) (hpending : s.pending = f :: rest)
    {r : ScopeRecord} (hrun : walkFunction f { s with pending := rest } = .ok r t) :
    Stands (done ++ [f.entry]) t ∧ r.scope = f.entry.scope ∧ Records t.graph r ∧
      s.graph.Keeps t.graph ∧
      queueWeight t.pending = queueWeight rest + f.entry.body.functionCount := by
  have hfree := h.walked.free hpending
  obtain ⟨vars, v, w, hwalking, hgrows, hsigned, hmoves, rfl, rfl⟩ :=
    walkFunction_moves h hpending hrun
  obtain ⟨scope, hs⟩ := Graph.mem_scopeNames.mp hwalking.ready.mem_scopeNames
  have hfinal := hwalking.moves hmoves
  have hgrowth := hgrows.growth.trans (hmoves.growth hwalking.walked.coherent hs).1
  refine ⟨⟨hfinal.walked.reset, ?_, rfl, rfl, rfl⟩, rfl, hfinal.records, ?_, ?_⟩
  · intro e he
    rcases List.mem_append.mp he with hdone | hlast
    · obtain ⟨scope, hs, hp, hr⟩ := h.signed e hdone
      have hne : e.scope ≠ f.entry.scope := by
        intro heq
        exact hfree (heq ▸ Graph.mem_scopeNames.mpr ⟨scope, hs⟩)
      refine ⟨scope, ?_, hp, hr⟩
      rw [hgrowth.others e.scope hne, Graph.scope?_addScope hfree, if_neg hne, hs]
    · rw [List.mem_singleton.mp hlast]
      have hfinal : HasSignature w.graph f.entry := hsigned.moves hmoves
      exact hfinal
  · exact (Graph.keeps_addScope hfree _).trans hgrowth.keeps
  · rw [hmoves.weight, hgrows.pending]

theorem walkPending_succ_eq_ok {bound : Nat} {rs : List ScopeRecord}
    (hrun : walkPending (bound + 1) s = .ok rs t) :
    (s.pending = [] ∧ rs = [] ∧ s = t) ∨
      ∃ f rest r rs' u, s.pending = f :: rest ∧
        walkFunction f { s with pending := rest } = .ok r u ∧
        walkPending bound u = .ok rs' t ∧ rs = r :: rs' := by
  obtain ⟨s', u, hget, h⟩ := bind_eq_ok hrun
  cases hget
  cases hpending : s.pending with
  | nil =>
    simp only [hpending] at h
    obtain ⟨rfl, rfl⟩ := pure_eq_ok h
    exact Or.inl ⟨rfl, rfl, rfl⟩
  | cons f rest =>
    simp only [hpending] at h
    obtain ⟨_, u, hset, h⟩ := bind_eq_ok h
    cases hset
    obtain ⟨r, u, hfunction, h⟩ := bind_eq_ok h
    obtain ⟨rs', v, hrest, h⟩ := bind_eq_ok h
    obtain ⟨rfl, rfl⟩ := pure_eq_ok h
    exact Or.inr ⟨f, rest, r, rs', u, rfl, hfunction, hrest, rfl⟩

/-- Queued functions are walked until the queue is empty. -/
theorem walkPending_spec (bound : Nat) (h : Stands done s)
    (hbound : queueWeight s.pending ≤ bound) {rs : List ScopeRecord}
    (hrun : walkPending bound s = .ok rs t) :
    ∃ more, Stands (done ++ more) t ∧ t.pending = [] ∧
      rs.map (·.scope) = more.map (·.scope) ∧ (∀ r ∈ rs, Records t.graph r) ∧
      s.graph.Keeps t.graph := by
  induction bound generalizing done s rs with
  | zero =>
    obtain ⟨rfl, rfl⟩ := pure_eq_ok hrun
    have hempty : s.pending = [] := by
      cases hp : s.pending with
      | nil => rfl
      | cons f rest =>
        rw [hp] at hbound
        simp [queueWeight] at hbound
    exact ⟨[], by rwa [List.append_nil], hempty, rfl, List.forall_mem_nil _,
      .refl _⟩
  | succ bound ih =>
    rcases walkPending_succ_eq_ok hrun with
      ⟨hempty, rfl, rfl⟩ | ⟨f, rest, r, rs', u, hpending, hfunction, hrest, rfl⟩
    · exact ⟨[], by rwa [List.append_nil], hempty, rfl,
        List.forall_mem_nil _, .refl _⟩
    · obtain ⟨hstands, hscope, hrecords, hkeeps, hweight⟩ :=
        walkFunction_spec h hpending hfunction
      have hbound' : queueWeight u.pending ≤ bound := by
        rw [hpending] at hbound
        simp only [queueWeight, List.map_cons, List.sum_cons] at hbound hweight ⊢
        omega
      obtain ⟨more, hstands', hempty, hscopes, hall, hkeeps'⟩ := ih hstands hbound' hrest
      refine ⟨f.entry :: more, by simpa using hstands', hempty, ?_, ?_, ?_⟩
      · rw [List.map_cons, List.map_cons, hscope, hscopes]
      · intro r' hr'
        rcases List.mem_cons.mp hr' with rfl | hr'
        · exact hrecords.mono hkeeps'
        · exact hall r' hr'
      · exact hkeeps.trans hkeeps'

end Scopes

/-- The graph without any scope. -/
theorem coherent_empty : Graph.Coherent {} := by
  refine ⟨List.nodup_nil, ?_, ?_, ?_, ?_, ?_⟩
  · intro name s hs
    cases hs
  · intro id n sc hn
    simp [Graph.node?] at hn
  · exact List.forall_mem_nil _
  · exact fun name id hentry => absurd hentry List.not_mem_nil
  · intro id n o hn
    simp [Graph.node?] at hn

theorem labelled_empty : Graph.Labelled {} := by
  intro name s hs
  cases hs

/-- So does the walk of the top-level code. -/
theorem walkMain_spec {items : List Node} {t : WalkState}
    (hrun : walkMain items { graph := {} } = .ok r t) :
    Stands [] t ∧ r.scope = mainScope ∧ Records t.graph r ∧
      queueWeight t.pending = functionCounts items := by
  have hfree : mainScope ∉ Graph.scopeNames {} := List.not_mem_nil
  have hcoh := coherent_empty.addScope hfree none
  have hroot := Graph.owns_root_addScope hfree none
  obtain ⟨inner, last, u, w, henter, hitems, rfl, rfl⟩ := walkMain_eq_ok hrun
  have hempty : ∀ id n, Graph.node? {} id = some n → IsNew n := by
    intro id n hn
    simp [Graph.node?] at hn
  have hopen : Walking [] (rootContext {} mainScope []) []
      { graph := Graph.addScope {} mainScope none } := by
    refine ⟨⟨hcoh, labelled_empty.addScope coherent_empty hfree none, rfl, List.nodup_nil, ?_, ?_,
      ?_, ?_, ?_, rfl⟩, ⟨hcoh, hroot, hroot, ?_, ?_, ?_⟩, ⟨?_, ?_, ?_⟩⟩
    · rintro e (he | ⟨f, hf, _⟩)
      · exact absurd he List.not_mem_nil
      · exact absurd hf List.not_mem_nil
    · exact List.forall_mem_nil _
    · exact List.forall_mem_nil _
    · intro name scope hs site hsite
      rw [Graph.scope?_addScope hfree] at hs
      split at hs
      · cases hs
        exact absurd hsite List.not_mem_nil
      · cases hs
    · exact fun id n hn => isNew_addScope hempty _ _ hn
    · intro id hid
      cases hid
    · exact List.forall_mem_nil _
    · exact List.forall_mem_nil _
    · exact List.forall_mem_nil _
    · exact List.forall_mem_nil _
    · exact List.forall_mem_nil _
  obtain ⟨hentered, hinner, hscope⟩ := enter_moves hopen.ready henter
  obtain ⟨k, hk, hmoves, _⟩ := statements_moves items hinner hitems
  rw [hscope] at hmoves
  have hall := hentered.trans hmoves
  have hfinal := hopen.moves hall
  refine ⟨⟨hfinal.walked.reset, ?_, rfl, rfl, rfl⟩, rfl, hfinal.records, ?_⟩
  · exact List.forall_mem_nil _
  · have hweight := hall.weight
    simp only [queueWeight, List.map_nil, List.sum_nil] at hweight ⊢
    omega

/-- The walk over a program stands with all its functions walked, and leaves
one record for each scope, in order. -/
theorem walkProgram_spec {program : Node} {s : WalkState} {rs : List ScopeRecord}
    (hrun : walkProgram program { graph := {} } = .ok rs s) :
    ∃ done, Stands done s ∧ s.pending = [] ∧
      rs.map (·.scope) = mainScope :: done.map (·.scope) ∧ ∀ r ∈ rs, Records s.graph r := by
  cases program with
  | program name items loc =>
    obtain ⟨main, u, hmain, h⟩ := bind_eq_ok hrun
    obtain ⟨rest, v, hrest, h⟩ := bind_eq_ok h
    obtain ⟨rfl, rfl⟩ := pure_eq_ok h
    obtain ⟨hstands, hscope, hrecords, hweight⟩ := walkMain_spec hmain
    obtain ⟨more, hstands', hempty, hscopes, hall, hkeeps⟩ :=
      walkPending_spec _ hstands (Nat.le_of_eq hweight) hrest
    refine ⟨more, hstands', hempty, ?_, ?_⟩
    · rw [List.map_cons, hscope, hscopes]
    · intro r hr
      rcases List.mem_cons.mp hr with rfl | hr
      · exact hrecords.mono hkeeps
      · exact hall r hr
  | _ => cases hrun

/-- Every scope name that the walk gave has its scope in the end. -/
theorem walkProgram_scopeNames {program : Node} {s : WalkState} {rs : List ScopeRecord}
    (hrun : walkProgram program { graph := {} } = .ok rs s) :
    s.scopeNames ⊆ s.graph.scopeNames := by
  obtain ⟨done, hstands, hempty, _⟩ := walkProgram_spec hrun
  intro name hname
  rw [hstands.walked.scopes]
  obtain ⟨e, he, rfl⟩ := hstands.walked.named name hname
  rcases he with hdone | ⟨f, hf, _⟩
  · exact List.mem_cons_of_mem _ (List.mem_map_of_mem hdone)
  · rw [hempty] at hf
    cases hf

end YulTaint.Flow
