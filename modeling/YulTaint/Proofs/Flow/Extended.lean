import Mathlib.Tactic
import YulTaint.Proofs.Flow.Mirror

/-!
The walk of a program with one function more at its end. The rest of the program
does not call the function, and the function defines no others. Then its nodes
stand together at one place of the arena, behind the scopes of the functions at
the top level, and but for its scope and its record nothing is new.
-/

namespace YulTaint.Flow

def FunctionEntry.node (e : FunctionEntry) : Node :=
  .function e.name e.params e.returns e.body e.loc

theorem FunctionEntry.withScope_eq (e : FunctionEntry) {scope : String} (h : e.scope = scope) :
    { e with scope } = e := by
  subst h
  rfl

section Names

variable {g g' : Graph} {new sc : String} {start count : Nat}

theorem isBound_inserts (h : Graph.Inserts new start count g g') (hsc : sc ≠ new) :
    isBound g' sc = isBound g sc := by
  funext name
  rw [isBound, isBound, h.scopes sc hsc]
  cases g.scope? sc with
  | none => rfl
  | some s =>
    have hlookup := lookup_map Function.injective_id (shiftFrom start count) s.names name
    simp only [Option.map_some, Option.bind_some, Scope.lookup?, Scope.move]
    exact (congrArg Option.isSome hlookup).trans Option.isSome_map

theorem boundCount_inserts (h : Graph.Inserts new start count g g') (hsc : sc ≠ new) :
    boundCount g' sc = boundCount g sc := by
  rw [boundCount, boundCount, h.scopes sc hsc]
  cases g.scope? sc with
  | none => rfl
  | some s => simp [Scope.move]

theorem uniqueName_inserts (h : Graph.Inserts new start count g g') (hsc : sc ≠ new)
    (name : String) : uniqueName g' sc name = uniqueName g sc name := by
  rw [uniqueName, uniqueName, isBound_inserts h hsc, boundCount_inserts h hsc]

end Names

namespace Mirror

variable {t' t s : WalkState} {items : List Node}

/-- The second program has one function more, whose nodes are put in at one place. -/
def insertion (e : FunctionEntry) (start count : Nat) : Mirror :=
  { rename := id
    move := shiftFrom start count
    extra := [e]
    Alike := fun g k g' k' => Graph.Inserts e.scope start count g g' ∧ k = k' }

section Insertion

variable {e : FunctionEntry} {start count : Nat}

theorem mem_hidden {sc : String} : sc ∈ (insertion e start count).hidden ↔ sc = e.scope :=
  List.mem_singleton

theorem ne_of_not_hidden {sc : String} (h : sc ∉ (insertion e start count).hidden) :
    sc ≠ e.scope := fun heq => h (mem_hidden.mpr heq)

/-- Whatever the walk adds outside of the new scope keeps the insertion. -/
theorem isKept_insertion (e : FunctionEntry) (start count : Nat) :
    (insertion e start count).IsKept where
  rename := Function.injective_id
  move := shiftFrom_injective
  size := fun h => h.1.size_eq
  scope := fun h _ loc => ⟨h.1.addScope _ loc, h.2⟩
  temporary := by
    intro s t ctx h hsc stem _ loc
    have hne := ne_of_not_hidden hsc
    have hsuffix : nextSuffix ctx stem t = nextSuffix ctx stem s := by
      rw [nextSuffix, nextSuffix, isBound_inserts h.1 hne, boundCount_inserts h.1 hne, h.2]
    rw [hsuffix]
    exact ⟨h.1.addVariable _ _ loc, rfl⟩
  declared := by
    intro g k g' k' sc h hsc name loc
    have hname := uniqueName_inserts h.1 (ne_of_not_hidden hsc) name
    change Graph.Inserts _ _ _ _ (g'.addVariable sc (uniqueName g' sc name) loc) ∧ _
    rw [hname]
    exact ⟨h.1.addVariable _ _ loc, h.2⟩
  block := by
    intro g k g' l sc h _ stem loc
    obtain ⟨hg, rfl⟩ := h
    exact ⟨hg.addBlock _ _ loc, rfl⟩
  edge := fun h _ a b => ⟨h.1.addEdge _ a b, h.2⟩
  site := fun h site _ => ⟨h.1.addSite site, h.2⟩
  param := fun h _ id => ⟨h.1.addParam _ id, h.2⟩
  result := fun h _ id => ⟨h.1.addReturn _ id, h.2⟩
  restart := fun h => ⟨h.1, rfl⟩

theorem entry_insertion (x : FunctionEntry) : (insertion e start count).entry x = x := by
  simp [entry, insertion, Node.rename_id]

theorem map_entry_insertion (frame : FunctionFrame) :
    frame.map (insertion e start count).entry = frame :=
  map_eq_self fun x _ => entry_insertion x

theorem record_insertion (r : ScopeRecord) : (insertion e 0 0).record r = r := by
  have hmove : (insertion e 0 0).move = id := shiftFrom_zero
  rw [record, hmove, ScopeRecord.move_id]

/-- What is visible does not depend on where nodes stand. -/
theorem queued_insertion : (insertion e start count).queued = (insertion e 0 0).queued := by
  have hframes (fs : List FunctionFrame) :
      (insertion e start count).frames fs = (insertion e 0 0).frames fs := by
    induction fs with
    | nil => rfl
    | cons frame outer ih =>
      cases outer with
      | nil => rfl
      | cons => exact congrArg (frame.map (insertion e 0 0).entry :: ·) ih
  funext f
  rw [queued, queued, hframes]
  rfl

end Insertion

/-- The functions at the top level that both programs have are walked first. What
the second program has queued behind them is then next. -/
theorem walkPending_tops {M : Mirror} (hM : M.IsKept) {tops behind : List PendingFunction}
    (htops : ∀ f ∈ tops, M.IsShared f) {bound more : Nat} {s' : WalkState}
    {rs rs' : List ScopeRecord} {done done' : List FunctionEntry} (hstands : Stands done s)
    (hstands' : Stands done' s') (h : M.States tops (tops.map M.queued ++ behind) s s')
    (hrun : walkPending bound s = .ok rs t) (hempty : t.pending = [])
    (hrun' : walkPending (bound + more) s' = .ok rs' t')
    (hfresh : ∀ name ∈ M.hidden, name ∉ t.scopeNames) :
    ∃ left v v' first rest rest' walked walked', Stands walked v ∧ Stands walked' v' ∧
      M.States [] behind v v' ∧ walkPending left v = .ok rest t ∧
      walkPending (left + more) v' = .ok rest' t' ∧ rs = first ++ rest ∧
      rs' = first.map M.record ++ rest' ∧ s.graph.Keeps v.graph ∧
      ∀ r ∈ first, Records v.graph r := by
  induction tops generalizing bound s s' rs rs' done done' with
  | nil =>
    exact ⟨bound, s, s', [], rs, rs', done, done', hstands, hstands', h, hrun, hrun', rfl, rfl,
      .refl _, List.forall_mem_nil _⟩
  | cons f tops ih =>
    obtain ⟨new, hpending, hpending', hshared⟩ := h.pending
    cases bound with
    | zero =>
      obtain ⟨_, rfl⟩ := pure_eq_ok hrun
      rw [hempty] at hpending
      cases hpending
    | succ bound =>
      rw [Nat.add_right_comm] at hrun'
      rcases walkPending_succ_eq_ok hrun with ⟨hnone, _⟩ |
        ⟨f₁, queue, r, rs₁, u, hsome, hfirst, hrest, rfl⟩
      · cases hpending.symm.trans hnone
      · obtain ⟨rfl, rfl⟩ := List.cons.inj (hpending.symm.trans hsome)
        rcases walkPending_succ_eq_ok hrun' with ⟨hnone', _⟩ |
          ⟨f₁', queue', r', rs₁', u', hsome', hfirst', hrest', rfl⟩
        · cases hpending'.symm.trans hnone'
        · obtain ⟨rfl, rfl⟩ := List.cons.inj (hpending'.symm.trans hsome')
          have hpopped : M.States tops (tops.map M.queued ++ behind)
              { s with pending := tops ++ new }
              { s' with
                pending := tops.map M.queued ++ behind ++ new.map M.queued } :=
            ⟨h.graph, ⟨new, rfl, rfl, hshared⟩, h.scopeNames, h.definitions, h.applications⟩
          obtain ⟨hu, rfl⟩ := (mimics_walkFunction hM (htops f List.mem_cons_self)).sim hpopped
            hfirst hfirst' fun name hname hmem =>
              hfresh name hname (scopeNames_walkPending bound hrest hmem)
          obtain ⟨hstands₁, _, hrecords, hkeeps, _⟩ := walkFunction_spec hstands hsome hfirst
          obtain ⟨hstands₁', _⟩ := walkFunction_spec hstands' hsome' hfirst'
          obtain ⟨left, v, v', first, rest, rest', walked, walked', hv, hv', hstates, hleft,
            hleft', rfl, rfl, hkeeps', hall⟩ :=
              ih (fun f' hf' => htops f' (List.mem_cons_of_mem _ hf')) hstands₁ hstands₁' hu
                hrest hrest'
          refine ⟨left, v, v', r :: first, rest, rest', walked, walked', hv, hv', hstates, hleft,
            hleft', rfl, rfl, hkeeps.trans hkeeps', ?_⟩
          intro r₁ hr₁
          rcases List.mem_cons.mp hr₁ with rfl | hr₁
          · exact hrecords.mono hkeeps'
          · exact hall r₁ hr₁

theorem bindFunctions_append (ctx : Context) (frame : FunctionFrame)
    (entries more : List FunctionEntry) :
    bindFunctions ctx frame (entries ++ more) =
      bindFunctions ctx frame entries >>= fun frame => bindFunctions ctx frame more := by
  induction entries generalizing frame with
  | nil => simp [bindFunctions]
  | cons entry rest ih => simp [bindFunctions, ih]

theorem statements_append (ctx : Context) (vars : Variables) (items more : List Node) :
    statements ctx vars (items ++ more) =
      statements ctx vars items >>= fun vars => statements ctx vars more := by
  induction items generalizing vars with
  | nil => simp [statements]
  | cons n rest ih => simp [statements, ih]

theorem definedFunctions_append (items more : List Node) :
    definedFunctions (items ++ more) = definedFunctions items ++ definedFunctions more := by
  induction items with
  | nil => rfl
  | cons n rest ih => cases n <;> simp [definedFunctions, ih]

theorem functionCounts_append (items more : List Node) :
    functionCounts (items ++ more) = functionCounts items + functionCounts more := by
  induction items with
  | nil => simp [functionCounts]
  | cons n rest ih => rw [List.cons_append, functionCounts, functionCounts, ih, Nat.add_assoc]

/-- A name that is free stays as it is at the top level. -/
theorem uniqueScopeName_main {taken : List String} {name : String} (hfree : name ∉ taken)
    (hmain : name ≠ mainScope) : uniqueScopeName taken mainScope name = name := by
  simp [uniqueScopeName, hfree, hmain]

/-- The function at the end is bound behind all others. -/
theorem enter_extended {e : FunctionEntry} {ctx inner inner' : Context}
    (hctx : ctx.scope = mainScope) (hname : e.scope = e.name)
    (hrun : enter ctx items s = .ok inner t)
    (hrun' : enter ctx (items ++ [e.node]) s = .ok inner' t') (hfree : e.name ∉ t.scopeNames)
    (hmain : e.name ≠ mainScope) :
    ∃ frame names,
      List.Forall₂ FunctionEntry.IsNamed (definedFunctions items) frame ∧
      Names frame s.scopeNames names ∧
      inner = { ctx with functions := frame :: ctx.functions } ∧
      t = { s with pending := s.pending ++ queueOf ctx frame, scopeNames := names } ∧
      inner' = { ctx with functions := (frame ++ [e]) :: ctx.functions } ∧
      t' = { s with
        pending := s.pending ++ queueOf ctx (frame ++ [e])
        scopeNames := e.name :: names } := by
  obtain ⟨frame, u, hbind, h⟩ := bind_eq_ok hrun
  obtain ⟨added, names, hframe, hnamed, rfl, hnames⟩ := bindFunctions_eq_ok _ hbind
  obtain rfl : frame = added := by simpa using hframe
  cases h
  obtain ⟨frame', u', hbind', h'⟩ := bind_eq_ok hrun'
  rw [definedFunctions_append, bindFunctions_append] at hbind'
  obtain ⟨frame₁, u₁, hfirst, hlast⟩ := bind_eq_ok hbind'
  cases hbind.symm.trans hfirst
  obtain ⟨_, v, hduplicate, hlast⟩ := bind_eq_ok hlast
  obtain ⟨_, rfl⟩ := require_eq_ok hduplicate
  obtain ⟨_, v, hbuiltin, hlast⟩ := bind_eq_ok hlast
  obtain ⟨_, rfl⟩ := require_eq_ok hbuiltin
  cases hlast
  cases h'
  have hscope : uniqueScopeName names ctx.scope e.name = e.name :=
    hctx ▸ uniqueScopeName_main hfree hmain
  have hentry := e.withScope_eq hname
  refine ⟨frame, names, hnamed, hnames, rfl, rfl, ?_, ?_⟩
  · simp only [hscope, hentry]
  · simp only [hscope, hentry, queueOf]

def mainContext (frame : FunctionFrame) : Context :=
  { rootContext {} mainScope [] with functions := [frame] }

def mainState (frame : FunctionFrame) (names : List String) : WalkState :=
  { graph := Graph.addScope {} mainScope none
    pending := queueOf (rootContext {} mainScope []) frame
    scopeNames := names }

section Main

variable {e : FunctionEntry} {frame : FunctionFrame}

theorem context_mainContext :
    (insertion e 0 0).context (mainContext frame) = mainContext (frame ++ [e]) := by
  rw [context, mainContext, frames, map_entry_insertion]
  rfl

theorem queueOf_insertion : queueOf (rootContext {} mainScope []) (frame ++ [e]) =
    (queueOf (rootContext {} mainScope []) frame).map (insertion e 0 0).queued ++
      [{ entry := e, visible := [frame ++ [e]] }] := by
  have hqueued (x : FunctionEntry) :
      (insertion e 0 0).queued { entry := x, visible := [frame] } =
        { entry := x, visible := [frame ++ [e]] } := by
    rw [queued, entry_insertion, frames, map_entry_insertion]
    rfl
  simp only [queueOf, rootContext, List.map_append, List.map_map, List.map_singleton,
    Function.comp_def, hqueued]

theorem states_mainState (hname : e.scope = e.name) (names : List String) :
    (insertion e 0 0).States (queueOf (rootContext {} mainScope []) frame)
      ((queueOf (rootContext {} mainScope []) frame).map (insertion e 0 0).queued ++
        [{ entry := e, visible := [frame ++ [e]] }])
      (mainState frame names) (mainState (frame ++ [e]) (e.name :: names)) := by
  rw [← queueOf_insertion]
  refine ⟨⟨Graph.Inserts.refl (coherent_empty.addScope List.not_mem_nil none), rfl⟩,
    ⟨[], (List.append_nil _).symm, (List.append_nil _).symm, fun _ h => nomatch h⟩, ?_, rfl, rfl⟩
  intro name
  change name ∈ e.name :: names ↔ name ∈ names ∨ name ∈ [e.scope]
  rw [hname, List.mem_cons, List.mem_singleton, or_comm]

end Main

/-- The top-level code is walked in the same way when a function is added. -/
theorem walkMain_extended {e : FunctionEntry} (hname : e.scope = e.name)
    (hcalls : .call e.name ∉ mentionsOf items) {r r' : ScopeRecord}
    (hrun : walkMain items { graph := {} } = .ok r t)
    (hrun' : walkMain (items ++ [e.node]) { graph := {} } = .ok r' t')
    (hfree : e.name ∉ t.scopeNames) (hmain : e.name ≠ mainScope) :
    r' = r ∧ ∃ tops visible, (∀ f ∈ tops, (insertion e 0 0).IsShared f) ∧
      (insertion e 0 0).States tops
        (tops.map (insertion e 0 0).queued ++ [{ entry := e, visible }]) t t' := by
  let M := insertion e 0 0
  have hM : M.IsKept := isKept_insertion e 0 0
  have havoids : M.Avoids (mentionsOf items) := by
    intro x hx
    rw [List.mem_singleton.mp hx]
    exact hcalls
  obtain ⟨inner, last, u, w, henter, hitems, rfl, rfl⟩ := walkMain_eq_ok hrun
  obtain ⟨inner', last', u', w', henter', hitems', rfl, rfl⟩ := walkMain_eq_ok hrun'
  have hgrows : u.scopeNames ⊆ w.scopeNames := by
    refine (mimics_statements isKept_blank items ⟨List.not_mem_nil, Or.inl rfl⟩ [] ?_).grows hitems
    exact fun x hx => nomatch hx
  obtain ⟨frame, names, hnamed, hnames, rfl, rfl, rfl, rfl⟩ :=
    enter_extended rfl hname henter henter' (fun hmem => hfree (hgrows hmem)) hmain
  have hfresh : ∀ name ∈ M.hidden, name ∉ w.scopeNames := by
    rintro name hhidden hmem
    rw [mem_hidden.mp hhidden, hname] at hmem
    exact hfree hmem
  have hctx : M.Fits (mainContext frame) := by
    refine ⟨fun hhidden => hmain ?_, Or.inr (List.cons_ne_nil _ _)⟩
    rw [← hname]
    exact (mem_hidden.mp hhidden).symm
  -- the definition at the end is no code of the top level
  rw [statements_append] at hitems'
  obtain ⟨last₁, w₁, hfirst, hlast⟩ := bind_eq_ok hitems'
  obtain ⟨_, w₂, hfunction, hlast⟩ := bind_eq_ok hlast
  obtain ⟨_, rfl⟩ := pure_eq_ok hfunction
  obtain ⟨_, rfl⟩ := pure_eq_ok hlast
  have hfirst' : statements (M.context (mainContext frame)) (M.vars []) (renameAll M.rename items)
      (mainState (frame ++ [e]) (e.name :: names)) = .ok last₁ w₁ := by
    rw [context_mainContext]
    exact (renameAll_id items).symm ▸ hfirst
  obtain ⟨hw, _⟩ := (mimics_statements hM items hctx [] havoids).sim
    (states_mainState hname names) hitems hfirst' hfresh
  obtain ⟨ht, hr⟩ := (mimics_takeRecord hM mainScope).sim hw (takeRecord_eq _ _)
    (takeRecord_eq _ _) hfresh
  refine ⟨hr.trans ?_, _, _, ?_, ht⟩
  · exact record_insertion _
  · exact isShared_of_enter havoids hnamed hnames fun name hhidden hmem =>
      hfresh name hhidden (hgrows hmem)

/-- While the first walk waits, the second one walks the function that only it has. -/
theorem States.insert {e : FunctionEntry} {visible : List FunctionFrame}
    {done done' : List FunctionEntry} {s' : WalkState} {r : ScopeRecord}
    {rest : List PendingFunction} (hbody : e.body.functionCount = 0) (hstands : Stands done s)
    (hstands' : Stands done' s') (h : (insertion e 0 0).States [] [{ entry := e, visible }] s s')
    (hpending' : s'.pending = { entry := e, visible } :: rest)
    (hrun' : walkFunction { entry := e, visible } { s' with pending := rest } = .ok r t') :
    (insertion e s.graph.size (t'.graph.size - s'.graph.size)).States [] [] s t' := by
  obtain ⟨vars, v, w, hwalking, hgrows, _, hmoves, rfl, rfl⟩ :=
    walkFunction_moves hstands' hpending' hrun'
  obtain ⟨scope, hscope⟩ := Graph.mem_scopeNames.mp hwalking.ready.mem_scopeNames
  have hgrowth := hgrows.growth.trans (hmoves.growth hwalking.walked.coherent hscope).1
  obtain ⟨hidle, hnames⟩ := hmoves.idle hbody
  obtain ⟨new, hnew, hnew', hshared⟩ := h.pending
  obtain ⟨_, rfl⟩ := List.cons.inj (hpending'.symm.trans hnew')
  refine ⟨⟨h.graph.1.grow hstands.walked.coherent (hstands'.walked.free hpending') hgrowth,
    hstands.counter⟩, ⟨new, hnew, ?_, fun f hf => ?_⟩, fun name => ?_, ?_, ?_⟩
  · rw [queued_insertion]
    exact hidle.trans hgrows.pending
  · obtain ⟨hscope, hvisible, hcode⟩ := hshared f hf
    exact ⟨hscope, hvisible, hcode⟩
  · change name ∈ w.scopeNames ↔ _
    rw [hnames, hgrows.scopeNames]
    exact h.scopeNames name
  · rw [hstands.definitions]
    rfl
  · rw [hstands.applications]
    rfl

/-- The walks of both programs make the same scopes and records, but for those of
the function at the end. -/
theorem walkProgram_extended {name : String} {loc : Loc} {e : FunctionEntry}
    (hname : e.scope = e.name) (hbody : e.body.functionCount = 0)
    (hcalls : .call e.name ∉ mentionsOf items) {rs rs' : List ScopeRecord}
    (hwalk : walkProgram (.program name items loc) { graph := {} } = .ok rs t)
    (hwalk' : walkProgram (.program name (items ++ [e.node]) loc) { graph := {} } = .ok rs' t')
    (hfree : e.name ∉ t.graph.scopeNames) :
    ∃ start count first rest r, Graph.Inserts e.scope start count t.graph t'.graph ∧
      0 < start ∧ rs = first ++ rest ∧
      rs' = first ++ r :: rest.map (ScopeRecord.move (shiftFrom start count)) ∧
      r.scope = e.scope ∧
      ∃ g : Graph, g.Coherent ∧ g.size = start ∧ ∀ r ∈ first, Records g r := by
  obtain ⟨done, hstands, hempty, _⟩ := walkProgram_spec hwalk
  have hfresh : e.name ∉ t.scopeNames := fun hmem => hfree (walkProgram_scopeNames hwalk hmem)
  have hmain : e.name ≠ mainScope := by
    intro heq
    rw [hstands.walked.scopes, heq] at hfree
    exact hfree List.mem_cons_self
  obtain ⟨main, u, hmainRun, h⟩ := bind_eq_ok hwalk
  obtain ⟨others, v, hrest, h⟩ := bind_eq_ok h
  obtain ⟨rfl, rfl⟩ := pure_eq_ok h
  obtain ⟨main', u', hmainRun', h'⟩ := bind_eq_ok hwalk'
  obtain ⟨others', v', hrest', h'⟩ := bind_eq_ok h'
  obtain ⟨rfl, rfl⟩ := pure_eq_ok h'
  obtain ⟨rfl, tops, visible, htops, hu⟩ := walkMain_extended hname hcalls hmainRun hmainRun'
    (fun hmem => hfresh (scopeNames_walkPending _ hrest hmem)) hmain
  obtain ⟨hstands₀, _, hrecord, _⟩ := walkMain_spec hmainRun
  obtain ⟨hstands₀', _⟩ := walkMain_spec hmainRun'
  have hhidden {start count : Nat} (name : String)
      (h : name ∈ (insertion e start count).hidden) : name ∉ v.scopeNames := by
    rw [mem_hidden.mp h, hname]
    exact hfresh
  have hbound : functionCounts (items ++ [e.node]) = functionCounts items + 1 := by
    simp [functionCounts_append, functionCounts, FunctionEntry.node, Node.functionCount, hbody]
  rw [hbound] at hrest'
  obtain ⟨left, x, x', first, rest, rest', walked, walked', hx, hx', hstates, hleft, hleft', rfl,
    rfl, hkeeps, hrecords⟩ := walkPending_tops (isKept_insertion e 0 0) htops hstands₀ hstands₀' hu
      hrest hempty hrest' hhidden
  obtain ⟨new, _, hpending', _⟩ := hstates.pending
  rcases walkPending_succ_eq_ok hleft' with ⟨hnone, _⟩ |
    ⟨f, queue, r, rest'', w', hsome, hfunction, hlast, rfl⟩
  · cases hpending'.symm.trans hnone
  · obtain ⟨rfl, rfl⟩ := List.cons.inj (hpending'.symm.trans hsome)
    obtain ⟨_, hscope, _⟩ := walkFunction_spec hx' hsome hfunction
    have hinsert := hstates.insert hbody hx hx' hsome hfunction
    obtain ⟨ht, rfl⟩ := walkPending_mirror (isKept_insertion _ _ _) left hinsert hleft hlast hhidden
    refine ⟨x.graph.size, _, main' :: first, rest, r, ht.graph.1, ?_, rfl, ?_, hscope, x.graph,
      hx.walked.coherent, rfl, ?_⟩
    · obtain ⟨scope, hs⟩ := Graph.mem_scopeNames.mp
        (hx.walked.scopes ▸ List.mem_cons_self : mainScope ∈ x.graph.scopeNames)
      have hroot := hx.walked.coherent.scopes _ scope hs
      exact Nat.zero_lt_of_lt (Graph.Coherent.lt_size hroot hroot.root)
    · rw [map_eq_self fun r _ => record_insertion r]
      rfl
    · intro r₁ hr₁
      rcases List.mem_cons.mp hr₁ with rfl | hr₁
      · exact hrecord.mono hkeeps
      · exact hrecords r₁ hr₁

end Mirror

end YulTaint.Flow
