import Mathlib.Tactic
import YulTaint.Proofs.CallGraph.Confluence
import YulTaint.Proofs.Execution.Defined
import YulTaint.Proofs.Flow.Confined

/-!
Constants keep taint out of protected addresses, and never at a place where taint
starts. Parameters, results of calls, memory words and values from outside the
program have no constant, in the graph of a program and in all that embeddings
make of it; so every source can be tainted.
-/

namespace YulTaint

open Relation (ReflTransGen)

structure FlowNode.WellMarked (n : FlowNode) : Prop where
  untaintable : n.isUntaintable = true ↔
    n.kind = .var ∧ n.isProtected = true ∧ n.constant.isSome = true
  source : n.isSource = true → n.constant = none
  block : n.kind = .block → n.constant = none
  word : n.scope = none → n.constant = none
  constant : ∀ value, n.constant = some value → IsWord value

namespace Graph

def IsVarying (g : Graph) (id : NodeId) : Prop :=
  ∃ n, g.node? id = some n ∧ n.constant = none

/-- Constants are words, they keep taint out of protected variables alone, and
there are none where values come in from elsewhere. -/
structure WellMarked (g : Graph) : Prop where
  nodes : ∀ id n, g.node? id = some n → n.WellMarked
  params : ∀ s ∈ g.scopes, ∀ id ∈ s.params, g.IsVarying id
  results : ∀ s ∈ g.scopes, ∀ site ∈ s.sites, ∀ id ∈ site.results, g.IsVarying id

end Graph

theorem wellMarked_sharedNode (name : String) : (Graph.sharedNode name).WellMarked := by
  refine ⟨⟨fun h => (nomatch h), fun h => (nomatch h.2.1)⟩, ?_, ?_, ?_, ?_⟩
  · exact fun _ => rfl
  · exact fun _ => rfl
  · exact fun _ => rfl
  · exact fun _ h => nomatch h

namespace Execution

open YulTaint.Flow

variable {g : Graph} {f : Function}

/-- A scope of a program's graph whose marks and constants are those of the code
that it comes from. -/
structure Explains (g : Graph) (f : Function) : Prop extends Laid g f where
  marked : Marked g
    { scope := f.scope
      definitions := f.layout.definitions
      applications := f.layout.applications }
  words : ∀ d ∈ f.layout.definitions, d.HoldsWord
  known : ∀ id, (Constant.solve f.layout.definitions).get id ≠ .undefined
  operands : ∀ a ∈ f.layout.applications, ∀ id ∈ a.operands, g.OwnsVariable f.scope id

/-- Node 0 is the root block of the top-level code, so nothing defines it. -/
theorem zero_not_mem_targets {program : Node} (h : collect program = .ok g)
    (hf : f ∈ functions program) : 0 ∉ f.layout.targets := by
  obtain ⟨main, rest, hfunctions, _, hroot, _⟩ := exists_main h
  obtain ⟨_, hlaid⟩ := laid_of_collect h
  have hmain := hlaid main (hfunctions ▸ List.mem_cons_self)
  have hblock : IsBlock g 0 := hroot ▸ hmain.blocks main.root List.mem_cons_self
  intro hzero
  obtain ⟨d, hd, htarget⟩ := List.mem_map.mp hzero
  exact hblock.not_ownsVariable _ (htarget ▸ (hlaid f hf).defined d hd)

/-- The marks of a program's graph are explained by the code of its scopes. -/
theorem explains_of_collect {program : Node} (h : collect program = .ok g)
    (hf : f ∈ functions program) : Explains g f := by
  have hlaid := (laid_of_collect h).2 f hf
  have hzero := zero_not_mem_targets h hf
  obtain ⟨rs, s, hwalk, rfl⟩ := collect_eq_ok h
  obtain ⟨_, hstands, _, _, hrecords⟩ := walkProgram_spec hwalk
  have hfinish := finishAll_finishing hstands.walked.coherent rs hrecords
  obtain ⟨r, hr, hlays⟩ := exists_of_mem_left (walkProgram_lays hwalk) hf
  obtain ⟨_, _, _, rfl⟩ := hlays
  have hrecord := hrecords _ hr
  refine ⟨hlaid, marked_of_walkProgram hwalk hr, hrecord.words, ?_, fun a ha id hid => ?_⟩
  · refine Constant.solve_ne_undefined ((Function.grounded (reads_of_mem_functions hf)).mono ?_)
    rintro id rfl
    exact hzero
  · exact hfinish.keeps.ownsVariable ((hrecord.applications a ha).operands id hid)

namespace Explains

variable {id : NodeId} {n : FlowNode}

theorem constant_eq (h : Explains g f) (hid : g.Owns f.scope id) (hn : g.node? id = some n) :
    n.constant = ((Constant.solve f.layout.definitions).get id).value? := by
  rw [← h.marked.constants id hid, constantOf, hn]
  rfl

theorem get_eq (h : Explains g f) (hid : g.Owns f.scope id) (hn : g.node? id = some n)
    {value : Int} (hvalue : n.constant = some value) :
    (Constant.solve f.layout.definitions).get id = .constant value :=
  h.constants id value hid (by rw [constantOf, hn]; exact hvalue)

/-- What may hold anything has no constant. -/
theorem isVarying (h : Explains g f) (hid : g.Owns f.scope id) (hg : g.Coherent)
    (harbitrary : .arbitrary id ∈ f.layout.definitions) : g.IsVarying id := by
  obtain ⟨n, hn, _⟩ := hid.node hg
  refine ⟨n, hn, ?_⟩
  rw [h.constant_eq hid hn, Constant.solve_arbitrary harbitrary]
  rfl

/-- A value from outside has no constant: if it had one, all operands would be
constant, and then the application's effect would give the constant. -/
theorem source_constant (h : Explains g f) (hid : g.Owns f.scope id) (hn : g.node? id = some n)
    (hsource : n.isSource = true) : n.constant = none := by
  obtain ⟨a, ha, rfl, heffect⟩ := h.marked.sources id n hid hn hsource
  refine Option.eq_none_iff_forall_ne_some.mpr fun value hvalue => ?_
  obtain ⟨values, hvalues, hconstant⟩ := Constant.solve_application h.known
    (f.accounts.applications a ha) (h.get_eq hid hn hvalue)
  have hoperands : constantsOf g a = values.map some := by
    have hsolve : constantsOf g a =
        (a.operands.map (Constant.solve f.layout.definitions).get).map Knowledge.value? := by
      rw [List.map_map]
      exact List.map_congr_left fun id hid =>
        h.marked.constants id (h.operands a ha id hid).owns
    rw [hsolve, hvalues, List.map_map]
    rfl
  rw [effectOf, hoperands] at heffect
  rw [Builtin.constant_of_source heffect] at hconstant
  cases hconstant

theorem isVariable (h : Explains g f) (hid : g.Owns f.scope id) (hn : g.node? id = some n)
    (hsome : n.constant.isSome = true) : n.kind = .var := by
  obtain ⟨value, hvalue⟩ := Option.isSome_iff_exists.mp hsome
  have hconstant : constantOf g id = some value := by rw [constantOf, hn]; exact hvalue
  obtain ⟨_, m, hm, hkind⟩ := h.ownsVariable_of_constant hid hconstant
  cases hn.symm.trans hm
  exact hkind

theorem wellMarked (h : Explains g f) (hguarded : n.IsGuarded) (hid : g.Owns f.scope id)
    (hn : g.node? id = some n) (hscope : n.scope = some f.scope) : n.WellMarked := by
  constructor
  · constructor
    · intro huntaintable
      obtain ⟨hprotected, hsome⟩ := hguarded.untaintable huntaintable
      exact ⟨h.isVariable hid hn hsome, hprotected, hsome⟩
    · rintro ⟨_, hprotected, hsome⟩
      exact h.marked.untaintable id n hid hn hprotected hsome
  · exact h.source_constant hid hn
  · intro hblock
    refine Option.not_isSome_iff_eq_none.mp fun hsome => ?_
    rw [h.isVariable hid hn hsome] at hblock
    cases hblock
  · intro hnone
    rw [hscope] at hnone
    cases hnone
  · exact fun value hvalue => Constant.isWord_of_solve h.words (h.get_eq hid hn hvalue)

end Explains

/-- No constant of a program's graph stands where values come in from elsewhere. -/
theorem wellMarked_of_collect {program : Node} (h : collect program = .ok g) : g.WellMarked := by
  have hg := (collected_of_collect h).coherent
  have hscopes := (laid_of_collect h).1
  have hguarded := guarded_of_collect h
  have hcode (name : String) (hname : name ∈ g.scopeNames) :
      ∃ f ∈ functions program, f.scope = name ∧ Explains g f := by
    obtain ⟨f, hf, rfl⟩ := List.mem_map.mp (hscopes ▸ hname)
    exact ⟨f, hf, rfl, explains_of_collect h hf⟩
  -- a listed scope is the one that its code lays out
  have hscope (s : Scope) (hs : s ∈ g.scopes) : ∃ f, Explains g f ∧
      g.scope? f.scope = some s ∧ s.params = f.params ∧ s.sites = f.layout.sites := by
    obtain ⟨f, _, hname, hexplains⟩ := hcode s.name (List.mem_map_of_mem hs)
    obtain ⟨s', hs', _, hparams, _, _, hsites, _⟩ := hexplains.scope
    have hsame := Graph.scope?_of_mem hg.names hs
    rw [← hname, hs'] at hsame
    obtain rfl := Option.some.inj hsame
    exact ⟨f, hexplains, hs', hparams, hsites⟩
  constructor
  · intro id n hn
    cases hsc : n.scope with
    | none =>
      obtain ⟨rs, s, hwalk, rfl⟩ := collect_eq_ok h
      obtain ⟨_, hstands, _, _, hrecords⟩ := walkProgram_spec hwalk
      have hshared := finishAll_shared rs hstands.walked.coherent hrecords
        (fun id n hn hnone => by
          have howned := (hstands.walked.nodes id n hn).owned
          rw [hnone] at howned
          cases howned) hn hsc
      rw [hshared]
      exact wellMarked_sharedNode n.name
    | some sc =>
      obtain ⟨f, _, rfl, hexplains⟩ := hcode sc (hg.owned id n sc hn hsc)
      obtain ⟨s, hs, _⟩ := hexplains.scope
      have hid : g.Owns f.scope id :=
        ⟨s, hs, ((hg.scopes _ s hs).owns id).mpr ⟨n, hn, Graph.name_of_scope? hs ▸ hsc⟩⟩
      exact hexplains.wellMarked (hguarded id n hn) hid hn hsc
  · intro s hs id hid
    obtain ⟨f, hexplains, hs', hparams, _⟩ := hscope s hs
    have hmem : id ∈ f.layout.params := by
      simp [Function.layout, Function.inner, Region.params, Region.declare, ← hparams, hid]
    exact hexplains.isVarying ⟨s, hs', (hg.scopes _ s hs').params id hid⟩ hg
      (f.accounts.params id hmem)
  · intro s hs site hsite id hid
    obtain ⟨f, hexplains, hs', _, hsites⟩ := hscope s hs
    exact hexplains.isVarying ⟨s, hs', ((hg.scopes _ s hs').sites site hsite).results id hid⟩ hg
      (f.accounts.results site (hsites ▸ hsite) id hid)

end Execution

namespace Resolver

variable {g : Graph} {k : Int} {r r' : Resolver}

/-- The embedding of a site of the graph, be its callee complete or not. -/
def EmbedsSite (r r' : Resolver) : Prop :=
  ∃ ref site e, r.graph.site? ref = some site ∧ embed ref site r = .ok e r'

theorem EmbedsReady.embedsSite (h : EmbedsReady r r') : EmbedsSite r r' := by
  obtain ⟨ref, site, e, hsite, _, _, hembed⟩ := h
  exact ⟨ref, site, e, hsite, hembed⟩

/-- A site that was embedded was open and fits its callee. -/
theorem EmbedsSite.embeds (h : EmbedsSite r r') (hr : r.graph.Coherent) :
    ∃ ref site c f e, r.graph.scope? ref.scope = some c ∧ r.graph.scope? site.callee = some f ∧
      Embeds r ref site c f e r' := by
  obtain ⟨ref, site, e, hsite, hembed⟩ := h
  obtain ⟨c, hc, hplace⟩ := Option.bind_eq_some_iff.mp hsite
  have hspec (f : Scope) (hf : r.graph.scope? site.callee = some f) (hopen : site.resolved = false)
      (hargs : site.arguments.length = f.params.length)
      (hresults : site.results.length = f.returns.length) : Embeds r ref site c f e r' := by
    obtain ⟨e', r'', hembed', hspec⟩ := embed_spec hr hc hplace hopen hf hargs hresults
    rw [hembed] at hembed'
    cases hembed'
    exact hspec
  unfold embed at hembed
  split at hembed
  · cases hembed
  · cases hembed
  · rename_i f _ hf
    split at hembed
    · cases hembed
    · rename_i hopen
      split at hembed
      · cases hembed
      · rename_i hfits
        obtain ⟨hargs, hresults⟩ := not_or.mp hfits
        exact ⟨ref, site, c, f, e, hc, hf, hspec f hf (Bool.eq_false_iff.mpr hopen)
          (not_not.mp hargs) (not_not.mp hresults)⟩

/-- A node is old, or it is a copy of a node of the callee. -/
theorem Embeds.node?_cases {ref : SiteRef} {site : CallSite} {c f : Scope} {e : Embedding}
    (h : Embeds r ref site c f e r') (hr : r.graph.Coherent)
    (hf : r.graph.scope? site.callee = some f) {id : NodeId} {n : FlowNode}
    (hn : r'.graph.node? id = some n) :
    r.graph.node? id = some n ∨ ∃ original m, r.graph.node? original = some m ∧
      m.scope = some site.callee ∧
      n = m.copied original ref.scope s!"{site.callee}#{e.index}/{m.name}" e.index := by
  refine (h.growth.node?_cases hn).imp_right fun ⟨hid, _⟩ => ?_
  have hlt := Graph.lt_size_of_node? hn
  rw [h.size] at hlt
  have hcopies : e.copies = copyList f.nodes r.graph.size := by rw [h.embedding]
  have hmem : id ∈ e.copies.map (·.2) := by
    rw [hcopies, map_snd_copyList, List.mem_range'_1]
    exact ⟨hid, hlt⟩
  obtain ⟨⟨original, copy⟩, hentry, rfl⟩ := List.mem_map.mp hmem
  have horiginal : original ∈ f.nodes := (List.of_mem_zip (hcopies ▸ hentry)).1
  obtain ⟨m, hm, hscope⟩ := ((hr.scopes _ f hf).owns original).mp horiginal
  refine ⟨original, m, hm, hscope.trans (congrArg some (Graph.name_of_scope? hf)), ?_⟩
  exact Option.some.inj (hn.symm.trans (h.copies _ hentry m hm))

/-- A copy is marked like the node that it copies. -/
theorem wellMarked_copied {n : FlowNode} (h : n.WellMarked) (id : NodeId) (into name : String)
    (index : Int) : (n.copied id into name index).WellMarked :=
  ⟨h.untaintable, h.source, h.block, fun hnone => (nomatch hnone), h.constant⟩

/-- An embedding keeps the marks in order. -/
theorem Embeds.wellMarked {ref : SiteRef} {site : CallSite} {c f : Scope} {e : Embedding}
    (h : Embeds r ref site c f e r') (hr : r.graph.Coherent)
    (hc : r.graph.scope? ref.scope = some c) (hf : r.graph.scope? site.callee = some f)
    (hmarked : r.graph.WellMarked) : r'.graph.WellMarked := by
  have hvarying {id : NodeId} (hid : r.graph.IsVarying id) : r'.graph.IsVarying id := by
    obtain ⟨n, hn, hnone⟩ := hid
    exact ⟨n, h.growth.node? hn, hnone⟩
  -- a scope has the parameters that it had, and its sites up to the mark of being resolved
  have hscope (s' : Scope) (hs' : s' ∈ r'.graph.scopes) : ∃ s ∈ r.graph.scopes,
      s'.params = s.params ∧
        ∀ site' ∈ s'.sites, ∃ site ∈ s.sites, site'.results = site.results := by
    have hfound := Graph.scope?_of_mem h.coherent.names hs'
    by_cases hname : s'.name = ref.scope
    · obtain ⟨c', hc', hparams, _, hsites, _⟩ := h.caller
      rw [hname, hc'] at hfound
      obtain rfl := Option.some.inj hfound
      refine ⟨c, Graph.mem_scopes_of_scope? hc, hparams, fun site' hsite' => ?_⟩
      rw [hsites] at hsite'
      obtain ⟨old, hold, heq⟩ := mem_modify hsite'
      exact ⟨old, hold, by rcases heq with rfl | rfl <;> rfl⟩
    · rw [h.growth.others _ hname] at hfound
      exact ⟨s', Graph.mem_scopes_of_scope? hfound, rfl, fun site' hsite' => ⟨site', hsite', rfl⟩⟩
  constructor
  · intro id n hn
    rcases h.node?_cases hr hf hn with hold | ⟨original, m, hm, _, rfl⟩
    · exact hmarked.nodes id n hold
    · exact wellMarked_copied (hmarked.nodes original m hm) _ _ _ _
  · intro s' hs' id hid
    obtain ⟨s, hs, hparams, _⟩ := hscope s' hs'
    exact hvarying (hmarked.params s hs id (hparams ▸ hid))
  · intro s' hs' site' hsite' id hid
    obtain ⟨s, hs, _, hsites⟩ := hscope s' hs'
    obtain ⟨site, hsite, hresults⟩ := hsites site' hsite'
    exact hvarying (hmarked.results s hs site hsite id (hresults ▸ hid))

theorem wellMarked_of_run (hg : g.Coherent) (hmarked : g.WellMarked)
    (h : ReflTransGen EmbedsSite { graph := g, nextIndex := k } r) :
    r.graph.Coherent ∧ r.graph.WellMarked := by
  induction h with
  | refl => exact ⟨hg, hmarked⟩
  | tail _ hstep ih =>
    obtain ⟨hr, hmarked'⟩ := ih
    obtain ⟨_, _, _, _, _, hc, hf, hembeds⟩ := hstep.embeds hr
    exact ⟨hembeds.coherent, hembeds.wellMarked hr hc hf hmarked'⟩

theorem isTaintable_of_isVarying {id : NodeId} (hmarked : g.WellMarked) (h : g.IsVarying id) :
    Taint.isTaintable g id = true := by
  obtain ⟨n, hn, hnone⟩ := h
  refine (Taint.isTaintable_iff g id).mpr ⟨n, hn, Bool.eq_false_iff.mpr fun huntaintable => ?_⟩
  have hsome := ((hmarked.nodes id n hn).untaintable.mp huntaintable).2.2
  rw [hnone] at hsome
  cases hsome

/-- Where no variables are named, every source can be tainted. -/
theorem isTaintable_of_source {c : TaintConfig} (hmarked : g.WellMarked) {id : NodeId}
    (hid : id ∈ parameterSources c g ++ builtinSources c g) : Taint.isTaintable g id = true := by
  refine isTaintable_of_isVarying hmarked ?_
  rcases List.mem_append.mp hid with hparam | hbuiltin
  · obtain ⟨s, hs, hid⟩ := List.mem_flatMap.mp hparam
    exact hmarked.params s (List.mem_filter.mp hs).1 id hid
  · obtain ⟨_, n, hn, hmark⟩ := Taint.mem_builtinSources.mp hbuiltin
    exact ⟨n, hn, (hmarked.nodes id n hn).source hmark⟩

/-- From the graph of a program on, and whatever sites are embedded, constants
stand neither at sources nor at parameters, results of calls, blocks or memory
words; so propagation starts at every source. -/
theorem sources_kept {program : Node} (hg : Flow.collect program = .ok g)
    (h : ReflTransGen EmbedsSite { graph := g, nextIndex := k } r) :
    r.graph.WellMarked ∧ ∀ c : TaintConfig, c.namedVariables = [] →
      ∃ ids t, initialSources c r.graph = .ok ids ∧
        Taint.propagate c r.graph = .ok t (Taint.marked r.graph t.tainted) ∧ t.sources = ids := by
  obtain ⟨hr, hmarked⟩ := wellMarked_of_run (Flow.collected_of_collect hg).coherent
    (Execution.wellMarked_of_collect hg) h
  refine ⟨hmarked, fun c hc => ?_⟩
  obtain ⟨ids, hids, hmem⟩ := initialSources_unnamed hc r.graph
  obtain ⟨t, hrun, hsources, _⟩ := Taint.propagate_spec hr.wellFormed c hids
  refine ⟨ids, t, hids, hrun, ?_⟩
  rw [hsources, List.filter_eq_self]
  exact fun id hid => isTaintable_of_source hmarked ((hmem id).mp hid)

/-- A variable that starts constant and then takes a value from outside, a
constant address, and a call. -/
def reassigningProgram : Node :=
  .program "reassigning" [
    .function "f" ["p"] ["q"] (.block [.assignment ["q"]
      (.call "calldataload" [.identifier "p" {}] {}) {}] {}) {},
    .declaration ["x"] (some (.literal (.integer 5) {})) {},
    .assignment ["x"] (.call "calldataload" [.identifier "x" {}] {}) {},
    .expression (.call "sstore" [.literal (.integer 1) {}, .identifier "x" {}] {}) {},
    .assignment ["x"] (.call "f" [.identifier "x" {}] {}) {}] {}

theorem runs_reassigningProgram : (Flow.collect reassigningProgram).toOption.any fun g =>
    (embedAll [⟨mainScope, 0⟩] { graph := g }).any fun r =>
      decide ((r.graph.node? 2).map (fun n => (n.isUntaintable, n.constant)) = some (true, some 1)) &&
      decide ((initialSources {} r.graph).toOption = some [1, 5, 6, 9]) := by
  decide +kernel

theorem sources_kept_reassigningProgram :
    ∃ g r t, Flow.collect reassigningProgram = .ok g ∧
      embedAll [⟨mainScope, 0⟩] { graph := g } = some r ∧
      (r.graph.node? 2).map (fun n => (n.isUntaintable, n.constant)) = some (true, some 1) ∧
      r.graph.WellMarked ∧
      Taint.propagate {} r.graph = .ok t (Taint.marked r.graph t.tainted) ∧
      t.sources = [1, 5, 6, 9] := by
  obtain ⟨g, hg, hruns⟩ := Flow.exists_collect runs_reassigningProgram
  obtain ⟨r, hr, hchecks⟩ := (Option.any_eq_true _ _).mp hruns
  obtain ⟨haddress, hids⟩ := Bool.and_eq_true_iff.mp hchecks
  have hrun : ReflTransGen EmbedsSite { graph := g } r :=
    ReflTransGen.mono (fun _ _ h => h.embedsSite) _ _ (embedsReady_of_embedAll hr)
  obtain ⟨hmarked, hsources⟩ := sources_kept hg hrun
  obtain ⟨ids, t, hinitial, hpropagate, heq⟩ := hsources {} rfl
  have hknown := of_decide_eq_true hids
  rw [hinitial] at hknown
  exact ⟨g, r, t, hg, hr, of_decide_eq_true haddress, hmarked, hpropagate,
    heq.trans (Option.some.inj hknown)⟩

end Resolver

end YulTaint
