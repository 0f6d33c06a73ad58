import Mathlib.Tactic
import YulTaint.Proofs.CallGraph.Naming

/-!
What calls of the resolver leave as it was. A site may be embedded at any time, be
its callee complete or not. A call that fails changes nothing; one that succeeds
adds to the caller and marks its site. The one thing it may take back is a name:
if the program declares a variable under the name that a copy gets, the name
stands for the copy from then on.
-/

namespace YulTaint

/-- What a scope keeps when a callee is embedded into it. New nodes, edges and names
follow the old ones. -/
structure Scope.Grows (c c' : Scope) : Prop where
  root : c'.root = c.root
  params : c'.params = c.params
  returns : c'.returns = c.returns
  nodes : c.nodes <+: c'.nodes
  edges : c.edges ⊆ c'.edges
  names : c.names.map (·.1) <+: c'.names.map (·.1)

namespace Resolver

open Relation (ReflTransGen)

/-- An embedding adds to the caller, marks its site and takes an index. -/
structure Enlarges (r : Resolver) (ref : SiteRef) (e : Embedding) (r' : Resolver) : Prop where
  nodes : ∀ id n, r.graph.node? id = some n → r'.graph.node? id = some n
  copies : ∀ id n, r.graph.size ≤ id → r'.graph.node? id = some n → n.scope = some ref.scope
  globals : r'.graph.globals = r.graph.globals
  scopeNames : r'.graph.scopeNames = r.graph.scopeNames
  others : ∀ name, name ≠ ref.scope → r'.graph.scope? name = r.graph.scope? name
  caller : ∃ c c', r.graph.scope? ref.scope = some c ∧ r'.graph.scope? ref.scope = some c' ∧
    c.Grows c' ∧ c.Rebinds c' r.graph r'.graph ∧
    ∀ edge, edge ∈ r'.graph.edges ↔ edge ∈ r.graph.edges ∨ edge ∈ c'.edges
  sites : ∀ other, r'.graph.site? other =
    if other = ref then (r.graph.site? ref).map closeSite else r.graph.site? other
  index : e.index = r.nextIndex
  nextIndex : r'.nextIndex = r.nextIndex + 1
  embeddings : r'.embeddings = r.embeddings ++ [e]

def Attempts (r r' : Resolver) : Prop :=
  ∃ ref site, r.graph.site? ref = some site ∧
    ((∃ e, embed ref site r = .ok e r') ∨ ∃ failure, embed ref site r = .error failure r')

variable {g : Graph} {k : Int} {r r' : Resolver} {ref : SiteRef} {site : CallSite} {c f : Scope}
  {e : Embedding}

/-- An embedding leaves everything but the caller alone. -/
theorem Embeds.enlarges (h : Embeds r ref site c f e r') (hc : r.graph.scope? ref.scope = some c)
    (hplace : c.sites[ref.index]? = some site) : Enlarges r ref e r' := by
  have hsite : r.graph.site? ref = some site := (Graph.site?_of_scope? hc).trans hplace
  obtain ⟨c', hc', hparams, hreturns, _, _⟩ := h.caller
  obtain ⟨c'', hc'', hroot, hnodes, hsub, hall⟩ := h.growth.scope c hc
  cases hc'.symm.trans hc''
  refine
    { nodes := fun _ _ => h.growth.node?
      copies := fun id n hid hn => (h.growth.new id n hid hn).1
      globals := h.growth.globals
      scopeNames := h.growth.scopeNames
      others := h.growth.others
      caller := ⟨c, c', hc, hc', ?_, h.names c' hc', hall⟩
      sites := fun other => by rw [h.site?_eq hc hplace, hsite, Option.map_some]
      index := by rw [h.embedding]
      nextIndex := h.nextIndex
      embeddings := h.embeddings }
  refine ⟨hroot, hparams, hreturns, hnodes ▸ List.prefix_append _ _, hsub, ?_⟩
  rw [h.table c' hc']
  exact keys_prefix_bindNames _ _

/-- A site that is resolved already is refused. -/
theorem Unfolds.embed_resolved (h : Unfolds g r) (hg : g.Collected)
    (hsite : r.graph.site? ref = some site) (hresolved : site.resolved = true) :
    embed ref site r = .error
      (.fault { cause := .internal (.embeddedTwice site.caller site.callee) }) r := by
  obtain ⟨c, hc, hplace⟩ := Option.bind_eq_some_iff.mp hsite
  have hmem := List.mem_of_getElem? hplace
  obtain ⟨f, hf, _⟩ := h.fits hg hc hmem
  have hcaller : site.caller = ref.scope :=
    ((h.coherent.scopes _ c hc).sites site hmem).caller.trans (Graph.name_of_scope? hc)
  unfold embed
  simp only [hcaller, hc, hf, hresolved, if_true]

/-- An open site is embedded, be its callee complete or not. -/
theorem Unfolds.embed_open (h : Unfolds g r) (hg : g.Collected)
    (hsite : r.graph.site? ref = some site) (hopen : site.resolved = false) :
    ∃ c f e r', embed ref site r = .ok e r' ∧ r.graph.scope? ref.scope = some c ∧
      c.sites[ref.index]? = some site ∧ r.graph.scope? site.callee = some f ∧
      Embeds r ref site c f e r' := by
  obtain ⟨c, hc, hplace⟩ := Option.bind_eq_some_iff.mp hsite
  obtain ⟨f, hf, hargs, hresults⟩ := h.fits hg hc (List.mem_of_getElem? hplace)
  obtain ⟨e, r', hembed, hembeds⟩ := embed_spec h.coherent hc hplace hopen hf hargs hresults
  exact ⟨c, f, e, r', hembed, hc, hplace, hf, hembeds⟩

/-- A call that fails leaves the resolver as it was. -/
theorem Unfolds.attempts (h : Unfolds g r) (hg : g.Collected) (hattempt : Attempts r r') :
    r' = r ∨ EmbedsSite r r' := by
  obtain ⟨ref, site, hsite, hrun⟩ := hattempt
  rcases hrun with ⟨e, hembed⟩ | ⟨failure, hembed⟩
  · exact Or.inr ⟨ref, site, e, hsite, hembed⟩
  · cases hresolved : site.resolved with
    | true =>
      rw [h.embed_resolved hg hsite hresolved] at hembed
      cases hembed
      exact Or.inl rfl
    | false =>
      obtain ⟨_, _, _, _, hok, _⟩ := h.embed_open hg hsite hresolved
      rw [hok] at hembed
      cases hembed

/-- With sites left and none ready, a step reports recursion. -/
theorem Unfolds.step_stuck (h : Unfolds g r) (hg : g.Collected)
    (hleft : ∃ ref site, r.graph.site? ref = some site ∧ site.resolved = false)
    (hstuck : ∀ ref site, r.graph.site? ref = some site → site.resolved = false →
      ¬ r.graph.IsResolved site.callee) :
    ∃ names, step r = .error (.fault { cause := .recursion names }) r := by
  have hscopes := h.coherent.names
  have hcallee (a b : String) (hab : r.graph.OpenCalls a b) : ∃ s, r.graph.scope? b = some s := by
    obtain ⟨s, hs, site, hsite, _, rfl⟩ := hab
    obtain ⟨f, hf, _⟩ := h.fits hg hs hsite
    exact ⟨f, hf⟩
  have hpending : pending r.graph ≠ [] := by
    obtain ⟨ref, site, hsite, hopen⟩ := hleft
    exact List.ne_nil_of_mem ((mem_pending hscopes).mpr ⟨hsite, hopen⟩ : (ref, site) ∈ _)
  obtain ⟨names, hnames, _⟩ := recursiveFunctions_spec hcallee
  refine ⟨names, ?_⟩
  have hready := firstReady_spec r.graph (pending r.graph) fun entry hentry => by
    obtain ⟨s, hs, hindex, _⟩ := mem_pending_scope hscopes hentry
    obtain ⟨f, hf, _⟩ := h.fits hg hs (List.mem_of_getElem? hindex)
    exact ⟨f, hf⟩
  rcases hready with ⟨ref, site, f, _, hmem, hf, hresolved⟩ | ⟨hnone, _⟩
  · obtain ⟨hsite, hopen⟩ := (mem_pending hscopes).mp hmem
    refine absurd (fun s hs => ?_) (hstuck ref site hsite hopen)
    cases hf.symm.trans hs
    exact hresolved
  · unfold step isDone
    rw [if_neg (by simpa using hpending)]
    simp only [nextEligible, hnone, hnames]

theorem unfolds_of_run (hg : g.Collected)
    (h : ReflTransGen EmbedsSite { graph := g, nextIndex := k } r) : Unfolds g r := by
  induction h with
  | refl => exact unfolds_start hg k
  | tail _ hstep ih =>
    obtain ⟨_, _, _, _, _, hc, _, hembeds⟩ := hstep.embeds ih.coherent
    exact ih.embeds hembeds hc

theorem embedsSite_of_attempts (hg : g.Collected)
    (h : ReflTransGen Attempts { graph := g, nextIndex := k } r) :
    ReflTransGen EmbedsSite { graph := g, nextIndex := k } r := by
  induction h with
  | refl => exact .refl
  | tail _ hattempt ih =>
    rcases (unfolds_of_run hg ih).attempts hg hattempt with rfl | hstep
    · exact ih
    · exact ih.tail hstep

/-- After any calls of `embed` on sites of an accepted program, in any order: a site
that is resolved is refused, and a step that finds sites but none ready is too, and
both leave the resolver as it was; an open site is embedded, which changes nothing
but the caller and the site's mark, and only adds to the caller, except that a
declared name with a slash may come to stand for a copy. -/
theorem calls_frame {program : Node} (hg : Flow.collect program = .ok g)
    (h : ReflTransGen Attempts { graph := g, nextIndex := k } r) :
    (∀ ref site, r.graph.site? ref = some site → site.resolved = true →
      embed ref site r = .error
        (.fault { cause := .internal (.embeddedTwice site.caller site.callee) }) r) ∧
    (∀ ref site, r.graph.site? ref = some site → site.resolved = false →
      ∃ e r', embed ref site r = .ok e r' ∧ Enlarges r ref e r' ∧
        ((∀ name ∈ program.variables, Slashless name) →
          ∀ c c', r.graph.scope? ref.scope = some c → r'.graph.scope? ref.scope = some c' →
            c.names <+: c'.names)) ∧
    ((∃ ref site, r.graph.site? ref = some site ∧ site.resolved = false) →
      (∀ ref site, r.graph.site? ref = some site → site.resolved = false →
        ¬ r.graph.IsResolved site.callee) →
      ∃ names, step r = .error (.fault { cause := .recursion names }) r) := by
  have hcollected := Flow.collected_of_collect hg
  have hrun := embedsSite_of_attempts hcollected h
  have hunfolds := unfolds_of_run hcollected hrun
  refine ⟨fun ref site hsite hresolved => hunfolds.embed_resolved hcollected hsite hresolved,
    fun ref site hsite hopen => ?_, hunfolds.step_stuck hcollected⟩
  obtain ⟨c, f, e, r', hembed, hc, hplace, hf, hembeds⟩ :=
    hunfolds.embed_open hcollected hsite hopen
  refine ⟨e, r', hembed, hembeds.enlarges hc hplace, fun hnames d c' hd hc' => ?_⟩
  cases hc.symm.trans hd
  obtain ⟨hr, hlabelled, callee, hmarked⟩ := labelled_of_run hcollected.coherent
    (Flow.labelled_of_collect hg)
    (fun _ _ _ hn hscope hkind => Flow.slashless_of_collect hnames hg hn hscope hkind) hrun
  rw [hembeds.names_eq hr hc hf hlabelled hmarked hc']
  exact List.prefix_append _ _

def attempt (r : Resolver) (ref : SiteRef) : Resolver :=
  match r.graph.site? ref with
  | none => r
  | some site =>
    match embed ref site r with
    | .ok _ r' => r'
    | .error _ r' => r'

theorem attempts_foldl (refs : List SiteRef) (r : Resolver) :
    ReflTransGen Attempts r (refs.foldl attempt r) := by
  induction refs generalizing r with
  | nil => exact .refl
  | cons ref rest ih =>
    rw [List.foldl_cons]
    cases hsite : r.graph.site? ref with
    | none =>
      have hidle : attempt r ref = r := by rw [attempt, hsite]
      exact hidle.symm ▸ ih r
    | some site =>
      refine .head ⟨ref, site, hsite, ?_⟩ (ih (attempt r ref))
      unfold attempt
      simp only [hsite]
      cases embed ref site r with
      | ok e r' => exact Or.inl ⟨e, rfl⟩
      | error failure r' => exact Or.inr ⟨failure, rfl⟩

/-- A function that calls itself, called twice. -/
def loopingProgram : Node :=
  .program "looping" [
    .function "f" [] [] (.block [.expression (.call "f" [] {}) {}] {}) {},
    .expression (.call "f" [] {}) {},
    .expression (.call "f" [] {}) {}] {}

/-- The first call is embedded though its callee is incomplete, and then tried again. -/
def loopingCalls (g : Graph) : Resolver :=
  [⟨mainScope, 0⟩, ⟨mainScope, 0⟩].foldl attempt { graph := g, nextIndex := 3 }

theorem runs_loopingProgram : (Flow.collect loopingProgram).toOption.any fun g =>
    ((loopingCalls g).graph.site? ⟨mainScope, 0⟩).any (·.resolved) &&
      ((loopingCalls g).graph.site? ⟨mainScope, 1⟩).any (!·.resolved) &&
      (pending (loopingCalls g).graph).all fun entry =>
        ((loopingCalls g).graph.scope? entry.2.callee).any (!·.isResolved) := by
  decide +kernel

theorem calls_frame_loopingProgram :
    ∃ g r refused site e r' names, Flow.collect loopingProgram = .ok g ∧
      ReflTransGen Attempts { graph := g, nextIndex := 3 } r ∧
      r.graph.site? ⟨mainScope, 0⟩ = some refused ∧
      embed ⟨mainScope, 0⟩ refused r = .error (.fault
        { cause := .internal (.embeddedTwice refused.caller refused.callee) }) r ∧
      r.graph.site? ⟨mainScope, 1⟩ = some site ∧ embed ⟨mainScope, 1⟩ site r = .ok e r' ∧
      Enlarges r ⟨mainScope, 1⟩ e r' ∧
      step r = .error (.fault { cause := .recursion names }) r := by
  obtain ⟨g, hg, hruns⟩ := Flow.exists_collect runs_loopingProgram
  obtain ⟨hsites, hpending⟩ := Bool.and_eq_true_iff.mp hruns
  obtain ⟨hfirst, hsecond⟩ := Bool.and_eq_true_iff.mp hsites
  obtain ⟨refused, hrefused, hresolved⟩ := (Option.any_eq_true _ _).mp hfirst
  obtain ⟨site, hsite, hopen⟩ := (Option.any_eq_true _ _).mp hsecond
  have hopen : site.resolved = false := by simpa using hopen
  have hcalls : ReflTransGen Attempts { graph := g, nextIndex := 3 } (loopingCalls g) :=
    attempts_foldl _ _
  obtain ⟨hrefuses, hembeds, hstops⟩ := calls_frame hg hcalls
  have hscopes := (unfolds_of_run (Flow.collected_of_collect hg)
    (embedsSite_of_attempts (Flow.collected_of_collect hg) hcalls)).coherent.names
  have hstuck (ref : SiteRef) (other : CallSite)
      (hother : (loopingCalls g).graph.site? ref = some other) (hleft : other.resolved = false) :
      ¬ (loopingCalls g).graph.IsResolved other.callee := by
    intro hcomplete
    have hmem : (ref, other) ∈ pending (loopingCalls g).graph :=
      (mem_pending hscopes).mpr ⟨hother, hleft⟩
    obtain ⟨f, hf, hincomplete⟩ :=
      (Option.any_eq_true _ _).mp (List.all_eq_true.mp hpending _ hmem)
    rw [hcomplete f hf] at hincomplete
    cases hincomplete
  obtain ⟨names, hstep⟩ := hstops ⟨_, site, hsite, hopen⟩ hstuck
  obtain ⟨e, r', hembed, henlarges, _⟩ := hembeds _ site hsite hopen
  exact ⟨g, loopingCalls g, refused, site, e, r', names, hg, hcalls, hrefused,
    hrefuses _ refused hrefused hresolved, hsite, hembed, henlarges, hstep⟩

/-- A variable under the name that a copy of another one gets. -/
def shadowedProgram : Node :=
  .program "shadowed" [
    .function "f" [] [] (.block [.declaration ["x"] none {}] {}) {},
    .declaration ["f#0/x"] none {},
    .expression (.call "f" [] {}) {}] {}

def mainVariable (g : Graph) (name : String) : Option NodeId :=
  (g.scope? mainScope).bind (·.lookup? name)

theorem runs_shadowedProgram : (Flow.collect shadowedProgram).toOption.any fun g =>
    (g.site? ⟨mainScope, 0⟩).any fun site =>
      match embed ⟨mainScope, 0⟩ site { graph := g } with
      | .ok _ r => decide (mainVariable g "f#0/x" = some 1 ∧ mainVariable r.graph "f#0/x" = some 5)
      | .error _ _ => false := by
  decide +kernel

/-- An embedding may take a name away from a variable of the caller. -/
theorem exists_rebound_name :
    ∃ g site e r, Flow.collect shadowedProgram = .ok g ∧ g.site? ⟨mainScope, 0⟩ = some site ∧
      embed ⟨mainScope, 0⟩ site { graph := g } = .ok e r ∧
      mainVariable g "f#0/x" = some 1 ∧ mainVariable r.graph "f#0/x" = some 5 := by
  obtain ⟨g, hg, hruns⟩ := Flow.exists_collect runs_shadowedProgram
  obtain ⟨site, hsite, hembeds⟩ := (Option.any_eq_true _ _).mp hruns
  split at hembeds
  · rename_i e r hembed
    obtain ⟨hbefore, hafter⟩ := of_decide_eq_true hembeds
    exact ⟨g, site, e, r, hg, hsite, hembed, hbefore, hafter⟩
  · cases hembeds

end Resolver

end YulTaint
