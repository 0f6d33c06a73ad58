import Mathlib.Tactic
import YulTaint.Proofs.CallGraph.Representation
import YulTaint.Proofs.Flow.Protected
import YulTaint.Proofs.Taint.Paths
import YulTaint.Proofs.Taint.Sources

/-!
What is reported of a program. Every node of the resolved graph goes back, over
one copy for each embedding, to a node that the program declares, and carries
its marks, its place and the scopes between. So the violations are the tainted
copies of storage addresses that are not constant, and each of them can be read
back to the access that the program makes.
-/

namespace YulTaint

open Relation (ReflTransGen)

namespace Graph

/-- A node that goes back to a declared one over a number of copies. -/
inductive Descends (g : Graph) : Nat → NodeId → NodeId → Prop
  | declared {id : NodeId} {n : FlowNode} (hn : g.node? id = some n) (hnone : n.origin = none) :
      Descends g 0 id id
  | copy {links : Nat} {id o d : NodeId} (hcopied : g.CopiedFrom id o)
      (hrest : Descends g links o d) : Descends g (links + 1) id d

variable {g g' : Graph} {links : Nat} {id d : NodeId}

theorem Descends.declared_eq (h : g.Descends links id d)
    (horigins : ∀ id o, g.CopiedFrom id o → o < id) : g.declared id = d := by
  induction h with
  | declared hn hnone => exact declared_of_none hn hnone
  | copy hcopied _ ih =>
    have hlt := horigins _ _ hcopied
    obtain ⟨n, hn, ho⟩ := hcopied
    rw [declared_of_origin hn ho hlt, ih]

/-- Nodes that keep their origin keep what they go back to. -/
theorem Descends.mono (h : g.Descends links id d)
    (hkeep : ∀ id n, g.node? id = some n → ∃ n', g'.node? id = some n' ∧ n'.origin = n.origin) :
    g'.Descends links id d := by
  induction h with
  | declared hn hnone =>
    obtain ⟨n', hn', ho⟩ := hkeep _ _ hn
    exact .declared hn' (ho.trans hnone)
  | copy hcopied _ ih =>
    obtain ⟨n, hn, ho⟩ := hcopied
    obtain ⟨n', hn', ho'⟩ := hkeep _ _ hn
    exact .copy ⟨n', hn', ho'.trans ho⟩ ih

end Graph

/-- What a node has from the one that it goes back to, and the scopes between
the two. -/
structure FlowNode.Inherits (n m : FlowNode) (links : Nat) : Prop extends n.Resembles m where
  head : n.callChain.head? = n.scope
  last : n.callChain.getLast? = m.scope
  length : n.callChain.length = links + m.scope.toList.length

theorem FlowNode.Inherits.copied {n m : FlowNode} {links : Nat} (h : n.Inherits m links)
    (hscope : n.scope ≠ none) (id : NodeId) (into name : String) (index : Int) :
    (n.copied id into name index).Inherits m (links + 1) := by
  refine ⟨⟨h.kind, h.constant, h.isUntaintable, h.isProtected, h.isSource, h.loc⟩, rfl, ?_, ?_⟩
  · rw [← h.last]
    refine List.getLast?_cons_of_ne_nil fun hnil => hscope ?_
    rw [← h.head, hnil]
    rfl
  · change n.callChain.length + 1 = _
    rw [h.length]
    omega

namespace Resolver

variable {g : Graph} {k : Int} {r r' : Resolver}

/-- The nodes of a program's graph are there, and all nodes go back to them. -/
structure Derived (g : Graph) (r : Resolver) : Prop where
  coherent : r.graph.Coherent
  old : ∀ id n, g.node? id = some n → r.graph.node? id = some n
  nodes : ∀ id n, r.graph.node? id = some n →
    ∃ links d m, r.graph.Descends links id d ∧ g.node? d = some m ∧ n.Inherits m links

theorem derived_start (hg : g.Collected) (k : Int) : Derived g { graph := g, nextIndex := k } := by
  refine ⟨hg.coherent, fun _ _ hn => hn, fun id n hn => ?_⟩
  obtain ⟨horigin, _, hchain⟩ := hg.nodes id n hn
  refine ⟨0, id, n, .declared hn horigin, hn, ⟨rfl, rfl, rfl, rfl, rfl, rfl⟩, ?_, ?_, ?_⟩
  · rw [hchain]
    cases n.scope <;> rfl
  · rw [hchain]
    cases n.scope <;> rfl
  · rw [hchain, Nat.zero_add]

/-- An embedding adds nodes that go back to declared ones. -/
theorem Derived.embeds {ref : SiteRef} {site : CallSite} {c f : Scope} {e : Embedding}
    (h : Derived g r) (hembeds : Embeds r ref site c f e r')
    (hf : r.graph.scope? site.callee = some f) : Derived g r' := by
  have hkeep (id : NodeId) (n : FlowNode) (hn : r.graph.node? id = some n) :
      r'.graph.node? id = some n := hembeds.growth.node? hn
  have hdescends {links : Nat} {id d : NodeId} (hid : r.graph.Descends links id d) :
      r'.graph.Descends links id d := hid.mono fun id n hn => ⟨n, hkeep id n hn, rfl⟩
  refine ⟨hembeds.coherent, fun id n hn => hkeep id n (h.old id n hn), fun id n hn => ?_⟩
  rcases hembeds.node?_cases h.coherent hf hn with hold | ⟨original, o, ho, hscope, rfl⟩
  · obtain ⟨links, d, m, hid, hd, hinherits⟩ := h.nodes id n hold
    exact ⟨links, d, m, hdescends hid, hd, hinherits⟩
  · obtain ⟨links, d, m, horiginal, hd, hinherits⟩ := h.nodes original o ho
    refine ⟨links + 1, d, m, .copy ⟨_, hn, rfl⟩ (hdescends horiginal), hd, ?_⟩
    exact hinherits.copied (by simp [hscope]) _ _ _ _

theorem derived_of_run (hg : g.Collected)
    (h : ReflTransGen EmbedsSite { graph := g, nextIndex := k } r) : Derived g r := by
  induction h with
  | refl => exact derived_start hg k
  | tail _ hstep ih =>
    obtain ⟨_, _, _, _, _, _, hf, hembeds⟩ := hstep.embeds ih.coherent
    exact ih.embeds hembeds hf

end Resolver

namespace Execution

open YulTaint.Flow

variable {program : Node} {g : Graph} {id : NodeId} {n : FlowNode}

def IsStorageAddress (program : Node) (id : NodeId) : Prop :=
  ∃ f ∈ functions program, ∃ a ∈ f.layout.applications, a.UsesAddress id

theorem IsStorageAddress.isVariable (h : IsStorageAddress program id)
    (hg : collect program = .ok g) (hn : g.node? id = some n) : n.kind = .var := by
  obtain ⟨f, hf, a, ha, _, hhead⟩ := h
  obtain ⟨_, m, hm, hkind⟩ :=
    (explains_of_collect hg hf).operands a ha id (List.mem_of_mem_head? hhead)
  cases hn.symm.trans hm
  exact hkind

/-- Storage addresses and no other nodes are protected. -/
theorem isProtected_iff (hg : collect program = .ok g) (hn : g.node? id = some n) :
    n.isProtected = true ↔ IsStorageAddress program id := by
  constructor
  · intro hprotected
    obtain ⟨rs, s, hwalk, rfl⟩ := collect_eq_ok hg
    obtain ⟨r, hr, a, ha, huses⟩ := usesAddress_of_isProtected hwalk hn hprotected
    obtain ⟨f, hf, hlays⟩ := exists_of_mem_right (walkProgram_lays hwalk) hr
    rw [hlays.record] at ha
    exact ⟨f, hf, a, ha, huses⟩
  · rintro ⟨f, hf, a, ha, haccess, hhead⟩
    have happlied := ((laid_of_collect hg).2 f hf).applied a ha
    have hzero : 0 ∈ (effectOf g a).addresses := by
      rw [effectOf, Builtin.addresses_effectFor, haccess]
      exact List.mem_singleton_self 0
    obtain ⟨m, hm, hprotected⟩ := happlied.addresses 0 hzero
    rw [List.getD_eq_getElem?_getD, ← List.head?_eq_getElem?, hhead, Option.getD_some] at hm
    cases hn.symm.trans hm
    exact hprotected

end Execution

namespace Taint

/-- The graph after a propagation that succeeds. -/
theorem marked_of_propagate {g g' : Graph} (hg : g.WellFormed) {c : TaintConfig} {t : Taint}
    (h : propagate c g = .ok t g') :
    g' = marked g t.tainted ∧ ∀ id ∈ t.tainted, CanTaint g id := by
  obtain ⟨ids, hids, _⟩ := propagate_eq_ok h
  obtain ⟨t', hrun, _, hreach⟩ := propagate_spec hg c hids
  rw [h] at hrun
  cases hrun
  exact ⟨rfl, fun id hid => ((hreach id).mp hid).canTaint⟩

theorem node?_marked_of_some {g : Graph} (ids : List NodeId) {id : NodeId} {n : FlowNode}
    (hn : g.node? id = some n) :
    (marked g ids).node? id = some { n with isTainted := ids.contains id } := by
  rw [node?_marked, hn, Option.map_some]

end Taint

namespace Violation

/-- What a violation says of a tainted node: the name and the place of the node
that it goes back to, the scopes between the two, and a way for taint to come. -/
structure Describes (v : Violation) (g : Graph) (t : Taint) (id : NodeId) : Prop where
  node : v.node = id
  original : ∃ links d m, g.Descends links id d ∧ g.node? d = some m ∧
    v.variableName = m.name ∧ v.loc = m.loc ∧ v.scopeChain.getLast? = m.scope ∧
    v.scopeChain.length = links + 1
  scope : ∃ n, g.node? id = some n ∧ v.scopeChain.head? = n.scope
  path : v.taintPath ≠ [] ∧ v.taintPath.getLast? = some v.variableName
  source : ∃ s ∈ t.sources, ∃ links d m, g.Descends links s d ∧ g.node? d = some m ∧
    v.taintPath.head? = some m.name

/-- What a violation tells of its node. -/
theorem ofNode_eq_ok {g : Graph} {t : Taint} {id : NodeId} {v : Violation}
    (h : ofNode g (some t) id = .ok v) :
    ∃ n, g.node? id = some n ∧ v.node = id ∧ v.scopeChain = n.callChain ∧ v.loc = n.loc ∧
      declaredName g id = .ok v.variableName ∧
      (t.pathTo id).mapM (declaredName g) = .ok v.taintPath := by
  unfold ofNode at h
  cases hn : g.node? id with
  | none =>
    rw [hn] at h
    cases h
  | some n =>
    simp only [hn, bind, Except.bind] at h
    cases hname : declaredName g id with
    | error missing =>
      rw [hname] at h
      cases h
    | ok name =>
      simp only [hname] at h
      split at h
      · cases h
      · cases hpath : (t.pathTo id).mapM (declaredName g) with
        | error missing =>
          rw [hpath] at h
          cases h
        | ok path =>
          rw [hpath] at h
          cases h
          exact ⟨n, rfl, rfl, rfl, rfl, rfl, rfl⟩

theorem exists_head_of_forall₂ {α β : Type} {R : α → β → Prop} {as : List α} {bs : List β}
    (h : List.Forall₂ R as bs) {a : α} (ha : as.head? = some a) :
    ∃ b, bs.head? = some b ∧ R a b := by
  cases h with
  | nil => cases ha
  | cons hab _ =>
    cases ha
    exact ⟨_, rfl, hab⟩

theorem exists_last_of_forall₂ {α β : Type} {R : α → β → Prop} {as : List α} {bs : List β}
    (h : List.Forall₂ R as bs) {a : α} (ha : as.getLast? = some a) :
    ∃ b, bs.getLast? = some b ∧ R a b := by
  rw [List.getLast?_eq_head?_reverse] at ha ⊢
  exact exists_head_of_forall₂ (List.rel_reverse h) ha

end Violation

namespace Resolver

open YulTaint.Taint (marked node?_marked declared_marked)

open YulTaint.Violation (declaredName)

variable {g : Graph} {r : Resolver} {t : Taint} {id : NodeId} {n : FlowNode}

theorem Derived.origins (h : Derived g r) (id o : NodeId) (hid : r.graph.CopiedFrom id o) :
    o < id := by
  obtain ⟨n, hn, ho⟩ := hid
  exact h.coherent.origins id n o hn ho

/-- Every node has a name that the program declares, marks of taint or not. -/
theorem Derived.declares (h : Derived g r) (ids : List NodeId) (hn : r.graph.node? id = some n) :
    ∃ links d m, (marked r.graph ids).Descends links id d ∧ g.node? d = some m ∧
      (marked r.graph ids).node? d = some { m with isTainted := ids.contains d } ∧
      n.Inherits m links ∧ declaredName (marked r.graph ids) id = .ok m.name := by
  obtain ⟨links, d, m, hdescends, hd, hinherits⟩ := h.nodes id n hn
  have hd' := Taint.node?_marked_of_some ids (h.old d m hd)
  refine ⟨links, d, m, hdescends.mono ?_, hd, hd', hinherits, ?_⟩
  · exact fun id n hn => ⟨_, Taint.node?_marked_of_some ids hn, rfl⟩
  · rw [declaredName, declared_marked, hdescends.declared_eq h.origins, hd']

/-- A node of the marked graph goes back to one node only. -/
theorem Derived.unique (h : Derived g r) {ids : List NodeId} {links links' : Nat} {d d' : NodeId}
    (hid : (marked r.graph ids).Descends links id d)
    (hid' : (marked r.graph ids).Descends links' id d') : d = d' := by
  have horigins (id o : NodeId) (hid : (marked r.graph ids).CopiedFrom id o) : o < id := by
    obtain ⟨n, hn, ho⟩ := hid
    rw [node?_marked] at hn
    obtain ⟨m, hm, rfl⟩ := Option.map_eq_some_iff.mp hn
    exact h.origins id o ⟨m, hm, ho⟩
  rw [← hid.declared_eq horigins, hid'.declared_eq horigins]

/-- The violation at a storage address. -/
theorem Derived.describes (h : Derived g r) (hguarded : g.Guarded)
    (htraces : Taint.Traces r.graph t) (hid : id ∈ t.tainted) (hn : r.graph.node? id = some n)
    (hprotected : n.isProtected = true) {v : Violation}
    (hv : Violation.ofNode (marked r.graph t.tainted) (some t) id = .ok v) :
    v.Describes (marked r.graph t.tainted) t id := by
  have hmarked := Taint.node?_marked_of_some t.tainted hn
  obtain ⟨n', hn', hnode, hchain, hloc, hname, hpath⟩ := Violation.ofNode_eq_ok hv
  obtain rfl := Option.some.inj (hmarked.symm.trans hn')
  obtain ⟨links, d, m, hdescends, hd, hd', hinherits, hdeclared⟩ := h.declares t.tainted hn
  have hvariable : v.variableName = m.name := Except.ok.inj (hname.symm.trans hdeclared)
  have hscope : m.scope ≠ none := (hguarded d m hd).address (hinherits.isProtected ▸ hprotected)
  obtain ⟨sc, hsc⟩ := Option.ne_none_iff_exists'.mp hscope
  -- the names along the path are those of its nodes, the first and the last among them
  rw [Taint.pathTo_of_tainted hid] at hpath
  have hnames := mapM_eq_ok_iff.mp hpath
  have htrail := htraces.paths id hid
  obtain ⟨s, hs, hstart⟩ := htrail.start
  obtain ⟨first, hfirst, hsource⟩ := Violation.exists_head_of_forall₂ hnames hstart
  obtain ⟨last, hlast, hend⟩ := Violation.exists_last_of_forall₂ hnames htrail.ends
  obtain ⟨o, ho, _⟩ := htrail.enters s (List.mem_of_mem_head? hstart)
  obtain ⟨links', d', m', hdescends', _, hm', _, hdeclared'⟩ := h.declares t.tainted ho
  rw [hname] at hend
  rw [hdeclared'] at hsource
  cases hend
  cases hsource
  constructor
  · exact hnode
  · refine ⟨links, d, _, hdescends, hd', hvariable, hloc.trans hinherits.loc, ?_, ?_⟩
    · rw [hchain]
      exact hinherits.last
    · rw [hchain]
      exact hinherits.length.trans (by rw [hsc]; rfl)
  · refine ⟨_, hmarked, ?_⟩
    rw [hchain]
    exact hinherits.head
  · refine ⟨fun hnil => ?_, hlast⟩
    rw [hnil] at hlast
    cases hlast
  · exact ⟨s, hs, links', d', _, hdescends', hm', hfirst⟩

/-- The tainted addresses are the tainted copies of storage addresses that are
not constant. -/
theorem Derived.mem_taintedAddresses {program : Node} (h : Derived g r)
    (hg : Flow.collect program = .ok g) (hmarked : r.graph.WellMarked)
    (htainted : ∀ id ∈ t.tainted, Taint.CanTaint r.graph id) :
    id ∈ Violation.taintedAddresses (marked r.graph t.tainted) ↔
      (∃ n, (marked r.graph t.tainted).node? id = some n ∧ n.isTainted = true) ∧
        ∃ links d m, (marked r.graph t.tainted).Descends links id d ∧
          Execution.IsStorageAddress program d ∧
          (marked r.graph t.tainted).node? d = some m ∧ m.constant = none := by
  rw [Violation.mem_taintedAddresses]
  constructor
  · rintro ⟨hid, n, hn, hkind, hprotected⟩
    obtain ⟨links, d, m, hdescends, hd, hd', hinherits, _⟩ := h.declares t.tainted hn
    refine ⟨⟨_, Taint.node?_marked_of_some t.tainted hn, List.contains_iff_mem.mpr hid⟩, links, d, _,
      hdescends, (Execution.isProtected_iff hg hd).mp (hinherits.isProtected ▸ hprotected), hd', ?_⟩
    obtain ⟨n', hn', hfree⟩ := htainted id hid
    cases hn.symm.trans hn'
    -- a protected constant would be untaintable
    refine Option.not_isSome_iff_eq_none.mp fun hsome => ?_
    rw [(hmarked.nodes id n hn).untaintable.mpr ⟨hkind, hprotected, hinherits.constant ▸ hsome⟩]
      at hfree
    cases hfree
  · rintro ⟨⟨n', hn', hmark⟩, links, d, m', hdescends, haddress, _⟩
    rw [node?_marked] at hn'
    obtain ⟨n, hn, rfl⟩ := Option.map_eq_some_iff.mp hn'
    obtain ⟨_, d', m, hdescends', hd, _, hinherits, _⟩ := h.declares t.tainted hn
    obtain rfl := h.unique hdescends hdescends'
    exact ⟨List.contains_iff_mem.mp hmark, n, hn, hinherits.kind.trans (haddress.isVariable hg hd),
      hinherits.isProtected.trans ((Execution.isProtected_iff hg hd).mpr haddress)⟩

theorem Derived.callChain_ne_nil (h : Derived g r) (hguarded : g.Guarded)
    (hn : r.graph.node? id = some n) (hprotected : n.isProtected = true) : n.callChain ≠ [] := by
  obtain ⟨links, d, m, _, hd, hinherits⟩ := h.nodes id n hn
  intro hnil
  have hlast := hinherits.last
  rw [hnil] at hlast
  exact (hguarded d m hd).address (hinherits.isProtected ▸ hprotected) hlast.symm

/-- Of a program without recursion every run of resolution, propagation and check
ends, and what is reported are the tainted nodes that are, or are copies of,
storage addresses which are not constant: each once, in the order of the arena,
with the name, the scopes and the place of what it is a copy of and with a way
for taint to come from a source. -/
theorem violations_exact {program : Node} {g : Graph} (hg : Flow.collect program = .ok g)
    (hacyclic : ∀ f, ¬ g.IsRecursive f) (k : Int) :
    ∃ r, resolve { graph := g, nextIndex := k } = .ok () r ∧
      ∀ c t g', Taint.propagate c r.graph = .ok t g' →
        ∃ ids vs, ids.Pairwise (· < ·) ∧
          (∀ id, id ∈ ids ↔ (∃ n, g'.node? id = some n ∧ n.isTainted = true) ∧
            ∃ links d m, g'.Descends links id d ∧ Execution.IsStorageAddress program d ∧
              g'.node? d = some m ∧ m.constant = none) ∧
          List.Forall₂ (fun id v => v.Describes g' t id) ids vs ∧
          ∀ c' : TaintConfig, Violation.check c' g' (some t) =
            .ok (if c'.stopAtFirst then vs.take 1 else vs) := by
  have hcollected := Flow.collected_of_collect hg
  have hguarded := Flow.guarded_of_collect hg
  obtain ⟨r, hresolve, hcompletes⟩ := exists_completes hcollected hacyclic k
  have hrun : ReflTransGen EmbedsSite { graph := g, nextIndex := k } r :=
    ReflTransGen.mono (fun _ _ h => h.embedsSite) _ _ hcompletes.run
  have hderived := derived_of_run hcollected hrun
  obtain ⟨hcoh, hmarked⟩ :=
    wellMarked_of_run hcollected.coherent (Execution.wellMarked_of_collect hg) hrun
  refine ⟨r, hresolve, fun c t g' hpropagate => ?_⟩
  have htraces := Taint.propagate_traces hcoh.wellFormed hpropagate
  obtain ⟨rfl, htainted⟩ := Taint.marked_of_propagate hcoh.wellFormed hpropagate
  obtain ⟨vs, _, _, hcheck⟩ := Violation.check_spec
    (Taint.propagate_parents hcoh.wellFormed hpropagate)
    fun id n hn hprotected => hderived.callChain_ne_nil hguarded hn hprotected
  refine ⟨Violation.taintedAddresses (marked r.graph t.tainted), vs,
    (List.pairwise_lt_range.filter _).filter _,
    fun id => hderived.mem_taintedAddresses hg hmarked htainted, ?_, hcheck⟩
  have hall : List.Forall₂ (fun id v =>
      Violation.ofNode (marked r.graph t.tainted) (some t) id = .ok v)
      (Violation.taintedAddresses (marked r.graph t.tainted)) vs :=
    mapM_eq_ok_iff.mp (hcheck { stopAtFirst := false })
  refine ((List.forall₂_and_left _ _).mpr ⟨fun id hid => hid, hall⟩).imp ?_
  rintro id v ⟨hid, hv⟩
  obtain ⟨hreached, n, hn, _, hprotected⟩ := Violation.mem_taintedAddresses.mp hid
  exact hderived.describes hguarded htraces hreached hn hprotected hv

/-- A function that stores to its parameter, called by another one, and a store
to a constant address. -/
def relayingProgram : Node :=
  .program "relaying" [
    .function "inner" ["p"] [] (.block [.expression
      (.call "sstore" [.identifier "p" {}, .literal (.integer 0) {}] {}) {}] {}) {},
    .function "outer" ["q"] [] (.block [.expression
      (.call "inner" [.identifier "q" {}] {}) {}] {}) {},
    .expression (.call "outer" [.call "calldataload" [.literal (.integer 0) {}] {}] {}) {},
    .expression (.call "sstore" [.literal (.integer 5) {}, .literal (.integer 1) {}] {}) {}] {}

def relayingRank (name : String) : Nat :=
  if name = mainScope then 0 else if name = "outer" then 1 else 2

def reportedScopes (r : Resolver) : Option (List (List String)) :=
  match Taint.propagate {} r.graph with
  | .ok t g' => (Violation.check {} g' (some t)).toOption.map (·.map (·.scopeChain))
  | .error .. => none

theorem runs_relayingProgram : (Flow.collect relayingProgram).toOption.any fun g =>
    g.isRanked relayingRank && match resolve { graph := g } with
      | .ok _ r => decide (reportedScopes r =
          some [["inner"], ["outer", "inner"], [mainScope, "outer", "inner"]])
      | .error .. => false := by
  decide +kernel

theorem violations_exact_relayingProgram :
    ∃ g r t g' ids vs, Flow.collect relayingProgram = .ok g ∧
      resolve { graph := g } = .ok () r ∧ Taint.propagate {} r.graph = .ok t g' ∧
      Violation.check {} g' (some t) = .ok vs ∧ ids.length = 3 ∧ ids.Pairwise (· < ·) ∧
      List.Forall₂ (fun id v => v.Describes g' t id) ids vs ∧
      vs.map (·.scopeChain) = [["inner"], ["outer", "inner"], [mainScope, "outer", "inner"]] := by
  obtain ⟨g, hg, hruns⟩ := Flow.exists_collect runs_relayingProgram
  obtain ⟨hrank, hscopes⟩ := Bool.and_eq_true_iff.mp hruns
  obtain ⟨r, hresolve, hreports⟩ :=
    violations_exact hg (Graph.not_isRecursive_of_isRanked hrank) 0
  rw [hresolve] at hscopes
  have hscopes := of_decide_eq_true hscopes
  unfold reportedScopes at hscopes
  cases hpropagate : Taint.propagate {} r.graph with
  | error failure g' =>
    rw [hpropagate] at hscopes
    cases hscopes
  | ok t g' =>
    obtain ⟨ids, vs, hsorted, _, hall, hcheck⟩ := hreports {} t g' hpropagate
    have hall' : Violation.check {} g' (some t) = .ok vs := hcheck {}
    simp only [hpropagate, hall', Except.toOption, Option.map_some, Option.some.injEq] at hscopes
    have hlength := congrArg List.length hscopes
    rw [List.length_map, ← hall.length_eq] at hlength
    exact ⟨g, r, t, g', ids, vs, hg, hresolve, hpropagate, hall', hlength, hsorted, hall, hscopes⟩

end Resolver

end YulTaint
