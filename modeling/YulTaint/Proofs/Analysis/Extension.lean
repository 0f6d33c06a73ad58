import Mathlib.Tactic
import YulTaint.Proofs.Analysis.Stages
import YulTaint.Proofs.CallGraph.Partners
import YulTaint.Proofs.Flow.Alongside

/-!
A program with one function more at its end, which nothing calls. All that the
analysis reports of the program it reports of the larger one. The new function may
call others, but their copies are its own; only through memory can it change what
is reported elsewhere, and if it writes none, nothing changes.
-/

namespace YulTaint

open Relation (ReflTransGen)

namespace Graph

/-- Memory words carry nothing but their name. -/
def HasPlainWords (g : Graph) : Prop :=
  ∀ id n, g.node? id = some n → n.scope = none → n = sharedNode n.name

/-- The graphs of a program and of the program with one function more. -/
structure Aligned (new : String) (f : NodeId → NodeId) (size : Nat) (g g' : Graph) : Prop where
  injective : Function.Injective f
  alongside : Alongside new f size g g'
  owned : ∀ id, id < size ↔ ∃ sc, g.Owns sc id
  fresh : new ∉ g.scopeNames
  collected : g.Collected ∧ g'.Collected
  plain : g.HasPlainWords ∧ g'.HasPlainWords

section Aligned

variable {new : String} {f : NodeId → NodeId} {size : Nat} {g g' : Graph} {a b : NodeId}

theorem HasPlainWords.node? (h : g.HasPlainWords) (hg : g.Coherent) {word : String} {id : NodeId}
    (hid : g.globals.lookup word = some id) : g.node? id = some (sharedNode word) := by
  obtain ⟨n, hn, hnone, rfl⟩ := hg.globals word id (mem_of_lookup_eq_some hid)
  rw [hn, h id n hn hnone]
  rfl

theorem Aligned.node? (h : Aligned new f size g g') (hab : Paired f size g g' a b) :
    g'.node? b = g.node? a := by
  rcases hab with ⟨ha, rfl⟩ | ⟨word, hword, hword'⟩
  · exact h.alongside.nodes a ha
  · rw [h.plain.1.node? h.collected.1.coherent hword, h.plain.2.node? h.collected.2.coherent hword']

/-- A node of a scope is no word. -/
theorem Aligned.lookup_ne (h : Aligned new f size g g') (ha : a < size) (word : String) :
    g.globals.lookup word ≠ some a ∧ g'.globals.lookup word ≠ some (f a) := by
  obtain ⟨sc, hown⟩ := (h.owned a).mp ha
  obtain ⟨n, hn, hscope⟩ := hown.node h.collected.1.coherent
  have hn' := (h.alongside.nodes a ha).trans hn
  constructor
  · intro hword
    rw [h.plain.1.node? h.collected.1.coherent hword] at hn
    cases hn
    cases hscope
  · intro hword
    rw [h.plain.2.node? h.collected.2.coherent hword] at hn'
    cases hn'
    cases hscope

theorem Aligned.unique (h : Aligned new f size g g') {b' : NodeId}
    (hab : Paired f size g g' a b) (hab' : Paired f size g g' a b') : b = b' := by
  rcases hab with ⟨ha, rfl⟩ | ⟨word, hword, hword'⟩
  · rcases hab' with ⟨_, rfl⟩ | ⟨word, hword, _⟩
    · rfl
    · exact absurd hword (h.lookup_ne ha word).1
  · rcases hab' with ⟨ha, _⟩ | ⟨other, hother, hother'⟩
    · exact absurd hword (h.lookup_ne ha word).1
    · rw [h.alongside.indexed.1.injective word other a hword hother] at hword'
      exact Option.some.inj (hword'.symm.trans hother')

theorem Aligned.unique_left (h : Aligned new f size g g') {a' : NodeId}
    (hab : Paired f size g g' a b) (hab' : Paired f size g g' a' b) : a = a' := by
  rcases hab with ⟨ha, rfl⟩ | ⟨word, hword, hword'⟩
  · rcases hab' with ⟨_, heq⟩ | ⟨word, _, hword'⟩
    · exact h.injective heq
    · exact absurd hword' (h.lookup_ne ha word).2
  · rcases hab' with ⟨ha', rfl⟩ | ⟨other, hother, hother'⟩
    · exact absurd hword' (h.lookup_ne ha' word).2
    · rw [h.alongside.indexed.2.injective word other b hword' hother'] at hword
      exact Option.some.inj (hword.symm.trans hother)

theorem Aligned.forall₂ (h : Aligned new f size g g') {sc : String} {s : Scope}
    (hs : g.scope? sc = some s) {ids : List NodeId} (hids : ∀ id ∈ ids, id ∈ s.nodes) :
    List.Forall₂ (Paired f size g g') ids (ids.map f) := by
  refine List.forall₂_map_right_iff.mpr (List.forall₂_same.mpr fun id hid => ?_)
  exact .own ((h.owned id).mpr ⟨sc, s, hs, hids id hid⟩)

/-- Scopes that both graphs have match, either way. -/
theorem Aligned.scope_matches (h : Aligned new f size g g') {sc : String} {s s' : Scope}
    (hs : g.scope? sc = some s) (hss : Scope.Alongside (Paired f size g g') f s s') :
    s.Matches (Paired f size g g') s' ∧ s'.Matches (fun b a => Paired f size g g' a b) s := by
  have hcoherent := h.collected.1.coherent.scopes sc s hs
  have hpaired {id : NodeId} (hid : id ∈ s.nodes) : Paired f size g g' id (f id) :=
    .own ((h.owned id).mpr ⟨sc, s, hs, hid⟩)
  have hroot : s'.root = f s.root := congrArg Scope.root hss.core
  have hparams : s'.params = s.params.map f := congrArg Scope.params hss.core
  have hreturns : s'.returns = s.returns.map f := congrArg Scope.returns hss.core
  have hnodes : s'.nodes = s.nodes.map f := congrArg Scope.nodes hss.core
  have hsites : s'.sites = s.sites.map (CallSite.move f) := congrArg Scope.sites hss.core
  have hsite (site : CallSite) (hsite : site ∈ s.sites) :
      site.Matches (Paired f size g g') (site.move f) := by
    have hown := hcoherent.sites site hsite
    exact ⟨rfl, h.forall₂ hs hown.arguments, h.forall₂ hs hown.results, hpaired hown.block⟩
  constructor
  · refine ⟨hroot ▸ hpaired hcoherent.root, hparams ▸ h.forall₂ hs hcoherent.params,
      hreturns ▸ h.forall₂ hs hcoherent.returns, hnodes ▸ h.forall₂ hs fun _ hid => hid, ?_,
      hss.left⟩
    rw [hsites]
    exact List.forall₂_map_right_iff.mpr (List.forall₂_same.mpr hsite)
  · refine ⟨hroot ▸ hpaired hcoherent.root, hparams ▸ (h.forall₂ hs hcoherent.params).flip,
      hreturns ▸ (h.forall₂ hs hcoherent.returns).flip,
      hnodes ▸ (h.forall₂ hs fun _ hid => hid).flip, ?_, hss.right⟩
    rw [hsites]
    refine List.forall₂_map_left_iff.mpr (List.forall₂_same.mpr fun site hmem => ?_)
    have hmatch := hsite site hmem
    exact ⟨hmatch.callee.symm, hmatch.arguments.flip, hmatch.results.flip, hmatch.block⟩

/-- Every scope of the first graph is in the second. -/
theorem Aligned.exists_scope (h : Aligned new f size g g') {sc : String} (hsc : sc ≠ new) {s : Scope}
    (hs : g.scope? sc = some s) :
    ∃ s', g'.scope? sc = some s' ∧ Scope.Alongside (Paired f size g g') f s s' := by
  have hrel := h.alongside.scopes sc hsc
  rw [hs] at hrel
  generalize g'.scope? sc = o at hrel ⊢
  cases hrel with
  | some hss => exact ⟨_, rfl, hss⟩

/-- All scopes of the second graph but the new one are in the first. -/
theorem Aligned.exists_scope_left (h : Aligned new f size g g') {sc : String} (hsc : sc ≠ new)
    {s' : Scope} (hs' : g'.scope? sc = some s') :
    ∃ s, g.scope? sc = some s ∧ Scope.Alongside (Paired f size g g') f s s' := by
  have hrel := h.alongside.scopes sc hsc
  rw [hs'] at hrel
  generalize g.scope? sc = o at hrel ⊢
  cases hrel with
  | some hss => exact ⟨_, rfl, hss⟩

theorem Aligned.callee_ne (h : Aligned new f size g g') {sc : String} {s : Scope}
    (hs : g.scope? sc = some s) {site : CallSite} (hsite : site ∈ s.sites) : site.callee ≠ new := by
  obtain ⟨_, callee, hcallee, _⟩ := h.collected.1.sites sc s hs site hsite
  rintro rfl
  exact h.fresh (mem_scopeNames.mpr ⟨callee, hcallee⟩)

/-- The smaller graph is found in the larger one. -/
theorem Aligned.shares (h : Aligned new f size g g') :
    g.Shares (· ≠ new) (Paired f size g g') g' := by
  refine ⟨fun _ _ => h.node?, fun _ _ _ => h.unique, fun sc s hsc hs => ?_, fun sc s _ hs site => ?_⟩
  · obtain ⟨s', hs', hss⟩ := h.exists_scope hsc hs
    exact ⟨s', hs', (h.scope_matches hs hss).1⟩
  · exact h.callee_ne hs

/-- All of the larger graph but the new scope is found in the smaller one. -/
theorem Aligned.shares_left (h : Aligned new f size g g') :
    g'.Shares (· ≠ new) (fun b a => Paired f size g g' a b) g := by
  refine ⟨fun _ _ hab => (h.node? hab).symm, fun _ _ _ => h.unique_left, fun sc s' hsc hs' => ?_,
    fun sc s' hsc hs' site hsite => ?_⟩
  · obtain ⟨s, hs, hss⟩ := h.exists_scope_left hsc hs'
    exact ⟨s, hs, (h.scope_matches hs hss).2⟩
  · obtain ⟨s, hs, hss⟩ := h.exists_scope_left hsc hs'
    have hsites : s'.sites = s.sites.map (CallSite.move f) := congrArg Scope.sites hss.core
    rw [hsites] at hsite
    obtain ⟨site, hmem, rfl⟩ := List.mem_map.mp hsite
    change site.callee ≠ new
    exact h.callee_ne hs hmem

end Aligned

end Graph

namespace Flow

variable {g g' : Graph}

/-- Whatever marks nodes leaves the memory words alone. -/
theorem hasPlainWords_of_collect {program : Node} (hg : collect program = .ok g) :
    g.HasPlainWords := by
  obtain ⟨rs, t, hwalk, rfl⟩ := collect_eq_ok hg
  obtain ⟨_, hstands, _, _, hrecords⟩ := walkProgram_spec hwalk
  have hwalked := hstands.walked
  intro id n hn hnone
  refine finishAll_shared rs hwalked.coherent hrecords (fun id n hn hnone => ?_) hn hnone
  have howned := (hwalked.nodes id n hn).owned
  rw [hnone] at howned
  cases howned

/-- The two programs have graphs that are aligned. -/
theorem exists_aligned {name : String} {items : List Node} {loc : Loc} {e : FunctionEntry}
    (hname : e.scope = e.name) (hbody : e.body.functionCount = 0)
    (hcalls : .call e.name ∉ mentionsOf items) (hg : collect (.program name items loc) = .ok g)
    (hg' : collect (.program name (items ++ [e.node]) loc) = .ok g')
    (hfree : e.name ∉ g.scopeNames) : ∃ f size, Graph.Aligned e.name f size g g' := by
  obtain ⟨f, size, hinjective, halongside, howned⟩ :=
    collect_alongside hname hbody hcalls hg hg' hfree
  exact ⟨f, size, hinjective, halongside, howned, hfree,
    ⟨collected_of_collect hg, collected_of_collect hg'⟩,
    hasPlainWords_of_collect hg, hasPlainWords_of_collect hg'⟩

def writesNothing (name : String) : Bool :=
  (Builtin.lookup? name).all (·.writes.isEmpty)

theorem writes_effectOf {a : Application} (h : writesNothing a.name = true) (g : Graph) :
    (effectOf g a).writes = [] := by
  unfold effectOf Builtin.effectFor
  split
  · rename_i b hb
    rw [writesNothing, hb] at h
    exact List.isEmpty_iff.mp h
  · rfl

/-- From a scope that applies nothing that writes memory, nothing flows into a word. -/
theorem not_isShared_target {program : Node} {rs : List ScopeRecord} {t : WalkState}
    (hwalk : walkProgram program { graph := {} } = .ok rs t) {r : ScopeRecord} (hr : r ∈ rs)
    (hwrites : ∀ a ∈ r.applications, writesNothing a.name = true) {s : Scope}
    (hs : (rs.foldl finishScope t.graph).scope? r.scope = some s) {x : Edge} (hx : x ∈ s.edges) :
    ¬ (rs.foldl finishScope t.graph).IsShared x.target := by
  obtain ⟨_, hstands, _, hscopes, hrecords⟩ := walkProgram_spec hwalk
  have hwalked := hstands.walked
  have hcoherent := hwalked.coherent
  have hfinish := finishAll_finishing hcoherent rs hrecords
  have hdistinct : (rs.map (·.scope)).Nodup := by
    rw [hscopes, ← hwalked.scopes]
    exact hcoherent.names
  have hmem : r.scope ∈ t.graph.scopeNames := by
    rw [hwalked.scopes, ← hscopes]
    exact List.mem_map_of_mem hr
  obtain ⟨s₀, hs₀⟩ := Graph.mem_scopeNames.mp hmem
  have hstart : ∀ x ∈ s₀.edges, t.graph.Owns r.scope x.target := by
    intro x hx
    rcases ((hcoherent.scopes _ s₀ hs₀).edges x hx).2.target with hown | ⟨n, hn, hnone⟩
    · exact ⟨s₀, hs₀, hown⟩
    · have howned := (hwalked.nodes _ n hn).owned
      rw [hnone] at howned
      cases howned
  -- only the record of the scope itself adds edges to it
  have hall : ∃ s, (rs.foldl finishScope t.graph).scope? r.scope = some s ∧
      ∀ x ∈ s.edges, t.graph.Owns r.scope x.target := by
    refine List.foldlRecOn (motive := fun g => ∃ s, g.scope? r.scope = some s ∧
      ∀ x ∈ s.edges, t.graph.Owns r.scope x.target) rs finishScope ⟨s₀, hs₀, hstart⟩ ?_
    rintro g ⟨s, hs, hedges⟩ r' hr'
    by_cases hsame : r'.scope = r.scope
    · obtain rfl : r' = r := List.inj_on_of_nodup_map hdistinct hr' hr hsame
      have hchanges : Graph.Changes r'.scope (t.graph.Owns r'.scope) g (finishScope g r') :=
        changes_finishScope g r' (fun a ha => ((hrecords r' hr').applications a ha).node)
          (Or.inl fun a ha g => writes_effectOf (hwrites a ha) g)
      obtain ⟨s', hs', hnew⟩ := hchanges.scope hs
      exact ⟨s', hs', fun x hx => (hnew x hx).elim (hedges x) fun hown => hown⟩
    · have hchanges : Graph.Changes r'.scope (fun _ => True) g (finishScope g r') :=
        changes_finishScope g r' (fun _ _ => trivial) (Or.inr fun _ => trivial)
      exact ⟨s, (hchanges.others (Ne.symm hsame)).trans hs, hedges⟩
  obtain ⟨s', hs', hedges⟩ := hall
  cases hs.symm.trans hs'
  obtain ⟨s₁, hs₁, hown⟩ := hfinish.owns_iff.mpr (hedges x hx)
  exact fun hshared => hshared.not_mem (hfinish.coherent.scopes _ s₁ hs₁) hown

/-- Neither the scope nor any that it calls, directly or not, applies a builtin that
writes memory. -/
def WritesNothing (program : Node) (g : Graph) (scope : String) : Prop :=
  ∀ rs t, walkProgram program { graph := {} } = .ok rs t →
    ∀ r ∈ rs, ReflTransGen g.Calls scope r.scope →
      ∀ a ∈ r.applications, writesNothing a.name = true

end Flow

namespace Resolver

variable {g : Graph} {k : Int} {r : Resolver} {a : NodeId} {n : FlowNode}

theorem head?_of_callPath {name last : String} {path : List SiteRef} {chain : List String}
    (h : g.CallPath name path chain last) : chain.head? = some name := by
  cases h <;> rfl

theorem Completes.isSource_of_shared (h : Completes g k r) (hg : g.Collected)
    (hplain : g.HasPlainWords) (hn : r.graph.node? a = some n) (hnone : n.scope = none) :
    n.isSource = false := by
  obtain ⟨m, hm, hscope⟩ :=
    isShared_of_run (advances_of_embedsReady hg h.run) ⟨n, hn, hnone⟩
  obtain rfl : n = m := Option.some.inj (hn.symm.trans ((h.inlined hg).inlining.old a m hm))
  rw [hplain a n hm hscope]
  rfl

/-- The chain of a violation starts with the scope of its node. -/
theorem Completes.head?_keyAt (h : Completes g k r) (hg : g.Collected)
    (hn : r.graph.node? a = some n) : (Violation.keyAt r.graph a).2.1.head? = n.scope := by
  have hin := h.inlined hg
  rcases h.place_or_shared hg hn with
    ⟨name, path, chain, last, id, hname, hpath, hid, rfl⟩ | ⟨hnone, m, hm, _⟩
  · obtain ⟨m, hm⟩ := Graph.node?_isSome (hid.lt_size hg.coherent)
    obtain ⟨_, _, _, hkey⟩ := hin.keyAt_place hpath hid hm
    rw [hkey, hname]
    exact head?_of_callPath hpath
  · obtain rfl : n = m := Option.some.inj (hn.symm.trans (hin.inlining.old a m hm))
    rw [hin.keyAt_shared hm, (hg.nodes a n hm).2.2, hnone]
    rfl

end Resolver

namespace Analysis

open YulTaint.Resolver (Completes Finds Partners Seals)

variable {new : String} {f : NodeId → NodeId} {size : Nat} {g g' : Graph} {k k' : Int}
  {r r' : Resolver} {c : TaintConfig} {ids ids' as as' : List NodeId} {vs vs' : List Violation}

/-- Nodes of the two programs that stand for each other once all calls are inlined. -/
def Counterparts (new : String) (f : NodeId → NodeId) (size : Nat) (g g' : Graph) (r r' : Resolver)
    (a b : NodeId) : Prop :=
  ∃ name, Partners (· ≠ new) (Graph.Paired f size g g') g r r' name a b

section Counterparts

variable (h : Graph.Aligned new f size g g') (hr : Completes g k r) (hr' : Completes g' k' r')

include h hr hr'

omit hr' in
theorem Counterparts.unique {a b b' : NodeId} (hab : Counterparts new f size g g' r r' a b)
    (hab' : Counterparts new f size g g' r r' a b') : b = b' := by
  obtain ⟨_, hab⟩ := hab
  obtain ⟨_, hab'⟩ := hab'
  exact hab.unique hab' h.shares (hr.inlined h.collected.1)

omit hr in
theorem Counterparts.unique_left {a a' b : NodeId} (hab : Counterparts new f size g g' r r' a b)
    (hab' : Counterparts new f size g g' r r' a' b) : a = a' := by
  obtain ⟨_, hab⟩ := hab
  obtain ⟨_, hab'⟩ := hab'
  exact (hab.symm h.shares).unique (hab'.symm h.shares) h.shares_left (hr'.inlined h.collected.2)

theorem Counterparts.keyAt_eq {a b : NodeId} (hab : Counterparts new f size g g' r r' a b) :
    Violation.keyAt r.graph a = Violation.keyAt r'.graph b := by
  obtain ⟨_, hab⟩ := hab
  obtain ⟨_, _, _, _, _, hkey⟩ :=
    hab.resembles h.shares (hr.inlined h.collected.1) (hr'.inlined h.collected.2)
  exact hkey

omit hr' in
/-- The smaller program has no nodes of the new function. -/
theorem scope_ne_new {a : NodeId} {n : FlowNode} (hn : r.graph.node? a = some n) :
    n.scope ≠ some new := by
  have hin := hr.inlined h.collected.1
  intro hscope
  exact h.fresh (hin.resolving.scopeNames ▸ hin.resolving.coherent.owned a n new hn hscope)

/-- All that is reported of the smaller program is reported of the larger one. -/
theorem exists_counterpart (hfinds : Finds c r ids as vs) (hfinds' : Finds c r' ids' as' vs')
    {a : NodeId} (ha : a ∈ as) : ∃ b ∈ as', Counterparts new f size g g' r r' a b := by
  have hcollected := h.collected.1
  have hseals : Seals (· ≠ new) r.graph := by
    intro sc s hsame hs
    obtain rfl : sc = new := not_not.mp hsame
    exact absurd (Graph.mem_scopeNames.mpr ⟨s, hs⟩)
      ((hr.inlined hcollected).resolving.scopeNames ▸ h.fresh)
  exact hfinds.exists_partner hfinds' h.shares hr (hr'.inlined h.collected.2) hcollected
    (fun id n => hr.isSource_of_shared hcollected h.plain.1) hseals ha
    fun n sc hn hscope heq => scope_ne_new h hr hn (heq ▸ hscope)

/-- If nothing flows from the new function into memory, then what is reported of the
larger program elsewhere is reported of the smaller one. -/
theorem exists_counterpart_left (hfinds : Finds c r ids as vs) (hfinds' : Finds c r' ids' as' vs')
    (hseals : Seals (· ≠ new) r'.graph) {b : NodeId} (hb : b ∈ as')
    (hother : (Violation.keyAt r'.graph b).2.1.head? ≠ some new) :
    ∃ a ∈ as, Counterparts new f size g g' r r' a b := by
  have hcollected := h.collected.2
  obtain ⟨a, ha, name, hpartner⟩ := hfinds'.exists_partner hfinds h.shares_left hr'
    (hr.inlined h.collected.1) hcollected (fun id n => hr'.isSource_of_shared hcollected h.plain.2)
    hseals hb fun n sc hn hscope heq => by
      rw [hr'.head?_keyAt hcollected hn, hscope, heq] at hother
      exact hother rfl
  exact ⟨a, ha, name, hpartner.symm h.shares_left⟩

/-- What is found of a program is found of the larger one as well. -/
theorem violations_subperm (hfinds : Finds c r ids as vs) (hfinds' : Finds c r' ids' as' vs') :
    (vs.map Violation.key).Subperm (vs'.map Violation.key) := by
  rw [hfinds.keys, hfinds'.keys]
  exact subperm_map_of_matching hfinds.nodup hfinds'.nodup
    (fun a ha => exists_counterpart h hr hr' hfinds hfinds' ha)
    (fun a b b' hab hab' => hab.unique h hr hab')
    (fun a a' b hab hab' => hab.unique_left h hr' hab')
    (fun a b hab => hab.keyAt_eq h hr hr')

/-- Elsewhere the same is reported of both programs. -/
theorem violations_perm_elsewhere (hfinds : Finds c r ids as vs)
    (hfinds' : Finds c r' ids' as' vs') (hseals : Seals (· ≠ new) r'.graph) :
    ((vs'.filter fun v => v.scopeChain.head? != some new).map Violation.key).Perm
      (vs.map Violation.key) := by
  let elsewhere (key : String × List String × Option Loc) : Bool := key.2.1.head? != some new
  have hfilter : (vs'.filter fun v => v.scopeChain.head? != some new).map Violation.key =
      (as'.filter fun b => elsewhere (Violation.keyAt r'.graph b)).map
        (Violation.keyAt r'.graph) := by
    have hkeys := congrArg (List.filter elsewhere) hfinds'.keys
    rwa [List.filter_map, List.filter_map] at hkeys
  rw [hfilter, hfinds.keys]
  refine (perm_map_of_matching (R := Counterparts new f size g g' r r') hfinds.nodup
    (hfinds'.nodup.filter _) (fun a ha => ?_) (fun b hb => ?_) (fun a b b' hab hab' => hab.unique h hr hab')
    (fun a a' b hab hab' => hab.unique_left h hr' hab')
    (fun a b hab => hab.keyAt_eq h hr hr')).symm
  · obtain ⟨b, hb, hab⟩ := exists_counterpart h hr hr' hfinds hfinds' ha
    obtain ⟨_, n, hn, _⟩ := (hfinds.mem a).mp ha
    refine ⟨b, List.mem_filter.mpr ⟨hb, bne_iff_ne.mpr ?_⟩, hab⟩
    rw [← hab.keyAt_eq h hr hr', hr.head?_keyAt h.collected.1 hn]
    exact scope_ne_new h hr hn
  · obtain ⟨hb, hother⟩ := List.mem_filter.mp hb
    exact exists_counterpart_left h hr hr' hfinds hfinds' hseals hb (bne_iff_ne.mp hother)

end Counterparts

/-- A new function that writes no memory, and calls none that does, lets nothing flow
into words. -/
theorem seals_of_writesNothing {program : Node} (hg : Flow.collect program = .ok g)
    (hr : Completes g k r) (hnew : Flow.WritesNothing program g new) :
    Seals (· ≠ new) r.graph := by
  have hin := hr.inlined (Flow.collected_of_collect hg)
  obtain ⟨rs, t, hwalk, hgraph⟩ := Flow.collect_eq_ok hg
  obtain ⟨_, hstands, _, hscopes, hrecords⟩ := Flow.walkProgram_spec hwalk
  have hfinish := Flow.finishAll_finishing hstands.walked.coherent rs hrecords
  intro sc s hsame hs x hx
  obtain rfl : sc = new := not_not.mp hsame
  refine hin.not_isShared_target (ReflTransGen g.Calls sc) ?_ ?_ .refl hs hx
  · intro sc' s' hquiet hs' site hsite
    exact hquiet.tail ⟨s', hs', site, hsite, rfl⟩
  · intro sc' s' hquiet hs' x hx
    have hmem : sc' ∈ rs.map (·.scope) := by
      rw [hscopes, ← hstands.walked.scopes, ← hfinish.scopeNames, ← hgraph]
      exact Graph.mem_scopeNames.mpr ⟨s', hs'⟩
    obtain ⟨record, hrecord, rfl⟩ := List.mem_map.mp hmem
    rw [hgraph] at hs' ⊢
    exact Flow.not_isShared_target hwalk hrecord (hnew rs t hwalk record hrecord hquiet) hs' hx

/-- A function that nothing calls is added to an accepted program without recursion,
which stays one. Then each violation of the program is one of the larger program,
as often. If the function writes no memory, and calls none that does, then all other
violations of the larger program have chains that start at the function. -/
theorem run_extended {name new : String} {items : List Node} {loc : Loc}
    {params returns : List String} {body : Node} {place : Loc} {g g' : Graph}
    (hg : Flow.collect (.program name items loc) = .ok g) (hacyclic : ∀ f, ¬ g.IsRecursive f)
    (hg' : Flow.collect
      (.program name (items ++ [.function new params returns body place]) loc) = .ok g')
    (hacyclic' : ∀ f, ¬ g'.IsRecursive f) (hbody : body.functionCount = 0)
    (hfree : new ∉ g.scopeNames) (hcalls : .call new ∉ mentionsOf items) {c : TaintConfig}
    (hnamed : c.namedVariables = []) (hstop : c.stopAtFirst = false) :
    ∃ result result', run c (.program name items loc) = .ok result ∧
      run c (.program name (items ++ [.function new params returns body place]) loc) = .ok result' ∧
      result.fault = none ∧ result'.fault = none ∧
      (result.violations.map Violation.key).Subperm (result'.violations.map Violation.key) ∧
      (Flow.WritesNothing (.program name (items ++ [.function new params returns body place]) loc)
          g' new →
        ((result'.violations.filter fun v => v.scopeChain.head? != some new).map
          Violation.key).Perm (result.violations.map Violation.key)) := by
  let e : Flow.FunctionEntry := ⟨new, new, params, returns, body, place⟩
  obtain ⟨f, size, h⟩ := Flow.exists_aligned (e := e) rfl hbody hcalls hg hg' hfree
  obtain ⟨result, r, ids, as, hrun, hfault, hr, hfinds⟩ := run_spec hg hacyclic hnamed hstop
  obtain ⟨result', r', ids', as', hrun', hfault', hr', hfinds'⟩ := run_spec hg' hacyclic' hnamed hstop
  exact ⟨result, result', hrun, hrun', hfault, hfault', violations_subperm h hr hr' hfinds hfinds',
    fun hwrites => violations_perm_elsewhere h hr hr' hfinds hfinds'
      (seals_of_writesNothing hg' hr' hwrites)⟩

/-- The function stores to the address it is given, which the top-level code reads from
memory. -/
def wordItems : List Node := [
  .function "f" ["p"] [] (.block [.expression
    (.call "sstore" [.identifier "p" {}, .literal (.integer 0) {}] {}) {}] {}) {},
  .expression (.call "mstore" [.literal (.integer 0) {},
    .call "calldataload" [.literal (.integer 0) {}] {}] {}) {},
  .expression (.call "f" [.call "mload" [.literal (.integer 0) {}] {}] {}) {}]

def spareBody : Node :=
  .block [.expression (.call "f" [.identifier "q" {}] {}) {}] {}

def spareProgram : Node :=
  .program "word" (wordItems ++ [.function "spare" ["q"] [] spareBody {}]) {}

def wordRank (name : String) : Nat :=
  if name = "f" then 1 else 0

theorem calls_wordItems : (Flow.collect (.program "word" wordItems {})).toOption.any fun g =>
    g.isRanked wordRank && !g.scopeNames.contains "spare" := by
  decide +kernel

theorem calls_spareProgram :
    (Flow.collect spareProgram).toOption.any (Graph.isRanked wordRank) := by
  decide +kernel

/-- The top-level code alone writes memory. -/
theorem writes_spareProgram : ((Flow.walkProgram spareProgram).run' { graph := {} }).any fun rs =>
    rs.all fun r => r.scope == mainScope ||
      r.applications.all fun a => Flow.writesNothing a.name := by
  decide +kernel

theorem writesNothing_spare {g : Graph} (hg : g.isRanked wordRank) :
    Flow.WritesNothing spareProgram g "spare" := by
  intro rs t hwalk r hr hreach a ha
  obtain ⟨rs', t', hwalk', hall⟩ := Flow.exists_of_run' writes_spareProgram
  obtain ⟨rfl, _⟩ := EStateM.Result.ok.inj (hwalk.symm.trans hwalk')
  have hmain : r.scope ≠ mainScope := by
    intro heq
    rw [heq] at hreach
    rcases hreach.cases_tail with hsame | ⟨_, _, s, hs, site, hsite, hcallee⟩
    · exact absurd hsame (by decide)
    · have hscope := List.all_eq_true.mp hg s (Graph.mem_scopes_of_scope? hs)
      have hlt := of_decide_eq_true (List.all_eq_true.mp hscope site hsite)
      rw [hcallee] at hlt
      exact absurd hlt (Nat.not_lt_zero _)
  have hrecord := List.all_eq_true.mp hall r hr
  rw [Bool.or_eq_true, beq_iff_eq, or_iff_right hmain] at hrecord
  exact List.all_eq_true.mp hrecord a ha

theorem run_extended_spare :
    ∃ g g' result result', Flow.collect (.program "word" wordItems {}) = .ok g ∧
      (∀ f, ¬ g.IsRecursive f) ∧ Flow.collect spareProgram = .ok g' ∧
      (∀ f, ¬ g'.IsRecursive f) ∧ spareBody.functionCount = 0 ∧ "spare" ∉ g.scopeNames ∧
      .call "spare" ∉ mentionsOf wordItems ∧ Flow.WritesNothing spareProgram g' "spare" ∧
      run {} (.program "word" wordItems {}) = .ok result ∧ run {} spareProgram = .ok result' ∧
      (result.violations.map Violation.key).Subperm (result'.violations.map Violation.key) ∧
      ((result'.violations.filter fun v => v.scopeChain.head? != some "spare").map
        Violation.key).Perm (result.violations.map Violation.key) := by
  obtain ⟨g, hg, hchecks⟩ := Flow.exists_collect calls_wordItems
  obtain ⟨g', hg', hranked'⟩ := Flow.exists_collect calls_spareProgram
  obtain ⟨hranked, hlacks⟩ := Bool.and_eq_true_iff.mp hchecks
  have hacyclic := Graph.not_isRecursive_of_isRanked hranked
  have hacyclic' := Graph.not_isRecursive_of_isRanked hranked'
  have hfree : "spare" ∉ g.scopeNames := by simpa using hlacks
  have hcalls : .call "spare" ∉ mentionsOf wordItems := by decide
  have hwrites := writesNothing_spare hranked'
  obtain ⟨result, result', hrun, hrun', _, _, hsub, hperm⟩ :=
    run_extended (c := {}) hg hacyclic hg' hacyclic' rfl hfree hcalls rfl rfl
  exact ⟨g, g', result, result', hg, hacyclic, hg', hacyclic', rfl, hfree, hcalls, hwrites, hrun,
    hrun', hsub, hperm hwrites⟩

end Analysis

end YulTaint
