import Mathlib.Tactic
import YulTaint.Proofs.CallGraph.Confluence
import YulTaint.Proofs.CallGraph.Places
import YulTaint.Proofs.Execution.Control

/-!
Control dependence across calls. The root block of a callee hangs below the
block of the call, and all that the callee does hangs below its root block. So
what a call writes to memory, at any depth of calls, depends on the conditions
around the call.

A call in the condition of a loop stands in the block around the loop: what it
writes depends on the conditions around the loop, but not on the loop's own
condition, although later rounds call it again.
-/

namespace YulTaint.Execution

open YulTaint.Flow

open YulTaint.Resolver (Inlined resolve)

open Relation (ReflTransGen TransGen)

def Function.Writes (f : Function) (g : Graph) (word : NodeId) : Prop :=
  ∃ a ∈ f.layout.applications, ∃ access ∈ (effectOf g a).writes,
    ∃ name ∈ writtenNames g a access, g.globals.lookup name = some word

/-- The memory words that a function of a program writes, itself or through what
it calls. -/
def WritesWithin (program : Node) (g : Graph) (name : String) (word : NodeId) : Prop :=
  ∃ path chain last, g.CallPath name path chain last ∧
    ∃ f ∈ functions program, f.scope = last ∧ f.Writes g word

theorem Path.mono {edges edges' : List Edge} {a b : NodeId} (h : Path edges a b)
    (hsub : edges ⊆ edges') : Path edges' a b :=
  TransGen.mono (fun _ _ he => hsub he) a b h

theorem Reach.mono {edges edges' : List Edge} {a b : NodeId} (h : Reach edges a b)
    (hsub : edges ⊆ edges') : Reach edges' a b :=
  ReflTransGen.mono (fun _ _ he => hsub he) a b h

section Words

variable {g : Graph} {f : Function} {scope : Scope} {word : NodeId}

/-- All that a function lays out hangs below its root block. -/
theorem Laid.governed (h : Laid g f) (hs : g.scope? f.scope = some scope) :
    scope.root = f.root ∧ Governed scope.edges f.root f.inner := by
  obtain ⟨scope', hs', hroot, _, _, _, _, hedges⟩ := h.scope
  cases hs.symm.trans hs'
  exact ⟨hroot, f.governed hedges⟩

/-- The root of a scope governs its calls. -/
theorem Laid.reach_site (h : Laid g f) (hs : g.scope? f.scope = some scope) {site : CallSite}
    (hsite : site ∈ scope.sites) : Reach scope.edges scope.root site.block := by
  obtain ⟨scope', hs', _, _, _, _, hsites, _⟩ := h.scope
  cases hs.symm.trans hs'
  obtain ⟨hroot, hgoverned⟩ := h.governed hs
  rw [hroot]
  exact hgoverned.calls site (hsites ▸ hsite)

/-- The root of a scope leads to the memory words that it writes. -/
theorem Laid.path_word (h : Laid g f) (hs : g.scope? f.scope = some scope)
    (hword : f.Writes g word) : Path scope.edges scope.root word := by
  obtain ⟨a, ha, access, haccess, name, hname, hlookup⟩ := hword
  obtain ⟨word', hword', hwritten⟩ := (h.applied a ha).writes access haccess name hname
  cases hlookup.symm.trans hword'
  obtain ⟨hroot, hgoverned⟩ := h.governed hs
  rw [hroot]
  exact .tail' (hgoverned.applications a ha) ((hwritten.block a.block rfl).2 scope hs)

theorem Function.Writes.isShared (h : f.Writes g word) (hg : g.Coherent) : g.IsShared word := by
  obtain ⟨_, _, _, _, name, _, hlookup⟩ := h
  obtain ⟨n, hn, hnone, _⟩ := hg.globals name word (mem_of_lookup_eq_some hlookup)
  exact ⟨n, hn, hnone⟩

end Words

section Calls

variable {program : Node} {g : Graph} {k : Int} {r : Resolver} {scope : Scope} {word : NodeId}
  {name : String}

/-- What is written within a callee hangs below the block of the call. -/
theorem path_of_site (h : Inlined g k r) {i : Nat} {site : CallSite} {callee : Scope}
    (hs : r.graph.scope? name = some scope) (hsite : g.site? ⟨name, i⟩ = some site)
    (hcallee : r.graph.scope? site.callee = some callee) (hshared : g.IsShared word)
    (hpath : Path callee.edges callee.root word) : Path scope.edges site.block word := by
  have hcall : g.CallPath name [⟨name, i⟩] [name, site.callee] site.callee :=
    (Graph.CallPath.here name).snoc hsite
  have hwired := h.wired (.here name) hs hsite hcallee
  have hcopied : Path scope.edges (r.place [⟨name, i⟩] callee.root) (r.place [⟨name, i⟩] word) :=
    hpath.lift _ fun a b he => h.edge_place hcall hs hcallee he
  rw [h.place_shared hcall hshared] at hcopied
  exact .head hwired.block hcopied

/-- What is written within a scope hangs below its root block. -/
theorem path_of_writesWithin (h : Inlined g k r)
    (hscopes : (functions program).map (·.scope) = g.scopeNames)
    (hlaid : ∀ f ∈ functions program, Laid g f) (hs : r.graph.scope? name = some scope)
    (hword : WritesWithin program g name word) : Path scope.edges scope.root word := by
  obtain ⟨path, chain, last, hpath, f, hf, hlast, hwrites⟩ := hword
  have hshared := hwrites.isShared h.collected.coherent
  induction hpath generalizing scope with
  | here name =>
    obtain ⟨s₀, hs₀, hroot, _⟩ := h.resolving.scope name scope hs
    subst hlast
    rw [hroot]
    exact ((hlaid f hf).path_word hs₀ hwrites).mono fun e he =>
      (h.mem_edges hs₀ hs e).mpr (Or.inl he)
  | @call ref site _ _ _ hsite _ ih =>
    obtain ⟨s₀, hs₀, hroot, _⟩ := h.resolving.scope ref.scope scope hs
    obtain ⟨_, _, _, callee, hinlines⟩ := h.exists_embedding hsite
    have hinner := path_of_site h hs hsite hinlines.callee hshared (ih hinlines.callee hlast)
    obtain ⟨caller, hcaller, hname⟩ := List.mem_map.mp
      (hscopes ▸ Graph.mem_scopeNames.mpr ⟨s₀, hs₀⟩)
    have hmem : site ∈ s₀.sites := by
      rw [Graph.site?, hs₀] at hsite
      exact List.mem_of_getElem? hsite
    have houter := (hlaid caller hcaller).reach_site (hname ▸ hs₀) hmem
    rw [hroot]
    exact TransGen.trans_right
      (houter.mono fun e he => (h.mem_edges hs₀ hs e).mpr (Or.inl he)) hinner

mutual

/-- The calls of an expression stand in the block around it. -/
theorem Term.block_of_site (t : Term) {p : Region} {site : CallSite}
    (h : site ∈ (t.layout p).sites) : site.block = p.block := by
  cases t with
  | literal node value => cases h
  | read id => cases h
  | apply node name args =>
    rcases List.mem_append.mp h with h | h
    · rcases List.mem_append.mp h with h | h
      · exact Term.block_of_sites args h
      · cases h
    · cases h
  | call node function args loc =>
    rcases List.mem_append.mp h with h | h
    · rcases List.mem_append.mp h with h | h
      · exact Term.block_of_sites args h
      · cases h
    · rw [List.mem_singleton.mp h]

theorem Term.block_of_sites (ts : List Term) {p : Region} {site : CallSite}
    (h : site ∈ (Term.layouts p ts).sites) : site.block = p.block := by
  cases ts with
  | nil => cases h
  | cons t rest =>
    rcases List.mem_append.mp h with h | h
    · exact t.block_of_site h
    · exact Term.block_of_sites rest h

end

/-- In a resolved graph, the memory words that a call writes, itself or through
the calls in it,

* depend on every condition that governs the call,
* and, where the call belongs to the condition of a loop, hang below the block
  around the loop, in which such a call stands. -/
theorem written_words_depend (hg : collect program = .ok g)
    (hacyclic : ∀ f, ¬ g.IsRecursive f) (k : Int) :
    ∃ r, resolve { graph := g, nextIndex := k } = .ok () r ∧
      ∀ f ∈ functions program,
        (∀ b ∈ f.body.branches f.region, ∀ site ∈ b.layout.sites, ∀ word,
          WritesWithin program g site.callee word → Path r.graph.edges b.condition word) ∧
        ∀ l ∈ f.body.loops f.region, ∀ site ∈ (l.condition.layout l.outer).sites,
          site.block = l.outer.block ∧ ∀ word,
            WritesWithin program g site.callee word → Path r.graph.edges l.outer.block word := by
  have hcollected := collected_of_collect hg
  obtain ⟨hscopes, hlaid⟩ := laid_of_collect hg
  obtain ⟨r, hrun, hcompletes⟩ := Resolver.exists_completes hcollected hacyclic k
  have hinlined := hcompletes.inlined hcollected
  refine ⟨r, hrun, fun f hf => ?_⟩
  have hlay := hlaid f hf
  obtain ⟨s₀, hs₀, _, _, _, _, hsites, hedges⟩ := hlay.scope
  obtain ⟨s, hs⟩ := hinlined.scope hs₀
  have hbody : Part (f.body.layout f.region) f.layout := ((Part.refl _).right _).right _
  have hlocal : s₀.edges ⊆ s.edges := fun e he => (hinlined.mem_edges hs₀ hs e).mpr (Or.inl he)
  have hglobal : s.edges ⊆ r.graph.edges := fun e he =>
    ((hinlined.resolving.coherent.scopes _ s hs).edges e he).1
  -- what a call of the function writes hangs below the block of the call
  have hcall (site : CallSite) (hsite : site ∈ f.layout.sites) (word : NodeId)
      (hword : WritesWithin program g site.callee word) : Path r.graph.edges site.block word := by
    obtain ⟨i, hi⟩ := List.getElem?_of_mem (hsites.symm ▸ hsite)
    have hsite? : g.site? ⟨f.scope, i⟩ = some site := by
      rw [Graph.site?, hs₀]
      exact hi
    obtain ⟨_, _, _, callee, hinlines⟩ := hinlined.exists_embedding hsite?
    have hshared : g.IsShared word := by
      obtain ⟨_, _, _, _, _, _, _, hwrites⟩ := hword
      exact hwrites.isShared hcollected.coherent
    exact (path_of_site hinlined hs hsite? hinlines.callee hshared
      (path_of_writesWithin hinlined hscopes hlaid hinlines.callee hword)).mono hglobal
  constructor
  · intro b hb site hsite word hword
    have hin := f.body.mem_branches hb
    have hpart := hin.part.trans hbody
    have hgoverned := b.body.governed fun e he => hedges (hpart.edges he)
    have hreach : Path s₀.edges b.condition site.block :=
      .head' (hedges (hbody.edges hin.edge)) (hgoverned.calls site hsite)
    exact ((hreach.mono hlocal).mono hglobal).trans (hcall site (hpart.sites hsite) word hword)
  · intro l hl site hsite
    have hpart := (f.body.mem_loops hl).condition.trans hbody
    have hblock := l.condition.block_of_site hsite
    exact ⟨hblock, fun word hword => hblock ▸ hcall site (hpart.sites hsite) word hword⟩

end Calls

/-- A loop whose condition counts its own evaluations in memory, and a storage
access at the count: `function f() -> r { mstore(0, add(mload(0), 1))
r := lt(mload(0), calldataload(0)) } for {} f() {} {} sstore(mload(0), 1)`. -/
def countingProgram : Node :=
  .program "counting" [
    .function "f" [] ["r"] (.block [
      .expression (.call "mstore" [.literal (.integer 0) {},
        .call "add" [.call "mload" [.literal (.integer 0) {}] {}, .literal (.integer 1) {}] {}]
        {}) {},
      .assignment ["r"] (.call "lt" [.call "mload" [.literal (.integer 0) {}] {},
        .call "calldataload" [.literal (.integer 0) {}] {}] {}) {}] {}) {},
    .loop (.block [] {}) (.call "f" [] {}) (.block [] {}) (.block [] {}) {},
    .expression (.call "sstore" [.call "mload" [.literal (.integer 0) {}] {},
      .literal (.integer 1) {}] {}) {}] {}

/-- The condition of the loop is node 1. It leads to the block of the loop and
no further. -/
theorem resolves_countingProgram : (collect countingProgram).toOption.any fun g =>
    (g.scopes.all fun s => s.sites.all fun site => s.name = mainScope && site.callee = "f") &&
    ((functions countingProgram).any fun f => (f.body.loops f.region).any fun l =>
      l.condition.node = 1 && l.outer.block = 0 &&
        (l.condition.layout l.outer).sites.any fun site => site.callee = "f") &&
    ((functions countingProgram).any fun f => f.scope = "f" &&
      f.layout.applications.any fun a => (effectOf g a).writes.any fun access =>
        (writtenNames g a access).contains (Memory.wordName 0)) &&
    ((g.globals.lookup (Memory.wordName 0)).any fun word => word != 2) &&
    match resolve { graph := g, nextIndex := 0 } with
    | .ok _ r => r.graph.edges.all fun e => !([1, 2].contains e.source) || e.target = 2
    | .error _ _ => false := by
  decide +kernel

/-- The parts of the program that matter: its loop, the call in the loop's
condition and the memory word that the call writes. -/
theorem exists_countingProgram :
    ∃ g f l site word, collect countingProgram = .ok g ∧ (∀ f, ¬ g.IsRecursive f) ∧
      f ∈ functions countingProgram ∧ l ∈ f.body.loops f.region ∧
      site ∈ (l.condition.layout l.outer).sites ∧ WritesWithin countingProgram g site.callee word ∧
      l.outer.block = 0 ∧ ∀ r, resolve { graph := g, nextIndex := 0 } = .ok () r →
        ¬ Path r.graph.edges l.condition.node word := by
  obtain ⟨g, hg, h⟩ := Flow.exists_collect resolves_countingProgram
  simp only [Bool.and_eq_true, List.any_eq_true, decide_eq_true_eq] at h
  obtain ⟨⟨⟨⟨hcalls, f, hf, l, hl, ⟨hcondition, houter⟩, site, hsite, hcallee⟩, callee, hmem, hname,
    a, ha, access, haccess, hwritten⟩, hword⟩, hedges⟩ := h
  obtain ⟨word, hlookup, hne⟩ := (Option.any_eq_true _ _).mp hword
  have hacyclic : ∀ f, ¬ g.IsRecursive f := by
    apply @Graph.not_isRecursive_of_rank g fun name => if name = mainScope then 0 else 1
    rintro a b ⟨s, hs, site, hsite, rfl⟩
    have hscope := List.all_eq_true.mp hcalls s (Graph.mem_scopes_of_scope? hs)
    have hnames := List.all_eq_true.mp hscope site hsite
    simp only [Bool.and_eq_true, decide_eq_true_eq] at hnames
    rw [Graph.name_of_scope? hs] at hnames
    simp [hnames.1, hnames.2, mainScope]
  have hwrites : WritesWithin countingProgram g site.callee word :=
    ⟨[], _, _, .here _, callee, hmem, hname.trans hcallee.symm, a, ha, access, haccess, _,
      List.contains_iff_mem.mp hwritten, hlookup⟩
  refine ⟨g, f, l, site, word, hg, hacyclic, hf, hl, hsite, hwrites, houter, fun r hr hpath => ?_⟩
  simp only [hr, List.all_eq_true] at hedges
  rw [hcondition] at hpath
  -- from nodes 1 and 2 no edge leads anywhere but to node 2
  have hclosed {b : NodeId} (hpath : Path r.graph.edges 1 b) : b = 2 := by
    induction hpath with
    | single he => simpa using hedges _ he
    | tail _ he ih => simpa [ih] using hedges _ he
  rw [hclosed hpath] at hne
  cases hne

theorem written_words_depend_countingProgram :
    ∃ g r f l site word, collect countingProgram = .ok g ∧ (∀ f, ¬ g.IsRecursive f) ∧
      resolve { graph := g, nextIndex := 0 } = .ok () r ∧ f ∈ functions countingProgram ∧
      l ∈ f.body.loops f.region ∧ site ∈ (l.condition.layout l.outer).sites ∧
      WritesWithin countingProgram g site.callee word ∧ Path r.graph.edges 0 word := by
  obtain ⟨g, f, l, site, word, hg, hacyclic, hf, hl, hsite, hwrites, houter, _⟩ :=
    exists_countingProgram
  obtain ⟨r, hrun, hdepend⟩ := written_words_depend hg hacyclic 0
  have hpath := ((hdepend f hf).2 l hl site hsite).2 word hwrites
  rw [houter] at hpath
  exact ⟨g, r, f, l, site, word, hg, hacyclic, hrun, hf, hl, hsite, hwrites, hpath⟩

/-- What a call in the condition of a loop writes need not depend on the
condition. -/
theorem exists_not_path_condition :
    ∃ g r f l site word, collect countingProgram = .ok g ∧ (∀ f, ¬ g.IsRecursive f) ∧
      resolve { graph := g, nextIndex := 0 } = .ok () r ∧ f ∈ functions countingProgram ∧
      l ∈ f.body.loops f.region ∧ site ∈ (l.condition.layout l.outer).sites ∧
      WritesWithin countingProgram g site.callee word ∧
      ¬ Path r.graph.edges l.condition.node word := by
  obtain ⟨g, f, l, site, word, hg, hacyclic, hf, hl, hsite, hwrites, _, hpath⟩ :=
    exists_countingProgram
  obtain ⟨r, hrun, _⟩ := Resolver.exists_completes (collected_of_collect hg) hacyclic 0
  exact ⟨g, r, f, l, site, word, hg, hacyclic, hrun, hf, hl, hsite, hwrites, hpath r hrun⟩

end YulTaint.Execution
