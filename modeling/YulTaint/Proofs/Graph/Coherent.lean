import Mathlib.Tactic
import YulTaint.Proofs.Graph.Operations

/-!
The representation invariant of a graph. Every node belongs to the scope that
it names or is a shared memory word; a scope's parameters, sites and names are
its own nodes; its edges join its own nodes with each other or with shared
nodes; and the edges of the graph are those of its scopes.

Most operations grow one scope and touch nothing else. `Growth` says this once,
so that the invariant follows for all of them from one lemma.
-/

namespace YulTaint

namespace Graph

def IsShared (g : Graph) (id : NodeId) : Prop :=
  ∃ n, g.node? id = some n ∧ n.scope = none

def Owns (g : Graph) (sc : String) (id : NodeId) : Prop :=
  ∃ s, g.scope? sc = some s ∧ id ∈ s.nodes

def OwnsVariable (g : Graph) (sc : String) (id : NodeId) : Prop :=
  g.Owns sc id ∧ ∃ n, g.node? id = some n ∧ n.kind = .var

/-- Scopes keep their nodes, and nodes stay of their kind. -/
structure Keeps (g g' : Graph) : Prop where
  owns : ∀ sc id, g.Owns sc id → g'.Owns sc id
  kinds : ∀ id n, g.node? id = some n → ∃ n', g'.node? id = some n' ∧ n'.kind = n.kind

def KeepsOwners (g g' : Graph) : Prop :=
  ∀ id n, g.node? id = some n → ∃ n', g'.node? id = some n' ∧ n'.scope = n.scope

theorem IsShared.kept {g g' : Graph} {id : NodeId} (h : g.IsShared id)
    (hkeeps : g.KeepsOwners g') : g'.IsShared id := by
  obtain ⟨n, hn, hnone⟩ := h
  obtain ⟨n', hn', hscope⟩ := hkeeps id n hn
  exact ⟨n', hn', hscope.trans hnone⟩

end Graph

/-- A call site whose nodes are a scope's own. -/
structure CallSite.OwnedBy (site : CallSite) (s : Scope) : Prop where
  caller : site.caller = s.name
  arguments : ∀ id ∈ site.arguments, id ∈ s.nodes
  results : ∀ id ∈ site.results, id ∈ s.nodes
  block : site.block ∈ s.nodes

theorem CallSite.OwnedBy.mono {site : CallSite} {s s' : Scope} (h : site.OwnedBy s)
    (hname : s'.name = s.name) (hnodes : s.nodes ⊆ s'.nodes) : site.OwnedBy s' :=
  ⟨h.caller.trans hname.symm, fun id hid => hnodes (h.arguments id hid),
    fun id hid => hnodes (h.results id hid), hnodes h.block⟩

/-- An edge between a scope's own nodes, or between one of them and a shared
node. -/
structure Edge.Attached (e : Edge) (g : Graph) (s : Scope) : Prop where
  source : e.source ∈ s.nodes ∨ g.IsShared e.source
  target : e.target ∈ s.nodes ∨ g.IsShared e.target
  own : e.source ∈ s.nodes ∨ e.target ∈ s.nodes

theorem Edge.Attached.kept {e : Edge} {g g' : Graph} {s s' : Scope} (h : e.Attached g s)
    (hkeeps : g.KeepsOwners g') (hnodes : s.nodes ⊆ s'.nodes) : e.Attached g' s' where
  source := h.source.imp (fun hid => hnodes hid) fun hid => hid.kept hkeeps
  target := h.target.imp (fun hid => hnodes hid) fun hid => hid.kept hkeeps
  own := h.own.imp (fun hid => hnodes hid) fun hid => hnodes hid

structure Scope.Coherent (s : Scope) (g : Graph) : Prop where
  nodup : s.nodes.Nodup
  owns : ∀ id, id ∈ s.nodes ↔ ∃ n, g.node? id = some n ∧ n.scope = some s.name
  root : s.root ∈ s.nodes
  params : ∀ id ∈ s.params, id ∈ s.nodes
  returns : ∀ id ∈ s.returns, id ∈ s.nodes
  sites : ∀ site ∈ s.sites, site.OwnedBy s
  edges : ∀ e ∈ s.edges, e ∈ g.edges ∧ e.Attached g s
  names : ∀ entry ∈ s.names, entry.2 ∈ s.nodes

/-- A scope stays coherent if nodes keep their scopes and it gets no new ones. -/
theorem Scope.Coherent.frame {s : Scope} {g g' : Graph} (h : s.Coherent g)
    (hkeeps : g.KeepsOwners g')
    (hown : ∀ id n', g'.node? id = some n' → n'.scope = some s.name →
      ∃ n, g.node? id = some n ∧ n.scope = some s.name)
    (hedges : ∀ e ∈ g.edges, e ∈ g'.edges) : s.Coherent g' := by
  refine { h with owns := fun id => ?_, edges := fun e he => ?_ }
  · rw [h.owns id]
    constructor
    · rintro ⟨n, hn, hscope⟩
      obtain ⟨n', hn', hsame⟩ := hkeeps id n hn
      exact ⟨n', hn', hsame.trans hscope⟩
    · rintro ⟨n', hn', hscope⟩
      exact hown id n' hn' hscope
  · obtain ⟨hmem, hattached⟩ := h.edges e he
    exact ⟨hedges e hmem, hattached.kept hkeeps (List.Subset.refl _)⟩

structure Graph.Coherent (g : Graph) : Prop where
  names : g.scopeNames.Nodup
  scopes : ∀ name s, g.scope? name = some s → s.Coherent g
  owned : ∀ id n sc, g.node? id = some n → n.scope = some sc → sc ∈ g.scopeNames
  edges : ∀ e ∈ g.edges, ∃ name s, g.scope? name = some s ∧ e ∈ s.edges
  globals : ∀ name id, (name, id) ∈ g.globals →
    ∃ n, g.node? id = some n ∧ n.scope = none ∧ n.name = name
  origins : ∀ id n o, g.node? id = some n → n.origin = some o → o < id

namespace Graph

variable {id : NodeId} {s : Scope}

theorem IsShared.not_mem {g : Graph} (hs : s.Coherent g) (h : g.IsShared id) : id ∉ s.nodes := by
  intro hid
  obtain ⟨n, hn, hnone⟩ := h
  obtain ⟨m, hm, hsome⟩ := (hs.owns id).mp hid
  cases hn.symm.trans hm
  rw [hnone] at hsome
  cases hsome

theorem Coherent.lt_size {g : Graph} (hs : s.Coherent g) (h : id ∈ s.nodes) : id < g.size := by
  obtain ⟨n, hn, _⟩ := (hs.owns id).mp h
  exact lt_size_of_node? hn

theorem Keeps.refl (g : Graph) : g.Keeps g :=
  ⟨fun _ _ hid => hid, fun _ n hn => ⟨n, hn, rfl⟩⟩

theorem Keeps.trans {g g' g'' : Graph} (h : g.Keeps g') (h' : g'.Keeps g'') : g.Keeps g'' := by
  refine ⟨fun sc id hid => h'.owns sc id (h.owns sc id hid), ?_⟩
  intro id n hn
  obtain ⟨n', hn', hkind⟩ := h.kinds id n hn
  obtain ⟨n'', hn'', hkind'⟩ := h'.kinds id n' hn'
  exact ⟨n'', hn'', hkind'.trans hkind⟩

theorem Keeps.ownsVariable {g g' : Graph} (h : g.Keeps g') {sc : String}
    (hid : g.OwnsVariable sc id) : g'.OwnsVariable sc id := by
  obtain ⟨hown, n, hn, hkind⟩ := hid
  obtain ⟨n', hn', hkind'⟩ := h.kinds id n hn
  exact ⟨h.owns sc id hown, n', hn', hkind'.trans hkind⟩

theorem OwnsVariable.owns {g : Graph} {sc : String} (h : g.OwnsVariable sc id) :
    g.Owns sc id := h.1

theorem Owns.lt_size {g : Graph} (hg : g.Coherent) {sc : String} {id : NodeId}
    (h : g.Owns sc id) : id < g.size := by
  obtain ⟨s, hs, hid⟩ := h
  exact Coherent.lt_size (hg.scopes sc s hs) hid

theorem Owns.mem {g : Graph} {sc : String} (h : g.Owns sc id) (hs : g.scope? sc = some s) :
    id ∈ s.nodes := by
  obtain ⟨t, ht, hid⟩ := h
  cases hs.symm.trans ht
  exact hid

theorem IsShared.lt_size {g : Graph} (h : g.IsShared id) : id < g.size := by
  obtain ⟨n, hn, _⟩ := h
  exact lt_size_of_node? hn

/-- A coherent graph refers to nodes of its arena only. -/
theorem Coherent.wellFormed {g : Graph} (hg : g.Coherent) : g.WellFormed := by
  have hattached (s : Scope) (hs : s.Coherent g) (e : Edge) (he : e.Attached g s) :
      e.Within g.size := by
    constructor
    · rcases he.source with h | h
      · exact Coherent.lt_size hs h
      · exact h.lt_size
    · rcases he.target with h | h
      · exact Coherent.lt_size hs h
      · exact h.lt_size
  refine ⟨?_, ?_, ?_⟩
  · intro e he
    obtain ⟨name, s, hs, hes⟩ := hg.edges e he
    have hcoh := hg.scopes name s hs
    exact hattached s hcoh e (hcoh.edges e hes).2
  · intro s hs
    have hcoh := hg.scopes s.name s (scope?_of_mem hg.names hs)
    refine ⟨Coherent.lt_size hcoh hcoh.root, ?_, ?_, ?_, ?_, ?_, ?_⟩
    · exact fun id hid => Coherent.lt_size hcoh (hcoh.params id hid)
    · exact fun id hid => Coherent.lt_size hcoh (hcoh.returns id hid)
    · exact fun id hid => Coherent.lt_size hcoh hid
    · exact fun e he => hattached s hcoh e (hcoh.edges e he).2
    · intro site hsite
      have hown := hcoh.sites site hsite
      exact ⟨fun id hid => Coherent.lt_size hcoh (hown.arguments id hid),
        fun id hid => Coherent.lt_size hcoh (hown.results id hid),
        Coherent.lt_size hcoh hown.block⟩
    · exact fun entry hentry => Coherent.lt_size hcoh (hcoh.names entry hentry)
  · rintro ⟨name, id⟩ hentry
    obtain ⟨n, hn, _⟩ := hg.globals name id hentry
    exact lt_size_of_node? hn

/-- One graph comes from another by new nodes and edges of one scope. The new
nodes follow the old ones in the arena and in the scope's list. -/
structure Growth (sc : String) (g g' : Graph) : Prop where
  scopeNames : g'.scopeNames = g.scopeNames
  others : ∀ other, other ≠ sc → g'.scope? other = g.scope? other
  globals : g'.globals = g.globals
  size : g.size ≤ g'.size
  old : ∀ id, id < g.size → g'.node? id = g.node? id
  new : ∀ id n, g.size ≤ id → g'.node? id = some n →
    n.scope = some sc ∧ ∀ o, n.origin = some o → o < id
  scope : ∀ s, g.scope? sc = some s → ∃ s', g'.scope? sc = some s' ∧
    s'.root = s.root ∧ s'.nodes = s.nodes ++ List.range' g.size (g'.size - g.size) ∧
    (∀ e ∈ s.edges, e ∈ s'.edges) ∧
    ∀ e, e ∈ g'.edges ↔ e ∈ g.edges ∨ e ∈ s'.edges

section Growth

variable {sc : String} {g g' : Graph}

theorem Growth.node? (h : Growth sc g g') {id : NodeId} {n : FlowNode} (hn : g.node? id = some n) :
    g'.node? id = some n := by
  rw [h.old id (lt_size_of_node? hn), hn]

theorem Growth.keepsOwners (h : Growth sc g g') : g.KeepsOwners g' :=
  fun _ n hn => ⟨n, h.node? hn, rfl⟩

theorem Growth.isShared (h : Growth sc g g') {id : NodeId} (hid : g.IsShared id) :
    g'.IsShared id :=
  hid.kept h.keepsOwners

/-- A node is old, or it is one of the scope that grows. -/
theorem Growth.node?_cases (h : Growth sc g g') {id : NodeId} {n : FlowNode}
    (hn : g'.node? id = some n) :
    g.node? id = some n ∨
      g.size ≤ id ∧ n.scope = some sc ∧ ∀ o, n.origin = some o → o < id := by
  rcases Nat.lt_or_ge id g.size with hlt | hge
  · exact Or.inl ((h.old id hlt).symm.trans hn)
  · exact Or.inr ⟨hge, h.new id n hge hn⟩

theorem Growth.owns (h : Growth sc g g') {other : String} {id : NodeId} (hid : g.Owns other id) :
    g'.Owns other id := by
  obtain ⟨s, hs, hmem⟩ := hid
  by_cases hother : other = sc
  · subst hother
    obtain ⟨s', hs', _, hnodes, _⟩ := h.scope s hs
    exact ⟨s', hs', by simp [hnodes, hmem]⟩
  · exact ⟨s, by rw [h.others other hother, hs], hmem⟩

theorem Growth.keeps (h : Growth sc g g') : g.Keeps g' :=
  ⟨fun _ _ hid => h.owns hid, fun _ n hn => ⟨n, h.node? hn, rfl⟩⟩

theorem Growth.refl (hg : ∀ s, g.scope? sc = some s → ∀ e ∈ s.edges, e ∈ g.edges) :
    Growth sc g g where
  scopeNames := rfl
  others _ _ := rfl
  globals := rfl
  size := Nat.le_refl _
  old _ _ := rfl
  new _ _ hle hn := absurd (lt_size_of_node? hn) (Nat.not_lt.mpr hle)
  scope s hs := ⟨s, hs, rfl, by simp, fun _ he => he, fun e => by
    constructor
    · exact Or.inl
    · rintro (he | he)
      · exact he
      · exact hg s hs e he⟩

theorem Growth.trans {g'' : Graph} (h : Growth sc g g') (h' : Growth sc g' g'') :
    Growth sc g g'' where
  scopeNames := h'.scopeNames.trans h.scopeNames
  others other hother := (h'.others other hother).trans (h.others other hother)
  globals := h'.globals.trans h.globals
  size := h.size.trans h'.size
  old id hid := (h'.old id (hid.trans_le h.size)).trans (h.old id hid)
  new id n hle hn := by
    rcases Nat.lt_or_ge id g'.size with hlt | hge
    · rw [h'.old id hlt] at hn
      exact h.new id n hle hn
    · exact h'.new id n hge hn
  scope s hs := by
    obtain ⟨s', hs', hroot, hnodes, hsub, hedges⟩ := h.scope s hs
    obtain ⟨s'', hs'', hroot', hnodes', hsub', hedges'⟩ := h'.scope s' hs'
    refine ⟨s'', hs'', hroot'.trans hroot, ?_, fun e he => hsub' e (hsub e he), ?_⟩
    · have h₁ := h.size
      have h₂ := h'.size
      rw [hnodes', hnodes, List.append_assoc]
      congr 1
      have hsplit : g''.size - g.size = (g'.size - g.size) + (g''.size - g'.size) := by omega
      have hstart : g.size + (g'.size - g.size) = g'.size := by omega
      rw [hsplit, ← List.range'_append_1, hstart]
    · intro e
      rw [hedges', hedges]
      constructor
      · rintro ((he | he) | he)
        · exact Or.inl he
        · exact Or.inr (hsub' e he)
        · exact Or.inr he
      · rintro (he | he)
        · exact Or.inl (Or.inl he)
        · exact Or.inr he

/-- The scope that grows stays coherent if its new entries are its own nodes and its
new edges are attached to it. -/
theorem Growth.coherent_scope (h : Growth sc g g') {s s' : Scope} (hcoh : s.Coherent g)
    (hs : g.scope? sc = some s) (hs' : g'.scope? sc = some s')
    (hparams : ∀ id ∈ s'.params, id ∈ s'.nodes) (hreturns : ∀ id ∈ s'.returns, id ∈ s'.nodes)
    (hsites : ∀ site ∈ s'.sites, site.OwnedBy s') (hnames : ∀ entry ∈ s'.names, entry.2 ∈ s'.nodes)
    (hedges : ∀ e ∈ s'.edges, e ∈ s.edges ∨ e.Attached g' s') : s'.Coherent g' := by
  obtain ⟨t, ht, hroot, hnodes, _, hall⟩ := h.scope s hs
  cases hs'.symm.trans ht
  have hnew (id : Nat) : id ∈ List.range' g.size (g'.size - g.size) ↔
      g.size ≤ id ∧ id < g'.size := by
    have := h.size
    rw [List.mem_range'_1]
    omega
  have hmono : s.nodes ⊆ s'.nodes := hnodes ▸ List.subset_append_left _ _
  refine ⟨?_, ?_, hroot ▸ hmono hcoh.root, hparams, hreturns, hsites, ?_, hnames⟩
  · rw [hnodes, List.nodup_append]
    refine ⟨hcoh.nodup, List.nodup_range', ?_⟩
    rintro a ha b hb rfl
    exact Nat.lt_irrefl _ ((Coherent.lt_size hcoh ha).trans_le ((hnew a).mp hb).1)
  · intro id
    rw [hnodes, List.mem_append, hnew, hcoh.owns id, name_of_scope? hs, name_of_scope? hs']
    constructor
    · rintro (⟨n, hn, hsc⟩ | ⟨hge, hlt⟩)
      · exact ⟨n, h.node? hn, hsc⟩
      · obtain ⟨n, hn⟩ := node?_isSome hlt
        exact ⟨n, hn, (h.new id n hge hn).1⟩
    · rintro ⟨n, hn, hsc⟩
      rcases h.node?_cases hn with hold | ⟨hge, _⟩
      · exact Or.inl ⟨n, hold, hsc⟩
      · exact Or.inr ⟨hge, lt_size_of_node? hn⟩
  · intro e he
    refine ⟨(hall e).mpr (Or.inr he), (hedges e he).elim (fun hold => ?_) id⟩
    exact (hcoh.edges e hold).2.kept h.keepsOwners hmono

/-- Every other scope stays as it is. -/
theorem Growth.coherent_other (h : Growth sc g g') {s t : Scope} {name : String}
    (ht : t.Coherent g) (hs : g.scope? sc = some s) (hname : t.name = name) (hne : name ≠ sc) :
    t.Coherent g' := by
  obtain ⟨_, _, _, _, _, hall⟩ := h.scope s hs
  refine ht.frame h.keepsOwners (fun id n hn hown => ?_) fun e he => (hall e).mpr (Or.inl he)
  rcases h.node?_cases hn with hold | ⟨_, hscope, _⟩
  · exact ⟨n, hold, hown⟩
  · rw [hown, Option.some.injEq, hname] at hscope
    exact absurd hscope hne

/-- A growth keeps the invariant if it keeps the scope that grows coherent. -/
theorem Coherent.of_growth (hg : g.Coherent) (h : Growth sc g g') {s s' : Scope}
    (hs : g.scope? sc = some s) (hs' : g'.scope? sc = some s')
    (hparams : ∀ id ∈ s'.params, id ∈ s'.nodes) (hreturns : ∀ id ∈ s'.returns, id ∈ s'.nodes)
    (hsites : ∀ site ∈ s'.sites, site.OwnedBy s') (hnames : ∀ entry ∈ s'.names, entry.2 ∈ s'.nodes)
    (hedges : ∀ e ∈ s'.edges, e ∈ s.edges ∨ e.Attached g' s') : g'.Coherent := by
  obtain ⟨t, ht, _, _, hsub, hall⟩ := h.scope s hs
  cases hs'.symm.trans ht
  refine ⟨by rw [h.scopeNames]; exact hg.names, ?_, ?_, ?_, ?_, ?_⟩
  · intro name u hu
    by_cases hsc : name = sc
    · subst hsc
      cases hs'.symm.trans hu
      exact h.coherent_scope (hg.scopes name s hs) hs hs' hparams hreturns hsites hnames hedges
    · rw [h.others name hsc] at hu
      exact h.coherent_other (hg.scopes name u hu) hs (name_of_scope? hu) hsc
  · intro id n other hn hother
    rw [h.scopeNames]
    rcases h.node?_cases hn with hold | ⟨_, hown, _⟩
    · exact hg.owned id n other hold hother
    · rw [hother, Option.some.injEq] at hown
      exact hown ▸ mem_scopeNames.mpr ⟨s, hs⟩
  · intro e he
    rcases (hall e).mp he with hold | hnew
    · obtain ⟨name, u, hu, heu⟩ := hg.edges e hold
      by_cases hsc : name = sc
      · subst hsc
        cases hs.symm.trans hu
        exact ⟨name, s', hs', hsub e heu⟩
      · exact ⟨name, u, by rw [h.others name hsc, hu], heu⟩
    · exact ⟨sc, s', hs', hnew⟩
  · intro name id hentry
    rw [h.globals] at hentry
    obtain ⟨n, hn, hnone, hname⟩ := hg.globals name id hentry
    exact ⟨n, h.node? hn, hnone, hname⟩
  · intro id n o hn ho
    rcases h.node?_cases hn with hold | ⟨_, _, horigin⟩
    · exact hg.origins id n o hold ho
    · exact horigin o ho

end Growth

end Graph

end YulTaint
