import Mathlib.Tactic
import YulTaint.Proofs.Graph.Coherent
import YulTaint.Proofs.Lists

/-!
The operations that the walk over a scope performs are growths of that scope
and keep the graph coherent.
-/

namespace YulTaint.Graph

variable {g : Graph} {sc : String} {s : Scope}

theorem Coherent.growth_refl (hg : g.Coherent) (sc : String) : Growth sc g g :=
  Growth.refl fun s hs e he => ((hg.scopes sc s hs).edges e he).1

/-- A change of a scope's entries other than nodes and edges. -/
theorem Coherent.growth_modifyScope (hg : g.Coherent) (sc : String) {f : Scope → Scope}
    (hname : ∀ s, (f s).name = s.name) (hroot : ∀ s, (f s).root = s.root)
    (hnodes : ∀ s, (f s).nodes = s.nodes) (hedges : ∀ s, (f s).edges = s.edges) :
    Growth sc g (g.modifyScope sc f) where
  scopeNames := scopeNames_modifyScope g sc hname
  others other hother := by rw [scope?_modifyScope g sc other hname, if_neg hother]
  globals := rfl
  size := Nat.le_refl _
  old _ _ := rfl
  new _ _ hle hn := absurd (lt_size_of_node? hn) (Nat.not_lt.mpr hle)
  scope s hs := by
    refine ⟨f s, by rw [scope?_modifyScope g sc sc hname, if_pos rfl, hs]; rfl,
      hroot s, by simp [hnodes], fun e he => by rwa [hedges], ?_⟩
    intro e
    rw [hedges]
    constructor
    · exact Or.inl
    · rintro (he | he)
      · exact he
      · exact ((hg.scopes sc s hs).edges e he).1

/-- A new node at the end of a scope's list. -/
theorem Coherent.growth_push (hg : g.Coherent) {n : FlowNode} (hn : n.scope = some sc)
    (horigin : ∀ o, n.origin = some o → o < g.size) {f : Scope → Scope}
    (hname : ∀ s, (f s).name = s.name) (hroot : ∀ s, (f s).root = s.root)
    (hnodes : ∀ s, (f s).nodes = s.nodes ++ [g.size]) (hedges : ∀ s, (f s).edges = s.edges) :
    Growth sc g ((g.push n).modifyScope sc f) where
  scopeNames := scopeNames_modifyScope (g.push n) sc hname
  others other hother := by
    rw [scope?_modifyScope (g.push n) sc other hname, if_neg hother, scope?_push]
  globals := rfl
  size := by simp
  old id hlt := by
    rw [node?_modifyScope, node?_push, if_neg (Nat.ne_of_lt hlt)]
  new id m hle hm := by
    rw [node?_modifyScope, node?_push] at hm
    split at hm
    · rename_i heq
      obtain rfl : n = m := Option.some.inj hm
      exact ⟨hn, fun o ho => heq ▸ horigin o ho⟩
    · exact absurd (lt_size_of_node? hm) (Nat.not_lt.mpr hle)
  scope s hs := by
    refine ⟨f s, by rw [scope?_modifyScope (g.push n) sc sc hname, if_pos rfl, scope?_push, hs]; rfl,
      hroot s, by simp [hnodes], fun e he => by rwa [hedges], ?_⟩
    intro e
    rw [hedges]
    constructor
    · exact Or.inl
    · rintro (he | he)
      · exact he
      · exact ((hg.scopes sc s hs).edges e he).1

theorem scope?_addEdge_self (hs : g.scope? sc = some s) (a b : NodeId) :
    (g.addEdge sc a b).scope? sc = some { s with edges := insertEdge ⟨a, b⟩ s.edges } := by
  rw [scope?_addEdge, if_pos rfl, hs]
  rfl

theorem Coherent.growth_addEdge (hg : g.Coherent) (hs : g.scope? sc = some s) (a b : NodeId) :
    Growth sc g (g.addEdge sc a b) where
  scopeNames := scopeNames_addEdge g sc a b
  others other hother := by rw [scope?_addEdge, if_neg hother]
  globals := rfl
  size := Nat.le_refl _
  old _ _ := rfl
  new _ _ hle hn := absurd (lt_size_of_node? hn) (Nat.not_lt.mpr hle)
  scope t ht := by
    cases hs.symm.trans ht
    refine ⟨_, scope?_addEdge_self hs a b, rfl, by simp, ?_, ?_⟩
    · intro e he
      exact (mem_insertEdge e _ _).mpr (Or.inr he)
    · intro e
      rw [mem_edges_addEdge, mem_insertEdge]
      constructor
      · rintro (rfl | he)
        · exact Or.inr (Or.inl rfl)
        · exact Or.inl he
      · rintro (he | rfl | he)
        · exact Or.inr he
        · exact Or.inl rfl
        · exact Or.inr ((hg.scopes sc s hs).edges e he).1

theorem Coherent.addEdge (hg : g.Coherent) (hs : g.scope? sc = some s) {a b : NodeId}
    (he : Edge.Attached ⟨a, b⟩ g s) : (g.addEdge sc a b).Coherent := by
  have hcoh := hg.scopes sc s hs
  refine hg.of_growth (hg.growth_addEdge hs a b) hs (scope?_addEdge_self hs a b)
    hcoh.params hcoh.returns ?_ hcoh.names ?_
  · exact fun site hsite => (hcoh.sites site hsite).mono rfl (List.Subset.refl _)
  · intro e hmem
    rcases (mem_insertEdge e _ _).mp hmem with rfl | hold
    · exact Or.inr ⟨he.source, he.target, he.own⟩
    · exact Or.inl hold

theorem Coherent.growth_addVariable (hg : g.Coherent) (sc name : String) (loc : Option Loc) :
    Growth sc g (g.addVariable sc name loc) :=
  hg.growth_push rfl (by simp) (fun _ => rfl) (fun _ => rfl) (fun _ => rfl)
    (fun _ => rfl)

theorem Coherent.growth_addBlock (hg : g.Coherent) (sc name : String) (loc : Option Loc) :
    Growth sc g (g.addBlock sc name loc) :=
  hg.growth_push rfl (by simp) (fun _ => rfl) (fun _ => rfl) (fun _ => rfl)
    (fun _ => rfl)

/-- A name stands for what it was bound to last. -/
theorem lookup_bindName (name x : String) (id : NodeId) (names : List (String × NodeId)) :
    (bindName name id names).lookup x = if x = name then some id else names.lookup x := by
  induction names with
  | nil =>
    rw [bindName]
    split
    · rename_i hname
      rw [hname, List.lookup_cons_self]
    · rename_i hname
      rw [lookup_cons_of_ne hname]
  | cons first rest ih =>
    obtain ⟨bound, old⟩ := first
    by_cases hbound : bound = name
    · rw [bindName, if_pos hbound, hbound]
      split
      · rename_i hname
        rw [hname, List.lookup_cons_self]
      · rename_i hname
        rw [lookup_cons_of_ne hname, lookup_cons_of_ne hname]
    · rw [bindName, if_neg hbound]
      by_cases hx : x = bound
      · rw [hx, List.lookup_cons_self, List.lookup_cons_self, if_neg hbound]
      · rw [lookup_cons_of_ne hx, lookup_cons_of_ne hx, ih]

theorem mem_bindName {name : String} {id : NodeId} {names : List (String × NodeId)}
    {entry : String × NodeId} (h : entry ∈ bindName name id names) :
    entry = (name, id) ∨ entry ∈ names := by
  induction names with
  | nil => simpa [bindName] using h
  | cons first rest ih =>
    obtain ⟨other, old⟩ := first
    simp only [bindName] at h
    split at h
    · rcases List.mem_cons.mp h with rfl | h
      · exact Or.inl rfl
      · exact Or.inr (List.mem_cons_of_mem _ h)
    · rcases List.mem_cons.mp h with rfl | h
      · exact Or.inr (by simp)
      · exact (ih h).imp_right (List.mem_cons_of_mem _)

theorem scope?_addVariable_self (hs : g.scope? sc = some s) (name : String) (loc : Option Loc) :
    (g.addVariable sc name loc).scope? sc =
      some { s with nodes := s.nodes ++ [g.size], names := bindName name g.size s.names } := by
  rw [scope?_addVariable, if_pos rfl, hs]
  rfl

theorem Coherent.addVariable (hg : g.Coherent) (hs : g.scope? sc = some s) (name : String)
    (loc : Option Loc) : (g.addVariable sc name loc).Coherent := by
  have hcoh := hg.scopes sc s hs
  refine hg.of_growth (hg.growth_addVariable sc name loc) hs
    (scope?_addVariable_self hs name loc) ?_ ?_ ?_ ?_ ?_
  · exact fun id hid => List.mem_append_left _ (hcoh.params id hid)
  · exact fun id hid => List.mem_append_left _ (hcoh.returns id hid)
  · exact fun site hsite => (hcoh.sites site hsite).mono rfl (List.subset_append_left _ _)
  · intro entry hentry
    rcases mem_bindName hentry with rfl | hold
    · simp
    · exact List.mem_append_left _ (hcoh.names entry hold)
  · exact fun e he => Or.inl he

theorem scope?_addBlock_self (hs : g.scope? sc = some s) (name : String) (loc : Option Loc) :
    (g.addBlock sc name loc).scope? sc = some { s with nodes := s.nodes ++ [g.size] } := by
  rw [scope?_addBlock, if_pos rfl, hs]
  rfl

theorem Coherent.addBlock (hg : g.Coherent) (hs : g.scope? sc = some s) (name : String)
    (loc : Option Loc) : (g.addBlock sc name loc).Coherent := by
  have hcoh := hg.scopes sc s hs
  refine hg.of_growth (hg.growth_addBlock sc name loc) hs
    (scope?_addBlock_self hs name loc) ?_ ?_ ?_ ?_ ?_
  · exact fun id hid => List.mem_append_left _ (hcoh.params id hid)
  · exact fun id hid => List.mem_append_left _ (hcoh.returns id hid)
  · exact fun site hsite => (hcoh.sites site hsite).mono rfl (List.subset_append_left _ _)
  · exact fun entry hentry => List.mem_append_left _ (hcoh.names entry hentry)
  · exact fun e he => Or.inl he

theorem Coherent.growth_addSite (hg : g.Coherent) (site : CallSite) :
    Growth site.caller g (g.addSite site) :=
  hg.growth_modifyScope _ (fun _ => rfl) (fun _ => rfl) (fun _ => rfl) (fun _ => rfl)

theorem scope?_addSite_self {site : CallSite} (hs : g.scope? site.caller = some s) :
    (g.addSite site).scope? site.caller = some { s with sites := s.sites ++ [site] } := by
  rw [scope?_addSite, if_pos rfl, hs]
  rfl

theorem Coherent.addSite (hg : g.Coherent) {site : CallSite} (hs : g.scope? site.caller = some s)
    (hsite : site.OwnedBy s) : (g.addSite site).Coherent := by
  have hcoh := hg.scopes _ s hs
  refine hg.of_growth (hg.growth_addSite site) hs (scope?_addSite_self hs)
    hcoh.params hcoh.returns ?_ hcoh.names (fun e he => Or.inl he)
  intro other hother
  have hown : other.OwnedBy s := by
    rcases List.mem_append.mp hother with hold | hnew
    · exact hcoh.sites other hold
    · rw [List.mem_singleton.mp hnew]
      exact hsite
  exact hown.mono rfl (List.Subset.refl _)

theorem Coherent.growth_addParam (hg : g.Coherent) (sc : String) (id : NodeId) :
    Growth sc g (g.addParam sc id) :=
  hg.growth_modifyScope _ (fun _ => rfl) (fun _ => rfl) (fun _ => rfl) (fun _ => rfl)

theorem scope?_addParam_self (hs : g.scope? sc = some s) (id : NodeId) :
    (g.addParam sc id).scope? sc = some { s with params := s.params ++ [id] } := by
  rw [scope?_addParam, if_pos rfl, hs]
  rfl

theorem Coherent.addParam (hg : g.Coherent) (hs : g.scope? sc = some s) {id : NodeId}
    (hid : id ∈ s.nodes) : (g.addParam sc id).Coherent := by
  have hcoh := hg.scopes _ s hs
  refine hg.of_growth (hg.growth_addParam sc id) hs (scope?_addParam_self hs id)
    ?_ hcoh.returns ?_ hcoh.names (fun e he => Or.inl he)
  · intro x hx
    rcases List.mem_append.mp hx with hold | hnew
    · exact hcoh.params x hold
    · rw [List.mem_singleton.mp hnew]
      exact hid
  · exact fun site hsite => (hcoh.sites site hsite).mono rfl (List.Subset.refl _)

theorem Coherent.growth_addReturn (hg : g.Coherent) (sc : String) (id : NodeId) :
    Growth sc g (g.addReturn sc id) :=
  hg.growth_modifyScope _ (fun _ => rfl) (fun _ => rfl) (fun _ => rfl) (fun _ => rfl)

theorem scope?_addReturn_self (hs : g.scope? sc = some s) (id : NodeId) :
    (g.addReturn sc id).scope? sc = some { s with returns := s.returns ++ [id] } := by
  rw [scope?_addReturn, if_pos rfl, hs]
  rfl

theorem Coherent.addReturn (hg : g.Coherent) (hs : g.scope? sc = some s) {id : NodeId}
    (hid : id ∈ s.nodes) : (g.addReturn sc id).Coherent := by
  have hcoh := hg.scopes _ s hs
  refine hg.of_growth (hg.growth_addReturn sc id) hs
    (scope?_addReturn_self hs id) hcoh.params ?_ ?_ hcoh.names
    (fun e he => Or.inl he)
  · intro x hx
    rcases List.mem_append.mp hx with hold | hnew
    · exact hcoh.returns x hold
    · rw [List.mem_singleton.mp hnew]
      exact hid
  · exact fun site hsite => (hcoh.sites site hsite).mono rfl (List.Subset.refl _)

section AddScope

variable {name : String}

theorem owns_addScope (hfree : name ∉ g.scopeNames) (loc : Option Loc) {other : String}
    {id : NodeId} (h : g.Owns other id) : (g.addScope name loc).Owns other id := by
  obtain ⟨t, ht, hid⟩ := h
  have hne : other ≠ name := by
    rintro rfl
    exact hfree (mem_scopeNames.mpr ⟨t, ht⟩)
  exact ⟨t, by rw [scope?_addScope hfree, if_neg hne, ht], hid⟩

theorem keeps_addScope (hfree : name ∉ g.scopeNames) (loc : Option Loc) :
    g.Keeps (g.addScope name loc) := by
  refine ⟨fun sc id hid => owns_addScope hfree loc hid, ?_⟩
  intro id n hn
  refine ⟨n, ?_, rfl⟩
  rw [node?_addScope, if_neg (Nat.ne_of_lt (lt_size_of_node? hn)), hn]

theorem owns_root_addScope (hfree : name ∉ g.scopeNames) (loc : Option Loc) :
    (g.addScope name loc).Owns name g.size :=
  ⟨g.emptyScope name, by rw [scope?_addScope hfree, if_pos rfl], List.mem_singleton.mpr rfl⟩

theorem node?_addScope_cases {loc : Option Loc} {id : NodeId} {n : FlowNode}
    (hn : (g.addScope name loc).node? id = some n) :
    g.node? id = some n ∨ id = g.size ∧ n.scope = some name ∧ n.origin = none := by
  rw [node?_addScope] at hn
  split at hn
  · rename_i hid
    cases hn
    exact Or.inr ⟨hid, rfl, rfl⟩
  · exact Or.inl hn

theorem Coherent.addScope_empty (hg : g.Coherent) (hfree : name ∉ g.scopeNames)
    (loc : Option Loc) : (g.emptyScope name).Coherent (g.addScope name loc) := by
  refine ⟨List.nodup_singleton _, fun id => ?_, List.mem_singleton.mpr rfl, by simp [emptyScope],
    by simp [emptyScope], by simp [emptyScope], by simp [emptyScope], by simp [emptyScope]⟩
  rw [emptyScope, List.mem_singleton]
  constructor
  · rintro rfl
    exact ⟨_, by rw [node?_addScope, if_pos rfl], rfl⟩
  · rintro ⟨n, hn, hown⟩
    rcases node?_addScope_cases hn with hold | ⟨hid, _⟩
    · exact absurd (hg.owned id n name hold hown) hfree
    · exact hid

/-- A scope with a new name keeps the graph coherent. -/
theorem Coherent.addScope (hg : g.Coherent) (hfree : name ∉ g.scopeNames) (loc : Option Loc) :
    (g.addScope name loc).Coherent := by
  have hold {id : NodeId} {n : FlowNode} (hn : g.node? id = some n) :
      (g.addScope name loc).node? id = some n := by
    rw [node?_addScope, if_neg (Nat.ne_of_lt (lt_size_of_node? hn)), hn]
  refine ⟨?_, ?_, ?_, ?_, ?_, ?_⟩
  · rw [scopeNames_addScope hfree, List.nodup_append]
    refine ⟨hg.names, List.nodup_singleton name, ?_⟩
    rintro a ha b hb rfl
    exact hfree (List.mem_singleton.mp hb ▸ ha)
  · intro other t ht
    rw [scope?_addScope hfree] at ht
    by_cases hother : other = name
    · rw [if_pos hother] at ht
      cases ht
      exact hg.addScope_empty hfree loc
    · rw [if_neg hother] at ht
      refine (hg.scopes other t ht).frame (fun _ n hn => ⟨n, hold hn, rfl⟩) (fun id n hn hown => ?_)
        fun _ he => he
      rcases node?_addScope_cases hn with hn | ⟨_, hscope, _⟩
      · exact ⟨n, hn, hown⟩
      · rw [hown, Option.some.injEq, name_of_scope? ht] at hscope
        exact absurd hscope hother
  · intro id n sc hn hown
    rw [scopeNames_addScope hfree, List.mem_append]
    rcases node?_addScope_cases hn with hn | ⟨_, hscope, _⟩
    · exact Or.inl (hg.owned id n sc hn hown)
    · rw [hown, Option.some.injEq] at hscope
      exact Or.inr (List.mem_singleton.mpr hscope)
  · intro e he
    obtain ⟨other, t, ht, het⟩ := hg.edges e he
    have hne : other ≠ name := by
      rintro rfl
      exact hfree (mem_scopeNames.mpr ⟨t, ht⟩)
    exact ⟨other, t, by rw [scope?_addScope hfree, if_neg hne, ht], het⟩
  · intro other id hentry
    obtain ⟨n, hn, hnone, hname⟩ := hg.globals other id hentry
    exact ⟨n, hold hn, hnone, hname⟩
  · intro id n o hn ho
    rcases node?_addScope_cases hn with hn | ⟨_, _, hnone⟩
    · exact hg.origins id n o hn ho
    · cases hnone.symm.trans ho

end AddScope

end YulTaint.Graph
