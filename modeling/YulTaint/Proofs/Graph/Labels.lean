import Mathlib.Tactic
import YulTaint.Proofs.Graph.Growth

/-!
The tables of names. A scope whose table lists its variables, each under the
name that it carries and no name twice, finds a variable by its name and nothing
else. Whatever grows the scope keeps this as long as it binds new names only.
-/

namespace YulTaint

def bindNames (entries names : List (String × NodeId)) : List (String × NodeId) :=
  entries.foldl (fun names entry => bindName entry.1 entry.2 names) names

theorem bindNames_cons (name : String) (id : NodeId) (rest names : List (String × NodeId)) :
    bindNames ((name, id) :: rest) names = bindNames rest (bindName name id names) := rfl

theorem bindName_of_not_mem {name : String} {id : NodeId} {names : List (String × NodeId)}
    (h : name ∉ names.map (·.1)) : bindName name id names = names ++ [(name, id)] := by
  induction names with
  | nil => rfl
  | cons entry rest ih =>
    obtain ⟨hne, hrest⟩ := not_or.mp (List.mem_cons.not.mp h)
    rw [bindName, if_neg (Ne.symm hne), ih hrest]
    rfl

theorem map_fst_bindName (name : String) (id : NodeId) (names : List (String × NodeId)) :
    (bindName name id names).map (·.1) =
      if name ∈ names.map (·.1) then names.map (·.1) else names.map (·.1) ++ [name] := by
  induction names with
  | nil => rfl
  | cons entry rest ih =>
    rw [bindName]
    by_cases heq : entry.1 = name
    · simp [heq]
    · have hne : name ≠ entry.1 := fun h => heq h.symm
      rw [if_neg heq, List.map_cons, ih, List.map_cons]
      by_cases hmem : name ∈ rest.map (·.1)
      · rw [if_pos hmem, if_pos (List.mem_cons_of_mem _ hmem)]
      · rw [if_neg hmem, if_neg (List.not_mem_cons_of_ne_of_not_mem hne hmem)]
        rfl

/-- Names that are new are appended, in order. -/
theorem bindNames_of_nodup {entries names : List (String × NodeId)}
    (h : ((names ++ entries).map (·.1)).Nodup) : bindNames entries names = names ++ entries := by
  induction entries generalizing names with
  | nil => rw [bindNames, List.foldl_nil, List.append_nil]
  | cons entry rest ih =>
    have hsplit : names ++ entry :: rest = (names ++ [entry]) ++ rest := by simp
    have hfresh : entry.1 ∉ names.map (·.1) := by
      rw [List.map_append, List.nodup_append] at h
      exact fun hmem => h.2.2 _ hmem entry.1 (by simp) rfl
    rw [hsplit] at h ⊢
    rw [← ih h, bindNames_cons, bindName_of_not_mem hfresh]

/-- Names that are bound already keep their places, and new ones follow. -/
theorem keys_prefix_bindNames (entries names : List (String × NodeId)) :
    names.map (·.1) <+: (bindNames entries names).map (·.1) := by
  induction entries generalizing names with
  | nil => exact List.prefix_rfl
  | cons entry rest ih =>
    refine List.IsPrefix.trans ?_ (ih (bindName entry.1 entry.2 names))
    rw [map_fst_bindName]
    split
    · exact List.prefix_rfl
    · exact List.prefix_append _ _

/-- With no name listed twice, a name is found with what it is listed with. -/
theorem lookup_eq_some_iff {names : List (String × NodeId)} (h : (names.map (·.1)).Nodup)
    {name : String} {id : NodeId} : names.lookup name = some id ↔ (name, id) ∈ names := by
  refine ⟨mem_of_lookup_eq_some, fun hmem => ?_⟩
  induction names with
  | nil => cases hmem
  | cons entry rest ih =>
    obtain ⟨hfirst, hrest⟩ := List.nodup_cons.mp h
    rcases List.mem_cons.mp hmem with rfl | hmem
    · exact List.lookup_cons_self
    · have hne : name ≠ entry.1 := fun heq =>
        hfirst (List.mem_map.mpr ⟨(name, id), hmem, heq⟩)
      exact (lookup_cons_of_ne hne).trans (ih hrest hmem)

namespace Graph

def entries (g : Graph) (ids : List NodeId) : List (String × NodeId) :=
  ids.filterMap fun id =>
    (g.node? id).bind fun n => if n.kind = .var then some (n.name, id) else none

variable {g g' : Graph} {ids : List NodeId} {sc name : String} {id : NodeId}

theorem mem_entries : (name, id) ∈ g.entries ids ↔
    id ∈ ids ∧ ∃ n, g.node? id = some n ∧ n.kind = .var ∧ n.name = name := by
  simp only [entries, List.mem_filterMap, Option.bind_eq_some_iff]
  constructor
  · rintro ⟨id', hid, n, hn, hentry⟩
    split at hentry
    · rename_i hkind
      cases hentry
      exact ⟨hid, n, hn, hkind, rfl⟩
    · cases hentry
  · rintro ⟨hid, n, hn, hkind, rfl⟩
    exact ⟨id, hid, n, hn, if_pos hkind⟩

theorem entries_append (g : Graph) (ids more : List NodeId) :
    g.entries (ids ++ more) = g.entries ids ++ g.entries more :=
  List.filterMap_append

theorem entries_cons_var {n : FlowNode} (hn : g.node? id = some n) (hkind : n.kind = .var)
    (ids : List NodeId) : g.entries (id :: ids) = (n.name, id) :: g.entries ids := by
  simp [entries, hn, hkind]

theorem entries_cons_block {n : FlowNode} (hn : g.node? id = some n) (hkind : n.kind = .block)
    (ids : List NodeId) : g.entries (id :: ids) = g.entries ids := by
  simp [entries, hn, hkind]

/-- Only kinds and names count. -/
theorem entries_congr (h : ∀ id ∈ ids, (g'.node? id).map (fun n => (n.kind, n.name)) =
    (g.node? id).map fun n => (n.kind, n.name)) : g'.entries ids = g.entries ids := by
  refine List.filterMap_congr fun id hid => ?_
  have hsame := h id hid
  cases hn' : g'.node? id with
  | none =>
    rw [hn', Option.map_none, eq_comm, Option.map_eq_none_iff] at hsame
    rw [hsame]
  | some n' =>
    rw [hn', Option.map_some] at hsame
    obtain ⟨n, hn, heq⟩ := Option.map_eq_some_iff.mp hsame.symm
    obtain ⟨hkind, hname⟩ := Prod.mk.inj heq
    simp only [hn, Option.bind_some, hkind, hname]

end Graph

/-- The table of a scope lists its variables, each with its name and no name
twice. -/
structure Scope.Labels (s : Scope) (g : Graph) : Prop where
  names : s.names = g.entries s.nodes
  distinct : (s.names.map (·.1)).Nodup

namespace Graph

def Labelled (g : Graph) : Prop :=
  ∀ name s, g.scope? name = some s → s.Labels g

variable {g g' : Graph} {sc : String}

/-- A growth that binds the new variables to new names. -/
theorem Labelled.growth (h : g.Labelled) (hg : g.Coherent) (hgrowth : Growth sc g g')
    (hnames : ∀ s s', g.scope? sc = some s → g'.scope? sc = some s' →
      s'.names = s.names ++ g'.entries (List.range' g.size (g'.size - g.size)) ∧
        (s'.names.map (·.1)).Nodup) : g'.Labelled := by
  have hold {name : String} {s : Scope} (hs : g.scope? name = some s) :
      g'.entries s.nodes = g.entries s.nodes :=
    entries_congr fun id hid => by
      rw [hgrowth.old id (Coherent.lt_size (hg.scopes name s hs) hid)]
  intro name s' hs'
  by_cases hname : name = sc
  · subst hname
    obtain ⟨s, hs⟩ := mem_scopeNames.mp (hgrowth.scopeNames ▸ mem_scopeNames.mpr ⟨s', hs'⟩)
    obtain ⟨hsame, hdistinct⟩ := hnames s s' hs hs'
    obtain ⟨t, ht, _, hnodes, _⟩ := hgrowth.scope s hs
    cases hs'.symm.trans ht
    refine ⟨?_, hdistinct⟩
    rw [hsame, hnodes, entries_append, hold hs, (h name s hs).names]
  · rw [hgrowth.others name hname] at hs'
    exact ⟨(h name s' hs').names.trans (hold hs').symm, (h name s' hs').distinct⟩

/-- A growth without new nodes. -/
theorem Labelled.growth_same (h : g.Labelled) (hg : g.Coherent) (hgrowth : Growth sc g g')
    (hsize : g'.size = g.size)
    (hnames : ∀ s s', g.scope? sc = some s → g'.scope? sc = some s' → s'.names = s.names) :
    g'.Labelled := by
  refine h.growth hg hgrowth fun s s' hs hs' => ?_
  have hsame := hnames s s' hs hs'
  refine ⟨?_, hsame ▸ (h sc s hs).distinct⟩
  rw [hsame, hsize, Nat.sub_self]
  exact (List.append_nil _).symm

/-- A new scope has no variables. -/
theorem Labelled.addScope {name : String} (h : g.Labelled) (hg : g.Coherent)
    (hfree : name ∉ g.scopeNames) (loc : Option Loc) : (g.addScope name loc).Labelled := by
  intro other s hs
  rw [scope?_addScope hfree] at hs
  split at hs
  · cases hs
    have hroot : (g.addScope name loc).node? g.size = some
        { kind := .block, name := name ++ ":body", scope := some name, callChain := [name], loc } := by
      rw [node?_addScope, if_pos rfl]
    exact ⟨(entries_cons_block hroot rfl []).symm, List.nodup_nil⟩
  · refine ⟨(h other s hs).names.trans (entries_congr fun id hid => ?_).symm,
      (h other s hs).distinct⟩
    rw [node?_addScope, if_neg (Coherent.lt_size (hg.scopes other s hs) hid).ne]

/-- A variable with a name that its scope does not have yet. -/
theorem Labelled.addVariable {s : Scope} {name : String} (h : g.Labelled) (hg : g.Coherent)
    (hs : g.scope? sc = some s) (hfree : s.lookup? name = none) (loc : Option Loc) :
    (g.addVariable sc name loc).Labelled := by
  refine h.growth hg (hg.growth_addVariable sc name loc) fun t t' ht ht' => ?_
  obtain rfl := Option.some.inj (hs.symm.trans ht)
  obtain rfl := Option.some.inj ((scope?_addVariable_self hs name loc).symm.trans ht')
  have hnew : name ∉ s.names.map (·.1) := by
    intro hmem
    obtain ⟨id, hid⟩ := exists_lookup hmem
    rw [Scope.lookup?, hid] at hfree
    cases hfree
  have hnode : (g.addVariable sc name loc).node? g.size = some
      { kind := .var, name, scope := some sc, callChain := [sc], loc } := by
    rw [node?_addVariable, if_pos rfl]
  have hrange : List.range' g.size ((g.addVariable sc name loc).size - g.size) = [g.size] := by
    rw [size_addVariable, Nat.add_sub_cancel_left]
    rfl
  rw [hrange, entries_cons_var hnode rfl, bindName_of_not_mem hnew]
  refine ⟨rfl, ?_⟩
  rw [List.map_append, List.nodup_append]
  refine ⟨(h sc s hs).distinct, by simp, ?_⟩
  rintro a ha b hb rfl
  have heq : a = name := List.mem_singleton.mp hb
  exact hnew (heq ▸ ha)

theorem Labelled.addBlock (h : g.Labelled) (hg : g.Coherent) (sc name : String)
    (loc : Option Loc) : (g.addBlock sc name loc).Labelled := by
  refine h.growth hg (hg.growth_addBlock sc name loc) fun s s' hs hs' => ?_
  obtain rfl := Option.some.inj ((scope?_addBlock_self hs name loc).symm.trans hs')
  have hnode : (g.addBlock sc name loc).node? g.size = some
      { kind := .block, name, scope := some sc, callChain := [sc], loc } := by
    rw [node?_addBlock, if_pos rfl]
  have hrange : List.range' g.size ((g.addBlock sc name loc).size - g.size) = [g.size] := by
    rw [size_addBlock, Nat.add_sub_cancel_left]
    rfl
  rw [hrange, entries_cons_block hnode rfl]
  exact ⟨(List.append_nil _).symm, (h sc s hs).distinct⟩

theorem Labelled.addEdge {s : Scope} (h : g.Labelled) (hg : g.Coherent)
    (hs : g.scope? sc = some s) (a b : NodeId) : (g.addEdge sc a b).Labelled := by
  refine h.growth_same hg (hg.growth_addEdge hs a b) (size_addEdge g sc a b) fun t t' ht ht' => ?_
  obtain rfl := Option.some.inj ((scope?_addEdge_self ht a b).symm.trans ht')
  rfl

/-- A change of a scope's entries other than nodes, edges and names. -/
theorem Labelled.modifyScope {f : Scope → Scope} (h : g.Labelled)
    (hname : ∀ s, (f s).name = s.name) (hnodes : ∀ s, (f s).nodes = s.nodes)
    (hnames : ∀ s, (f s).names = s.names) : (g.modifyScope sc f).Labelled := by
  intro other s hs
  have hsame (ids : List NodeId) : (g.modifyScope sc f).entries ids = g.entries ids :=
    entries_congr fun _ _ => rfl
  rw [scope?_modifyScope _ _ _ hname] at hs
  split at hs
  · obtain ⟨t, ht, rfl⟩ := Option.map_eq_some_iff.mp hs
    obtain ⟨hlisted, hdistinct⟩ := h other t ht
    exact ⟨by rw [hnames, hnodes, hsame, hlisted], by rwa [hnames]⟩
  · obtain ⟨hlisted, hdistinct⟩ := h other s hs
    exact ⟨by rw [hsame, hlisted], hdistinct⟩

end Graph

namespace Scope.Labels

variable {s : Scope} {g : Graph}

/-- A name is found if and only if some variable carries it, and then that
variable is found. -/
theorem lookup?_iff (h : s.Labels g) {name : String} {id : NodeId} :
    s.lookup? name = some id ↔
      id ∈ s.nodes ∧ ∃ n, g.node? id = some n ∧ n.kind = .var ∧ n.name = name := by
  rw [Scope.lookup?, lookup_eq_some_iff h.distinct, h.names, Graph.mem_entries]

end Scope.Labels

end YulTaint
