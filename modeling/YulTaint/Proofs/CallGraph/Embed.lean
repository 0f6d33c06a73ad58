import Mathlib.Tactic
import YulTaint.CallGraph.Embedding
import YulTaint.Proofs.Graph.Growth
import YulTaint.Proofs.Graph.Labels
import YulTaint.Proofs.Graph.Moved
import YulTaint.Proofs.Lists

/-!
One embedding. It gives the caller a copy of each node of the callee, the
images of the callee's edges, and the wires between the copy and the call
site; it marks the site, and touches nothing else.
-/

namespace YulTaint

def FlowNode.copied (n : FlowNode) (id : NodeId) (into name : String) (index : Int) : FlowNode :=
  { n with
    name
    scope := some into
    isTainted := false
    origin := some id
    embedding := some index
    callChain := into :: n.callChain }

def Scope.withCopy (s : Scope) (id : NodeId) (n : FlowNode) (name : String) : Scope :=
  { s with
    nodes := s.nodes ++ [id]
    names := if n.kind = .var then bindName name id s.names else s.names }

/-- A scope's names after some copies: a name stands for what it stood for, or
for a new node of that name. -/
def Scope.Rebinds (s s' : Scope) (g g' : Graph) : Prop :=
  ∀ x, s'.lookup? x = s.lookup? x ∨
    ∃ id n, s'.lookup? x = some id ∧ g.size ≤ id ∧ g'.node? id = some n ∧ n.name = x

theorem Scope.Rebinds.trans {s s' s'' : Scope} {g g' g'' : Graph} (h : s.Rebinds s' g g')
    (h' : s'.Rebinds s'' g' g'') (hsize : g.size ≤ g'.size)
    (hnodes : ∀ id n, g'.node? id = some n → g''.node? id = some n) : s.Rebinds s'' g g'' := by
  intro x
  rcases h' x with hsame | ⟨id, n, hlookup, hnew, hn, hname⟩
  · rw [hsame]
    rcases h x with hold | ⟨id, n, hlookup, hnew, hn, hname⟩
    · exact Or.inl hold
    · exact Or.inr ⟨id, n, hlookup, hnew, hnodes id n hn, hname⟩
  · exact Or.inr ⟨id, n, hlookup, hsize.trans hnew, hn, hname⟩

namespace Graph

variable {g : Graph} {sc : String} {s : Scope}

theorem addCopy_eq (g : Graph) (n : FlowNode) (id : NodeId) (into name : String) (k : Int) :
    g.addCopy n id into name k =
      (g.push (n.copied id into name k)).modifyScope into fun s => s.withCopy g.size n name := rfl

theorem node?_addCopy (g : Graph) (n : FlowNode) (id : NodeId) (into name : String) (k : Int)
    (other : NodeId) :
    (g.addCopy n id into name k).node? other =
      if other = g.size then some (n.copied id into name k) else g.node? other :=
  node?_push g _ other

theorem scope?_addCopy_self (hs : g.scope? sc = some s) (n : FlowNode) (id : NodeId)
    (name : String) (k : Int) :
    (g.addCopy n id sc name k).scope? sc = some (s.withCopy g.size n name) := by
  have hname (t : Scope) : (t.withCopy g.size n name).name = t.name := rfl
  rw [addCopy_eq, scope?_modifyScope _ _ _ hname, if_pos rfl, scope?_push, hs]
  rfl

theorem lookup?_withCopy (s : Scope) (id : NodeId) (n : FlowNode) (name x : String) :
    (s.withCopy id n name).lookup? x =
      if n.kind = .var ∧ x = name then some id else s.lookup? x := by
  unfold Scope.withCopy Scope.lookup?
  by_cases hkind : n.kind = .var
  · simp only [hkind, if_true, true_and]
    exact lookup_bindName name x id s.names
  · simp only [hkind, if_false, false_and]

/-- A copy is bound like any other variable. -/
theorem names_withCopy {g : Graph} {id o : NodeId} {n : FlowNode} {into name : String} {k : Int}
    (hn : g.node? id = some (n.copied o into name k)) (s : Scope) (ids : List NodeId) :
    bindNames (g.entries ids) (s.withCopy id n name).names =
      bindNames (g.entries (id :: ids)) s.names := by
  unfold Scope.withCopy
  cases hkind : n.kind with
  | var =>
    rw [entries_cons_var hn hkind, bindNames_cons]
    rfl
  | block =>
    rw [entries_cons_block hn hkind]
    rfl

theorem rebinds_addCopy (g : Graph) (s : Scope) (n : FlowNode) (id : NodeId) (into name : String)
    (k : Int) : s.Rebinds (s.withCopy g.size n name) g (g.addCopy n id into name k) := by
  intro x
  rw [lookup?_withCopy]
  split
  · rename_i h
    refine Or.inr ⟨g.size, n.copied id into name k, rfl, Nat.le_refl _, ?_, h.2.symm⟩
    rw [node?_addCopy, if_pos rfl]
  · exact Or.inl rfl

theorem Coherent.growth_addCopy (hg : g.Coherent) (sc : String) (n : FlowNode) {id : NodeId}
    (hid : id < g.size) (name : String) (k : Int) : Growth sc g (g.addCopy n id sc name k) := by
  refine hg.growth_push rfl ?_ (fun _ => rfl) (fun _ => rfl) (fun _ => rfl) (fun _ => rfl)
  intro o ho
  obtain rfl : id = o := Option.some.inj ho
  exact hid

theorem Coherent.addCopy (hg : g.Coherent) (hs : g.scope? sc = some s) (n : FlowNode) {id : NodeId}
    (hid : id < g.size) (name : String) (k : Int) : (g.addCopy n id sc name k).Coherent := by
  have hcoh := hg.scopes sc s hs
  refine hg.of_growth (hg.growth_addCopy sc n hid name k) hs (scope?_addCopy_self hs n id name k)
    ?_ ?_ ?_ ?_ ?_
  · exact fun x hx => List.mem_append_left _ (hcoh.params x hx)
  · exact fun x hx => List.mem_append_left _ (hcoh.returns x hx)
  · exact fun site hsite => (hcoh.sites site hsite).mono rfl (List.subset_append_left _ _)
  · intro entry hentry
    simp only [Scope.withCopy] at hentry ⊢
    split at hentry
    · rcases mem_bindName hentry with rfl | hold
      · simp
      · exact List.mem_append_left _ (hcoh.names entry hold)
    · exact List.mem_append_left _ (hcoh.names entry hentry)
  · exact fun e he => Or.inl he

/-- Edges of a scope, added one after the other. -/
theorem addEdges_spec (es : List Edge) (hg : g.Coherent) (hs : g.scope? sc = some s)
    (hes : ∀ e ∈ es, e.Attached g s) :
    ∃ g' edges, es.foldl (fun g e => g.addEdge sc e.source e.target) g = g' ∧ g'.Coherent ∧
      Growth sc g g' ∧ g'.size = g.size ∧ g'.scope? sc = some { s with edges } ∧
      ∀ e, e ∈ edges ↔ e ∈ s.edges ∨ e ∈ es := by
  induction es generalizing g s with
  | nil => exact ⟨g, s.edges, rfl, hg, hg.growth_refl sc, rfl, hs, by simp⟩
  | cons e rest ih =>
    have hfirst := hes e List.mem_cons_self
    have hcoh := hg.addEdge hs hfirst
    have hs' := scope?_addEdge_self hs e.source e.target
    obtain ⟨g', edges, hfold, hcoh', hgrowth, hsize, hscope, hmem⟩ := ih hcoh hs' (by
      intro e' he'
      obtain ⟨hsource, htarget, hown⟩ := hes e' (List.mem_cons_of_mem _ he')
      exact ⟨hsource, htarget, hown⟩)
    refine ⟨g', edges, hfold, hcoh', (hg.growth_addEdge hs _ _).trans hgrowth, hsize, hscope, ?_⟩
    intro e'
    rw [hmem, mem_insertEdge, List.mem_cons]
    tauto

end Graph

namespace Resolver

open YulTaint.Graph (Growth)

variable {g : Graph} {caller : String} {c : Scope} {ids : List NodeId} {start : Nat} {f : Scope}
  {id : NodeId}

def copyList (ids : List NodeId) (start : Nat) : List (NodeId × NodeId) :=
  ids.zip (List.range' start ids.length)

theorem map_fst_copyList (ids : List NodeId) (start : Nat) :
    (copyList ids start).map (·.1) = ids := by
  apply List.map_fst_zip
  simp

theorem mem_copyList_snd {entry : NodeId × NodeId} (h : entry ∈ copyList ids start) :
    start ≤ entry.2 ∧ entry.2 < start + ids.length := by
  have hmem := (List.of_mem_zip h).2
  rw [List.mem_range'_1] at hmem
  exact hmem

theorem lookup_copyList (hid : id ∈ ids) (start : Nat) :
    (copyList ids start).lookup id = some (image (copyList ids start) id) := by
  obtain ⟨copy, hcopy⟩ := exists_lookup (l := copyList ids start) (a := id)
    (by rwa [map_fst_copyList])
  rw [image, hcopy]
  rfl

theorem image_mem (hid : id ∈ ids) (start : Nat) :
    (id, image (copyList ids start) id) ∈ copyList ids start :=
  mem_of_lookup_eq_some (lookup_copyList hid start)

theorem image_of_not_mem (hid : id ∉ ids) (start : Nat) :
    image (copyList ids start) id = id := by
  rw [image, lookup_eq_none_of_not_mem (by rwa [map_fst_copyList])]
  rfl

/-- Nodes are copied to consecutive places, under names that the embedding marks. -/
theorem copyNodes_spec (callee : String) (k : Int) (ids : List NodeId) (hg : g.Coherent)
    (hc : g.scope? caller = some c) (hids : ∀ id ∈ ids, id < g.size) :
    ∃ g' c', copyNodes callee caller k g ids = (copyList ids g.size, g') ∧
      g'.Coherent ∧ Growth caller g g' ∧ g'.size = g.size + ids.length ∧
      g'.scope? caller = some c' ∧ c'.params = c.params ∧ c'.returns = c.returns ∧
      c'.sites = c.sites ∧ c'.edges = c.edges ∧ c.Rebinds c' g g' ∧
      c'.names = bindNames (g'.entries (List.range' g.size ids.length)) c.names ∧
      ∀ entry ∈ copyList ids g.size, ∀ n, g.node? entry.1 = some n →
        g'.node? entry.2 =
          some (n.copied entry.1 caller s!"{callee}#{k}/{n.name}" k) := by
  induction ids generalizing g c with
  | nil =>
    exact ⟨g, c, rfl, hg, hg.growth_refl caller, rfl, hc, rfl, rfl, rfl, rfl,
      fun _ => Or.inl rfl, rfl, List.forall_mem_nil _⟩
  | cons id rest ih =>
    have hid := hids id List.mem_cons_self
    obtain ⟨n, hn⟩ := Graph.node?_isSome hid
    let name := s!"{callee}#{k}/{n.name}"
    have hcoh := hg.addCopy hc n hid name k
    have hgrowth := hg.growth_addCopy caller n hid name k
    have hc₁ := Graph.scope?_addCopy_self hc n id name k
    obtain ⟨g', c', hcopy, hcoh', hgrowth', hsize, hc', hp, hr, hsites, hedges, hnames, htable,
        hnodes⟩ :=
      ih hcoh hc₁ fun x hx => (hids x (List.mem_cons_of_mem _ hx)).trans_le hgrowth.size
    rw [Graph.size_addCopy] at hcopy hsize htable hnodes
    have hnew : g'.node? g.size = some (n.copied id caller name k) := by
      rw [hgrowth'.old g.size (by rw [Graph.size_addCopy]; omega), Graph.node?_addCopy,
        if_pos rfl]
    refine ⟨g', c', ?_, hcoh', hgrowth.trans hgrowth', ?_, hc', hp, hr, hsites, hedges,
      (Graph.rebinds_addCopy g c n id caller name k).trans hnames hgrowth.size
        (fun _ _ => hgrowth'.node?), ?_, ?_⟩
    · simp only [copyNodes, hn]
      rw [hcopy]
      rfl
    · rw [hsize, List.length_cons]
      omega
    · rw [htable, Graph.names_withCopy hnew, List.length_cons, List.range'_succ]
    · intro entry hentry m hm
      rw [copyList, List.length_cons, List.range'_succ, List.zip_cons_cons] at hentry
      rcases List.mem_cons.mp hentry with rfl | hentry
      · cases hn.symm.trans hm
        exact hnew
      · exact hnodes entry hentry m (hgrowth.node? hm)

def wireEdges (copies : List (NodeId × NodeId)) (site : CallSite) (callee : Scope) : List Edge :=
  (site.arguments.zip callee.params).map (fun (arg, param) => ⟨arg, image copies param⟩)
    ++ (callee.returns.zip site.results).map (fun (ret, result) => ⟨image copies ret, result⟩)
    ++ [⟨site.block, image copies callee.root⟩]

/-- No wire is an error: the callee's variables and its root are copied. -/
theorem wires_eq (site : CallSite) (hparams : ∀ id ∈ f.params, id ∈ f.nodes)
    (hreturns : ∀ id ∈ f.returns, id ∈ f.nodes) (hroot : f.root ∈ f.nodes) :
    wires (copyList f.nodes start) site f =
      (wireEdges (copyList f.nodes start) site f).map .ok := by
  unfold wires wireEdges
  simp only [List.map_append, List.map_map, List.map_cons, List.map_nil,
    lookup_copyList hroot start]
  congr 1
  congr 1
  · apply List.map_congr_left
    rintro ⟨arg, param⟩ hmem
    simp only [lookup_copyList (hparams param (List.of_mem_zip hmem).2) start]
    rfl
  · apply List.map_congr_left
    rintro ⟨ret, result⟩ hmem
    simp only [lookup_copyList (hreturns ret (List.of_mem_zip hmem).1) start]
    rfl

theorem addWires_eq (caller : String) (g : Graph) (es : List Edge) :
    addWires caller g (es.map .ok) =
      (none, es.foldl (fun g e => g.addEdge caller e.source e.target) g) := by
  induction es generalizing g with
  | nil => rfl
  | cons e rest ih => exact ih _

theorem copyEdges_eq (caller : String) (copies : List (NodeId × NodeId)) (g : Graph)
    (edges : List Edge) :
    copyEdges caller copies g edges =
      (edges.map (Edge.map (image copies))).foldl
        (fun g e => g.addEdge caller e.source e.target) g := by
  rw [copyEdges, List.foldl_map]
  rfl

def closeSite (site : CallSite) : CallSite :=
  { site with resolved := true }

theorem resolveSite_spec (hg : g.Coherent) {ref : SiteRef}
    (hc : g.scope? ref.scope = some c) :
    (resolveSite g ref).Coherent ∧ Growth ref.scope g (resolveSite g ref) ∧
      (resolveSite g ref).scope? ref.scope =
        some { c with sites := c.sites.modify ref.index closeSite } := by
  have hcoh := hg.scopes ref.scope c hc
  have hgrowth : Growth ref.scope g (resolveSite g ref) :=
    hg.growth_modifyScope ref.scope (fun _ => rfl) (fun _ => rfl) (fun _ => rfl) (fun _ => rfl)
  have hscope : (resolveSite g ref).scope? ref.scope =
      some { c with sites := c.sites.modify ref.index closeSite } := by
    have hname (t : Scope) :
        ({ t with sites := t.sites.modify ref.index closeSite } : Scope).name = t.name := rfl
    have heq := Graph.scope?_modifyScope g ref.scope ref.scope hname
    rw [if_pos rfl, hc] at heq
    exact heq
  refine ⟨hg.of_growth hgrowth hc hscope hcoh.params hcoh.returns ?_ hcoh.names
    (fun e he => Or.inl he), hgrowth, hscope⟩
  intro site hsite
  obtain ⟨old, hmem, heq⟩ := mem_modify hsite
  obtain ⟨hcaller, hargs, hresults, hblock⟩ := hcoh.sites old hmem
  rcases heq with rfl | rfl
  · exact ⟨hcaller, hargs, hresults, hblock⟩
  · exact ⟨hcaller, hargs, hresults, hblock⟩

/-- What an embedding at a site of a scope `c` does, given the callee `f`. -/
structure Embeds (r : Resolver) (ref : SiteRef) (site : CallSite) (c f : Scope) (e : Embedding)
    (r' : Resolver) : Prop where
  embedding : e =
    { index := r.nextIndex
      site := ref
      caller := ref.scope
      callee := site.callee
      copies := copyList f.nodes r.graph.size }
  nextIndex : r'.nextIndex = r.nextIndex + 1
  embeddings : r'.embeddings = r.embeddings ++ [e]
  coherent : r'.graph.Coherent
  growth : Growth ref.scope r.graph r'.graph
  size : r'.graph.size = r.graph.size + f.nodes.length
  caller : ∃ c', r'.graph.scope? ref.scope = some c' ∧ c'.params = c.params ∧
    c'.returns = c.returns ∧ c'.sites = c.sites.modify ref.index closeSite ∧
    ∀ x, x ∈ c'.edges ↔ x ∈ c.edges ∨ x ∈ f.edges.map (Edge.map (image e.copies)) ∨
      x ∈ wireEdges e.copies site f
  names : ∀ c', r'.graph.scope? ref.scope = some c' → c.Rebinds c' r.graph r'.graph
  table : ∀ c', r'.graph.scope? ref.scope = some c' →
    c'.names = bindNames (r'.graph.entries (List.range' r.graph.size f.nodes.length)) c.names
  copies : ∀ entry ∈ e.copies, ∀ n, r.graph.node? entry.1 = some n →
    r'.graph.node? entry.2 =
      some (n.copied entry.1 ref.scope s!"{site.callee}#{e.index}/{n.name}" e.index)

/-- The image of a callee's edge joins nodes of the caller. -/
theorem attached_image {g g' : Graph} {c' : Scope} (hf : f.Coherent g)
    (hshared : ∀ id, g.IsShared id → g'.IsShared id)
    (hcopies : ∀ id ∈ f.nodes, image (copyList f.nodes start) id ∈ c'.nodes) {e : Edge}
    (he : e.Attached g f) : (e.map (image (copyList f.nodes start))).Attached g' c' := by
  have hend {id : NodeId} (h : id ∈ f.nodes ∨ g.IsShared id) :
      image (copyList f.nodes start) id ∈ c'.nodes ∨
        g'.IsShared (image (copyList f.nodes start) id) := by
    rcases h with h | h
    · exact Or.inl (hcopies id h)
    · rw [image_of_not_mem (h.not_mem hf)]
      exact Or.inr (hshared id h)
  exact ⟨hend he.source, hend he.target, he.own.imp (hcopies _) (hcopies _)⟩

/-- A wire lies between nodes of the caller. -/
theorem attached_wire {g' : Graph} {c c' : Scope} {site : CallSite}
    (hf : ∀ id ∈ f.nodes, image (copyList f.nodes start) id ∈ c'.nodes)
    (hparams : ∀ id ∈ f.params, id ∈ f.nodes) (hreturns : ∀ id ∈ f.returns, id ∈ f.nodes)
    (hroot : f.root ∈ f.nodes) (hsite : site.OwnedBy c) (hsub : ∀ id ∈ c.nodes, id ∈ c'.nodes)
    {e : Edge} (he : e ∈ wireEdges (copyList f.nodes start) site f) : e.Attached g' c' := by
  have hboth {a b : NodeId} (ha : a ∈ c'.nodes) (hb : b ∈ c'.nodes) : Edge.Attached ⟨a, b⟩ g' c' :=
    ⟨Or.inl ha, Or.inl hb, Or.inl ha⟩
  simp only [wireEdges, List.mem_append, List.mem_map, List.mem_singleton] at he
  rcases he with (⟨⟨arg, param⟩, hmem, rfl⟩ | ⟨⟨ret, result⟩, hmem, rfl⟩) | rfl
  · obtain ⟨harg, hparam⟩ := List.of_mem_zip hmem
    exact hboth (hsub _ (hsite.arguments arg harg)) (hf _ (hparams param hparam))
  · obtain ⟨hret, hresult⟩ := List.of_mem_zip hmem
    exact hboth (hf _ (hreturns ret hret)) (hsub _ (hsite.results result hresult))
  · exact hboth (hsub _ hsite.block) (hf _ hroot)

/-- An open site that fits its callee can be embedded. -/
theorem embed_spec {r : Resolver} {ref : SiteRef} {site : CallSite} {c : Scope}
    (hg : r.graph.Coherent) (hc : r.graph.scope? ref.scope = some c)
    (hsite : c.sites[ref.index]? = some site) (hopen : site.resolved = false)
    (hf : r.graph.scope? site.callee = some f) (hargs : site.arguments.length = f.params.length)
    (hresults : site.results.length = f.returns.length) :
    ∃ e r', embed ref site r = .ok e r' ∧ Embeds r ref site c f e r' := by
  have hccoh := hg.scopes _ c hc
  have hfcoh := hg.scopes _ f hf
  have hname : f.name = site.callee := Graph.name_of_scope? hf
  have hown := hccoh.sites site (List.mem_of_getElem? hsite)
  have hcaller : site.caller = ref.scope := hown.caller.trans (Graph.name_of_scope? hc)
  let copies := copyList f.nodes r.graph.size
  -- the copies
  obtain ⟨g₁, c₁, hcopy, hcoh₁, hgrowth₁, hsize₁, hc₁, hp₁, hr₁, hsites₁, hedges₁, hnames₁,
      htable₁, hnodes₁⟩ :=
    copyNodes_spec site.callee r.nextIndex f.nodes hg hc fun id hid =>
      Graph.Coherent.lt_size hfcoh hid
  obtain ⟨_, hc₁', _, hnodes, _⟩ := hgrowth₁.scope c hc
  obtain rfl := Option.some.inj (hc₁.symm.trans hc₁')
  have hold (id : NodeId) (hid : id ∈ c.nodes) : id ∈ c₁.nodes := by
    rw [hnodes]
    exact List.mem_append_left _ hid
  have himage (id : NodeId) (hid : id ∈ f.nodes) : image copies id ∈ c₁.nodes := by
    have hmem := mem_copyList_snd (image_mem hid r.graph.size)
    rw [hnodes, List.mem_append, List.mem_range'_1, hsize₁, Nat.add_sub_cancel_left]
    exact Or.inr hmem
  -- the edges of the callee
  obtain ⟨g₂, edges₂, hfold₂, hcoh₂, hgrowth₂, hsize₂, hc₂, hedges₂⟩ :=
    Graph.addEdges_spec (f.edges.map (Edge.map (image copies))) hcoh₁ hc₁ (by
      intro e he
      obtain ⟨e', he', rfl⟩ := List.mem_map.mp he
      exact attached_image hfcoh (fun _ h => hgrowth₁.isShared h) himage (hfcoh.edges e' he').2)
  -- the wires
  have hwires (e : Edge) (he : e ∈ wireEdges copies site f) :
      e.Attached g₂ { c₁ with edges := edges₂ } := by
    have hatt : e.Attached g₂ c₁ :=
      attached_wire himage hfcoh.params hfcoh.returns hfcoh.root hown hold he
    exact ⟨hatt.source, hatt.target, hatt.own⟩
  obtain ⟨g₃, edges₃, hfold₃, hcoh₃, hgrowth₃, hsize₃, hc₃, hedges₃⟩ :=
    Graph.addEdges_spec (wireEdges copies site f) hcoh₂ hc₂ hwires
  obtain ⟨hcoh₄, hgrowth₄, hc₄⟩ := resolveSite_spec hcoh₃ hc₃
  let e : Embedding :=
    { index := r.nextIndex, site := ref, caller := ref.scope, callee := site.callee, copies }
  let r' : Resolver :=
    { graph := resolveSite g₃ ref
      nextIndex := r.nextIndex + 1
      embeddings := r.embeddings ++ [e] }
  refine ⟨e, r', ?_, ?_⟩
  · unfold embed
    simp only [hcaller, hc, hf, hopen, hargs, hresults, ne_eq, not_true_eq_false, or_self,
      if_false, Bool.false_eq_true, hname, hcopy, copyEdges_eq]
    rw [hfold₂, wires_eq site hfcoh.params hfcoh.returns hfcoh.root, addWires_eq, hfold₃]
  · have hgrowth := ((hgrowth₁.trans hgrowth₂).trans hgrowth₃).trans hgrowth₄
    have hlater := (hgrowth₂.trans hgrowth₃).trans hgrowth₄
    refine ⟨rfl, rfl, rfl, hcoh₄, hgrowth, ?_, ⟨_, hc₄, hp₁, hr₁, ?_, ?_⟩, ?_, ?_, ?_⟩
    · exact (hsize₃.trans hsize₂).trans hsize₁
    · rw [← hsites₁]
    · intro x
      rw [hedges₃, hedges₂, hedges₁, or_assoc]
    · intro c' hc'
      obtain rfl := Option.some.inj (hc₄.symm.trans hc')
      exact hnames₁.trans (fun _ => Or.inl rfl) hgrowth₁.size fun _ _ => hlater.node?
    · intro c' hc'
      obtain rfl := Option.some.inj (hc₄.symm.trans hc')
      refine htable₁.trans (congrArg (bindNames · c.names) (Graph.entries_congr ?_).symm)
      intro id hid
      rw [hlater.old id (by rw [hsize₁]; exact (List.mem_range'_1.mp hid).2)]
    · intro entry hentry n hn
      exact hlater.node? (hnodes₁ entry hentry n hn)

end Resolver

end YulTaint
