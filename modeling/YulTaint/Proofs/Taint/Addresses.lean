import Mathlib.Tactic
import YulTaint.Proofs.Taint.Closure
import YulTaint.Violation

/-!
The violations after a propagation. Every tainted storage address gives one,
and what it says of the program is read off the graph: the declared name, the
scopes and the place. The way in which taint came leads through nodes of the
arena, so the names along it are always found.
-/

namespace YulTaint

namespace Graph

theorem declared_le (g : Graph) (id : NodeId) : g.declared id ≤ id := by
  induction id using Nat.strong_induction_on with
  | _ id ih =>
    rw [declared]
    split
    · split
      · rename_i earlier _ hlt
        exact (ih earlier hlt).trans (Nat.le_of_lt hlt)
      · exact Nat.le_refl id
    · exact Nat.le_refl id

end Graph

namespace Taint

open Relation (ReflTransGen)

variable {g : Graph} {t : Taint}

theorem node?_marked (g : Graph) (ids : List NodeId) (id : NodeId) :
    (marked g ids).node? id = (g.node? id).map fun n => { n with isTainted := ids.contains id } := by
  simp [marked, Graph.node?]

theorem size_marked (g : Graph) (ids : List NodeId) : (marked g ids).size = g.size := by
  simp [marked, Graph.size]

theorem declared_marked (g : Graph) (ids : List NodeId) (id : NodeId) :
    (marked g ids).declared id = g.declared id := by
  induction id using Nat.strong_induction_on with
  | _ id ih =>
    have horigin : ((marked g ids).node? id).bind (·.origin) = (g.node? id).bind (·.origin) := by
      rw [node?_marked, Option.bind_map]
      rfl
    rw [Graph.declared, Graph.declared, horigin]
    split
    · split
      · rename_i earlier _ hlt
        exact ih earlier hlt
      · rfl
    · rfl

structure Front.Within (g : Graph) (f : Front) : Prop where
  queue : ∀ id ∈ f.queue, id < g.size
  parents : ∀ entry ∈ f.parents, entry.2 < g.size

theorem Front.Within.run {parent : NodeId} {f f' : Front} (hf : f.Within g)
    (hparent : parent < g.size) (hrun : ReflTransGen (Enters g parent) f f') : f'.Within g := by
  induction hrun with
  | refl => exact hf
  | tail _ hstep ih =>
    obtain ⟨id, _, ⟨n, hn, _⟩, _, rfl⟩ := hstep
    refine ⟨?_, List.forall_mem_cons.mpr ⟨hparent, ih.parents⟩⟩
    exact List.forall_mem_append.mpr
      ⟨ih.queue, List.forall_mem_singleton.mpr (Graph.lt_size_of_node? hn)⟩

theorem spread_within {g : Graph} {bound : Nat} {f f' : Front} (h : spread g bound f = .ok f')
    (hf : f.Within g) : f'.Within g := by
  refine spread_keeps (fun f₁ f₂ id rest hf₁ hqueue hreach => ?_) h hf
  have hin : ∀ x ∈ id :: rest, x < g.size := hqueue ▸ hf₁.queue
  have hnext : Front.Within g { f₁ with queue := rest } :=
    ⟨(List.forall_mem_cons.mp hin).2, hf₁.parents⟩
  exact hnext.run (List.forall_mem_cons.mp hin).1
    (reachAll_enters (fun b hb => (g.mem_successors id b).mp hb) hreach)

theorem mem_walkBack {id x : NodeId} {parents : List (NodeId × NodeId)}
    (h : x ∈ walkBack id parents) : x = id ∨ ∃ entry ∈ parents, x = entry.2 := by
  induction parents generalizing id with
  | nil => exact Or.inl (List.mem_singleton.mp h)
  | cons entry earlier ih =>
    obtain ⟨child, parent⟩ := entry
    rw [walkBack] at h
    split at h
    · rcases List.mem_append.mp h with h | h
      · rcases ih h with rfl | ⟨entry, hentry, rfl⟩
        · exact Or.inr ⟨_, List.mem_cons_self, rfl⟩
        · exact Or.inr ⟨entry, List.mem_cons_of_mem _ hentry, rfl⟩
      · exact Or.inl (List.mem_singleton.mp h)
    · rcases ih h with rfl | ⟨entry, hentry, rfl⟩
      · exact Or.inl rfl
      · exact Or.inr ⟨entry, List.mem_cons_of_mem _ hentry, rfl⟩

/-- The taint that spreads from given nodes, as the front that is left at the
end. -/
theorem ofSources_eq_ok {ids : List NodeId} (hids : ∀ id ∈ ids, id < g.size)
    (h : ofSources g ids = .ok t) :
    ∃ f, spread g g.size
        { queue := ids.filter (isTaintable g), reached := ids.filter (isTaintable g) } = .ok f ∧
      t = { tainted := f.reached, sources := ids.filter (isTaintable g), parents := f.parents } := by
  unfold ofSources at h
  rw [taintable_eq ids hids] at h
  cases hspread : spread g g.size
      { queue := ids.filter (isTaintable g), reached := ids.filter (isTaintable g) } with
  | error missing => simp [bind, Except.bind, hspread] at h
  | ok f =>
    simp only [bind, Except.bind, hspread, pure, Except.pure, Except.ok.injEq] at h
    exact ⟨f, rfl, h.symm⟩

theorem ofSources_parents {ids : List NodeId} (hids : ∀ id ∈ ids, id < g.size)
    (h : ofSources g ids = .ok t) : ∀ entry ∈ t.parents, entry.2 < g.size := by
  obtain ⟨f, hspread, rfl⟩ := ofSources_eq_ok hids h
  have hstart : Front.Within g
      { queue := ids.filter (isTaintable g), reached := ids.filter (isTaintable g) } := by
    refine ⟨fun id hid => hids id (List.mem_of_mem_filter hid), ?_⟩
    exact List.forall_mem_nil _
  exact (spread_within hspread hstart).parents

/-- A propagation that succeeds spreads taint from the initial sources. -/
theorem propagate_eq_ok {g' : Graph} {c : TaintConfig} (h : propagate c g = .ok t g') :
    ∃ ids, initialSources c g = .ok ids ∧ ofSources (clear g) ids = .ok t := by
  simp only [propagate, initialSources_clear] at h
  cases hids : initialSources c g with
  | error fault =>
    simp only [hids] at h
    cases h
  | ok ids =>
    cases hof : ofSources (clear g) ids with
    | error missing =>
      simp only [hids, hof] at h
      cases h
    | ok t' =>
      simp only [hids, hof] at h
      refine ⟨ids, rfl, ?_⟩
      split at h
      · cases h
      · cases h
        exact hof

theorem propagate_parents {g' : Graph} (hg : g.WellFormed) {c : TaintConfig}
    (h : propagate c g = .ok t g') : ∀ entry ∈ t.parents, entry.2 < g.size := by
  obtain ⟨ids, hids, hof⟩ := propagate_eq_ok h
  have hin := (initialSources_lt hg hids).2
  have hparents := ofSources_parents (g := clear g) (by simpa using hin) hof
  rwa [size_clear] at hparents

end Taint

namespace Violation

variable {g : Graph} {id : NodeId} {t : Taint}

open YulTaint.Taint (marked node?_marked declared_marked size_marked)

/-- What a violation says of the program: the declared name, the scopes and the
place. -/
def key (v : Violation) : String × List String × Option Loc :=
  (v.variableName, v.scopeChain, v.loc)

/-- The same, read off the graph at a node. -/
def keyAt (g : Graph) (id : NodeId) : String × List String × Option Loc :=
  (((g.node? (g.declared id)).map (·.name)).getD "",
    ((g.node? id).map (·.callChain)).getD [], (g.node? id).bind (·.loc))

/-- The addresses reported are the protected variables among the tainted nodes. -/
theorem mem_taintedAddresses {ids : List NodeId} :
    id ∈ taintedAddresses (marked g ids) ↔
      id ∈ ids ∧ ∃ n, g.node? id = some n ∧ n.kind = .var ∧ n.isProtected = true := by
  simp only [taintedAddresses, Graph.protectedVariables, List.mem_filter, List.mem_range,
    node?_marked, size_marked]
  cases hn : g.node? id with
  | none => simp
  | some n =>
    have hlt := Graph.lt_size_of_node? hn
    simp [hlt]
    tauto

theorem nodup_taintedAddresses (g : Graph) : (taintedAddresses g).Nodup :=
  (List.nodup_range.filter _).filter _

theorem declaredName_eq (hid : id < g.size) :
    ∃ n, g.node? (g.declared id) = some n ∧ declaredName g id = .ok n.name := by
  obtain ⟨n, hn⟩ := Graph.node?_isSome ((g.declared_le id).trans_lt hid)
  exact ⟨n, hn, by simp [declaredName, hn]⟩

/-- There is a violation at every node that has a scope and a way for taint to
come. -/
theorem ofNode_eq (hparents : ∀ entry ∈ t.parents, entry.2 < g.size) {n : FlowNode}
    (hn : g.node? id = some n) (hchain : n.callChain ≠ []) :
    ∃ v, ofNode g (some t) id = .ok v ∧ v.key = keyAt g id ∧ v.node = id := by
  have hid := Graph.lt_size_of_node? hn
  obtain ⟨d, hd, hname⟩ := declaredName_eq hid
  obtain ⟨last, hlast⟩ : ∃ last, n.callChain.getLast? = some last :=
    Option.isSome_iff_exists.mp (List.getLast?_isSome.mpr hchain)
  obtain ⟨path, hpath⟩ : ∃ path, (t.pathTo id).mapM (declaredName g) = .ok path := by
    apply exists_mapM_eq_ok
    intro x hx
    have hlt : x < g.size := by
      unfold Taint.pathTo at hx
      split at hx
      · rcases Taint.mem_walkBack hx with rfl | ⟨entry, hentry, rfl⟩
        · exact hid
        · exact hparents entry hentry
      · cases hx
    obtain ⟨m, _, hm⟩ := declaredName_eq hlt
    exact ⟨m.name, hm⟩
  refine ⟨_, by simp [ofNode, hn, hname, hlast, hpath, bind, Except.bind, pure, Except.pure]; rfl,
    ?_, rfl⟩
  simp [key, keyAt, hd, hn]

theorem map_of_forall₂ {α : Type} {ids : List NodeId} {vs : List Violation}
    (h : List.Forall₂ (fun id v => ofNode g (some t) id = .ok v) ids vs) {p : Violation → α}
    {q : NodeId → α} (hpq : ∀ id ∈ ids, ∀ v, ofNode g (some t) id = .ok v → p v = q id) :
    vs.map p = ids.map q := by
  induction h with
  | nil => rfl
  | @cons id v ids vs hv _ ih =>
    rw [List.map_cons, List.map_cons, hpq id List.mem_cons_self v hv,
      ih fun x hx => hpq x (List.mem_cons_of_mem _ hx)]

/-- There is one violation for each tainted storage address, and the check
returns them all or the first one alone. -/
theorem check_spec (hparents : ∀ entry ∈ t.parents, entry.2 < g.size)
    (hchain : ∀ id n, g.node? id = some n → n.isProtected = true → n.callChain ≠ []) :
    ∃ vs, vs.map key = (taintedAddresses (marked g t.tainted)).map (keyAt g) ∧
      vs.map (·.node) = (taintedAddresses (marked g t.tainted)).map Int.ofNat ∧
      ∀ c, check c (marked g t.tainted) (some t) =
        .ok (if c.stopAtFirst then vs.take 1 else vs) := by
  have hkeyAt (id : NodeId) : keyAt (marked g t.tainted) id = keyAt g id := by
    simp only [keyAt, declared_marked, node?_marked, Option.map_map, Option.bind_map]
    rfl
  have hall (id : NodeId) (hid : id ∈ taintedAddresses (marked g t.tainted)) :
      ∃ v, ofNode (marked g t.tainted) (some t) id = .ok v ∧ v.key = keyAt g id ∧
        v.node = Int.ofNat id := by
    obtain ⟨_, n, hn, _, hprotected⟩ := mem_taintedAddresses.mp hid
    rw [← hkeyAt]
    refine ofNode_eq (by simpa [size_marked] using hparents)
      (by rw [node?_marked, hn, Option.map_some]) ?_
    exact hchain id n hn hprotected
  obtain ⟨vs, hvs⟩ := exists_mapM_eq_ok fun id hid =>
    (hall id hid).imp fun _ h => h.1
  have hvs' := mapM_eq_ok_iff.mp hvs
  refine ⟨vs, map_of_forall₂ hvs' ?_, map_of_forall₂ hvs' ?_, fun c => ?_⟩
  · intro id hid v hv
    obtain ⟨v', hv', hkey, _⟩ := hall id hid
    rw [hv] at hv'
    cases hv'
    exact hkey
  · intro id hid v hv
    obtain ⟨v', hv', _, hnode⟩ := hall id hid
    rw [hv] at hv'
    cases hv'
    exact hnode
  · unfold check
    cases c.stopAtFirst with
    | false => exact hvs
    | true => exact mapM_eq_ok_iff.mpr (List.forall₂_take 1 hvs')

end Violation

end YulTaint
