import Mathlib.Tactic
import YulTaint.CallGraph.Component
import YulTaint.Proofs.Lists
import YulTaint.Proofs.Order

/-!
The invariant of the component search. While the search is inside some nodes,
the active ones, every node on the stack leads back to an active node that was
discovered no later. A search from a node tells a number no higher than that of
any old node on the stack to which an edge leads from what is new on it; so if
the number is the node's own, nothing from there on leads below the node on the
stack, and what lies above it is a class of nodes that reach each other.
-/

namespace YulTaint.Successors

open Relation (ReflTransGen)

def Leads (g : Successors) (v w : String) : Prop :=
  w ∈ g.next v

def Reaches (g : Successors) : String → String → Prop :=
  ReflTransGen g.Leads

theorem leads_iff {g : Successors} {v w : String} :
    g.Leads v w ↔ ∃ targets, g.lookup v = some targets ∧ w ∈ targets := by
  unfold Leads next
  rw [mem_ascendingNames]
  cases h : g.lookup v with
  | some targets => simp
  | none => simp

theorem mem_names_of_leads {g : Successors} {v w : String} (h : g.Leads v w) : w ∈ g.names := by
  obtain ⟨targets, hlookup, hw⟩ := leads_iff.mp h
  exact List.mem_flatMap.mpr ⟨(v, targets), mem_of_lookup_eq_some hlookup,
    List.mem_cons_of_mem _ hw⟩

theorem mem_names_of_key {g : Successors} {v : String} (hv : v ∈ g.map (·.1)) : v ∈ g.names := by
  obtain ⟨entry, hentry, rfl⟩ := List.mem_map.mp hv
  exact List.mem_flatMap.mpr ⟨entry, hentry, List.mem_cons_self⟩

/-- All nodes that reach one of them and that it reaches. -/
def IsClass (g : Successors) (c : List String) : Prop :=
  ∃ v ∈ c, ∀ u, u ∈ c ↔ g.Reaches v u ∧ g.Reaches u v

/-- Every edge out of a component leads into it or into one before it. -/
def Downward (g : Successors) (components : List (List String)) : Prop :=
  ∀ (i : Nat) (c : List String), components[i]? = some c → ∀ v ∈ c, ∀ w, g.Leads v w →
    ∃ (j : Nat) (d : List String), j ≤ i ∧ components[j]? = some d ∧ w ∈ d

section Downward

variable {g : Successors} {components : List (List String)} {c : List String}

/-- What lies in components found so far leads nowhere else. -/
theorem Downward.reaches (h : g.Downward components) {v w : String}
    (hv : v ∈ components.flatten) (hvw : g.Reaches v w) : w ∈ components.flatten := by
  induction hvw with
  | refl => exact hv
  | tail _ hstep ih =>
    obtain ⟨d, hd, hmem⟩ := List.mem_flatten.mp ih
    obtain ⟨i, hi⟩ := List.mem_iff_getElem?.mp hd
    obtain ⟨j, e, _, hj, hw⟩ := h i d hi _ hmem _ hstep
    exact List.mem_flatten.mpr ⟨e, List.mem_of_getElem? hj, hw⟩

/-- A component is added once its edges lead into it or to earlier ones. -/
theorem Downward.snoc (h : g.Downward components)
    (hc : ∀ v ∈ c, ∀ w, g.Leads v w → w ∈ c ∨ w ∈ components.flatten) :
    g.Downward (components ++ [c]) := by
  intro i d hi v hv w hvw
  rcases Nat.lt_trichotomy i components.length with hlt | heq | hgt
  · rw [List.getElem?_append_left hlt] at hi
    obtain ⟨j, e, hle, hj, hw⟩ := h i d hi v hv w hvw
    refine ⟨j, e, hle, ?_, hw⟩
    rw [List.getElem?_append_left (by omega)]
    exact hj
  · subst heq
    rw [List.getElem?_concat_length] at hi
    obtain rfl := Option.some.inj hi
    rcases hc v hv w hvw with hw | hw
    · exact ⟨_, c, le_rfl, List.getElem?_concat_length, hw⟩
    · obtain ⟨e, he, hw⟩ := List.mem_flatten.mp hw
      obtain ⟨j, hj⟩ := List.mem_iff_getElem?.mp he
      have hlt : j < components.length := (List.getElem?_eq_some_iff.mp hj).1
      refine ⟨j, e, hlt.le, ?_, hw⟩
      rw [List.getElem?_append_left hlt]
      exact hj
  · rw [List.getElem?_eq_none (by simp; omega)] at hi
    cases hi

end Downward

namespace Search

def Discovered (s : Search) (v : String) : Prop :=
  (s.number? v).isSome = true

instance (s : Search) (v : String) : Decidable (s.Discovered v) :=
  inferInstanceAs (Decidable (_ = true))

def number (s : Search) (v : String) : Nat :=
  (s.number? v).getD 0

/-- A later state: nodes keep their numbers, and the stack is under what is new
on it. -/
structure Extends (s s' : Search) : Prop where
  discovered : ∀ v, s.Discovered v → s'.Discovered v
  number : ∀ v, s.Discovered v → s'.number v = s.number v
  count : s.count ≤ s'.count
  stack : ∃ new, s'.stack = new ++ s.stack ∧ ∀ v ∈ new, ¬ s.Discovered v

section States

variable {s s' s'' : Search} {v w : String}

theorem Extends.refl (s : Search) : Extends s s :=
  ⟨fun _ hv => hv, fun _ _ => rfl, le_rfl, [], rfl, by simp⟩

theorem Extends.trans (h : Extends s s') (h' : Extends s' s'') : Extends s s'' := by
  obtain ⟨new, hnew, hfresh⟩ := h.stack
  obtain ⟨newer, hnewer, hfresh'⟩ := h'.stack
  refine ⟨fun v hv => h'.discovered v (h.discovered v hv), fun v hv => ?_,
    h.count.trans h'.count, newer ++ new, by rw [hnewer, hnew, List.append_assoc], ?_⟩
  · rw [h'.number v (h.discovered v hv), h.number v hv]
  · intro v hv
    rcases List.mem_append.mp hv with hv | hv
    · exact fun hdiscovered => hfresh' v hv (h.discovered v hdiscovered)
    · exact hfresh v hv

theorem Extends.mem_stack (h : Extends s s') (hv : v ∈ s.stack) : v ∈ s'.stack := by
  obtain ⟨new, hnew, _⟩ := h.stack
  rw [hnew]
  exact List.mem_append_right _ hv

/-- What was discovered before was on the stack before. -/
theorem Extends.mem_stack_of_discovered (h : Extends s s') (hv : v ∈ s'.stack)
    (hold : s.Discovered v) : v ∈ s.stack := by
  obtain ⟨new, hnew, hfresh⟩ := h.stack
  rw [hnew] at hv
  rcases List.mem_append.mp hv with hv | hv
  · exact absurd hold (hfresh v hv)
  · exact hv

theorem number?_discover (s : Search) (v w : String) :
    (s.discover v).number? w = if w = v then some s.count else s.number? w := by
  unfold number? discover
  rw [List.lookup_cons]
  by_cases h : w = v
  · simp [h]
  · simp [h, beq_eq_false_iff_ne.mpr h]

theorem discovered_discover : (s.discover v).Discovered w ↔ w = v ∨ s.Discovered w := by
  unfold Discovered
  rw [number?_discover]
  by_cases h : w = v
  · simp [h]
  · simp [h]

theorem number_discover_self (s : Search) (v : String) : (s.discover v).number v = s.count := by
  simp [number, number?_discover]

theorem extends_discover (hv : ¬ s.Discovered v) : Extends s (s.discover v) where
  discovered _ hw := discovered_discover.mpr (Or.inr hw)
  number w hw := by
    have hne : w ≠ v := fun heq => hv (heq ▸ hw)
    simp [number, number?_discover, hne]
  count := Nat.le_succ _
  stack := ⟨[v], rfl, by simpa using hv⟩

theorem close_stack {above below : List String} (h : s.stack = above ++ v :: below)
    (hv : v ∉ above) : (s.close v).stack = below := by
  have hskip : ∀ u ∈ above, decide (u ≠ v) = true := by
    intro u hu
    exact decide_eq_true fun heq => hv (heq ▸ hu)
  unfold close
  rw [h, List.dropWhile_append_of_pos hskip]
  simp

theorem close_components {above below : List String} (h : s.stack = above ++ v :: below)
    (hv : v ∉ above) : (s.close v).components = s.components ++ [above ++ [v]] := by
  have htake : ∀ u ∈ above, decide (u ≠ v) = true := by
    intro u hu
    exact decide_eq_true fun heq => hv (heq ▸ hu)
  unfold close
  rw [h, List.takeWhile_append_of_pos htake]
  simp

end States

/-- What holds of a search inside the active nodes. -/
structure Invariant (g : Successors) (active : List String) (s : Search) : Prop where
  bound : ∀ v, s.Discovered v → s.number v < s.count
  split : ∀ v, s.Discovered v ↔ v ∈ s.stack ∨ v ∈ s.components.flatten
  nodup : (s.stack ++ s.components.flatten).Nodup
  order : g.Downward s.components
  classes : ∀ c ∈ s.components, g.IsClass c
  onStack : ∀ v ∈ active, v ∈ s.stack
  back : ∀ v ∈ s.stack, ∃ u ∈ active, s.number u ≤ s.number v ∧ g.Reaches v u
  explored : ∀ v, s.Discovered v → v ∉ active → ∀ w, g.Leads v w → s.Discovered w

section Invariant

variable {g : Successors} {active : List String} {s : Search} {v : String}

theorem Invariant.discovered (h : s.Invariant g active) (hv : v ∈ s.stack) : s.Discovered v :=
  (h.split v).mpr (Or.inl hv)

theorem Invariant.not_mem_components (h : s.Invariant g active) (hv : v ∈ s.stack) :
    v ∉ s.components.flatten :=
  fun hmem => (List.nodup_append.mp h.nodup).2.2 v hv v hmem rfl

theorem invariant_start (g : Successors) : Invariant g [] {} where
  bound _ hv := nomatch hv
  split _ := by simp [Discovered, number?]
  nodup := .nil
  order i c hi := by simp at hi
  classes _ hc := by simp at hc
  onStack _ hv := by simp at hv
  back _ hv := by simp at hv
  explored _ hv := nomatch hv

/-- A node just discovered is the active one at which the search stands. -/
theorem Invariant.discover (h : s.Invariant g active) (hv : ¬ s.Discovered v) :
    (s.discover v).Invariant g (v :: active) := by
  have hextends := extends_discover hv
  refine ⟨?_, ?_, ?_, h.order, h.classes, ?_, ?_, ?_⟩
  · intro w hw
    rcases discovered_discover.mp hw with rfl | hw
    · rw [number_discover_self]
      exact Nat.lt_succ_self _
    · rw [hextends.number w hw]
      exact Nat.lt_succ_of_lt (h.bound w hw)
  · intro w
    change _ ↔ w ∈ v :: s.stack ∨ w ∈ s.components.flatten
    rw [discovered_discover, h.split w, List.mem_cons, or_assoc]
  · exact List.nodup_cons.mpr ⟨fun hmem => hv ((h.split v).mpr (List.mem_append.mp hmem)), h.nodup⟩
  · intro w hw
    rcases List.mem_cons.mp hw with rfl | hw
    · exact List.mem_cons_self
    · exact List.mem_cons_of_mem _ (h.onStack w hw)
  · intro w hw
    rcases List.mem_cons.mp hw with rfl | hw
    · exact ⟨w, List.mem_cons_self, le_rfl, .refl⟩
    · obtain ⟨u, hu, hle, hreach⟩ := h.back w hw
      refine ⟨u, List.mem_cons_of_mem _ hu, ?_, hreach⟩
      rw [hextends.number u (h.discovered (h.onStack u hu)), hextends.number w (h.discovered hw)]
      exact hle
  · intro u hu hinactive w huw
    rcases discovered_discover.mp hu with rfl | hu
    · exact absurd List.mem_cons_self hinactive
    · refine hextends.discovered w (h.explored u hu ?_ w huw)
      exact fun hmem => hinactive (List.mem_cons_of_mem _ hmem)

end Invariant

end Search

/-- What it does to a search to look at some nodes in turn, and what is known of
the lowest number that this meets. -/
structure Follows (g : Successors) (active roots : List String) (low : Nat) (s : Search)
    (low' : Nat) (s' : Search) : Prop where
  invariant : s'.Invariant g active
  extend : s.Extends s'
  found : ∀ w ∈ roots, s'.Discovered w
  sound : ∀ v, s'.Discovered v → s.Discovered v ∨ ∃ w ∈ roots, g.Reaches w v
  le : low' ≤ low
  witness : low' < low → ∃ w ∈ roots, ∃ v ∈ s'.stack, s'.number v = low' ∧ g.Reaches w v
  edges : ∀ v ∈ s'.stack, ¬ s.Discovered v → ∀ w ∈ s.stack, g.Leads v w → low' ≤ s.number w
  targets : ∀ w ∈ roots, w ∈ s.stack → low' ≤ s.number w

section Follows

variable {g : Successors} {active roots : List String} {low low₁ low₂ : Nat}
  {s s₁ s₂ : Search} {v w : String}

theorem Follows.nil (h : s.Invariant g active) : Follows g active [] low s low s where
  invariant := h
  extend := .refl s
  found _ hw := by simp at hw
  sound _ hv := Or.inl hv
  le := le_rfl
  witness hlt := absurd hlt (lt_irrefl _)
  edges _ hv hnew := absurd (h.discovered hv) hnew
  targets _ hw := by simp at hw

/-- To look at some nodes and then at others is to look at all of them. -/
theorem Follows.trans {more : List String} (h : Follows g active roots low s low₁ s₁)
    (h' : Follows g active more low₁ s₁ low₂ s₂) (hs : s.Invariant g active) :
    Follows g active (roots ++ more) low s low₂ s₂ where
  invariant := h'.invariant
  extend := h.extend.trans h'.extend
  found w hw := by
    rcases List.mem_append.mp hw with hw | hw
    · exact h'.extend.discovered w (h.found w hw)
    · exact h'.found w hw
  sound v hv := by
    rcases h'.sound v hv with hv | ⟨w, hw, hreach⟩
    · rcases h.sound v hv with hv | ⟨w, hw, hreach⟩
      · exact Or.inl hv
      · exact Or.inr ⟨w, List.mem_append_left _ hw, hreach⟩
    · exact Or.inr ⟨w, List.mem_append_right _ hw, hreach⟩
  le := h'.le.trans h.le
  witness hlt := by
    rcases h'.le.lt_or_eq with hless | rfl
    · obtain ⟨w, hw, v, hv, hnumber, hreach⟩ := h'.witness hless
      exact ⟨w, List.mem_append_right _ hw, v, hv, hnumber, hreach⟩
    · obtain ⟨w, hw, v, hv, hnumber, hreach⟩ := h.witness hlt
      refine ⟨w, List.mem_append_left _ hw, v, h'.extend.mem_stack hv, ?_, hreach⟩
      rw [h'.extend.number v (h.invariant.discovered hv), hnumber]
  edges v hv hnew w hw hvw := by
    by_cases hmid : s₁.Discovered v
    · have hmem := h'.extend.mem_stack_of_discovered hv hmid
      exact h'.le.trans (h.edges v hmem hnew w hw hvw)
    · rw [← h.extend.number w (hs.discovered hw)]
      exact h'.edges v hv hmid w (h.extend.mem_stack hw) hvw
  targets w hw hstack := by
    rcases List.mem_append.mp hw with hw | hw
    · exact h'.le.trans (h.targets w hw hstack)
    · rw [← h.extend.number w (hs.discovered hstack)]
      exact h'.targets w hw (h.extend.mem_stack hstack)

/-- A node on the stack is not searched again, but its number counts. -/
theorem Follows.onStack (h : s.Invariant g active) (hw : w ∈ s.stack) :
    Follows g active [w] low s (min low (s.number w)) s where
  invariant := h
  extend := .refl s
  found u hu := by
    rw [List.mem_singleton.mp hu]
    exact h.discovered hw
  sound _ hv := Or.inl hv
  le := min_le_left _ _
  witness hlt := by
    refine ⟨w, List.mem_singleton.mpr rfl, w, hw, ?_, .refl⟩
    omega
  edges _ hv hnew := absurd (h.discovered hv) hnew
  targets u hu _ := by
    rw [List.mem_singleton.mp hu]
    exact min_le_right _ _

/-- A node in a component counts for nothing. -/
theorem Follows.offStack (h : s.Invariant g active) (hw : s.Discovered w) (hoff : w ∉ s.stack) :
    Follows g active [w] low s low s where
  invariant := h
  extend := .refl s
  found u hu := by
    rw [List.mem_singleton.mp hu]
    exact hw
  sound _ hv := Or.inl hv
  le := le_rfl
  witness hlt := absurd hlt (lt_irrefl _)
  edges _ hv hnew := absurd (h.discovered hv) hnew
  targets u hu hstack := by
    rw [List.mem_singleton.mp hu] at hstack
    exact absurd hstack hoff

/-- The number told by a search from a new node counts if it is low enough. -/
theorem Follows.lower (h : Follows g active [w] s.count s low₁ s₁) (hlow : low ≤ s.count) :
    Follows g active [w] low s (min low low₁) s₁ where
  invariant := h.invariant
  extend := h.extend
  found := h.found
  sound := h.sound
  le := min_le_left _ _
  witness hlt := by
    have heq : min low low₁ = low₁ := by omega
    rw [heq]
    exact h.witness (by omega)
  edges v hv hnew u hu hvu := (min_le_right _ _).trans (h.edges v hv hnew u hu hvu)
  targets u hu hstack := (min_le_right _ _).trans (h.targets u hu hstack)

end Follows

/-- A node whose successors have all been looked at, with what lies above it on
the stack by then. -/
structure Descends (g : Successors) (active : List String) (v : String) (s : Search) (low : Nat)
    (s₁ : Search) (above : List String) : Prop where
  invariant : s.Invariant g active
  fresh : ¬ s.Discovered v
  follows : Follows g (v :: active) (g.next v) s.count (s.discover v) low s₁
  stack : s₁.stack = above ++ v :: s.stack
  fresh_above : ∀ u ∈ above, ¬ (s.discover v).Discovered u

section Descends

variable {g : Successors} {active above : List String} {low : Nat} {s s₁ : Search} {v w u : String}

theorem Follows.descends (h : s.Invariant g active) (hv : ¬ s.Discovered v)
    (hfollows : Follows g (v :: active) (g.next v) s.count (s.discover v) low s₁) :
    ∃ above, Descends g active v s low s₁ above := by
  obtain ⟨above, hstack, habove⟩ := hfollows.extend.stack
  exact ⟨above, h, hv, hfollows, hstack, habove⟩

theorem Descends.extend (h : Descends g active v s low s₁ above) : s.Extends s₁ :=
  (Search.extends_discover h.fresh).trans h.follows.extend

theorem Descends.mem_stack (h : Descends g active v s low s₁ above) (hu : u ∈ above ++ [v]) :
    u ∈ s₁.stack := by
  rw [h.stack]
  simp only [List.mem_append, List.mem_cons] at hu ⊢
  tauto

/-- What lies at or above the node was not discovered before it. -/
theorem Descends.not_discovered (h : Descends g active v s low s₁ above)
    (hu : u ∈ above ++ [v]) : ¬ s.Discovered u := by
  rcases List.mem_append.mp hu with hu | hu
  · exact fun hold => h.fresh_above u hu (Search.discovered_discover.mpr (Or.inr hold))
  · rw [List.mem_singleton.mp hu]
    exact h.fresh

theorem Descends.not_mem_above (h : Descends g active v s low s₁ above) : v ∉ above :=
  fun hv => h.fresh_above v hv (Search.discovered_discover.mpr (Or.inl rfl))

/-- All successors of what lies at or above the node are discovered. -/
theorem Descends.explored (h : Descends g active v s low s₁ above) (hu : s₁.Discovered u)
    (hinactive : u ∉ active) (huw : g.Leads u w) : s₁.Discovered w := by
  by_cases heq : u = v
  · subst heq
    exact h.follows.found w huw
  · refine h.follows.invariant.explored u hu ?_ w huw
    exact fun hmem => (List.mem_cons.mp hmem).elim heq hinactive

theorem Descends.not_active (h : Descends g active v s low s₁ above) (hu : u ∈ above ++ [v]) :
    u ∉ active :=
  fun hmem => h.not_discovered hu (h.invariant.discovered (h.invariant.onStack u hmem))

/-- An edge into the stack below the node has been taken into account. -/
theorem Descends.le_number (h : Descends g active v s low s₁ above) (hu : u ∈ above ++ [v])
    (hw : w ∈ s.stack) (huw : g.Leads u w) : low ≤ s.number w := by
  have hmem : w ∈ (s.discover v).stack := List.mem_cons_of_mem _ hw
  have hnumber := (Search.extends_discover h.fresh).number w (h.invariant.discovered hw)
  rw [← hnumber]
  rcases List.mem_append.mp hu with hu | hu
  · exact h.follows.edges u (h.mem_stack (List.mem_append_left _ hu)) (h.fresh_above u hu) w hmem huw
  · rw [List.mem_singleton.mp hu] at huw
    exact h.follows.targets w huw hmem

theorem Descends.reaches (h : Descends g active v s low s₁ above) (hu : s₁.Discovered u) :
    s.Discovered u ∨ g.Reaches v u := by
  rcases h.follows.sound u hu with hu | ⟨w, hw, hreach⟩
  · rcases Search.discovered_discover.mp hu with rfl | hu
    · exact Or.inr .refl
    · exact Or.inl hu
  · exact Or.inr (.head hw hreach)

/-- The edges of a closed component stay inside it or lead to earlier ones. -/
theorem Descends.leads_inside (h : Descends g active v s s.count s₁ above)
    (hu : u ∈ above ++ [v]) (huw : g.Leads u w) :
    w ∈ above ++ [v] ∨ w ∈ s₁.components.flatten := by
  have hdiscovered := h.explored (h.follows.invariant.discovered (h.mem_stack hu))
    (h.not_active hu) huw
  rcases (h.follows.invariant.split w).mp hdiscovered with hw | hw
  · rw [h.stack, List.mem_append, List.mem_cons] at hw
    rcases hw with hw | rfl | hw
    · exact Or.inl (List.mem_append_left _ hw)
    · exact Or.inl (by simp)
    · -- an edge to below the node would have told a lower number
      have hle := h.le_number hu hw huw
      have hlt := h.invariant.bound w (h.invariant.discovered hw)
      omega
  · exact Or.inr hw

theorem Descends.reaches_inside (h : Descends g active v s s.count s₁ above)
    (hu : u ∈ above ++ [v]) (huw : g.Reaches u w) :
    w ∈ above ++ [v] ∨ w ∈ s₁.components.flatten := by
  induction huw with
  | refl => exact Or.inl hu
  | tail _ hstep ih =>
    rcases ih with hmem | hmem
    · exact h.leads_inside hmem hstep
    · exact Or.inr (h.follows.invariant.order.reaches hmem (.single hstep))

/-- What lies at or above the node leads back to it: the active node that it
leads back to cannot be an earlier one. -/
theorem Descends.leads_back (h : Descends g active v s s.count s₁ above)
    (hu : u ∈ above ++ [v]) : g.Reaches u v := by
  obtain ⟨x, hx, _, hreach⟩ := h.follows.invariant.back u (h.mem_stack hu)
  rcases List.mem_cons.mp hx with rfl | hx
  · exact hreach
  · have hstack := h.invariant.onStack x hx
    rcases h.reaches_inside hu hreach with hmem | hmem
    · exact absurd (h.invariant.discovered hstack) (h.not_discovered hmem)
    · exact absurd hmem (h.follows.invariant.not_mem_components (h.extend.mem_stack hstack))

/-- A node that reaches no lower number closes a strongly connected component. -/
theorem Descends.isClass (h : Descends g active v s s.count s₁ above) :
    g.IsClass (above ++ [v]) := by
  refine ⟨v, by simp, fun u => ⟨fun hu => ⟨?_, h.leads_back hu⟩, ?_⟩⟩
  · have hdiscovered := h.follows.invariant.discovered (h.mem_stack hu)
    exact (h.reaches hdiscovered).resolve_left (h.not_discovered hu)
  · rintro ⟨hforth, hback⟩
    rcases h.reaches_inside (by simp) hforth with hmem | hmem
    · exact hmem
    · have hv := h.follows.invariant.order.reaches hmem hback
      exact absurd hv (h.follows.invariant.not_mem_components (h.mem_stack (by simp)))

/-- To take the component off the stack keeps the invariant. -/
theorem Descends.invariant_close (h : Descends g active v s s.count s₁ above) :
    (s₁.close v).Invariant g active := by
  have hstack := Search.close_stack h.stack h.not_mem_above
  have hcomponents := Search.close_components h.stack h.not_mem_above
  have hinv := h.follows.invariant
  refine ⟨hinv.bound, ?_, ?_, ?_, ?_, ?_, ?_, ?_⟩
  · intro u
    have hsplit := hinv.split u
    rw [h.stack] at hsplit
    rw [hstack, hcomponents, List.flatten_append, List.flatten_singleton]
    change s₁.Discovered u ↔ _
    rw [hsplit]
    simp only [List.mem_append, List.mem_cons, List.not_mem_nil, or_false]
    tauto
  · rw [hstack, hcomponents, List.flatten_append, List.flatten_singleton]
    have hnodup := hinv.nodup
    rw [h.stack] at hnodup
    refine (List.Perm.nodup_iff ?_).mp hnodup
    rw [List.perm_iff_count]
    intro x
    simp only [List.count_append, List.count_cons, List.count_nil]
    omega
  · rw [hcomponents]
    exact hinv.order.snoc fun u hu w huw => h.leads_inside hu huw
  · intro c hc
    rw [hcomponents] at hc
    rcases List.mem_append.mp hc with hc | hc
    · exact hinv.classes c hc
    · rw [List.mem_singleton.mp hc]
      exact h.isClass
  · rw [hstack]
    exact h.invariant.onStack
  · intro w hw
    rw [hstack] at hw
    obtain ⟨u, hu, hle, hreach⟩ := h.invariant.back w hw
    refine ⟨u, hu, ?_, hreach⟩
    change s₁.number u ≤ s₁.number w
    rw [h.extend.number u (h.invariant.discovered (h.invariant.onStack u hu)),
      h.extend.number w (h.invariant.discovered hw)]
    exact hle
  · exact fun u hu hinactive w huw => h.explored hu hinactive huw

/-- The search from a node that closes its component. -/
theorem Descends.close (h : Descends g active v s s.count s₁ above) :
    Follows g active [v] s.count s s.count (s₁.close v) where
  invariant := h.invariant_close
  extend := by
    refine ⟨h.extend.discovered, h.extend.number, h.extend.count, [], ?_, by simp⟩
    exact Search.close_stack h.stack h.not_mem_above
  found w hw := by
    rw [List.mem_singleton.mp hw]
    exact h.follows.invariant.discovered (h.mem_stack (by simp))
  sound u hu := (h.reaches hu).imp_right fun hreach => ⟨v, List.mem_singleton.mpr rfl, hreach⟩
  le := le_rfl
  witness hlt := absurd hlt (lt_irrefl _)
  edges u hu hnew := by
    rw [Search.close_stack h.stack h.not_mem_above] at hu
    exact absurd (h.invariant.discovered hu) hnew
  targets w hw hstack := by
    rw [List.mem_singleton.mp hw] at hstack
    exact absurd (h.invariant.discovered hstack) h.fresh

/-- The node leads back to an active node before it, and so does all that leads
back to the node. -/
theorem Descends.invariant_open (h : Descends g active v s low s₁ above) (hlow : low < s.count) :
    s₁.Invariant g active := by
  have hinv := h.follows.invariant
  have hnumber : s₁.number v = s.count := by
    rw [h.follows.extend.number v (Search.discovered_discover.mpr (Or.inl rfl)),
      Search.number_discover_self]
  obtain ⟨x, hx, hxlow, hvx⟩ : ∃ x ∈ active, s₁.number x ≤ low ∧ g.Reaches v x := by
    obtain ⟨w, hw, y, hy, hylow, hwy⟩ := h.follows.witness hlow
    obtain ⟨x, hx, hle, hyx⟩ := hinv.back y hy
    rcases List.mem_cons.mp hx with rfl | hx
    · omega
    · exact ⟨x, hx, by omega, .head hw (hwy.trans hyx)⟩
  refine ⟨hinv.bound, hinv.split, hinv.nodup, hinv.order, hinv.classes, ?_, ?_, ?_⟩
  · exact fun u hu => hinv.onStack u (List.mem_cons_of_mem _ hu)
  · intro w hw
    obtain ⟨u, hu, hle, hreach⟩ := hinv.back w hw
    rcases List.mem_cons.mp hu with rfl | hu
    · exact ⟨x, hx, by omega, hreach.trans hvx⟩
    · exact ⟨u, hu, hle, hreach⟩
  · exact fun u hu hinactive w huw => h.explored hu hinactive huw

/-- The search from a node that stays on the stack. -/
theorem Descends.open (h : Descends g active v s low s₁ above) (hlow : low < s.count) :
    Follows g active [v] s.count s low s₁ where
  invariant := h.invariant_open hlow
  extend := h.extend
  found w hw := by
    rw [List.mem_singleton.mp hw]
    exact h.follows.invariant.discovered (h.mem_stack (by simp))
  sound u hu := (h.reaches hu).imp_right fun hreach => ⟨v, List.mem_singleton.mpr rfl, hreach⟩
  le := hlow.le
  witness _ := by
    obtain ⟨w, hw, y, hy, hylow, hwy⟩ := h.follows.witness hlow
    exact ⟨v, List.mem_singleton.mpr rfl, y, hy, hylow, .head hw hwy⟩
  edges u hu hnew w hw huw := by
    refine h.le_number ?_ hw huw
    rw [h.stack, List.mem_append, List.mem_cons] at hu
    rcases hu with hu | rfl | hu
    · exact List.mem_append_left _ hu
    · simp
    · exact absurd (h.invariant.discovered hu) hnew
  targets w hw hstack := by
    rw [List.mem_singleton.mp hw] at hstack
    exact absurd (h.invariant.discovered hstack) h.fresh

end Descends

def unseen (g : Successors) (s : Search) : Finset String :=
  g.names.toFinset.filter fun v => ¬ s.Discovered v

section Whole

variable {g : Successors} {active : List String} {low depth : Nat} {s s' : Search} {v : String}

theorem card_unseen_le (h : s.Extends s') : (g.unseen s').card ≤ (g.unseen s).card := by
  apply Finset.card_le_card
  intro v hv
  simp only [unseen, Finset.mem_filter] at hv ⊢
  exact ⟨hv.1, fun hold => hv.2 (h.discovered v hold)⟩

/-- Each discovery leaves fewer names, which bounds the depth. -/
theorem card_unseen_discover (hv : v ∈ g.names) (hnew : ¬ s.Discovered v) :
    (g.unseen (s.discover v)).card < (g.unseen s).card := by
  apply Finset.card_lt_card
  rw [Finset.ssubset_iff_of_subset]
  · refine ⟨v, ?_, ?_⟩
    · simp [unseen, hv, hnew]
    · simp [unseen, Search.discovered_discover]
  · intro w hw
    simp only [unseen, Finset.mem_filter] at hw ⊢
    exact ⟨hw.1, fun hold => hw.2 (Search.discovered_discover.mpr (Or.inr hold))⟩

/-- Looking at nodes in turn, given what a search from a new one does. -/
theorem follow_spec {visit : String → Search → Option (Nat × Search)}
    (hvisit : ∀ v s, v ∈ g.names → ¬ s.Discovered v → s.Invariant g active →
      (g.unseen s).card ≤ depth →
      ∃ low' s', visit v s = some (low', s') ∧ Follows g active [v] s.count s low' s')
    (roots : List String) (hroots : ∀ w ∈ roots, w ∈ g.names) (hs : s.Invariant g active)
    (hdepth : (g.unseen s).card ≤ depth) (hlow : low ≤ s.count) :
    ∃ low' s', follow visit roots low s = some (low', s') ∧
      Follows g active roots low s low' s' := by
  induction roots generalizing low s with
  | nil => exact ⟨low, s, rfl, .nil hs⟩
  | cons w rest ih =>
    have hrest : ∀ u ∈ rest, u ∈ g.names := fun u hu => hroots u (List.mem_cons_of_mem _ hu)
    cases hnumber : s.number? w with
    | none =>
      have hnew : ¬ s.Discovered w := by simp [Search.Discovered, hnumber]
      obtain ⟨reached, s₁, hrun, hfirst⟩ := hvisit w s (hroots w (by simp)) hnew hs hdepth
      have hlower := hfirst.lower hlow
      have hcount : min low reached ≤ s₁.count :=
        hlower.le.trans (hlow.trans hfirst.extend.count)
      obtain ⟨low', s', hfollow, hlast⟩ := ih hrest hfirst.invariant
        ((card_unseen_le hfirst.extend).trans hdepth) hcount
      refine ⟨low', s', ?_, hlower.trans hlast hs⟩
      rw [follow, hnumber]
      change (visit w s >>= _) = _
      rw [hrun]
      exact hfollow
    | some number =>
      have hold : s.Discovered w := by simp [Search.Discovered, hnumber]
      by_cases hstack : w ∈ s.stack
      · have hfirst : Follows g active [w] low s (min low (s.number w)) s :=
          .onStack hs hstack
        obtain ⟨low', s', hfollow, hlast⟩ := ih hrest hs hdepth (hfirst.le.trans hlow)
        refine ⟨low', s', ?_, hfirst.trans hlast hs⟩
        have hsame : s.number w = number := by simp [Search.number, hnumber]
        rw [follow, hnumber]
        simp only [List.contains_iff_mem, hstack, if_true]
        rw [← hsame]
        exact hfollow
      · have hfirst : Follows g active [w] low s low s := .offStack hs hold hstack
        obtain ⟨low', s', hfollow, hlast⟩ := ih hrest hs hdepth hlow
        refine ⟨low', s', ?_, hfirst.trans hlast hs⟩
        rw [follow, hnumber]
        simp only [List.contains_iff_mem, hstack, if_false]
        exact hfollow

/-- As many levels as there are names to discover are enough. -/
theorem visit_spec (hv : v ∈ g.names) (hnew : ¬ s.Discovered v) (hs : s.Invariant g active)
    (hdepth : (g.unseen s).card ≤ depth) :
    ∃ low' s', g.visit depth v s = some (low', s') ∧ Follows g active [v] s.count s low' s' := by
  induction depth generalizing v s active with
  | zero =>
    have hlt := card_unseen_discover hv hnew
    omega
  | succ depth ih =>
    have hlt := card_unseen_discover hv hnew
    have hdiscover := hs.discover hnew
    have hbound : (g.unseen (s.discover v)).card ≤ depth := by omega
    obtain ⟨low, s₁, hrun, hfollows⟩ := follow_spec
      (fun w t hw hfresh ht hbound => ih hw hfresh ht hbound) (g.next v)
      (fun w hw => mem_names_of_leads hw) hdiscover hbound (Nat.le_succ s.count)
    obtain ⟨above, hdescends⟩ := hfollows.descends hs hnew
    refine ⟨low, if low = s.count then s₁.close v else s₁, ?_, ?_⟩
    · rw [visit, hrun]
      rfl
    · by_cases heq : low = s.count
      · subst heq
        rw [if_pos rfl]
        exact hdescends.close
      · rw [if_neg heq]
        exact hdescends.open (lt_of_le_of_ne hfollows.le heq)

theorem card_unseen_start (g : Successors) : (g.unseen {}).card ≤ g.names.length :=
  (Finset.card_filter_le _ _).trans (List.toFinset_card_le g.names)

/-- The search ends, and with it no node is active. -/
theorem search?_spec (g : Successors) :
    ∃ low s, g.search? = some s ∧ Follows g [] (g.map (·.1)) 0 {} low s := by
  obtain ⟨low, s, hrun, hfollows⟩ := follow_spec
    (fun v t hv hnew ht hdepth => visit_spec hv hnew ht hdepth) (g.map (·.1))
    (fun _ hv => mem_names_of_key hv) (Search.invariant_start g) (card_unseen_start g)
    (Nat.zero_le 0)
  refine ⟨low, s, ?_, hfollows⟩
  rw [search?, hrun]
  rfl

end Whole

end YulTaint.Successors
