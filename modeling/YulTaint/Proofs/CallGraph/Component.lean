import Mathlib.Tactic
import YulTaint.Proofs.CallGraph.Search

/-!
The components of a finite graph. The search ends on every graph, and its
components list each node that a key reaches once, put together the nodes that
reach each other, and come after those they lead to.
-/

namespace YulTaint.Successors

/-- A list of the strongly connected components of what the keys of a graph
reach, every component after those it leads to. -/
structure Condenses (g : Successors) (components : List (List String)) : Prop where
  covers : ∀ v, v ∈ components.flatten ↔ ∃ key ∈ g.map (·.1), g.Reaches key v
  nodup : components.flatten.Nodup
  classes : ∀ c ∈ components, g.IsClass c
  order : g.Downward components

section Components

variable {g : Successors}

/-- No node is active when the search ends, so the stack is empty. -/
theorem Follows.condenses {low low' : Nat} {s : Search}
    (h : Follows g [] (g.map (·.1)) low {} low' s) : g.Condenses s.components := by
  have hempty : s.stack = [] := by
    rw [List.eq_nil_iff_forall_not_mem]
    intro v hv
    obtain ⟨_, hactive, _⟩ := h.invariant.back v hv
    cases hactive
  have hsplit (v : String) : s.Discovered v ↔ v ∈ s.components.flatten := by
    simpa [hempty] using h.invariant.split v
  refine ⟨fun v => ⟨fun hv => ?_, ?_⟩, ?_, h.invariant.classes, h.invariant.order⟩
  · rcases h.sound v ((hsplit v).mpr hv) with hstart | hreach
    · cases hstart
    · exact hreach
  · rintro ⟨key, hkey, hreach⟩
    exact h.invariant.order.reaches ((hsplit key).mp (h.found key hkey)) hreach
  · simpa [hempty] using h.invariant.nodup

/-- The search finds the strongly connected components, callees first. -/
theorem condenses_components (g : Successors) : g.Condenses g.components := by
  obtain ⟨_, s, hsearch, hfollows⟩ := search?_spec g
  have hcomponents : g.components = s.components := by rw [components, hsearch]; rfl
  rw [hcomponents]
  exact hfollows.condenses

/-- Two nodes of a class reach each other, and the class has all such nodes. -/
theorem IsClass.mem_iff {c : List String} (h : g.IsClass c) {u v : String} (hu : u ∈ c) :
    v ∈ c ↔ g.Reaches u v ∧ g.Reaches v u := by
  obtain ⟨w, _, hclass⟩ := h
  obtain ⟨hwu, huw⟩ := (hclass u).mp hu
  rw [hclass v]
  constructor
  · rintro ⟨hwv, hvw⟩
    exact ⟨huw.trans hwv, hvw.trans hwu⟩
  · rintro ⟨huv, hvu⟩
    exact ⟨hwu.trans huv, hvu.trans huw⟩

/-- Names share a component if and only if they reach each other. -/
theorem Condenses.same_component {components : List (List String)} (h : g.Condenses components)
    {u v : String} (hu : u ∈ components.flatten) :
    (∃ c ∈ components, u ∈ c ∧ v ∈ c) ↔ g.Reaches u v ∧ g.Reaches v u := by
  obtain ⟨c, hc, huc⟩ := List.mem_flatten.mp hu
  constructor
  · rintro ⟨d, hd, hud, hvd⟩
    exact ((h.classes d hd).mem_iff hud).mp hvd
  · exact fun hreach => ⟨c, hc, huc, ((h.classes c hc).mem_iff huc).mpr hreach⟩

/-- Components at different places have no node in common. -/
theorem eq_of_mem_of_nodup_flatten {components : List (List String)}
    (h : components.flatten.Nodup) {i j : Nat} {c d : List String} (hi : components[i]? = some c)
    (hj : components[j]? = some d) {v : String} (hvc : v ∈ c) (hvd : v ∈ d) : i = j := by
  obtain ⟨_, hdisjoint⟩ := List.nodup_flatten.mp h
  rw [List.pairwise_iff_getElem] at hdisjoint
  obtain ⟨hilt, rfl⟩ := List.getElem?_eq_some_iff.mp hi
  obtain ⟨hjlt, rfl⟩ := List.getElem?_eq_some_iff.mp hj
  rcases Nat.lt_trichotomy i j with hlt | heq | hgt
  · exact absurd hvd (hdisjoint i j hilt hjlt hlt hvc)
  · exact heq
  · exact absurd hvc (hdisjoint j i hjlt hilt hgt hvd)

/-- An edge between two components leads to the earlier one. -/
theorem Condenses.before {components : List (List String)} (h : g.Condenses components)
    {i j : Nat} {c d : List String} (hi : components[i]? = some c) (hj : components[j]? = some d)
    (hne : i ≠ j) {u v : String} (hu : u ∈ c) (hv : v ∈ d) (huv : g.Leads u v) : j < i := by
  obtain ⟨k, e, hle, hk, hve⟩ := h.order i c hi u hu v huv
  obtain rfl := eq_of_mem_of_nodup_flatten h.nodup hj hk hv hve
  omega

/-- The search for components ends on every graph. Every node that a key
reaches, the key included, is in its components exactly once, and no other name
is; two nodes are in one component if and only if each reaches the other; and
where an edge leads from one component to another, the other comes before. -/
theorem search?_components (g : Successors) :
    ∃ s, g.search? = some s ∧ g.components = s.components ∧
      (∀ v, (∃ key ∈ g.map (·.1), g.Reaches key v) → s.components.flatten.count v = 1) ∧
      (∀ v ∈ s.components.flatten, ∃ key ∈ g.map (·.1), g.Reaches key v) ∧
      (∀ u ∈ s.components.flatten, ∀ v ∈ s.components.flatten,
        (∃ c ∈ s.components, u ∈ c ∧ v ∈ c) ↔ g.Reaches u v ∧ g.Reaches v u) ∧
      ∀ (i j : Nat) (c d : List String), s.components[i]? = some c → s.components[j]? = some d →
        i ≠ j → (∃ u ∈ c, ∃ v ∈ d, g.Leads u v) → j < i := by
  obtain ⟨_, s, hsearch, hfollows⟩ := search?_spec g
  have hcondenses := hfollows.condenses
  refine ⟨s, hsearch, by rw [components, hsearch]; rfl, ?_, ?_, ?_, ?_⟩
  · intro v hreach
    exact List.count_eq_one_of_mem hcondenses.nodup ((hcondenses.covers v).mpr hreach)
  · exact fun v hv => (hcondenses.covers v).mp hv
  · exact fun u hu v _ => hcondenses.same_component hu
  · rintro i j c d hi hj hne ⟨u, hu, v, hv, huv⟩
    exact hcondenses.before hi hj hne hu hv huv

-- Two cycles, one leading to the other, and a name without an entry.
example : components [("a", ["b"]), ("b", ["a", "d"]), ("c", ["b"]), ("d", ["e", "x"]),
    ("e", ["d"])] = [["x"], ["e", "d"], ["b", "a"], ["c"]] := by decide +kernel

end Components

end YulTaint.Successors
