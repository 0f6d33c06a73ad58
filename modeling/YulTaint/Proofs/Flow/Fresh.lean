import Mathlib.Tactic
import YulTaint.Flow.Walk
import YulTaint.Proofs.Graph.Operations
import YulTaint.Proofs.Lists

/-!
The names that the walk makes up are free. Numbered candidates are pairwise
different, so among more candidates than there are names in use one is free,
and the search finds it.
-/

namespace YulTaint.Flow

variable {taken : String → Bool} {tries start : Nat} {base sc : String} {g : Graph} {s : Scope}

theorem repr_injective {m n : Nat} (h : m.repr = n.repr) : m = n := by
  have hdigits : Nat.toDigits 10 m = Nat.toDigits 10 n := by
    rw [← Nat.toList_repr, ← Nat.toList_repr, h]
  rw [← Nat.ofDigitChars_ten_toDigits (n := m), hdigits, Nat.ofDigitChars_ten_toDigits]

theorem suffixed_injective (base : String) {m n : Nat} (h : s!"{base}#{m}" = s!"{base}#{n}") :
    m = n := by
  have happend : base ++ "#" ++ m.repr = base ++ "#" ++ n.repr := h
  exact repr_injective ((String.append_right_inj _).mp happend)

/-- The search stops at the first free candidate. -/
theorem freshSuffix_free (h : ∃ k, k < tries ∧ taken s!"{base}#{start + k}" = false) :
    taken s!"{base}#{freshSuffix taken base tries start}" = false := by
  induction tries generalizing start with
  | zero =>
    obtain ⟨k, hk, _⟩ := h
    exact absurd hk (Nat.not_lt_zero k)
  | succ tries ih =>
    obtain ⟨k, hk, hfree⟩ := h
    rw [freshSuffix]
    by_cases hstart : taken s!"{base}#{start}" = true
    · rw [if_pos hstart]
      apply ih
      cases k with
      | zero =>
        rw [Nat.add_zero, hstart] at hfree
        cases hfree
      | succ k =>
        refine ⟨k, by omega, ?_⟩
        rwa [Nat.add_assoc, Nat.add_comm 1 k]
    · rw [if_neg hstart]
      simpa using hstart

theorem le_freshSuffix (taken : String → Bool) (base : String) (tries start : Nat) :
    start ≤ freshSuffix taken base tries start := by
  induction tries generalizing start with
  | zero => exact Nat.le_refl start
  | succ tries ih =>
    rw [freshSuffix]
    split
    · exact (Nat.le_succ start).trans (ih (start + 1))
    · exact Nat.le_refl start

/-- Every candidate before the one found is taken. -/
theorem taken_of_lt_freshSuffix {j : Nat} (hj : start ≤ j)
    (h : j < freshSuffix taken base tries start) :
    taken s!"{base}#{j}" = true := by
  induction tries generalizing start with
  | zero => exact absurd h (by rw [freshSuffix]; omega)
  | succ tries ih =>
    rw [freshSuffix] at h
    split at h
    · rename_i hstart
      rcases Nat.eq_or_lt_of_le hj with rfl | hlt
      · exact hstart
      · exact ih hlt h
    · omega

/-- The first free candidate is the same for two searches that agree on it and
on those before it. -/
theorem freshSuffix_eq {other : String → Bool} {more : Nat}
    (hsub : ∀ name, taken name = true → other name = true)
    (hfree : other s!"{base}#{freshSuffix taken base tries start}" = false)
    (hother : other s!"{base}#{freshSuffix other base more start}" = false) :
    freshSuffix other base more start = freshSuffix taken base tries start := by
  rcases Nat.lt_trichotomy (freshSuffix other base more start)
    (freshSuffix taken base tries start) with hlt | heq | hlt
  · have htaken := hsub _ (taken_of_lt_freshSuffix (le_freshSuffix _ _ _ _) hlt)
    rw [hother] at htaken
    cases htaken
  · exact heq
  · have htaken := taken_of_lt_freshSuffix (le_freshSuffix _ _ _ _) hlt
    rw [hfree] at htaken
    cases htaken

/-- The same where a suffix is needed only if the name alone is taken. -/
theorem unsuffixed_eq {taken other : String → Bool} {base : String} {tries more start : Nat}
    (hsub : ∀ name, taken name = true → other name = true)
    (hfree : other (if taken base then s!"{base}#{freshSuffix taken base tries start}"
      else base) = false)
    (hother : other (if other base then s!"{base}#{freshSuffix other base more start}"
      else base) = false) :
    (if other base then s!"{base}#{freshSuffix other base more start}" else base) =
      if taken base then s!"{base}#{freshSuffix taken base tries start}" else base := by
  by_cases hbase : taken base = true
  · rw [if_pos hbase] at hfree ⊢
    rw [if_pos (hsub base hbase)] at hother ⊢
    rw [freshSuffix_eq hsub hfree hother]
  · rw [if_neg hbase] at hfree ⊢
    rw [if_neg (by simp [hfree])]

/-- Among more candidates than there are names one is free. -/
theorem exists_free {names : List String} (hnames : ∀ name, taken name = true → name ∈ names)
    (base : String) (htries : names.length < tries) (start : Nat) :
    ∃ k, k < tries ∧ taken s!"{base}#{start + k}" = false := by
  by_contra hnone
  let candidates := (List.range tries).map fun k => s!"{base}#{start + k}"
  have hsub : candidates ⊆ names := by
    intro name hname
    obtain ⟨k, hk, rfl⟩ := List.mem_map.mp hname
    apply hnames
    by_contra hfree
    exact hnone ⟨k, List.mem_range.mp hk, by simpa using hfree⟩
  have hnodup : candidates.Nodup := by
    refine List.nodup_range.map_on ?_
    intro m _ n _ heq
    have hsum := suffixed_injective base heq
    omega
  have hlength := (hnodup.subperm hsub).length_le
  simp only [candidates, List.length_map, List.length_range] at hlength
  omega

theorem freshSuffix_not_taken {names : List String}
    (hnames : ∀ name, taken name = true → name ∈ names) (base : String)
    (htries : names.length < tries) (start : Nat) :
    taken s!"{base}#{freshSuffix taken base tries start}" = false :=
  freshSuffix_free (exists_free hnames base htries start)

/-- The scope name of a function is free, and is not that of the top-level
code. -/
theorem uniqueScopeName_free (taken : List String) (enclosing name : String) :
    uniqueScopeName taken enclosing name ∉ taken ∧
      uniqueScopeName taken enclosing name ≠ mainScope := by
  let isTaken (candidate : String) : Bool := taken.contains candidate || candidate = mainScope
  have hnames (candidate : String) (h : isTaken candidate = true) :
      candidate ∈ mainScope :: taken := by
    simp only [isTaken, Bool.or_eq_true, List.contains_iff_mem, decide_eq_true_eq] at h
    rcases h with h | h
    · exact List.mem_cons_of_mem _ h
    · exact h ▸ List.mem_cons_self
  have hchoice (base : String) :
      isTaken (if isTaken base then s!"{base}#{freshSuffix isTaken base (taken.length + 2) 1}"
        else base) = false := by
    split
    · exact freshSuffix_not_taken hnames base (by simp) 1
    · rename_i hfree
      simpa using hfree
  have hfree : isTaken (uniqueScopeName taken enclosing name) = false := hchoice _
  simpa [isTaken] using hfree

/-- Names that are taken besides do not matter as long as the choice is none of
them. -/
theorem uniqueScopeName_eq {taken taken' others : List String} {enclosing name : String}
    (h : ∀ other, other ∈ taken' ↔ other ∈ taken ∨ other ∈ others)
    (hchoice : uniqueScopeName taken enclosing name ∉ others) :
    uniqueScopeName taken' enclosing name = uniqueScopeName taken enclosing name := by
  let isTaken (names : List String) (candidate : String) : Bool :=
    names.contains candidate || candidate = mainScope
  have hsub (other : String) (hother : isTaken taken other = true) :
      isTaken taken' other = true := by
    simp only [isTaken, Bool.or_eq_true, List.contains_iff_mem, decide_eq_true_eq] at hother ⊢
    exact hother.imp_left fun hmem => (h other).mpr (Or.inl hmem)
  have hfree : isTaken taken' (uniqueScopeName taken enclosing name) = false := by
    obtain ⟨hnew, hmain⟩ := uniqueScopeName_free taken enclosing name
    simp [isTaken, h, hnew, hmain, hchoice]
  have hfree' : isTaken taken' (uniqueScopeName taken' enclosing name) = false := by
    obtain ⟨hnew, hmain⟩ := uniqueScopeName_free taken' enclosing name
    simp [isTaken, hnew, hmain]
  exact unsuffixed_eq hsub hfree hfree'

theorem mem_names_of_isBound (hs : g.scope? sc = some s) {name : String}
    (h : isBound g sc name = true) : name ∈ s.names.map (·.1) := by
  simp only [isBound, hs, Option.bind_some, Scope.lookup?] at h
  obtain ⟨id, hid⟩ := Option.isSome_iff_exists.mp h
  exact List.mem_map.mpr ⟨(name, id), mem_of_lookup_eq_some hid, rfl⟩

theorem freshSuffix_not_bound (hs : g.scope? sc = some s) (base : String) (start : Nat) :
    isBound g sc s!"{base}#{freshSuffix (isBound g sc) base (boundCount g sc + 1) start}" =
      false := by
  apply freshSuffix_not_taken fun name h => mem_names_of_isBound hs h
  simp [boundCount, hs]

theorem uniqueName_not_bound (hs : g.scope? sc = some s) (name : String) :
    isBound g sc (uniqueName g sc name) = false := by
  simp only [uniqueName]
  split
  · exact freshSuffix_not_bound hs name 1
  · rename_i hfree
    simpa using hfree

end YulTaint.Flow
