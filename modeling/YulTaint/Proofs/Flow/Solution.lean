import Mathlib.Tactic
import YulTaint.Flow.Constant
import YulTaint.Proofs.Lists

/-!
Constant propagation solves its equations. A definition can only raise what
is known of its target, and each target rises at most twice, so the rounds
end at an assignment that no definition changes. There the knowledge of a
variable allows every value that some definition can give it.
-/

namespace YulTaint

namespace Knowledge

def rank : Knowledge → Nat
  | .undefined => 0
  | .constant _ => 1
  | .varying => 2

theorem rank_le (k : Knowledge) : k.rank ≤ 2 := by
  cases k <;> simp [rank]

theorem rank_le_join (a b : Knowledge) : a.rank ≤ (a.join b).rank := by
  cases a with
  | undefined => exact Nat.zero_le _
  | constant x =>
    cases b with
    | constant y =>
      simp only [join]
      split
      · exact Nat.le_refl _
      · exact Nat.le_succ _
    | undefined => exact Nat.le_refl _
    | varying => exact Nat.le_succ _
  | varying => cases b <;> exact Nat.le_refl _

/-- A join that does not raise the rank changes nothing. -/
theorem join_eq_of_rank {a b : Knowledge} (h : (a.join b).rank = a.rank) : a.join b = a := by
  cases a with
  | undefined => cases b <;> simp_all [join, rank]
  | constant x =>
    cases b with
    | undefined => rfl
    | constant y =>
      simp only [join] at h ⊢
      split at h
      · rename_i heq
        rw [if_pos heq]
      · simp [rank] at h
    | varying => simp [join, rank] at h
  | varying => cases b <;> rfl

def Allows (k : Knowledge) (value : Int) : Prop :=
  k = .varying ∨ k = .constant value

theorem allows_varying (value : Int) : Knowledge.varying.Allows value :=
  Or.inl rfl

theorem allows_constant (value : Int) : (Knowledge.constant value).Allows value :=
  Or.inr rfl

theorem allows_of_join {a b : Knowledge} (h : a.join b = a) {value : Int}
    (hb : b.Allows value) : a.Allows value := by
  rcases hb with rfl | rfl
  · cases a <;> simp_all [join, Allows]
  · cases a with
    | undefined => simp [join] at h
    | constant x =>
      simp only [join] at h
      split at h
      · rename_i heq
        rw [heq]
        exact allows_constant value
      · cases h
    | varying => exact allows_varying value

/-- Knowledge that allows a value and is one constant is that value. -/
theorem Allows.value_eq {k : Knowledge} {value known : Int} (h : k.Allows value)
    (hk : k.value? = some known) : value = known := by
  rcases h with rfl | rfl
  · cases hk
  · exact Option.some.inj hk

end Knowledge

namespace Constant

namespace Assignment

def keys (a : Assignment) : List NodeId :=
  a.map (·.1)

def rank (a : Assignment) : Nat :=
  (a.map fun entry => entry.2.rank).sum

theorem keys_set (a : Assignment) (id : NodeId) (k : Knowledge) : (a.set id k).keys = a.keys := by
  simp only [keys, set, List.map_map]
  apply List.map_congr_left
  intro entry _
  simp only [Function.comp_apply]
  split <;> rfl

theorem rank_le (a : Assignment) : a.rank ≤ 2 * a.length := by
  induction a with
  | nil => exact Nat.le_refl _
  | cons entry rest ih =>
    have hentry := entry.2.rank_le
    simp only [rank, List.map_cons, List.sum_cons, List.length_cons] at ih ⊢
    omega

theorem get_of_mem {a : Assignment} (hkeys : a.keys.Nodup) {entry : NodeId × Knowledge}
    (hentry : entry ∈ a) : a.get entry.1 = entry.2 := by
  obtain ⟨k, hk⟩ := exists_lookup (l := a) (List.mem_map_of_mem (f := Prod.fst) hentry)
  have hsame := List.inj_on_of_nodup_map hkeys (mem_of_lookup_eq_some hk) hentry rfl
  rw [get, hk, ← congrArg Prod.snd hsame]
  rfl

theorem get_eq_varying {a : Assignment} {id : NodeId} (h : id ∉ a.keys) : a.get id = .varying := by
  rw [get, lookup_eq_none_of_not_mem h]
  rfl

theorem rank_cons (entry : NodeId × Knowledge) (rest : Assignment) :
    rank (entry :: rest) = entry.2.rank + rank rest :=
  List.sum_cons

theorem set_cons (other id : NodeId) (old k : Knowledge) (rest : Assignment) :
    set ((other, old) :: rest) id k =
      (if other = id then (other, k) else (other, old)) :: set rest id k := rfl

/-- Entries that are replaced by something higher lift the assignment, and if
they do not, nothing was replaced. -/
theorem set_spec {a : Assignment} {id : NodeId} {k : Knowledge}
    (hle : ∀ entry ∈ a, entry.1 = id →
      entry.2.rank ≤ k.rank ∧ (k.rank = entry.2.rank → k = entry.2)) :
    a.rank ≤ (a.set id k).rank ∧ ((a.set id k).rank = a.rank → a.set id k = a) := by
  induction a with
  | nil => exact ⟨Nat.le_refl _, fun _ => rfl⟩
  | cons entry rest ih =>
    obtain ⟨other, old⟩ := entry
    obtain ⟨hrest, hsame⟩ := ih fun entry hentry => hle entry (List.mem_cons_of_mem _ hentry)
    rw [set_cons, rank_cons, rank_cons]
    by_cases hid : other = id
    · obtain ⟨hup, heq⟩ := hle (other, old) List.mem_cons_self hid
      rw [if_pos hid]
      simp only at hup heq ⊢
      constructor
      · omega
      · intro hsum
        have hk : k = old := heq (by omega)
        have htail : set rest id k = rest := hsame (by omega)
        rw [htail, hk]
    · rw [if_neg hid]
      constructor
      · omega
      · intro hsum
        have htail : set rest id k = rest := hsame (by omega)
        rw [htail]

theorem get_set_self {a : Assignment} {id : NodeId} (h : id ∈ a.keys) (k : Knowledge) :
    (a.set id k).get id = k := by
  induction a with
  | nil => cases h
  | cons entry rest ih =>
    obtain ⟨other, old⟩ := entry
    rw [set_cons]
    by_cases hid : other = id
    · simp [get, hid]
    · have hrest : id ∈ keys rest := by
        rcases List.mem_cons.mp h with rfl | h
        · exact absurd rfl hid
        · exact h
      rw [if_neg hid, get, List.lookup_cons, beq_eq_false_iff_ne.mpr (Ne.symm hid)]
      exact ih hrest

end Assignment

open Assignment

theorem keys_raise (a : Assignment) (d : Definition) : (raise a d).keys = a.keys :=
  keys_set a _ _

theorem raise_spec {a : Assignment} (hkeys : a.keys.Nodup) (d : Definition) :
    a.rank ≤ (raise a d).rank ∧ ((raise a d).rank = a.rank → raise a d = a) := by
  apply set_spec
  intro entry hentry hid
  have hget : a.get d.target = entry.2 := hid ▸ get_of_mem hkeys hentry
  rw [hget]
  exact ⟨Knowledge.rank_le_join _ _, Knowledge.join_eq_of_rank⟩

/-- A round lifts the assignment, or else no definition changes it. -/
theorem round_spec (definitions : List Definition) {a : Assignment} (hkeys : a.keys.Nodup) :
    (round definitions a).keys = a.keys ∧ a.rank ≤ (round definitions a).rank ∧
      ((round definitions a).rank = a.rank →
        round definitions a = a ∧ ∀ d ∈ definitions, raise a d = a) := by
  induction definitions generalizing a with
  | nil =>
    refine ⟨rfl, Nat.le_refl _, fun _ => ⟨rfl, ?_⟩⟩
    intro d hd
    cases hd
  | cons d rest ih =>
    obtain ⟨hup, hsame⟩ := raise_spec hkeys d
    have hkeys' : (raise a d).keys.Nodup := by rwa [keys_raise]
    obtain ⟨hkeep, hup', hsame'⟩ := ih hkeys'
    have hround : round (d :: rest) a = round rest (raise a d) := rfl
    rw [hround]
    refine ⟨hkeep.trans (keys_raise a d), hup.trans hup', ?_⟩
    intro hrank
    have hfirst : raise a d = a := hsame (by omega)
    rw [hfirst] at hsame' hrank ⊢
    obtain ⟨hfix, hall⟩ := hsame' hrank
    refine ⟨hfix, ?_⟩
    intro d' hd'
    rcases List.mem_cons.mp hd' with rfl | hd'
    · exact hfirst
    · exact hall d' hd'

/-- Rounds that change something raise the rank, so the bound is never reached. -/
theorem rounds_spec (definitions : List Definition) (bound : Nat) {a : Assignment} (hkeys : a.keys.Nodup)
    (hbound : 2 * a.length < a.rank + bound) :
    (rounds definitions bound a).keys = a.keys ∧
      ∀ d ∈ definitions, raise (rounds definitions bound a) d = rounds definitions bound a := by
  induction bound generalizing a with
  | zero =>
    have hle := a.rank_le
    omega
  | succ bound ih =>
    obtain ⟨hkeep, hup, hsame⟩ := round_spec definitions hkeys
    simp only [rounds]
    split
    · rename_i hfix
      exact ⟨rfl, (hsame (by rw [hfix])).2⟩
    · rename_i hchange
      have hne : (round definitions a).rank ≠ a.rank := fun heq => hchange (hsame heq).1
      have hlength : (round definitions a).length = a.length := by
        have := congrArg List.length hkeep
        simpa [keys] using this
      obtain ⟨hkeys', hfixed⟩ := ih (a := round definitions a) (by rwa [hkeep])
        (by rw [hlength]; omega)
      exact ⟨hkeys'.trans hkeep, hfixed⟩

theorem keys_start (definitions : List Definition) :
    (start definitions).keys = (definitions.map (·.target)).eraseDups := by
  simp [keys, start, Function.comp_def]

/-- The solution knows exactly the targets, each once, and no definition
changes it. -/
theorem solve_spec (definitions : List Definition) :
    (solve definitions).keys = (definitions.map (·.target)).eraseDups ∧
      ∀ d ∈ definitions, raise (solve definitions) d = solve definitions := by
  obtain ⟨hnodup, _, hlength⟩ := eraseDups_spec (definitions.map (·.target))
  rw [← keys_start, keys, List.length_map, List.length_map] at hlength
  rw [← keys_start] at hnodup
  obtain ⟨hkeys, hfixed⟩ := rounds_spec definitions (2 * definitions.length + 1) hnodup
    (by omega)
  exact ⟨hkeys.trans (keys_start definitions), hfixed⟩

theorem nodup_keys_solve (definitions : List Definition) : (solve definitions).keys.Nodup := by
  rw [(solve_spec definitions).1]
  exact (eraseDups_spec _).1

theorem constants?_eq_some {ks : List Knowledge} {values : List Int}
    (h : List.Forall₂ Knowledge.Allows ks values) (hvarying : Knowledge.varying ∉ ks) :
    constants? ks = some values := by
  unfold constants?
  induction h with
  | nil => rfl
  | cons hk _ ih =>
    obtain ⟨hne, hrest⟩ := not_or.mp (List.mem_cons.not.mp hvarying)
    rcases hk with rfl | rfl
    · exact absurd rfl hne
    · rw [List.mapM_cons, ih hrest]
      rfl

/-- The value of an application is allowed if the operands' values are. -/
theorem applied_allows {name : String} {ks : List Knowledge} {values : List Int}
    (h : List.Forall₂ Knowledge.Allows ks values) {value : Int}
    (hvalue : ∀ c, (Builtin.effectFor name (values.map some)).constant = some c → value = c) :
    (applied name ks).Allows value := by
  unfold applied
  by_cases hvarying : Knowledge.varying ∈ ks
  · rw [if_pos (by simpa using hvarying)]
    exact Knowledge.allows_varying value
  · rw [if_neg (by simpa using hvarying), constants?_eq_some h hvarying]
    simp only
    cases hconstant : (Builtin.effectFor name (values.map some)).constant with
    | none => exact Knowledge.allows_varying value
    | some c =>
      rw [hvalue c hconstant]
      exact Knowledge.allows_constant c

/-- No definition adds to what the solution knows of its target. -/
theorem solve_join {definitions : List Definition} {d : Definition} (hd : d ∈ definitions) :
    ((solve definitions).get d.target).join (transfer (solve definitions) d) =
      (solve definitions).get d.target := by
  have hfixed := (solve_spec definitions).2 d hd
  have hkey : d.target ∈ (solve definitions).keys := by
    rw [(solve_spec definitions).1, (eraseDups_spec _).2.1]
    exact List.mem_map_of_mem hd
  have hget := get_set_self hkey
    (((solve definitions).get d.target).join (transfer (solve definitions) d))
  rw [raise] at hfixed
  rw [hfixed] at hget
  exact hget.symm

/-- What a definition gives its target is allowed by what the solution knows of
the target. -/
theorem solve_allows {definitions : List Definition} {d : Definition} (hd : d ∈ definitions)
    {value : Int} (h : (transfer (solve definitions) d).Allows value) :
    ((solve definitions).get d.target).Allows value :=
  Knowledge.allows_of_join (solve_join hd) h

end Constant

end YulTaint
