import Mathlib.Tactic
import YulTaint.Proofs.Flow.Applicable

/-!
Constant propagation computes the least solution of its equations, in which
the knowledge of a variable is the join of what its definitions give it. A
definition gives more only where more is known, so all that the rounds reach
lies below every solution, and the order of the definitions cannot matter. In
the definitions of a program nothing is left undefined, since each of them uses
what is defined before it.
-/

namespace YulTaint

namespace Knowledge

/-- Nothing known lies lowest and several values highest; two constants cannot
be compared. -/
instance : SemilatticeSup Knowledge where
  le a b := a = .undefined ∨ a = b ∨ b = .varying
  le_refl a := Or.inr (Or.inl rfl)
  le_trans a b c hab hbc := by
    rcases hab with rfl | rfl | rfl
    · exact Or.inl rfl
    · exact hbc
    · rcases hbc with h | rfl | rfl
      · cases h
      · exact Or.inr (Or.inr rfl)
      · exact Or.inr (Or.inr rfl)
  le_antisymm a b hab hba := by
    rcases hab with rfl | rfl | rfl
    · rcases hba with rfl | rfl | h
      · rfl
      · rfl
      · cases h
    · rfl
    · rcases hba with h | rfl | rfl
      · cases h
      · rfl
      · rfl
  sup := join
  le_sup_left a b := by
    cases a with
    | undefined => exact Or.inl rfl
    | constant x =>
      cases b with
      | undefined => exact Or.inr (Or.inl rfl)
      | constant y =>
        by_cases h : x = y
        · exact Or.inr (Or.inl (if_pos h).symm)
        · exact Or.inr (Or.inr (if_neg h))
      | varying => exact Or.inr (Or.inr rfl)
    | varying => cases b <;> exact Or.inr (Or.inr rfl)
  le_sup_right a b := by
    cases b with
    | undefined => exact Or.inl rfl
    | constant y =>
      cases a with
      | undefined => exact Or.inr (Or.inl rfl)
      | constant x =>
        by_cases h : x = y
        · subst h
          exact Or.inr (Or.inl (if_pos rfl).symm)
        · exact Or.inr (Or.inr (if_neg h))
      | varying => exact Or.inr (Or.inr rfl)
    | varying => cases a <;> exact Or.inr (Or.inr rfl)
  sup_le a b c hac hbc := by
    rcases hac with rfl | rfl | rfl
    · exact hbc
    · rcases hbc with rfl | rfl | rfl
      · cases a <;> exact Or.inr (Or.inl rfl)
      · cases b with
        | undefined => exact Or.inr (Or.inl rfl)
        | constant x => exact Or.inr (Or.inl (if_pos rfl))
        | varying => exact Or.inr (Or.inl rfl)
      · exact Or.inr (Or.inr rfl)
    · exact Or.inr (Or.inr rfl)

theorem undefined_le (k : Knowledge) : undefined ≤ k :=
  Or.inl rfl

theorem le_varying (k : Knowledge) : k ≤ varying :=
  Or.inr (Or.inr rfl)

theorem eq_varying_of_le {k : Knowledge} (h : varying ≤ k) : k = varying := by
  rcases h with h | h | h
  · cases h
  · exact h.symm
  · exact h

theorem le_of_join_eq {a b : Knowledge} (h : a.join b = a) : b ≤ a :=
  sup_eq_left.mp h

def joinAll (ks : List Knowledge) : Knowledge :=
  ks.foldr join .undefined

theorem joinAll_le_iff {ks : List Knowledge} {k : Knowledge} :
    joinAll ks ≤ k ↔ ∀ x ∈ ks, x ≤ k := by
  induction ks with
  | nil => exact ⟨fun _ _ h => absurd h List.not_mem_nil, fun _ => undefined_le k⟩
  | cons x rest ih =>
    rw [List.forall_mem_cons, ← ih]
    exact sup_le_iff

end Knowledge

namespace Constant

open Knowledge (joinAll)

namespace Assignment

def Below (a b : Assignment) : Prop :=
  ∀ id, a.get id ≤ b.get id

theorem get_set_of_ne {id other : NodeId} (h : other ≠ id) (a : Assignment) (k : Knowledge) :
    (a.set id k).get other = a.get other := by
  induction a with
  | nil => rfl
  | cons entry rest ih =>
    obtain ⟨key, old⟩ := entry
    rw [set_cons, get, get]
    by_cases hkey : key = id
    · have hne : (other == key) = false := beq_eq_false_iff_ne.mpr (hkey ▸ h)
      rw [if_pos hkey, List.lookup_cons, List.lookup_cons, hne]
      exact ih
    · rw [if_neg hkey, List.lookup_cons, List.lookup_cons]
      cases other == key with
      | true => rfl
      | false => exact ih

end Assignment

open Assignment

theorem get_raise_of_ne {d : Definition} {id : NodeId} (h : id ≠ d.target) (a : Assignment) :
    (raise a d).get id = a.get id :=
  get_set_of_ne h a _

theorem get_raise_target {a : Assignment} {d : Definition} (h : d.target ∈ a.keys) :
    (raise a d).get d.target = a.get d.target ⊔ transfer a d :=
  get_set_self h _

theorem below_raise {a : Assignment} {d : Definition} (h : d.target ∈ a.keys) :
    a.Below (raise a d) := by
  intro id
  by_cases hid : id = d.target
  · rw [hid, get_raise_target h]
    exact le_sup_left
  · rw [get_raise_of_ne hid]

theorem constants?_eq_none {ks : List Knowledge} (h : .undefined ∈ ks) : constants? ks = none := by
  cases hconstants : constants? ks with
  | none => rfl
  | some values =>
    rw [constants?_eq hconstants] at h
    obtain ⟨value, _, hvalue⟩ := List.mem_map.mp h
    cases hvalue

/-- An application varies as soon as an operand does, and before that it is
undefined unless no operand has changed. -/
theorem applied_mono (name : String) {ks ks' : List Knowledge}
    (h : List.Forall₂ (· ≤ ·) ks ks') : applied name ks ≤ applied name ks' := by
  by_cases hvarying : Knowledge.varying ∈ ks'
  · have htop : applied name ks' = .varying := if_pos (by simpa using hvarying)
    rw [htop]
    exact Knowledge.le_varying _
  · have hsmall : Knowledge.varying ∉ ks := by
      intro hmem
      obtain ⟨k, hk, hle⟩ := exists_of_mem_left h hmem
      rw [Knowledge.eq_varying_of_le hle] at hk
      exact hvarying hk
    by_cases hundefined : Knowledge.undefined ∈ ks
    · have hbot : applied name ks = .undefined := by
        rw [applied, if_neg (by simpa using hsmall), constants?_eq_none hundefined]
      rw [hbot]
      exact Knowledge.undefined_le _
    · -- between constants there is no order but equality
      have hsame : ks = ks' := by
        clear hsmall
        induction h with
        | nil => rfl
        | @cons k k' _ _ hle _ ih =>
          have hrest := ih (fun hmem => hvarying (List.mem_cons_of_mem _ hmem))
            (fun hmem => hundefined (List.mem_cons_of_mem _ hmem))
          rcases hle with rfl | rfl | rfl
          · exact absurd List.mem_cons_self hundefined
          · rw [hrest]
          · exact absurd List.mem_cons_self hvarying
      rw [hsame]

/-- From more knowledge a definition gives no less. -/
theorem transfer_mono {a b : Assignment} (h : a.Below b) (d : Definition) :
    transfer a d ≤ transfer b d := by
  cases d with
  | constant target value => exact le_rfl
  | copy target source => exact h source
  | application target name operands =>
    refine applied_mono name ?_
    rw [List.forall₂_map_left_iff, List.forall₂_map_right_iff, List.forall₂_same]
    exact fun id _ => h id
  | arbitrary target => exact le_rfl

/-- The knowledge that an assignment should have of a variable: the join over
the definitions of the variable. -/
def demanded (definitions : List Definition) (a : Assignment) (id : NodeId) : Knowledge :=
  joinAll ((definitions.filter (·.target = id)).map (transfer a))

/-- An assignment of knowledge to the defined variables in which each variable
has the join of its definitions. -/
structure Solution (definitions : List Definition) (a : Assignment) : Prop where
  keys : ∀ id, id ∈ a.keys ↔ id ∈ definitions.map (·.target)
  value : ∀ id ∈ definitions.map (·.target), a.get id = demanded definitions a id

section Solution

variable {definitions definitions' : List Definition} {a b : Assignment} {d : Definition}

theorem demanded_le_iff {id : NodeId} {k : Knowledge} :
    demanded definitions a id ≤ k ↔ ∀ d ∈ definitions, d.target = id → transfer a d ≤ k := by
  rw [demanded, Knowledge.joinAll_le_iff]
  constructor
  · intro h d hd htarget
    exact h _ (List.mem_map_of_mem (List.mem_filter.mpr ⟨hd, by simpa using htarget⟩))
  · intro h k hk
    obtain ⟨d, hd, rfl⟩ := List.mem_map.mp hk
    obtain ⟨hmem, htarget⟩ := List.mem_filter.mp hd
    exact h d hmem (by simpa using htarget)

theorem transfer_le_demanded (hd : d ∈ definitions) :
    transfer a d ≤ demanded definitions a d.target :=
  demanded_le_iff.mp le_rfl d hd rfl

theorem demanded_mono (h : a.Below b) (id : NodeId) :
    demanded definitions a id ≤ demanded definitions b id := by
  rw [demanded_le_iff]
  intro d hd htarget
  exact (transfer_mono h d).trans (demanded_le_iff.mp le_rfl d hd htarget)

theorem demanded_perm (h : definitions.Perm definitions') (a : Assignment) (id : NodeId) :
    demanded definitions a id = demanded definitions' a id := by
  refine le_antisymm (demanded_le_iff.mpr ?_) (demanded_le_iff.mpr ?_)
  · exact fun d hd => demanded_le_iff.mp le_rfl d (h.mem_iff.mp hd)
  · exact fun d hd => demanded_le_iff.mp le_rfl d (h.mem_iff.mpr hd)

theorem Solution.perm (h : definitions.Perm definitions') (ha : Solution definitions a) :
    Solution definitions' a := by
  have htargets (id : NodeId) :
      id ∈ definitions'.map (·.target) ↔ id ∈ definitions.map (·.target) :=
    (h.map _).mem_iff.symm
  refine ⟨fun id => (ha.keys id).trans (htargets id).symm, fun id hid => ?_⟩
  rw [← demanded_perm h]
  exact ha.value id ((htargets id).mp hid)

/-- In a solution no definition gives more than is known. -/
theorem Solution.transfer_le (h : Solution definitions b) (hd : d ∈ definitions) :
    transfer b d ≤ b.get d.target := by
  rw [h.value _ (List.mem_map_of_mem hd)]
  exact transfer_le_demanded hd

/-- The variables are the defined ones, and none is known better than its
definitions say. -/
structure Justified (definitions : List Definition) (a : Assignment) : Prop where
  keys : ∀ id, id ∈ a.keys ↔ id ∈ definitions.map (·.target)
  value : ∀ id ∈ definitions.map (·.target), a.get id ≤ demanded definitions a id

theorem Justified.target_mem (h : Justified definitions a) (hd : d ∈ definitions) :
    d.target ∈ a.keys :=
  (h.keys _).mpr (List.mem_map_of_mem hd)

/-- To raise a variable to what a definition says keeps it justified. -/
theorem Justified.raise (h : Justified definitions a) (hd : d ∈ definitions) :
    Justified definitions (raise a d) := by
  have hup := below_raise (h.target_mem hd)
  refine ⟨fun id => by rw [keys_raise]; exact h.keys id, fun id hid => ?_⟩
  by_cases heq : id = d.target
  · subst heq
    rw [get_raise_target (h.target_mem hd)]
    exact (sup_le (h.value _ hid) (transfer_le_demanded hd)).trans (demanded_mono hup _)
  · rw [get_raise_of_ne heq]
    exact (h.value id hid).trans (demanded_mono hup id)

theorem below_of_raise (h : Justified definitions a) (hb : Solution definitions b)
    (hab : a.Below b) (hd : d ∈ definitions) : (raise a d).Below b := by
  intro id
  by_cases heq : id = d.target
  · rw [heq, get_raise_target (h.target_mem hd)]
    exact sup_le (hab _) ((transfer_mono hab d).trans (hb.transfer_le hd))
  · rw [get_raise_of_ne heq]
    exact hab id

/-- A property that every definition keeps holds at the end of the rounds. -/
theorem rounds_induction {P : Assignment → Prop} (hraise : ∀ a, ∀ d ∈ definitions, P a → P (raise a d))
    (bound : Nat) (ha : P a) : P (rounds definitions bound a) := by
  have hround (ds : List Definition) (hds : ds ⊆ definitions) {a : Assignment} (ha : P a) :
      P (round ds a) := by
    induction ds generalizing a with
    | nil => exact ha
    | cons d rest ih =>
      exact ih (fun d' hd' => hds (List.mem_cons_of_mem _ hd'))
        (hraise a d (hds List.mem_cons_self) ha)
  induction bound generalizing a with
  | zero => exact ha
  | succ bound ih =>
    simp only [rounds]
    split
    · exact ha
    · exact ih (hround definitions (List.Subset.refl _) ha)

theorem mem_keys_start (id : NodeId) :
    id ∈ (start definitions).keys ↔ id ∈ definitions.map (·.target) := by
  rw [keys_start, (eraseDups_spec _).2.1]

theorem get_start {id : NodeId} (h : id ∈ definitions.map (·.target)) :
    (start definitions).get id = .undefined := by
  obtain ⟨entry, hentry, rfl⟩ := List.mem_map.mp ((mem_keys_start id).mpr h)
  have hkeys : (start definitions).keys.Nodup := by
    rw [keys_start]
    exact (eraseDups_spec _).1
  rw [get_of_mem hkeys hentry]
  obtain ⟨target, _, rfl⟩ := List.mem_map.mp hentry
  rfl

theorem justified_start (definitions : List Definition) :
    Justified definitions (start definitions) := by
  refine ⟨mem_keys_start, fun id hid => ?_⟩
  rw [get_start hid]
  exact Knowledge.undefined_le _

theorem start_below (h : Solution definitions b) : (start definitions).Below b := by
  intro id
  by_cases hid : id ∈ definitions.map (·.target)
  · rw [get_start hid]
    exact Knowledge.undefined_le _
  · rw [get_eq_varying (fun hkey => hid ((h.keys id).mp hkey))]
    exact Knowledge.le_varying _

end Solution

section Least

variable {definitions definitions' : List Definition}

theorem justified_solve (definitions : List Definition) :
    Justified definitions (solve definitions) :=
  rounds_induction (fun _ _ hd ha => ha.raise hd) _ (justified_start definitions)

theorem solution_solve (definitions : List Definition) :
    Solution definitions (solve definitions) := by
  have hjustified := justified_solve definitions
  refine ⟨hjustified.keys, fun id hid => le_antisymm (hjustified.value id hid) ?_⟩
  rw [demanded_le_iff]
  rintro d hd rfl
  exact Knowledge.le_of_join_eq (solve_join hd)

theorem solve_below {b : Assignment} (hb : Solution definitions b) :
    (solve definitions).Below b := by
  have hboth : Justified definitions (solve definitions) ∧ (solve definitions).Below b :=
    rounds_induction (P := fun a => Justified definitions a ∧ a.Below b)
      (fun _ _ hd ha => ⟨ha.1.raise hd, below_of_raise ha.1 hb ha.2 hd⟩) _
      ⟨justified_start definitions, start_below hb⟩
  exact hboth.2

theorem get_solve_perm (h : definitions.Perm definitions') (id : NodeId) :
    (solve definitions').get id = (solve definitions).get id :=
  le_antisymm (solve_below ((solution_solve definitions).perm h) id)
    (solve_below ((solution_solve definitions').perm h.symm) id)

/-- The rounds that are made are the first ones, up to the first that changes
nothing. -/
theorem exists_rounds_eq (definitions : List Definition) (bound : Nat) (a : Assignment) :
    ∃ n ≤ bound, rounds definitions bound a = (round definitions)^[n] a ∧
      ∀ m < n, (round definitions)^[m + 1] a ≠ (round definitions)^[m] a := by
  induction bound generalizing a with
  | zero => exact ⟨0, Nat.le_refl 0, rfl, fun m hm => absurd hm (Nat.not_lt_zero m)⟩
  | succ bound ih =>
    simp only [rounds]
    split
    · exact ⟨0, Nat.zero_le _, rfl, fun m hm => absurd hm (Nat.not_lt_zero m)⟩
    · rename_i hchange
      obtain ⟨n, hn, heq, hearlier⟩ := ih (round definitions a)
      refine ⟨n + 1, Nat.succ_le_succ hn, heq, fun m hm => ?_⟩
      cases m with
      | zero => exact hchange
      | succ m => exact hearlier m (Nat.lt_of_succ_lt_succ hm)

/-- Another round changes nothing. -/
theorem round_solve (definitions : List Definition) :
    round definitions (solve definitions) = solve definitions := by
  have hfixed := (solve_spec definitions).2
  unfold round
  generalize solve definitions = a at hfixed
  induction definitions with
  | nil => rfl
  | cons d rest ih =>
    rw [List.foldl_cons, hfixed d List.mem_cons_self]
    exact ih fun d' hd' => hfixed d' (List.mem_cons_of_mem _ hd')

end Least

def HasArity : Definition → Prop
  | .application _ name operands => ∀ b, Builtin.lookup? name = some b → operands.length = b.arity
  | _ => True

/-- Once all operands of an application are constant, its check succeeds. -/
def Applies (a : Assignment) : Definition → Prop
  | .application _ name operands => ∀ values, constants? (operands.map a.get) = some values →
      Builtin.resolve name (values.map some) = .ok (Builtin.effectFor name (values.map some))
  | _ => True

/-- On words the check of an application never fails. -/
theorem applies_of_holdsWords {a : Assignment} (ha : a.HoldsWords) {d : Definition}
    (hd : HasArity d) : Applies a d := by
  cases d with
  | application target name operands =>
    intro values hvalues
    have hks := constants?_eq hvalues
    refine Builtin.resolve_eq_effectFor (fun b hb => ?_) fun value hvalue => ?_
    · have hlength := congrArg List.length hks
      rw [List.length_map, List.length_map] at hlength
      rw [List.length_map, ← hlength]
      exact hd b hb
    · obtain ⟨known, hknown, heq⟩ := List.mem_map.mp hvalue
      cases heq
      have hmem : Knowledge.constant value ∈ operands.map a.get := hks ▸ List.mem_map_of_mem hknown
      obtain ⟨id, _, hid⟩ := List.mem_map.mp hmem
      exact ha.get id value hid
  | constant target value => trivial
  | copy target source => trivial
  | arbitrary target => trivial

theorem holdsWords_iterate {definitions : List Definition} (h : ∀ d ∈ definitions, d.HoldsWord)
    (n : Nat) : ((round definitions)^[n] (start definitions)).HoldsWords := by
  induction n with
  | zero =>
    intro entry hentry
    obtain ⟨target, _, rfl⟩ := List.mem_map.mp hentry
    exact Knowledge.holdsWord_undefined
  | succ n ih =>
    rw [Function.iterate_succ_apply']
    exact ih.round h

def sweep (a : Assignment) : Assignment :=
  a.map fun (id, k) => (id, if k = .undefined then .varying else k)

theorem sweep_eq_self {a : Assignment} (hkeys : a.keys.Nodup)
    (h : ∀ id ∈ a.keys, a.get id ≠ .undefined) : sweep a = a := by
  conv_rhs => rw [← List.map_id a]
  refine List.map_congr_left fun entry hentry => ?_
  have hne : entry.2 ≠ .undefined := by
    rw [← get_of_mem hkeys hentry]
    exact h entry.1 (List.mem_map_of_mem hentry)
  simp only [if_neg hne, id]

/-- In the graph, undefined and varying look the same. -/
theorem setConstant_sweep (a : Assignment) (g : Graph) :
    (sweep a).foldl Flow.setConstant g = a.foldl Flow.setConstant g := by
  rw [sweep, List.foldl_map]
  congr 1
  funext g entry
  obtain ⟨id, k⟩ := entry
  cases k <;> rfl

/-- The definitions are those that the walk of a program has recorded for one of
its scopes. -/
def Recorded (definitions : List Definition) : Prop :=
  ∃ program rs s, Flow.walkProgram program { graph := {} } = .ok rs s ∧
    ∃ r ∈ rs, r.definitions = definitions

theorem Recorded.ne_undefined {definitions : List Definition} (h : Recorded definitions)
    (id : NodeId) : (solve definitions).get id ≠ .undefined := by
  obtain ⟨program, rs, s, hwalk, r, hr, rfl⟩ := h
  have hcollect : Flow.collect program = .ok (rs.foldl Flow.finishScope s.graph) := by
    rw [Flow.collect, Flow.collectInto, hwalk]
  obtain ⟨f, hf, hlays⟩ := exists_of_mem_right (Execution.walkProgram_lays hwalk) hr
  obtain ⟨_, _, _, rfl⟩ := hlays
  exact (Execution.explains_of_collect hcollect hf).known id

/-- The rounds over any definitions end, in the first round that changes nothing,
and no application fails on the way. They end at the least solution, which is
the same in whatever order the definitions stand. A final sweep does not show in the
graph; for the definitions of a program, which leave nothing undefined, it keeps the
solution as it is. -/
theorem solve_least_solution (definitions : List Definition) :
    (∃ n ≤ 2 * definitions.length + 1,
      solve definitions = (round definitions)^[n] (start definitions) ∧
      (∀ m < n, (round definitions)^[m + 1] (start definitions) ≠
        (round definitions)^[m] (start definitions)) ∧
      round definitions (solve definitions) = solve definitions) ∧
    ((∀ d ∈ definitions, d.HoldsWord ∧ HasArity d) →
      ∀ n before d after, definitions = before ++ d :: after →
        Applies (round before ((round definitions)^[n] (start definitions))) d) ∧
    Solution definitions (solve definitions) ∧
    (∀ b, Solution definitions b → (solve definitions).Below b) ∧
    (∀ definitions', definitions.Perm definitions' →
      ∀ id, (solve definitions').get id = (solve definitions).get id) ∧
    (∀ g, (sweep (solve definitions)).foldl Flow.setConstant g =
      (solve definitions).foldl Flow.setConstant g) ∧
    (Recorded definitions →
      (∀ id ∈ definitions.map (·.target), (solve definitions).get id ≠ .undefined) ∧
      sweep (solve definitions) = solve definitions ∧
      Solution definitions (sweep (solve definitions))) := by
  refine ⟨?_, ?_, solution_solve definitions, fun b => solve_below,
    fun definitions' => get_solve_perm, setConstant_sweep _, fun hrecorded => ?_⟩
  · obtain ⟨n, hn, heq, hearlier⟩ := exists_rounds_eq definitions _ (start definitions)
    exact ⟨n, hn, heq, hearlier, round_solve definitions⟩
  · rintro h n before d after rfl
    have hwords := holdsWords_iterate (fun d' hd' => (h d' hd').1) n
    have hbefore : (round before _).HoldsWords :=
      hwords.round fun d' hd' => (h d' (List.mem_append_left _ hd')).1
    exact applies_of_holdsWords hbefore (h d (by simp)).2
  · have hdefined := hrecorded.ne_undefined
    have hsweep := sweep_eq_self (nodup_keys_solve definitions) fun id _ => hdefined id
    exact ⟨fun id _ => hdefined id, hsweep, hsweep.symm ▸ solution_solve definitions⟩

/-- A loop that copies a constant back and forth and adds it up. -/
def turningProgram : Node :=
  .program "turning" [
    .declaration ["x"] (some (.literal (.integer 5) {})) {},
    .declaration ["y"] (some (.identifier "x" {})) {},
    .declaration ["z"] none {},
    .loop (.block [] {}) (.call "lt" [.identifier "y" {}, .literal (.integer 9) {}] {}) (.block [] {})
      (.block [
        .assignment ["y"] (.identifier "x" {}) {},
        .assignment ["x"] (.identifier "y" {}) {},
        .assignment ["z"] (.call "add" [.identifier "z" {}, .identifier "x" {}] {}) {}] {}) {}] {}

def turningDefinitions : List Definition :=
  [.constant 1 5, .copy 2 1, .constant 3 0, .constant 4 9, .application 5 "lt" [2, 4], .copy 2 1,
    .copy 1 2, .application 3 "add" [3, 1]]

theorem walk_turningProgram : ∃ rs s, Flow.walkProgram turningProgram { graph := {} } = .ok rs s ∧
    rs.map (fun r => (r.scope, r.definitions)) = [(mainScope, turningDefinitions)] := by
  have hwalk : ((Flow.walkProgram turningProgram).run' { graph := {} }).any (fun rs =>
      decide (rs.map (fun r => (r.scope, r.definitions)) = [(mainScope, turningDefinitions)])) =
      true := by
    decide +kernel
  obtain ⟨rs, s, hrun, hrecords⟩ := Flow.exists_of_run' hwalk
  exact ⟨rs, s, hrun, of_decide_eq_true hrecords⟩

theorem recorded_turningDefinitions : Recorded turningDefinitions := by
  obtain ⟨rs, s, hwalk, hrecords⟩ := walk_turningProgram
  have hmem : (mainScope, turningDefinitions) ∈ rs.map fun r => (r.scope, r.definitions) :=
    hrecords ▸ List.mem_cons_self
  obtain ⟨r, hr, heq⟩ := List.mem_map.mp hmem
  exact ⟨turningProgram, rs, s, hwalk, r, hr, congrArg Prod.snd heq⟩

/-- Backwards, the loop's definitions take more rounds to the same knowledge: the
copied variable is constant, and so is the condition, but the sum varies. -/
theorem solve_least_solution_turning :
    Applies (round (turningDefinitions.take 4)
        ((round turningDefinitions)^[1] (start turningDefinitions)))
      (.application 5 "lt" [2, 4]) ∧
    (solve turningDefinitions).Below (solve turningDefinitions.reverse) ∧
    [1, 2, 3, 4, 5].map (solve turningDefinitions.reverse).get =
      [.constant 5, .constant 5, .varying, .constant 9, .constant 1] ∧
    sweep (solve turningDefinitions) = solve turningDefinitions := by
  obtain ⟨_, happlies, _, hleast, hperm, _, hrecorded⟩ := solve_least_solution turningDefinitions
  have hreverse := turningDefinitions.reverse_perm.symm
  refine ⟨happlies ?_ 1 (turningDefinitions.take 4) _ _ rfl, ?_, ?_, ?_⟩
  · have harity : ∀ name ∈ ["lt", "add"], ∀ b, Builtin.lookup? name = some b → 2 = b.arity := by
      decide +kernel
    simp only [turningDefinitions, List.forall_mem_cons]
    exact ⟨⟨isWord_natCast (n := 5) (by decide), trivial⟩, ⟨trivial, trivial⟩, ⟨isWord_zero, trivial⟩,
      ⟨isWord_natCast (n := 9) (by decide), trivial⟩,
      ⟨trivial, harity "lt" (by simp)⟩, ⟨trivial, trivial⟩, ⟨trivial, trivial⟩,
      ⟨trivial, harity "add" (by simp)⟩, List.forall_mem_nil _⟩
  · exact hleast _ ((solution_solve _).perm hreverse.symm)
  · rw [List.map_congr_left fun id _ => hperm _ hreverse id]
    decide +kernel
  · exact (hrecorded recorded_turningDefinitions).2.1

end Constant

end YulTaint
