import Mathlib.Tactic
import YulTaint.Proofs.Flow.Move
import YulTaint.Proofs.Flow.Solution

/-!
What the solved definitions of a scope know in the end. The constants are words
if those in the definitions are. If every definition uses only variables that
are defined before it, nothing stays undefined; then a variable that may hold
anything has no constant, and a constant application has constant operands.
-/

namespace YulTaint

namespace Knowledge

/-- A constant, if one is known, is a word. -/
def HoldsWord (k : Knowledge) : Prop :=
  ∀ value, k = .constant value → IsWord value

theorem holdsWord_undefined : undefined.HoldsWord := by
  intro value h
  cases h

theorem holdsWord_varying : varying.HoldsWord := by
  intro value h
  cases h

theorem HoldsWord.join {a b : Knowledge} (ha : a.HoldsWord) (hb : b.HoldsWord) :
    (a.join b).HoldsWord := by
  intro value h
  cases a with
  | undefined => exact hb value h
  | constant x =>
    cases b with
    | undefined => exact ha value h
    | constant y =>
      simp only [Knowledge.join] at h
      split at h
      · exact ha value h
      · cases h
    | varying => cases h
  | varying => cases b <;> cases h

theorem holdsWord_ofOption {value? : Option Int} (h : ∀ value, value? = some value → IsWord value) :
    (ofOption value?).HoldsWord := by
  intro value heq
  cases value? with
  | none => cases heq
  | some known =>
    cases heq
    exact h value rfl

theorem ne_undefined_of_join {a b : Knowledge} (h : a.join b = a) (hb : b ≠ .undefined) :
    a ≠ .undefined := by
  rintro rfl
  exact hb h

theorem eq_varying_of_join {a : Knowledge} (h : a.join .varying = a) : a = .varying := by
  cases a <;> exact h.symm

theorem eq_of_join_constant {b : Knowledge} {value : Int}
    (h : (constant value).join b = .constant value) (hb : b ≠ .undefined) : b = .constant value := by
  cases b with
  | undefined => exact absurd rfl hb
  | constant other =>
    simp only [join] at h
    split at h
    · rename_i heq
      rw [heq]
    · cases h
  | varying => cases h

end Knowledge

namespace Constant

def Assignment.HoldsWords (a : Assignment) : Prop :=
  ∀ entry ∈ a, entry.2.HoldsWord

theorem Assignment.HoldsWords.get {a : Assignment} (h : a.HoldsWords) (id : NodeId) :
    (a.get id).HoldsWord := by
  rw [Assignment.get]
  cases hlookup : a.lookup id with
  | none => exact Knowledge.holdsWord_varying
  | some k => exact h _ (mem_of_lookup_eq_some hlookup)

theorem constants?_eq {ks : List Knowledge} {values : List Int} (h : constants? ks = some values) :
    ks = values.map .constant := by
  unfold constants? at h
  induction ks generalizing values with
  | nil =>
    cases h
    rfl
  | cons k rest ih =>
    rw [List.mapM_cons] at h
    obtain ⟨value, hvalue, h⟩ := Option.bind_eq_some_iff.mp h
    obtain ⟨others, hothers, h⟩ := Option.bind_eq_some_iff.mp h
    cases h
    rw [ih hothers, List.map_cons]
    cases k with
    | constant known =>
      cases hvalue
      rfl
    | undefined => cases hvalue
    | varying => cases hvalue

/-- A builtin applied to words yields a word. -/
theorem holdsWord_applied {name : String} {ks : List Knowledge} (h : ∀ k ∈ ks, k.HoldsWord) :
    (applied name ks).HoldsWord := by
  unfold applied
  split
  · exact Knowledge.holdsWord_varying
  · cases hconstants : constants? ks with
    | none => exact Knowledge.holdsWord_undefined
    | some values =>
      refine Knowledge.holdsWord_ofOption fun value hvalue => ?_
      refine Builtin.isWord_effectFor (fun x hx => ?_) hvalue
      refine h (.constant x) ?_ x rfl
      rw [constants?_eq hconstants]
      exact List.mem_map_of_mem hx

theorem holdsWord_transfer {a : Assignment} (ha : a.HoldsWords) {d : Definition}
    (hd : d.HoldsWord) : (transfer a d).HoldsWord := by
  cases d with
  | constant target value =>
    intro known heq
    cases heq
    exact hd
  | copy target source => exact ha.get source
  | application target name operands =>
    refine holdsWord_applied fun k hk => ?_
    obtain ⟨id, _, rfl⟩ := List.mem_map.mp hk
    exact ha.get id
  | arbitrary target => exact Knowledge.holdsWord_varying

theorem Assignment.HoldsWords.raise {a : Assignment} (ha : a.HoldsWords) {d : Definition}
    (hd : d.HoldsWord) : (raise a d).HoldsWords := by
  intro entry hentry
  obtain ⟨⟨other, old⟩, hold, rfl⟩ := List.mem_map.mp hentry
  simp only
  split
  · exact (ha.get _).join (holdsWord_transfer ha hd)
  · exact ha _ hold

theorem Assignment.HoldsWords.round {definitions : List Definition}
    (hds : ∀ d ∈ definitions, d.HoldsWord) {a : Assignment} (ha : a.HoldsWords) :
    (round definitions a).HoldsWords := by
  unfold Constant.round
  induction definitions generalizing a with
  | nil => exact ha
  | cons d rest ih =>
    exact ih (fun d' hd' => hds d' (List.mem_cons_of_mem _ hd'))
      (ha.raise (hds d List.mem_cons_self))

theorem Assignment.HoldsWords.rounds {definitions : List Definition}
    (hds : ∀ d ∈ definitions, d.HoldsWord) (bound : Nat) {a : Assignment} (ha : a.HoldsWords) :
    (rounds definitions bound a).HoldsWords := by
  induction bound generalizing a with
  | zero => exact ha
  | succ bound ih =>
    simp only [Constant.rounds]
    split
    · exact ha
    · exact ih (ha.round hds)

/-- What the solution knows to be constant is a word. -/
theorem isWord_of_solve {definitions : List Definition} (hds : ∀ d ∈ definitions, d.HoldsWord)
    {id : NodeId} {value : Int} (h : (solve definitions).get id = .constant value) :
    IsWord value := by
  have hstart : (start definitions).HoldsWords := by
    intro entry hentry
    obtain ⟨target, _, rfl⟩ := List.mem_map.mp hentry
    exact Knowledge.holdsWord_undefined
  exact (hstart.rounds hds _).get id value h

end Constant

def Definition.uses : Definition → List NodeId
  | .copy _ source => [source]
  | .application _ _ operands => operands
  | _ => []

/-- Every definition uses known variables only, and those defined before it. -/
def Grounded (known : NodeId → Prop) : List Definition → Prop
  | [] => True
  | d :: rest => (∀ id ∈ d.uses, known id) ∧ Grounded (fun id => known id ∨ id = d.target) rest

section Grounded

variable {known known' : NodeId → Prop} {ds ds' : List Definition}

theorem Grounded.mono (h : Grounded known ds) (hknown : ∀ id, known id → known' id) :
    Grounded known' ds := by
  induction ds generalizing known known' with
  | nil => trivial
  | cons d rest ih =>
    refine ⟨fun id hid => hknown id (h.1 id hid), ih h.2 fun id hid => ?_⟩
    exact hid.imp (hknown id) fun heq => heq

theorem Grounded.append (h : Grounded known ds)
    (h' : Grounded (fun id => known id ∨ id ∈ ds.map (·.target)) ds') :
    Grounded known (ds ++ ds') := by
  induction ds generalizing known with
  | nil => exact h'.mono fun id hid => hid.resolve_right List.not_mem_nil
  | cons d rest ih =>
    refine ⟨h.1, ih h.2 (h'.mono fun id hid => ?_)⟩
    rw [List.map_cons, List.mem_cons, ← or_assoc] at hid
    exact hid

/-- Definitions that use known variables alone, whatever their order. -/
theorem grounded_of_uses (h : ∀ d ∈ ds, ∀ id ∈ d.uses, known id) : Grounded known ds := by
  induction ds generalizing known with
  | nil => trivial
  | cons d rest ih =>
    refine ⟨h d List.mem_cons_self, ih fun d' hd' id hid => Or.inl ?_⟩
    exact h d' (List.mem_cons_of_mem _ hd') id hid

end Grounded

namespace Constant

variable {definitions : List Definition} {target : NodeId}

/-- An application is known as soon as all operands are. -/
theorem applied_ne_undefined {name : String} {ks : List Knowledge}
    (h : ∀ k ∈ ks, k ≠ .undefined) : applied name ks ≠ .undefined := by
  unfold applied
  split
  · exact fun heq => nomatch heq
  · rename_i hvarying
    have hvalues : ∃ values : List Int, List.Forall₂ Knowledge.Allows ks values := by
      refine ⟨ks.map fun k => k.value?.getD 0, ?_⟩
      rw [List.forall₂_map_right_iff, List.forall₂_same]
      intro k hk
      cases k with
      | undefined => exact absurd rfl (h _ hk)
      | constant value => exact Knowledge.allows_constant value
      | varying => exact Knowledge.allows_varying _
    obtain ⟨values, hallows⟩ := hvalues
    rw [constants?_eq_some hallows (by simpa using hvarying)]
    simp only
    cases (Builtin.effectFor name (values.map some)).constant with
    | none => exact fun heq => nomatch heq
    | some value => exact fun heq => nomatch heq

theorem transfer_ne_undefined {a : Assignment} {d : Definition}
    (h : ∀ id ∈ d.uses, a.get id ≠ .undefined) : transfer a d ≠ .undefined := by
  cases d with
  | constant target value => exact fun heq => nomatch heq
  | copy target source => exact h source List.mem_cons_self
  | application target name operands =>
    refine applied_ne_undefined fun k hk => ?_
    obtain ⟨id, hid, rfl⟩ := List.mem_map.mp hk
    exact h id hid
  | arbitrary target => exact fun heq => nomatch heq

/-- The solution knows something of each variable, if definitions use what is
defined before them and variables without a definition. -/
theorem solve_ne_undefined
    (h : Grounded (fun id => id ∉ definitions.map (·.target)) definitions) (id : NodeId) :
    (solve definitions).get id ≠ .undefined := by
  have hothers : ∀ id ∉ definitions.map (·.target), (solve definitions).get id ≠ .undefined := by
    intro id hid
    rw [Assignment.get_eq_varying]
    · exact fun heq => nomatch heq
    · rwa [(solve_spec definitions).1, (eraseDups_spec _).2.1]
  -- along the definitions, what is known grows by one target after the other
  have htargets {ds : List Definition} {known : NodeId → Prop} (hds : ds ⊆ definitions)
      (hground : Grounded known ds)
      (hknown : ∀ id, known id → (solve definitions).get id ≠ .undefined) :
      ∀ d ∈ ds, (solve definitions).get d.target ≠ .undefined := by
    induction ds generalizing known with
    | nil => exact List.forall_mem_nil _
    | cons d rest ih =>
      have hfirst : (solve definitions).get d.target ≠ .undefined :=
        Knowledge.ne_undefined_of_join (solve_join (hds List.mem_cons_self))
          (transfer_ne_undefined fun id hid => hknown id (hground.1 id hid))
      have hrest := ih (fun d' hd' => hds (List.mem_cons_of_mem _ hd')) hground.2
        fun id hid => hid.elim (hknown id) fun heq => heq ▸ hfirst
      exact List.forall_mem_cons.mpr ⟨hfirst, hrest⟩
  by_cases hid : id ∈ definitions.map (·.target)
  · obtain ⟨d, hd, rfl⟩ := List.mem_map.mp hid
    exact htargets (List.Subset.refl _) h hothers d hd
  · exact hothers id hid

/-- A variable that may hold anything is not constant. -/
theorem solve_arbitrary (h : .arbitrary target ∈ definitions) :
    (solve definitions).get target = .varying :=
  Knowledge.eq_varying_of_join (solve_join h)

/-- A constant application has constant operands, and its effect gives the
constant. -/
theorem solve_application {name : String} {operands : List NodeId}
    (hdefined : ∀ id, (solve definitions).get id ≠ .undefined)
    (h : .application target name operands ∈ definitions) {value : Int}
    (hvalue : (solve definitions).get target = .constant value) :
    ∃ values : List Int, operands.map (solve definitions).get = values.map .constant ∧
      (Builtin.effectFor name (values.map some)).constant = some value := by
  have hjoin := solve_join h
  have htransfer := transfer_ne_undefined (a := solve definitions)
    (d := .application target name operands) fun id _ => hdefined id
  simp only [Definition.target, hvalue] at hjoin
  have happlied : applied name (operands.map (solve definitions).get) = .constant value :=
    Knowledge.eq_of_join_constant hjoin htransfer
  unfold applied at happlied
  split at happlied
  · cases happlied
  · cases hconstants : constants? (operands.map (solve definitions).get) with
    | none =>
      rw [hconstants] at happlied
      cases happlied
    | some values =>
      rw [hconstants] at happlied
      refine ⟨values, constants?_eq hconstants, ?_⟩
      simp only at happlied
      cases heffect : (Builtin.effectFor name (values.map some)).constant with
      | none =>
        rw [heffect] at happlied
        cases happlied
      | some known =>
        rw [heffect] at happlied
        cases happlied
        rfl

end Constant

namespace Builtin

/-- What comes from outside the program is not folded. -/
theorem fold?_of_source {b : Builtin} (hb : b ∈ table) (hkind : b.kind = .source) :
    b.fold? = none := by
  have hsource : ∀ b ∈ table, b.kind = .source → b.fold?.isNone = true := by decide
  exact Option.isNone_iff_eq_none.mp (hsource b hb hkind)

/-- An application to constants that is a source has no constant value. -/
theorem constant_of_source {name : String} {values : List Int}
    (h : (effectFor name (values.map some)).source = true) :
    (effectFor name (values.map some)).constant = none := by
  unfold effectFor at h ⊢
  cases hb : lookup? name with
  | none =>
    rw [hb] at h
    simp only [unknownEffect, allConstant?_map_some] at h
    cases h
  | some b =>
    rw [hb] at h
    have hkind : b.kind = .source := of_decide_eq_true h
    have hfold := fold?_of_source (List.mem_of_find?_eq_some hb) hkind
    simp only [effectWith, folded, hfold, allConstant?_map_some]
    rfl

end Builtin

end YulTaint
