import Mathlib.Tactic

/-!
Facts about lists that the library does not have.
-/

namespace YulTaint

variable {α β : Type} {as : List α} {a : α} {bs : List β} {R : α → β → Prop} {γ ε : Type}
  {l : List (α × β)} {b : β}

theorem exists_of_mem_right (h : List.Forall₂ R as bs) (hb : b ∈ bs) : ∃ a ∈ as, R a b := by
  induction h with
  | nil => cases hb
  | cons hab _ ih =>
    rcases List.mem_cons.mp hb with rfl | hb
    · exact ⟨_, List.mem_cons_self, hab⟩
    · obtain ⟨a, ha, hR⟩ := ih hb
      exact ⟨a, List.mem_cons_of_mem _ ha, hR⟩

theorem mapM_eq_ok_iff {f : α → Except ε β} :
    as.mapM f = .ok bs ↔ List.Forall₂ (fun a b => f a = .ok b) as bs := by
  induction as generalizing bs with
  | nil =>
    rw [List.mapM_nil, List.forall₂_nil_left_iff]
    constructor
    · intro h
      exact (Except.ok.inj h).symm
    · rintro rfl
      rfl
  | cons a rest ih =>
    rw [List.mapM_cons, List.forall₂_cons_left_iff]
    constructor
    · intro h
      cases ha : f a with
      | error e =>
        rw [ha] at h
        cases h
      | ok b =>
        rw [ha] at h
        cases hrest : rest.mapM f with
        | error e =>
          rw [hrest] at h
          cases h
        | ok bs' =>
          rw [hrest] at h
          cases h
          exact ⟨b, bs', rfl, ih.mp hrest, rfl⟩
    · rintro ⟨b, bs', ha, hrest, rfl⟩
      rw [ha, ih.mpr hrest]
      rfl

theorem exists_mapM_eq_ok {f : α → Except ε β} (h : ∀ a ∈ as, ∃ b, f a = .ok b) :
    ∃ bs, as.mapM f = .ok bs := by
  induction as with
  | nil => exact ⟨[], rfl⟩
  | cons a rest ih =>
    obtain ⟨b, hb⟩ := h a List.mem_cons_self
    obtain ⟨bs, hbs⟩ := ih fun a' ha' => h a' (List.mem_cons_of_mem _ ha')
    exact ⟨b :: bs, mapM_eq_ok_iff.mpr (.cons hb (mapM_eq_ok_iff.mp hbs))⟩

theorem exists_of_mapM_eq_error {f : α → Except ε β} {e : ε} (h : as.mapM f = .error e) :
    ∃ a ∈ as, f a = .error e := by
  induction as with
  | nil => cases h
  | cons a rest ih =>
    rw [List.mapM_cons] at h
    cases ha : f a with
    | error e' =>
      rw [ha] at h
      cases h
      exact ⟨a, List.mem_cons_self, ha⟩
    | ok b =>
      rw [ha] at h
      cases hrest : rest.mapM f with
      | error e' =>
        rw [hrest] at h
        cases h
        obtain ⟨x, hx, hfx⟩ := ih hrest
        exact ⟨x, List.mem_cons_of_mem _ hx, hfx⟩
      | ok bs =>
        rw [hrest] at h
        cases h

theorem exists_of_mem_left (h : List.Forall₂ R as bs) (ha : a ∈ as) : ∃ b ∈ bs, R a b := by
  obtain ⟨b, hb, hR⟩ := exists_of_mem_right h.flip ha
  exact ⟨b, hb, hR⟩

theorem exists_of_getElem?_left (h : List.Forall₂ R as bs) {i : Nat} (ha : as[i]? = some a) :
    ∃ b, bs[i]? = some b ∧ R a b := by
  induction h generalizing i with
  | nil => cases ha
  | @cons _ b _ _ hab _ ih =>
    cases i with
    | zero =>
      cases ha
      exact ⟨b, rfl, hab⟩
    | succ i => exact ih ha

/-- Pairs of two lists at one place, when both lists are matched. -/
theorem exists_of_mem_zip {δ : Type} {S : γ → δ → Prop} {cs : List γ} {ds : List δ}
    (h : List.Forall₂ R as bs) (h' : List.Forall₂ S cs ds) {c : γ} (hmem : (a, c) ∈ as.zip cs) :
    ∃ b d, (b, d) ∈ bs.zip ds ∧ R a b ∧ S c d := by
  induction h generalizing cs ds with
  | nil => cases hmem
  | @cons _ b _ _ hab _ ih =>
    cases h' with
    | nil => cases hmem
    | @cons _ d _ _ hcd hrest =>
      rcases List.mem_cons.mp hmem with heq | hmem
      · cases heq
        exact ⟨b, d, List.mem_cons_self, hab, hcd⟩
      · obtain ⟨b', d', hmem', hR, hS⟩ := ih hrest hmem
        exact ⟨b', d', List.mem_cons_of_mem _ hmem', hR, hS⟩

theorem mem_modify {f : α → α} {i : Nat} {l : List α} (h : a ∈ l.modify i f) :
    ∃ b ∈ l, a = b ∨ a = f b := by
  obtain ⟨j, hj⟩ := List.mem_iff_getElem?.mp h
  rw [List.getElem?_modify] at hj
  obtain ⟨b, hb, heq⟩ := Option.map_eq_some_iff.mp hj
  refine ⟨b, List.mem_of_getElem? hb, ?_⟩
  split at heq
  · exact Or.inr heq.symm
  · exact Or.inl heq.symm

/-- Two lists that a one-to-one relation matches have the same values, if related
elements have. -/
theorem perm_map_of_matching {f : α → γ} {f' : β → γ} (has : as.Nodup) (hbs : bs.Nodup)
    (hleft : ∀ a ∈ as, ∃ b ∈ bs, R a b) (hright : ∀ b ∈ bs, ∃ a ∈ as, R a b)
    (hfun : ∀ a b b', R a b → R a b' → b = b') (hinj : ∀ a a' b, R a b → R a' b → a = a')
    (hvalue : ∀ a b, R a b → f a = f' b) : (as.map f).Perm (bs.map f') := by
  induction as generalizing bs with
  | nil =>
    cases bs with
    | nil => exact .nil
    | cons b rest =>
      obtain ⟨a, ha, _⟩ := hright b List.mem_cons_self
      cases ha
  | cons a rest ih =>
    obtain ⟨hnot, hrest⟩ := List.nodup_cons.mp has
    obtain ⟨b, hb, hab⟩ := hleft a List.mem_cons_self
    obtain ⟨before, after, rfl⟩ := List.append_of_mem hb
    have hmiddle : (before ++ b :: after).Perm (b :: (before ++ after)) := List.perm_middle
    obtain ⟨hnot', hothers⟩ := List.nodup_cons.mp (hmiddle.nodup_iff.mp hbs)
    have hperm : (rest.map f).Perm ((before ++ after).map f') := by
      refine ih hrest hothers ?_ ?_
      · intro a' ha'
        obtain ⟨b', hb', hab'⟩ := hleft a' (List.mem_cons_of_mem _ ha')
        rcases List.mem_cons.mp (hmiddle.subset hb') with rfl | hb'
        · exact absurd (hinj a a' b' hab hab' ▸ ha') hnot
        · exact ⟨b', hb', hab'⟩
      · intro b' hb'
        obtain ⟨a', ha', hab'⟩ := hright b' (hmiddle.symm.subset (List.mem_cons_of_mem _ hb'))
        rcases List.mem_cons.mp ha' with rfl | ha'
        · exact absurd (hfun a' b b' hab hab' ▸ hb') hnot'
        · exact ⟨a', ha', hab'⟩
    rw [List.map_cons, hvalue a b hab]
    exact (hperm.cons (f' b)).trans (hmiddle.map f').symm

/-- If the relation matches only some of the second list, their values are among all
of it. -/
theorem subperm_map_of_matching {f : α → γ} {f' : β → γ} (has : as.Nodup) (hbs : bs.Nodup)
    (hleft : ∀ a ∈ as, ∃ b ∈ bs, R a b) (hfun : ∀ a b b', R a b → R a b' → b = b')
    (hinj : ∀ a a' b, R a b → R a' b → a = a') (hvalue : ∀ a b, R a b → f a = f' b) :
    (as.map f).Subperm (bs.map f') := by
  classical
  let matched := bs.filter fun b => ∃ a ∈ as, R a b
  have hperm : (as.map f).Perm (matched.map f') := by
    refine perm_map_of_matching has (hbs.filter _) (fun a ha => ?_) (fun b hb => ?_) hfun hinj hvalue
    · obtain ⟨b, hb, hab⟩ := hleft a ha
      exact ⟨b, List.mem_filter.mpr ⟨hb, decide_eq_true ⟨a, ha, hab⟩⟩, hab⟩
    · exact of_decide_eq_true (List.mem_filter.mp hb).2
  exact hperm.subperm.trans (List.filter_sublist.map f').subperm

/-- One step of a fold, with what comes before it and what comes after it. -/
theorem exists_foldl_step {R : β → β → Prop} (hrefl : ∀ b, R b b)
    (htrans : ∀ {a b c}, R a b → R b c → R a c) {f : β → α → β} (hf : ∀ b x, R b (f b x))
    {items : List α} {x : α} (hx : x ∈ items) (b : β) :
    ∃ b', R b b' ∧ R (f b' x) (items.foldl f b) := by
  have hfold (items : List α) (b : β) : R b (items.foldl f b) := by
    induction items generalizing b with
    | nil => exact hrefl b
    | cons y rest ih => exact htrans (hf b y) (ih (f b y))
  obtain ⟨before, after, rfl⟩ := List.append_of_mem hx
  rw [List.foldl_append, List.foldl_cons]
  exact ⟨before.foldl f b, hfold before b, hfold after _⟩

variable [BEq α] [LawfulBEq α]

theorem eraseDups_spec (l : List α) :
    l.eraseDups.Nodup ∧ (∀ x, x ∈ l.eraseDups ↔ x ∈ l) ∧ l.eraseDups.length ≤ l.length := by
  -- what follows the head is filtered first, so the induction is on the length
  induction hlength : l.length using Nat.strong_induction_on generalizing l with
  | _ length ih =>
    subst hlength
    cases l with
    | nil => simp
    | cons a rest =>
      have hfilter := List.length_filter_le (fun b => !b == a) rest
      obtain ⟨hnodup, hmem, hle⟩ := ih (rest.filter fun b => !b == a).length
        (by rw [List.length_cons]; omega) _ rfl
      rw [List.eraseDups_cons]
      refine ⟨List.nodup_cons.mpr ⟨?_, hnodup⟩, ?_, ?_⟩
      · rw [hmem, List.mem_filter]
        simp
      · intro x
        rw [List.mem_cons, hmem, List.mem_filter, List.mem_cons]
        by_cases hx : x = a
        · simp [hx]
        · simp [hx]
      · rw [List.length_cons, List.length_cons]
        omega

theorem eraseDups_map {α' : Type} [BEq α'] [LawfulBEq α'] {f : α → α'}
    (hf : Function.Injective f) (l : List α) : (l.map f).eraseDups = l.eraseDups.map f := by
  -- what follows the head is filtered first, so the induction is on the length
  induction hlength : l.length using Nat.strong_induction_on generalizing l with
  | _ length ih =>
    subst hlength
    cases l with
    | nil => rfl
    | cons a rest =>
      have hshorter : (rest.filter fun b => !b == a).length < (a :: rest).length :=
        Nat.lt_succ_of_le (List.length_filter_le _ _)
      rw [List.map_cons, List.eraseDups_cons, List.eraseDups_cons, List.map_cons,
        List.filter_map, ← ih _ hshorter _ rfl]
      simp only [Function.comp_def, hf.beq_eq]

theorem mem_of_lookup_eq_some (h : l.lookup a = some b) :
    (a, b) ∈ l := by
  obtain ⟨before, after, rfl, _⟩ := List.lookup_eq_some_iff.mp h
  simp

theorem exists_lookup (h : a ∈ l.map (·.1)) :
    ∃ b, l.lookup a = some b := by
  obtain ⟨entry, hentry, rfl⟩ := List.mem_map.mp h
  cases hlookup : l.lookup entry.1 with
  | some b => exact ⟨b, rfl⟩
  | none =>
    rw [List.lookup_eq_none_iff] at hlookup
    simpa using hlookup entry hentry

theorem lookup_cons_of_ne {key : α} (h : a ≠ key) :
    ((key, b) :: l).lookup a = l.lookup a := by
  rw [List.lookup_cons, beq_eq_false_iff_ne.mpr h]

/-- Keys that stay apart are found under their images. -/
theorem lookup_map {α' β' : Type} [BEq α'] [LawfulBEq α'] {f : α → α'}
    (hf : Function.Injective f) (f' : β → β') (l : List (α × β)) (a : α) :
    (l.map fun entry => (f entry.1, f' entry.2)).lookup (f a) = (l.lookup a).map f' := by
  induction l with
  | nil => rfl
  | cons entry rest ih =>
    rw [List.map_cons, List.lookup_cons, List.lookup_cons, hf.beq_eq]
    split
    · rfl
    · exact ih

theorem lookup_eq_none_of_not_mem (h : a ∉ l.map (·.1)) :
    l.lookup a = none := by
  rw [List.lookup_eq_none_iff]
  intro entry hentry
  by_contra heq
  have hsame : a = entry.1 := by simpa using heq
  exact h (hsame ▸ List.mem_map_of_mem (f := Prod.fst) hentry)

/-- Two folds over one list keep what each step keeps. -/
theorem foldl_both {α β : Type} {P : β → γ → Prop} {f : β → α → β} {f' : γ → α → γ} (items : List α)
    (hf : ∀ x ∈ items, ∀ b c, P b c → P (f b x) (f' c x)) {b : β} {c : γ} (h : P b c) :
    P (items.foldl f b) (items.foldl f' c) := by
  induction items generalizing b c with
  | nil => exact h
  | cons x rest ih =>
    exact ih (fun y hy => hf y (List.mem_cons_of_mem _ hy)) (hf x List.mem_cons_self b c h)

end YulTaint
