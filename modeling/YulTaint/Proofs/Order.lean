import Mathlib.Tactic
import YulTaint.Text.Order

/-!
Lists kept as ordered sets hold exactly the elements that went into them, and
each of them once.
-/

namespace YulTaint

theorem mem_ascending {α : Type} [DecidableEq α] (before : α → α → Bool) (items : List α) (x : α) :
    x ∈ ascending before items ↔ x ∈ items := by
  have hfold (set : List α) :
      x ∈ items.foldl (fun set a => insertBy before a set) set ↔ x ∈ set ∨ x ∈ items := by
    induction items generalizing set with
    | nil => simp
    | cons a rest ih =>
      rw [List.foldl_cons, ih, mem_insertBy, List.mem_cons]
      tauto
  simpa [ascending] using hfold []

theorem mem_ascendingIds (ids : List Nat) (x : Nat) : x ∈ ascendingIds ids ↔ x ∈ ids :=
  mem_ascending _ ids x

theorem mem_ascendingNames (names : List String) (x : String) :
    x ∈ ascendingNames names ↔ x ∈ names :=
  mem_ascending _ names x

section StrictOrder

variable {α : Type} [DecidableEq α] {before : α → α → Bool}

/-- Insertion keeps a list ascending when the order is strict and total. -/
theorem pairwise_insertBy (htrans : ∀ a b c, before a b → before b c → before a c)
    (htotal : ∀ a b, a ≠ b → before a b = false → before b a) (a : α) (set : List α)
    (h : set.Pairwise fun x y => before x y) :
    (insertBy before a set).Pairwise fun x y => before x y := by
  induction set with
  | nil => simp [insertBy]
  | cons b rest ih =>
    obtain ⟨hb, hrest⟩ := List.pairwise_cons.mp h
    by_cases hab : a = b
    · simpa [insertBy, hab] using h
    · by_cases hlt : before a b = true
      · simp only [insertBy, hab, hlt, if_true, if_false]
        refine List.pairwise_cons.mpr ⟨?_, h⟩
        intro x hx
        rcases List.mem_cons.mp hx with rfl | hx
        · exact hlt
        · exact htrans a b x hlt (hb x hx)
      · simp only [insertBy, hab, hlt, if_false]
        refine List.pairwise_cons.mpr ⟨?_, ih hrest⟩
        intro x hx
        rcases (mem_insertBy before a x rest).mp hx with rfl | hx
        · exact htotal x b hab (by simpa using hlt)
        · exact hb x hx

theorem pairwise_ascending (htrans : ∀ a b c, before a b → before b c → before a c)
    (htotal : ∀ a b, a ≠ b → before a b = false → before b a) (items : List α) :
    (ascending before items).Pairwise fun x y => before x y := by
  have hfold (set : List α) (h : set.Pairwise fun x y => before x y) :
      (items.foldl (fun set a => insertBy before a set) set).Pairwise fun x y => before x y := by
    induction items generalizing set with
    | nil => exact h
    | cons a rest ih => exact ih _ (pairwise_insertBy htrans htotal a set h)
  exact hfold [] .nil

end StrictOrder

theorem pairwise_ascendingIds (ids : List Nat) : (ascendingIds ids).Pairwise (· < ·) := by
  have htrans (a b c : Nat) (hab : decide (a < b) = true) (hbc : decide (b < c) = true) :
      decide (a < c) = true := by
    simp only [decide_eq_true_eq] at *
    omega
  have htotal (a b : Nat) (hne : a ≠ b) (hlt : decide (a < b) = false) :
      decide (b < a) = true := by
    simp only [decide_eq_true_eq, decide_eq_false_iff_not] at *
    omega
  have h := pairwise_ascending htrans htotal ids
  simpa [ascendingIds] using h

theorem nodup_ascendingIds (ids : List Nat) : (ascendingIds ids).Nodup :=
  (pairwise_ascendingIds ids).imp Nat.ne_of_lt

end YulTaint
