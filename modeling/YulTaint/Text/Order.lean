/-!
Texts in code-point order, and lists kept as ordered sets. Reports list names,
ids and edges in ascending order, so sets of them are ascending lists without
repetition.
-/

namespace YulTaint

/-- Strict code-point order; a proper beginning comes first. -/
def Text.before : List Char → List Char → Bool
  | _, [] => false
  | [], _ :: _ => true
  | a :: as, b :: bs =>
      if a.toNat < b.toNat then true
      else if b.toNat < a.toNat then false
      else Text.before as bs

def Text.precedes (a b : String) : Bool :=
  Text.before a.toList b.toList

/-- Insert into an ascending list without repetition, which it stays. -/
def insertBy {α : Type} [DecidableEq α] (before : α → α → Bool) (a : α) : List α → List α
  | [] => [a]
  | b :: rest =>
      if a = b then b :: rest
      else if before a b then a :: b :: rest
      else b :: insertBy before a rest

/-- The elements of a list in ascending order, each once. -/
def ascending {α : Type} [DecidableEq α] (before : α → α → Bool) (items : List α) : List α :=
  items.foldl (fun set a => insertBy before a set) []

theorem mem_insertBy {α : Type} [DecidableEq α] (before : α → α → Bool) (a x : α)
    (set : List α) : x ∈ insertBy before a set ↔ x = a ∨ x ∈ set := by
  induction set with
  | nil => simp [insertBy]
  | cons b rest ih =>
      by_cases hab : a = b
      · subst hab
        simp [insertBy]
      · by_cases hlt : before a b = true
        · simp [insertBy, hab, hlt]
        · simp [insertBy, hab, hlt, ih]
          grind

def ascendingIds (ids : List Nat) : List Nat :=
  ascending (fun a b => decide (a < b)) ids

def ascendingNames (names : List String) : List String :=
  ascending Text.precedes names

end YulTaint
