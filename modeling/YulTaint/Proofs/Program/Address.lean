import Mathlib.Tactic
import YulTaint.Proofs.Program.WellFormed

/-!
Places in a program. Two functions of one text are told apart by where they
stand: a place is the list of the steps that lead to it from the root, and every
node has its place. Function definitions and calls are what is looked for, and
how many of them stand at a place of a tree is the sum of what its parts have
there.
-/

namespace YulTaint

/-- The steps from the root of a tree to a node. -/
abbrev Place := List Nat

namespace Node

/-- The statements, blocks, cases and expressions that a node consists of. The value
of a case is not looked at. -/
def parts : Node → List Node
  | .block items _ | .program _ items _ => items
  | .call _ args _ => args
  | .declaration _ value _ => value.toList
  | .assignment _ value _ | .expression value _ => [value]
  | .branch condition body _ => [condition, body]
  | .switch selector arms fallback _ => selector :: (arms ++ fallback.toList)
  | .loop init condition post body _ => [init, condition, body, post]
  | .function _ _ _ body _ | .caseArm _ body _ => [body]
  | _ => []

def at? : Node → Place → Option Node
  | n, [] => some n
  | n, i :: rest => n.parts[i]?.bind (·.at? rest)

theorem at?_append (n : Node) (p q : Place) : n.at? (p ++ q) = (n.at? p).bind (·.at? q) := by
  induction p generalizing n with
  | nil => rfl
  | cons i rest ih =>
    rw [List.cons_append, at?, at?]
    cases n.parts[i]? with
    | none => rfl
    | some part => exact ih part

theorem at?_step {root n : Node} {p : Place} (h : root.at? p = some n) (i : Nat) :
    root.at? (p ++ [i]) = n.parts[i]? := by
  rw [at?_append, h, Option.bind_some, at?]
  cases n.parts[i]? <;> rfl

/-- The measure of inductions along the parts of a tree. -/
theorem sizeOf_lt_of_mem_parts {n part : Node} (h : part ∈ n.parts) : sizeOf part < sizeOf n := by
  cases n with
  | block items loc | program name items loc | call name items loc =>
    have : sizeOf part < sizeOf items := List.sizeOf_lt_of_mem h
    simp only [block.sizeOf_spec, program.sizeOf_spec, call.sizeOf_spec]
    omega
  | declaration names value loc =>
    obtain rfl := Option.mem_toList.mp h
    simp only [declaration.sizeOf_spec, Option.some.sizeOf_spec]
    omega
  | switch selector arms fallback loc =>
    rcases List.mem_cons.mp h with rfl | h
    · simp only [switch.sizeOf_spec]
      omega
    rcases List.mem_append.mp h with h | h
    · have := List.sizeOf_lt_of_mem h
      simp only [switch.sizeOf_spec]
      omega
    · obtain rfl := Option.mem_toList.mp h
      simp only [switch.sizeOf_spec, Option.some.sizeOf_spec]
      omega
  | loop init condition post body loc =>
    simp only [parts, List.mem_cons, List.not_mem_nil, or_false] at h
    rcases h with rfl | rfl | rfl | rfl <;> simp only [loop.sizeOf_spec] <;> omega
  | branch condition body loc =>
    simp only [parts, List.mem_cons, List.not_mem_nil, or_false] at h
    rcases h with rfl | rfl <;> simp only [branch.sizeOf_spec] <;> omega
  | assignment names part loc | expression part loc | function name params returns part loc
    | caseArm value part loc =>
    obtain rfl := List.mem_singleton.mp h
    simp only [assignment.sizeOf_spec, expression.sizeOf_spec, function.sizeOf_spec,
      caseArm.sizeOf_spec]
    omega
  | _ => cases h

/-- Induction over the parts of a tree. -/
theorem parts_induction {motive : Node → Prop}
    (step : ∀ n : Node, (∀ part ∈ n.parts, motive part) → motive n) (n : Node) : motive n :=
  step n fun part _ => parts_induction step part
termination_by sizeOf n
decreasing_by exact sizeOf_lt_of_mem_parts ‹_›

def isNotable : Node → Bool
  | .function .. | .call .. => true
  | _ => false

def countAt (n : Node) (q : Place) : Nat :=
  ((n.at? q).any isNotable).toNat

def weight (n : Node) (p x : Place) : Nat :=
  if p <+: x then n.countAt (x.drop p.length) else 0

def weights (p : Place) : Nat → List Node → Place → Nat
  | _, [], _ => 0
  | i, n :: rest, x => n.weight (p ++ [i]) x + weights p (i + 1) rest x

theorem weight_append (n : Node) (p q : Place) : n.weight p (p ++ q) = n.countAt q := by
  rw [weight, if_pos (List.prefix_append p q), List.drop_left]

theorem weights_of_not_prefix {p x : Place} (h : ¬ p <+: x) (i : Nat) (ns : List Node) :
    weights p i ns x = 0 := by
  induction ns generalizing i with
  | nil => rfl
  | cons n rest ih =>
    rw [weights, ih, weight, if_neg fun hp => h ((List.prefix_append p [i]).trans hp)]

theorem weights_self (p : Place) (i : Nat) (ns : List Node) : weights p i ns p = 0 := by
  induction ns generalizing i with
  | nil => rfl
  | cons n rest ih =>
    have hlength : ¬ p ++ [i] <+: p := fun hp => by simpa using hp.length_le
    rw [weights, ih, weight, if_neg hlength]

theorem weight_step (n : Node) (p : Place) (i j : Nat) (r : Place) :
    n.weight (p ++ [i]) (p ++ j :: r) = if i = j then n.countAt r else 0 := by
  split
  · next heq =>
      have hplace : p ++ j :: r = (p ++ [i]) ++ r := by simp [heq]
      rw [hplace, weight_append]
  · next hne =>
      rw [weight, if_neg]
      rw [List.prefix_append_right_inj, List.cons_prefix_cons]
      exact fun h => hne h.1

theorem weights_of_lt {p : Place} {i j : Nat} (h : j < i) (ns : List Node) (r : Place) :
    weights p i ns (p ++ j :: r) = 0 := by
  induction ns generalizing i with
  | nil => rfl
  | cons n rest ih => rw [weights, ih (Nat.lt_succ_of_lt h), weight_step, if_neg h.ne']

/-- Only the tree at the first step of the way has anything there. -/
theorem weights_cons (p : Place) (i j : Nat) (ns : List Node) (r : Place) :
    weights p i ns (p ++ (i + j) :: r) = (ns[j]?.map (·.countAt r)).getD 0 := by
  induction ns generalizing i j with
  | nil => rfl
  | cons n rest ih =>
    rw [weights, weight_step]
    cases j with
    | zero =>
      rw [Nat.add_zero, if_pos rfl, weights_of_lt (Nat.lt_succ_self i)]
      rfl
    | succ j =>
      have hstep : i + (j + 1) = i + 1 + j := by omega
      rw [if_neg (by omega), hstep, ih, Nat.zero_add]
      rfl

/-- What a tree has at a place: itself, or what its parts have there. -/
theorem weight_eq (n : Node) (p x : Place) :
    n.weight p x = (if x = p then n.isNotable.toNat else 0) + weights p 0 n.parts x := by
  by_cases hp : p <+: x
  · obtain ⟨q, rfl⟩ := hp
    rw [weight_append]
    cases q with
    | nil =>
      rw [List.append_nil, if_pos rfl, weights_self]
      rfl
    | cons j r =>
      rw [if_neg (by simp), Nat.zero_add]
      have hparts := weights_cons p 0 j n.parts r
      rw [Nat.zero_add] at hparts
      rw [hparts, countAt, at?]
      cases n.parts[j]? <;> rfl
  · have hne : x ≠ p := fun heq => hp (heq ▸ List.prefix_refl x)
    rw [weight, if_neg hp, if_neg hne, weights_of_not_prefix hp]

end Node

end YulTaint
