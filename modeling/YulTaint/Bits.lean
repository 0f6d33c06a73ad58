/-!
Bits of integers. A negative integer is read as an infinite two's complement:
`-(n + 1)` has the complement of the bits of `n`.
-/

namespace YulTaint.Bits

def testBit : Int → Nat → Bool
  | .ofNat n, i => n.testBit i
  | .negSucc n, i => !n.testBit i

/-- The bits of `m` that `n` lacks. -/
def without (m n : Nat) : Nat :=
  m ^^^ (m &&& n)

def and : Int → Int → Int
  | .ofNat m, .ofNat n => .ofNat (m &&& n)
  | .ofNat m, .negSucc n => .ofNat (without m n)
  | .negSucc m, .ofNat n => .ofNat (without n m)
  | .negSucc m, .negSucc n => .negSucc (m ||| n)

def or : Int → Int → Int
  | .ofNat m, .ofNat n => .ofNat (m ||| n)
  | .ofNat m, .negSucc n => .negSucc (without n m)
  | .negSucc m, .ofNat n => .negSucc (without m n)
  | .negSucc m, .negSucc n => .negSucc (m &&& n)

def xor : Int → Int → Int
  | .ofNat m, .ofNat n => .ofNat (m ^^^ n)
  | .ofNat m, .negSucc n => .negSucc (m ^^^ n)
  | .negSucc m, .ofNat n => .negSucc (m ^^^ n)
  | .negSucc m, .negSucc n => .ofNat (m ^^^ n)

theorem testBit_without (m n i : Nat) :
    (without m n).testBit i = (m.testBit i && !n.testBit i) := by
  cases hm : m.testBit i <;> cases hn : n.testBit i <;> simp [without, hm, hn]

theorem testBit_and (a b : Int) (i : Nat) :
    testBit (and a b) i = (testBit a i && testBit b i) := by
  cases a <;> cases b <;> simp [and, testBit, testBit_without, Bool.and_comm]

theorem testBit_or (a b : Int) (i : Nat) :
    testBit (or a b) i = (testBit a i || testBit b i) := by
  cases a <;> cases b <;> simp [or, testBit, testBit_without, Bool.or_comm]

theorem testBit_xor (a b : Int) (i : Nat) :
    testBit (xor a b) i = (testBit a i ^^ testBit b i) := by
  cases a <;> cases b <;> simp [xor, testBit]

end YulTaint.Bits
