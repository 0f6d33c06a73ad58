import YulTaint.Bits
import YulTaint.Program.Literal

/-!
Arithmetic on 256-bit words. Words are the integers from zero to below
`wordSpan`; signed operations read them as two's complement. Division and
remainder by zero are zero, and shifts may exceed the width. Operands need
not be words: every operation is given on all integers, except that nothing
is shifted by a negative amount and that only odd integers have negative
powers.
-/

namespace YulTaint.Word

inductive Undefined where
  | negativeShift
  | notInvertible
deriving DecidableEq, Repr

def Undefined.message : Undefined → String
  | .negativeShift => "negative shift count"
  | .notInvertible => "base is not invertible for the given modulus"

def wrap (x : Int) : Int :=
  x % (wordSpan : Int)

def ones : Int :=
  (wordSpan : Int) - 1

def signed (x : Int) : Int :=
  if Bits.testBit x 255 then x - wordSpan else x

def ofBool (b : Bool) : Int :=
  if b then 1 else 0

def twoTo (exponent : Nat) : Int :=
  Int.ofNat (Nat.pow 2 exponent)

def add (a b : Int) : Int :=
  wrap (a + b)

def sub (a b : Int) : Int :=
  wrap (a - b)

def mul (a b : Int) : Int :=
  wrap (a * b)

def div (a b : Int) : Int :=
  if b = 0 then 0 else a.fdiv b

def mod (a b : Int) : Int :=
  if b = 0 then 0 else a.fmod b

def sdiv (a b : Int) : Int :=
  if b = 0 then 0 else wrap ((signed a).tdiv (signed b))

def smod (a b : Int) : Int :=
  if b = 0 then 0 else wrap ((signed a).tmod (signed b))

/-- `base ^ exponent` modulo `modulus`, by repeated squaring. -/
def powMod (modulus base exponent : Nat) : Nat :=
  if h : exponent = 0 then 1 % modulus
  else
    let half := powMod modulus (base * base % modulus) (exponent / 2)
    if exponent % 2 = 0 then half else base * half % modulus
termination_by exponent
decreasing_by omega

def power (base : Int) (exponent : Nat) : Int :=
  powMod wordSpan (wrap base).toNat exponent

/-- The inverse of an odd word. The orders of the odd words divide
`2 ^ 254`. -/
def inverse (x : Int) : Int :=
  power x (Nat.pow 2 254 - 1)

def exp (a b : Int) : Except Undefined Int :=
  if 0 ≤ b then .ok (power a b.toNat)
  else if a % 2 = 0 then .error .notInvertible
  else .ok (power (inverse a) b.natAbs)

def not (a : Int) : Int :=
  Bits.xor ones a

def lt (a b : Int) : Int :=
  ofBool (a < b)

def gt (a b : Int) : Int :=
  ofBool (b < a)

def slt (a b : Int) : Int :=
  ofBool (signed a < signed b)

def sgt (a b : Int) : Int :=
  ofBool (signed b < signed a)

def eq (a b : Int) : Int :=
  ofBool (a = b)

def iszero (a : Int) : Int :=
  ofBool (a = 0)

def byte (n x : Int) : Int :=
  if 32 ≤ n then 0 else Bits.and (Int.shiftRight x (248 - n * 8).toNat) 0xff

def shl (shift x : Int) : Except Undefined Int :=
  if 256 ≤ shift then .ok 0
  else if shift < 0 then .error .negativeShift
  else .ok (wrap (x * twoTo shift.toNat))

def shr (shift x : Int) : Except Undefined Int :=
  if 256 ≤ shift then .ok 0
  else if shift < 0 then .error .negativeShift
  else .ok (Int.shiftRight x shift.toNat)

/-- The arithmetic shift fills with the sign. -/
def sar (shift x : Int) : Except Undefined Int :=
  if 256 ≤ shift then .ok (if signed x < 0 then ones else 0)
  else if shift < 0 then .error .negativeShift
  else .ok (wrap (Int.shiftRight (signed x) shift.toNat))

def addmod (a b n : Int) : Int :=
  mod (a + b) n

def mulmod (a b n : Int) : Int :=
  mod (a * b) n

/-- Extends the sign bit of byte `b`, counted from the least significant end,
to the whole word. -/
def signextend (b x : Int) : Except Undefined Int :=
  if 31 ≤ b then .ok x
  else if b < 0 then .error .negativeShift
  else
    let position := b.toNat * 8 + 7
    if Bits.testBit x position then .ok (wrap (Bits.or x (wordSpan - twoTo position)))
    else .ok (Bits.and x (twoTo position - 1))

end YulTaint.Word
