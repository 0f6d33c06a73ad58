import Mathlib.Tactic
import YulTaint.Proofs.Lists
import YulTaint.Proofs.Word.Range

/-!
Folding computes what the machine computes. The machine's words are bit vectors
of width 256, and its operations are those of bit vectors, with the machine's own
answers for a zero divisor and for an index past the end of a word. The folds
work on integers and cut their results to a word by hand; on words each of them
agrees with the operation of its name.
-/

namespace YulTaint.Machine

def ofBool (b : Bool) : BitVec 256 :=
  if b then 1 else 0

def div (a b : BitVec 256) : BitVec 256 :=
  if b = 0 then 0 else a / b

def mod (a b : BitVec 256) : BitVec 256 :=
  if b = 0 then 0 else a % b

/-- Two's complement division toward zero. The lowest word divided by minus one
is itself. -/
def sdiv (a b : BitVec 256) : BitVec 256 :=
  if b = 0 then 0 else a.sdiv b

/-- The remainder has the sign of the dividend. -/
def smod (a b : BitVec 256) : BitVec 256 :=
  if b = 0 then 0 else a.srem b

def exp (a b : BitVec 256) : BitVec 256 :=
  BitVec.ofNat 256 (a.toNat ^ b.toNat)

def byte (n x : BitVec 256) : BitVec 256 :=
  if n.toNat < 32 then (x.extractLsb' (8 * (31 - n.toNat)) 8).setWidth 256 else 0

/-- The sum is not cut to a word before the remainder is taken. -/
def addmod (a b n : BitVec 256) : BitVec 256 :=
  if n = 0 then 0 else BitVec.ofNat 256 ((a.toNat + b.toNat) % n.toNat)

def mulmod (a b n : BitVec 256) : BitVec 256 :=
  if n = 0 then 0 else BitVec.ofNat 256 ((a.toNat * b.toNat) % n.toNat)

def signextend (b x : BitVec 256) : BitVec 256 :=
  if b.toNat < 31 then (x.setWidth (8 * (b.toNat + 1))).signExtend 256 else x

inductive Operation where
  | unary (f : BitVec 256 → BitVec 256)
  | binary (f : BitVec 256 → BitVec 256 → BitVec 256)
  | ternary (f : BitVec 256 → BitVec 256 → BitVec 256 → BitVec 256)

def Operation.arity : Operation → Nat
  | .unary _ => 1
  | .binary _ => 2
  | .ternary _ => 3

def Operation.apply? : Operation → List (BitVec 256) → Option (BitVec 256)
  | .unary f, [a] => some (f a)
  | .binary f, [a, b] => some (f a b)
  | .ternary f, [a, b, c] => some (f a b c)
  | _, _ => none

/-- The operations that compute from their operands alone. -/
def operations : List (String × Operation) := [
  ("add", .binary fun a b => a + b), ("sub", .binary fun a b => a - b),
  ("mul", .binary fun a b => a * b), ("div", .binary div), ("sdiv", .binary sdiv),
  ("mod", .binary mod), ("smod", .binary smod), ("exp", .binary exp),
  ("lt", .binary fun a b => ofBool (a.ult b)), ("gt", .binary fun a b => ofBool (b.ult a)),
  ("slt", .binary fun a b => ofBool (a.slt b)), ("sgt", .binary fun a b => ofBool (b.slt a)),
  ("eq", .binary fun a b => ofBool (a == b)), ("and", .binary fun a b => a &&& b),
  ("or", .binary fun a b => a ||| b), ("xor", .binary fun a b => a ^^^ b),
  ("byte", .binary byte), ("shl", .binary fun s x => x <<< s.toNat),
  ("shr", .binary fun s x => x >>> s.toNat), ("sar", .binary fun s x => x.sshiftRight s.toNat),
  ("signextend", .binary signextend), ("not", .unary fun a => ~~~a),
  ("iszero", .unary fun a => ofBool (a == 0)), ("addmod", .ternary addmod),
  ("mulmod", .ternary mulmod), ("memoryguard", .unary fun a => a)]

def operation? (name : String) : Option Operation :=
  operations.lookup name

end YulTaint.Machine

namespace YulTaint.Word

variable (a b c : BitVec 256)

theorem wordSpan_eq : wordSpan = 2 ^ 256 :=
  rfl

theorem isWord_toNat : IsWord a.toNat :=
  isWord_natCast a.isLt

theorem toNat_ofInt_of_isWord {x : Int} (h : IsWord x) :
    ((BitVec.ofInt 256 x).toNat : Int) = x := by
  obtain ⟨n, rfl, hn⟩ := h.exists_nat
  rw [BitVec.ofInt_natCast, BitVec.toNat_ofNat, ← wordSpan_eq, Nat.mod_eq_of_lt hn]

theorem wrap_eq_toNat (x : Int) : wrap x = (BitVec.ofInt 256 x).toNat := by
  have hnonneg := (isWord_wrap x).1
  rw [BitVec.toNat_ofInt, ← wordSpan_eq]
  exact (Int.toNat_of_nonneg hnonneg).symm

theorem wrap_natCast (n : Nat) : wrap n = (BitVec.ofNat 256 n).toNat := by
  rw [wrap_eq_toNat, BitVec.ofInt_natCast]

theorem signed_toNat : signed a.toNat = a.toInt := by
  rw [signed, BitVec.toInt_eq_msb_cond, BitVec.msb_eq_getLsbD_last]
  rfl

theorem natCast_eq_zero_iff : (a.toNat : Int) = 0 ↔ a = 0 := by
  rw [Int.natCast_eq_zero, BitVec.toNat_eq]
  rfl

theorem ofBool_eq_toNat (p : Bool) : ofBool p = ((Machine.ofBool p).toNat : Int) := by
  cases p <;> rfl

theorem add_toNat : add a.toNat b.toNat = ((a + b).toNat : Int) := by
  rw [add, ← Int.natCast_add, wrap_natCast, BitVec.ofNat_add, BitVec.ofNat_toNat,
    BitVec.ofNat_toNat, BitVec.setWidth_eq, BitVec.setWidth_eq]

theorem mul_toNat : mul a.toNat b.toNat = ((a * b).toNat : Int) := by
  rw [mul, ← Int.natCast_mul, wrap_natCast, BitVec.ofNat_mul, BitVec.ofNat_toNat,
    BitVec.ofNat_toNat, BitVec.setWidth_eq, BitVec.setWidth_eq]

theorem sub_toNat : sub a.toNat b.toNat = ((a - b).toNat : Int) := by
  have hb := b.isLt
  have hle : b.toNat ≤ wordSpan := hb.le
  -- the span more does not change the residue
  have hshift : wrap ((a.toNat : Int) - b.toNat) =
      wrap ((wordSpan - b.toNat + a.toNat : Nat) : Int) := by
    rw [wrap, wrap, Int.natCast_add, Int.natCast_sub hle, ← Int.add_emod_right]
    congr 1
    ring
  rw [sub, hshift, wrap_natCast, BitVec.toNat_sub, BitVec.toNat_ofNat, wordSpan_eq]

theorem div_toNat : div a.toNat b.toNat = ((Machine.div a b).toNat : Int) := by
  unfold div Machine.div
  by_cases hb : b = 0
  · rw [if_pos ((natCast_eq_zero_iff b).mpr hb), if_pos hb]
    rfl
  · rw [if_neg (fun h => hb ((natCast_eq_zero_iff b).mp h)), if_neg hb, BitVec.toNat_udiv,
      Int.fdiv_eq_ediv_of_nonneg _ (Int.natCast_nonneg _), Int.natCast_ediv]

theorem mod_natCast (n : Nat) :
    mod n b.toNat = if b = 0 then 0 else ((n % b.toNat : Nat) : Int) := by
  unfold mod
  by_cases hb : b = 0
  · rw [if_pos ((natCast_eq_zero_iff b).mpr hb), if_pos hb]
  · rw [if_neg (fun h => hb ((natCast_eq_zero_iff b).mp h)), if_neg hb,
      Int.fmod_eq_emod_of_nonneg _ (Int.natCast_nonneg _), Int.natCast_emod]

theorem mod_toNat : mod a.toNat b.toNat = ((Machine.mod a b).toNat : Int) := by
  rw [mod_natCast, Machine.mod]
  split
  · rfl
  · rw [BitVec.toNat_umod]

/-- A remainder by a word is a word. -/
theorem toNat_ofNat_mod (n : Nat) (hc : c ≠ 0) :
    (BitVec.ofNat 256 (n % c.toNat)).toNat = n % c.toNat := by
  have hpos : 0 < c.toNat := Nat.pos_of_ne_zero fun h => hc (BitVec.eq_of_toNat_eq h)
  rw [BitVec.toNat_ofNat, Nat.mod_eq_of_lt ((Nat.mod_lt n hpos).trans c.isLt)]

theorem addmod_toNat : addmod a.toNat b.toNat c.toNat = ((Machine.addmod a b c).toNat : Int) := by
  rw [addmod, ← Int.natCast_add, mod_natCast, Machine.addmod]
  split
  · rfl
  · rename_i hc
    rw [toNat_ofNat_mod c _ hc]

theorem mulmod_toNat : mulmod a.toNat b.toNat c.toNat = ((Machine.mulmod a b c).toNat : Int) := by
  rw [mulmod, ← Int.natCast_mul, mod_natCast, Machine.mulmod]
  split
  · rfl
  · rename_i hc
    rw [toNat_ofNat_mod c _ hc]

/-- Both readings of a quotient agree modulo the span, also where it is one
above the highest signed word. -/
theorem sdiv_toNat : sdiv a.toNat b.toNat = ((Machine.sdiv a b).toNat : Int) := by
  unfold sdiv Machine.sdiv
  by_cases hb : b = 0
  · rw [if_pos ((natCast_eq_zero_iff b).mpr hb), if_pos hb]
    rfl
  · have hquotient : BitVec.ofInt 256 (a.toInt.tdiv b.toInt) = a.sdiv b := by
      apply BitVec.eq_of_toInt_eq
      rw [BitVec.toInt_ofInt, BitVec.toInt_sdiv]
    rw [if_neg (fun h => hb ((natCast_eq_zero_iff b).mp h)), if_neg hb, signed_toNat,
      signed_toNat, wrap_eq_toNat, hquotient]

theorem smod_toNat : smod a.toNat b.toNat = ((Machine.smod a b).toNat : Int) := by
  unfold smod Machine.smod
  by_cases hb : b = 0
  · rw [if_pos ((natCast_eq_zero_iff b).mpr hb), if_pos hb]
    rfl
  · rw [if_neg (fun h => hb ((natCast_eq_zero_iff b).mp h)), if_neg hb, signed_toNat,
      signed_toNat, wrap_eq_toNat, ← BitVec.toInt_srem, BitVec.ofInt_toInt]

/-- Repeated squaring computes the power. -/
theorem powMod_eq (modulus base exponent : Nat) :
    powMod modulus base exponent = base ^ exponent % modulus := by
  fun_induction powMod modulus base exponent with
  | case1 base => simp
  | case2 base exponent hne half heven ih =>
    have hsplit : base ^ exponent = (base * base) ^ (exponent / 2) := by
      rw [← pow_two, ← pow_mul]
      congr 1
      omega
    calc half = (base * base % modulus) ^ (exponent / 2) % modulus := ih
      _ = base ^ exponent % modulus := by rw [← Nat.pow_mod, hsplit]
  | case3 base exponent hne half hodd ih =>
    have hsplit : base ^ exponent = base * (base * base) ^ (exponent / 2) := by
      rw [← pow_two, ← pow_mul, ← pow_succ']
      congr 1
      omega
    have hhalf : half = (base * base) ^ (exponent / 2) % modulus := by
      rw [Nat.pow_mod]
      exact ih
    rw [hhalf, Nat.mul_mod_mod, hsplit]

theorem exp_toNat : exp a.toNat b.toNat = .ok ((Machine.exp a b).toNat : Int) := by
  unfold exp power Machine.exp
  rw [if_pos (Int.natCast_nonneg _), wrap_natCast, Int.toNat_natCast, Int.toNat_natCast, powMod_eq,
    BitVec.toNat_ofNat, BitVec.toNat_ofNat, ← wordSpan_eq, ← Nat.pow_mod]

theorem lt_toNat : lt a.toNat b.toNat = ((Machine.ofBool (a.ult b)).toNat : Int) := by
  rw [← ofBool_eq_toNat, lt]
  congr 1
  simp [BitVec.ult]

theorem slt_toNat : slt a.toNat b.toNat = ((Machine.ofBool (a.slt b)).toNat : Int) := by
  rw [← ofBool_eq_toNat, slt, signed_toNat, signed_toNat, BitVec.slt_eq_decide]

theorem eq_toNat : eq a.toNat b.toNat = ((Machine.ofBool (a == b)).toNat : Int) := by
  rw [← ofBool_eq_toNat, eq]
  congr 1
  simp [BitVec.toNat_eq, Bool.beq_eq_decide_eq]

theorem iszero_toNat : iszero a.toNat = ((Machine.ofBool (a == 0)).toNat : Int) :=
  eq_toNat a 0

theorem not_toNat : not a.toNat = ((~~~a).toNat : Int) := by
  have hones : ones = ((BitVec.allOnes 256).toNat : Int) := by decide
  rw [not, hones, BitVec.not_def]
  exact congrArg Int.ofNat (BitVec.toNat_xor _ _).symm

theorem byte_toNat : byte a.toNat b.toNat = ((Machine.byte a b).toNat : Int) := by
  unfold byte Machine.byte
  by_cases ha : a.toNat < 32
  · have hshift : (248 - (a.toNat : Int) * 8).toNat = 8 * (31 - a.toNat) := by omega
    have hmask : (0xff : Nat) = 2 ^ 8 - 1 := rfl
    rw [if_neg (by omega), if_pos ha, hshift, BitVec.toNat_setWidth, BitVec.extractLsb'_toNat,
      Nat.mod_eq_of_lt ((Nat.mod_lt _ (by decide)).trans (by decide)),
      ← Nat.and_two_pow_sub_one_eq_mod, ← hmask]
    rfl
  · rw [if_pos (by omega), if_neg ha]
    rfl

theorem shl_toNat : shl a.toNat b.toNat = .ok ((b <<< a.toNat).toNat : Int) := by
  unfold shl
  by_cases ha : 256 ≤ a.toNat
  · rw [if_pos (by omega), BitVec.shiftLeft_eq_zero ha]
    rfl
  · have hpower : (b.toNat : Int) * twoTo a.toNat = ((b.toNat <<< a.toNat : Nat) : Int) := by
      rw [Nat.shiftLeft_eq, Int.natCast_mul]
      rfl
    rw [if_neg (by omega), if_neg (by omega), Int.toNat_natCast, hpower, wrap_natCast,
      BitVec.toNat_ofNat, BitVec.toNat_shiftLeft]

theorem shr_toNat : shr a.toNat b.toNat = .ok ((b >>> a.toNat).toNat : Int) := by
  unfold shr
  by_cases ha : 256 ≤ a.toNat
  · rw [if_pos (by omega), BitVec.ushiftRight_eq_zero ha]
    rfl
  · rw [if_neg (by omega), if_neg (by omega), Int.toNat_natCast]
    rfl

/-- A shift past the width leaves only signs. -/
theorem toInt_shiftRight {n : Nat} (hn : 256 ≤ n) :
    a.toInt >>> n = if a.toInt < 0 then -1 else 0 := by
  have hpow : (2 : Int) ^ 256 ≤ 2 ^ n := pow_le_pow_right₀ (by decide) hn
  have hlower : -(2 : Int) ^ 256 ≤ 2 * a.toInt := by simpa using a.le_two_mul_toInt
  have hupper : 2 * a.toInt < (2 : Int) ^ 256 := by simpa using a.two_mul_toInt_lt
  rw [Int.shiftRight_eq_div_pow]
  split
  · rename_i hneg
    exact Int.ediv_eq_neg_one_of_neg_of_le hneg (by push_cast; omega)
  · rename_i hnonneg
    exact Int.ediv_eq_zero_of_lt (by omega) (by push_cast; omega)

theorem sar_toNat : sar a.toNat b.toNat = .ok ((b.sshiftRight a.toNat).toNat : Int) := by
  have hshift : BitVec.ofInt 256 (b.toInt >>> a.toNat) = b.sshiftRight a.toNat := by
    rw [← BitVec.toInt_sshiftRight, BitVec.ofInt_toInt]
  unfold sar
  rw [signed_toNat, ← hshift, ← wrap_eq_toNat]
  by_cases ha : 256 ≤ a.toNat
  · rw [if_pos (by omega), toInt_shiftRight b ha]
    split
    · rfl
    · rfl
  · rw [if_neg (by omega), if_neg (by omega), Int.toNat_natCast]
    rfl

/-- The bits from a position on. -/
theorem testBit_span_sub {p : Nat} (hp : p ≤ 256) (i : Nat) :
    (2 ^ 256 - 2 ^ p).testBit i = (decide (p ≤ i) && decide (i < 256)) := by
  have hshift : 2 ^ 256 - 2 ^ p = (2 ^ (256 - p) - 1) <<< p := by
    rw [Nat.shiftLeft_eq, Nat.sub_mul, ← pow_add, Nat.sub_add_cancel hp, Nat.one_mul]
  rw [hshift, Nat.testBit_shiftLeft, Nat.testBit_two_pow_sub_one]
  by_cases hi : p ≤ i
  · have hiff : i - p < 256 - p ↔ i < 256 := by omega
    simp [hi, hiff]
  · simp [hi]

theorem getLsbD_signextend {n : Nat} (hn : n < 31) (i : Nat) :
    ((b.setWidth (8 * (n + 1))).signExtend 256).getLsbD i =
      (decide (i < 256) && b.getLsbD (min i (n * 8 + 7))) := by
  have hwidth : 8 * (n + 1) - 1 = n * 8 + 7 := by omega
  rw [BitVec.getLsbD_signExtend, BitVec.msb_setWidth, hwidth]
  by_cases hi : i < 8 * (n + 1)
  · rw [if_pos hi, BitVec.getLsbD_setWidth, min_eq_left (by omega)]
    simp [hi]
  · rw [if_neg hi, min_eq_right (by omega)]
    simp

/-- The bits from the sign on are set: they are all ones. -/
theorem or_span_sub {n : Nat} (hn : n < 31) (hset : b.getLsbD (n * 8 + 7) = true) :
    BitVec.ofNat 256 (b.toNat ||| (2 ^ 256 - 2 ^ (n * 8 + 7))) =
      (b.setWidth (8 * (n + 1))).signExtend 256 := by
  apply BitVec.eq_of_getLsbD_eq
  intro i hi
  rw [getLsbD_signextend b hn, BitVec.getLsbD_ofNat, Nat.testBit_or, testBit_span_sub (by omega)]
  rcases Nat.lt_or_ge i (n * 8 + 7) with hlt | hge
  · rw [min_eq_left hlt.le]
    simp [hi, Nat.not_le.mpr hlt, BitVec.getLsbD]
  · rw [min_eq_right hge, hset]
    simp [hi, hge]

/-- The bits from the sign on are clear: the rest is kept. -/
theorem and_pred_twoTo {n : Nat} (hn : n < 31) (hclear : b.getLsbD (n * 8 + 7) = false) :
    b.toNat &&& (2 ^ (n * 8 + 7) - 1) = ((b.setWidth (8 * (n + 1))).signExtend 256).toNat := by
  apply Nat.eq_of_testBit_eq
  intro i
  have hextended : ((b.setWidth (8 * (n + 1))).signExtend 256).toNat.testBit i = _ :=
    getLsbD_signextend b hn i
  rw [hextended, Nat.testBit_and, Nat.testBit_two_pow_sub_one]
  rcases Nat.lt_or_ge i (n * 8 + 7) with hlt | hge
  · have hi : i < 256 := by omega
    rw [min_eq_left hlt.le]
    simp [hlt, hi, BitVec.getLsbD]
  · rw [min_eq_right hge, hclear]
    simp [Nat.not_lt.mpr hge]

/-- The integer operation is the one on machine words. -/
theorem signextend_toNat :
    signextend a.toNat b.toNat = .ok ((Machine.signextend a b).toNat : Int) := by
  unfold signextend Machine.signextend
  by_cases ha : a.toNat < 31
  · have hbit : Bits.testBit b.toNat (a.toNat * 8 + 7) = b.getLsbD (a.toNat * 8 + 7) := rfl
    rw [if_neg (by omega), if_neg (by omega), if_pos ha, Int.toNat_natCast]
    simp only [hbit]
    cases hsign : b.getLsbD (a.toNat * 8 + 7) with
    | true =>
      have hspan : (wordSpan : Int) - twoTo (a.toNat * 8 + 7) =
          ((2 ^ 256 - 2 ^ (a.toNat * 8 + 7) : Nat) : Int) := by
        rw [Int.natCast_sub (Nat.pow_le_pow_right (by decide) (by omega))]
        rfl
      rw [if_pos rfl, hspan, ← or_span_sub b ha hsign, ← wrap_natCast]
      rfl
    | false =>
      have hmask : twoTo (a.toNat * 8 + 7) - 1 =
          ((2 ^ (a.toNat * 8 + 7) - 1 : Nat) : Int) := by
        rw [Int.natCast_sub (Nat.pow_pos (by decide))]
        rfl
      rw [if_neg Bool.false_ne_true, hmask, ← and_pred_twoTo b ha hsign]
      rfl
  · rw [if_pos (by omega), if_neg ha]

end YulTaint.Word

namespace YulTaint

/-- On words the fold computes the operation. -/
def Fold.Computes : Fold → Machine.Operation → Prop
  | .unary f, .unary g => ∀ a, f a.toNat = ((g a).toNat : Int)
  | .binary f, .binary g => ∀ a b, f a.toNat b.toNat = .ok ((g a b).toNat : Int)
  | .ternary f, .ternary g => ∀ a b c, f a.toNat b.toNat c.toNat = ((g a b c).toNat : Int)
  | _, _ => False

/-- A fold that computes an operation does so on all lists of words of the right length. -/
theorem Fold.Computes.eval {fold : Fold} {op : Machine.Operation} (h : fold.Computes op)
    {words : List (BitVec 256)} (hlength : words.length = op.arity) :
    ∃ result, op.apply? words = some result ∧
      fold.eval (words.map fun a => (a.toNat : Int)) = .ok (some (result.toNat : Int)) := by
  match fold, op, h with
  | .unary f, .unary g, h =>
    obtain ⟨a, rfl⟩ := List.length_eq_one_iff.mp hlength
    exact ⟨g a, rfl, congrArg (Except.ok ∘ some) (h a)⟩
  | .binary f, .binary g, h =>
    obtain ⟨a, b, rfl⟩ := List.length_eq_two.mp hlength
    exact ⟨g a b, rfl, congrArg (Except.map some) (h a b)⟩
  | .ternary f, .ternary g, h =>
    obtain ⟨a, b, c, rfl⟩ := List.length_eq_three.mp hlength
    exact ⟨g a b c, rfl, congrArg (Except.ok ∘ some) (h a b c)⟩

namespace Builtin

/-- The builtin is the machine's operation of the same name. -/
structure Implements (b : Builtin) (entry : String × Machine.Operation) : Prop where
  name : b.name = entry.1
  arity : b.arity = entry.2.arity
  reads : b.reads = []
  computes : ∃ fold, b.fold? = some fold ∧ fold.Computes entry.2

theorem implements_unary (name : String) {f : Int → Int} {g : BitVec 256 → BitVec 256}
    (h : ∀ a, f a.toNat = ((g a).toNat : Int)) : (unary name f).Implements (name, .unary g) :=
  ⟨rfl, rfl, rfl, .unary f, rfl, h⟩

theorem implements_guardedBinary (name : String) {f : Int → Int → Except Word.Undefined Int}
    {g : BitVec 256 → BitVec 256 → BitVec 256}
    (h : ∀ a b, f a.toNat b.toNat = .ok ((g a b).toNat : Int)) :
    (guardedBinary name f).Implements (name, .binary g) :=
  ⟨rfl, rfl, rfl, .binary f, rfl, h⟩

theorem implements_binary (name : String) {f : Int → Int → Int}
    {g : BitVec 256 → BitVec 256 → BitVec 256}
    (h : ∀ a b, f a.toNat b.toNat = ((g a b).toNat : Int)) :
    (binary name f).Implements (name, .binary g) :=
  implements_guardedBinary name fun a b => congrArg Except.ok (h a b)

theorem implements_ternary (name : String) {f : Int → Int → Int → Int}
    {g : BitVec 256 → BitVec 256 → BitVec 256 → BitVec 256}
    (h : ∀ a b c, f a.toNat b.toNat c.toNat = ((g a b c).toNat : Int)) :
    (ternary name f).Implements (name, .ternary g) :=
  ⟨rfl, rfl, rfl, .ternary f, rfl, h⟩

/-- Each computation of the table is the machine's operation of its name. -/
theorem arithmetic_implements : List.Forall₂ Implements arithmetic Machine.operations :=
  .cons (implements_binary _ Word.add_toNat) <| .cons (implements_binary _ Word.sub_toNat) <|
  .cons (implements_binary _ Word.mul_toNat) <| .cons (implements_binary _ Word.div_toNat) <|
  .cons (implements_binary _ Word.sdiv_toNat) <| .cons (implements_binary _ Word.mod_toNat) <|
  .cons (implements_binary _ Word.smod_toNat) <|
  .cons (implements_guardedBinary _ Word.exp_toNat) <|
  .cons (implements_binary _ Word.lt_toNat) <|
  .cons (implements_binary _ fun a b => Word.lt_toNat b a) <|
  .cons (implements_binary _ Word.slt_toNat) <|
  .cons (implements_binary _ fun a b => Word.slt_toNat b a) <|
  .cons (implements_binary _ Word.eq_toNat) <|
  .cons (implements_binary _ fun _ _ => rfl) <| .cons (implements_binary _ fun _ _ => rfl) <|
  .cons (implements_binary _ fun _ _ => rfl) <| .cons (implements_binary _ Word.byte_toNat) <|
  .cons (implements_guardedBinary _ Word.shl_toNat) <|
  .cons (implements_guardedBinary _ Word.shr_toNat) <|
  .cons (implements_guardedBinary _ Word.sar_toNat) <|
  .cons (implements_guardedBinary _ Word.signextend_toNat) <|
  .cons (implements_unary _ Word.not_toNat) <| .cons (implements_unary _ Word.iszero_toNat) <|
  .cons (implements_ternary _ Word.addmod_toNat) <|
  .cons (implements_ternary _ Word.mulmod_toNat) <| .cons (implements_unary _ fun _ => rfl) .nil

/-- Both tables list their entries in the same order, so that a name is found in
both or in neither. -/
theorem find?_lookup {builtins : List Builtin} {entries : List (String × Machine.Operation)}
    (h : List.Forall₂ Implements builtins entries) (name : String) :
    (builtins.find? (·.name = name) = none ∧ entries.lookup name = none) ∨
      ∃ b op, builtins.find? (·.name = name) = some b ∧ entries.lookup name = some op ∧
        b.Implements (name, op) := by
  induction h with
  | nil => exact Or.inl ⟨rfl, rfl⟩
  | @cons b entry builtins entries hb hrest ih =>
    by_cases hname : b.name = name
    · obtain rfl : entry.1 = name := hb.name.symm.trans hname
      exact Or.inr ⟨b, entry.2, by simp [hname], List.lookup_cons_self, hb⟩
    · have hentry : name ≠ entry.1 := fun heq => hname (hb.name.trans heq.symm)
      rw [List.find?_cons_of_neg (by simpa using hname), lookup_cons_of_ne hentry]
      exact ih

theorem exists_implements {name : String} {op : Machine.Operation}
    (h : Machine.operation? name = some op) :
    ∃ b, lookup? name = some b ∧ b.Implements (name, op) := by
  rcases find?_lookup arithmetic_implements name with ⟨-, hnone⟩ | ⟨b, op', hb, hop, himplements⟩
  · cases h.symm.trans hnone
  · cases h.symm.trans hop
    refine ⟨b, ?_, himplements⟩
    simp only [lookup?, table, List.find?_append, hb, Option.some_or]

/-- A builtin is folded if and only if the machine computes it from its operands
alone. -/
theorem exists_fold_iff (name : String) :
    (∃ b, lookup? name = some b ∧ b.fold?.isSome = true) ↔
      (Machine.operation? name).isSome = true := by
  constructor
  · rintro ⟨b, hb, hfold⟩
    have hname : b.name = name := by simpa using List.find?_some hb
    have hmem := mem_arithmetic (List.mem_of_find?_eq_some hb) hfold
    rcases find?_lookup arithmetic_implements name with ⟨hnone, -⟩ | ⟨_, op, -, hop, -⟩
    · exact absurd (decide_eq_true hname) (List.find?_eq_none.mp hnone b hmem)
    · exact Option.isSome_of_eq_some hop
  · intro h
    obtain ⟨op, hop⟩ := Option.isSome_iff_exists.mp h
    obtain ⟨b, hb, himplements⟩ := exists_implements hop
    obtain ⟨fold, hfold, -⟩ := himplements.computes
    exact ⟨b, hb, Option.isSome_of_eq_some hfold⟩

/-- The check of a builtin gives what the machine computes. -/
theorem Implements.resolve {b : Builtin} {name : String} {op : Machine.Operation}
    (h : b.Implements (name, op)) (hb : lookup? name = some b) {words : List (BitVec 256)}
    (hlength : words.length = op.arity) :
    ∃ effect result, resolve name ((words.map fun a => (a.toNat : Int)).map some) = .ok effect ∧
      effect.constant = some (result.toNat : Int) ∧ op.apply? words = some result := by
  obtain ⟨fold, hfold, hcomputes⟩ := h.computes
  obtain ⟨result, happly, heval⟩ := hcomputes.eval hlength
  have harity : b.arity = ((words.map fun a => (a.toNat : Int)).map some).length := by
    rw [List.length_map, List.length_map, hlength]
    exact h.arity
  have hfolded : b.folded ((words.map fun a => (a.toNat : Int)).map some) =
      .ok (some (result.toNat : Int)) := by
    simp only [folded, allConstant?_map_some, hfold, h.reads, List.isEmpty_nil, if_true, heval]
  simp only [Builtin.resolve, hb, if_pos harity, hfolded]
  exact ⟨_, result, rfl, rfl, happly⟩

/-- Constant folding is the machine's arithmetic. The builtins that are folded
are those of `Machine.operations`, and one that is applied to words has a
constant effect: the word that the machine computes. -/
theorem resolve_computes (name : String) :
    ((∃ b, lookup? name = some b ∧ b.fold?.isSome = true) ↔
      (Machine.operation? name).isSome = true) ∧
    ∀ op, Machine.operation? name = some op → ∀ operands : List Int,
      operands.length = op.arity → (∀ x ∈ operands, IsWord x) →
      ∃ effect value, resolve name (operands.map some) = .ok effect ∧
        effect.constant = some value ∧ IsWord value ∧
        op.apply? (operands.map (BitVec.ofInt 256)) = some (BitVec.ofInt 256 value) := by
  refine ⟨exists_fold_iff name, ?_⟩
  intro op hop operands hlength hwords
  obtain ⟨b, hb, himplements⟩ := exists_implements hop
  have hoperands : (operands.map (BitVec.ofInt 256)).map (fun a => (a.toNat : Int)) = operands := by
    rw [List.map_map]
    exact (List.map_congr_left fun x hx => Word.toNat_ofInt_of_isWord (hwords x hx)).trans
      (List.map_id' operands)
  have harity : (operands.map (BitVec.ofInt 256)).length = op.arity := by rwa [List.length_map]
  obtain ⟨effect, result, heffect, hconstant, happly⟩ := himplements.resolve hb harity
  rw [hoperands] at heffect
  have hresult : BitVec.ofInt 256 (result.toNat : Int) = result := by
    rw [BitVec.ofInt_natCast, BitVec.ofNat_toNat, BitVec.setWidth_eq]
  exact ⟨effect, _, heffect, hconstant, Word.isWord_toNat result, happly.trans (by rw [hresult])⟩

/-- The lowest signed word divided by minus one is itself. -/
theorem resolve_computes_lowest :
    Machine.operation? "sdiv" = some (.binary Machine.sdiv) ∧
    ∃ effect, resolve "sdiv" [some (2 ^ 255), some (2 ^ 256 - 1)] = .ok effect ∧
      effect.constant = some (2 ^ 255) := by
  refine ⟨rfl, ?_⟩
  obtain ⟨effect, value, heffect, hconstant, hword, hvalue⟩ :=
    (resolve_computes "sdiv").2 _ rfl [2 ^ 255, 2 ^ 256 - 1] rfl (by unfold IsWord; decide +kernel)
  have hquotient : Machine.sdiv (BitVec.ofInt 256 (2 ^ 255)) (BitVec.ofInt 256 (2 ^ 256 - 1)) =
      BitVec.ofInt 256 (2 ^ 255) := by decide +kernel
  have hsame : BitVec.ofInt 256 value = BitVec.ofInt 256 (2 ^ 255) :=
    (Option.some.inj hvalue).symm.trans hquotient
  refine ⟨effect, heffect, ?_⟩
  rw [hconstant, ← Word.toNat_ofInt_of_isWord hword, hsame]
  decide +kernel

end Builtin

end YulTaint
