import Mathlib.Tactic
import YulTaint.Builtin.Effect

/-!
Words stay words. A literal denotes a word, and every builtin that is folded
takes words to a word, although the operations are given on all integers.
-/

namespace YulTaint

def IsWord (x : Int) : Prop :=
  0 ≤ x ∧ x < (wordSpan : Int)

theorem wordSpan_pos : 0 < wordSpan :=
  Nat.pow_pos Nat.zero_lt_two

theorem isWord_natCast {n : Nat} (h : n < wordSpan) : IsWord n :=
  ⟨Int.natCast_nonneg n, Int.ofNat_lt.mpr h⟩

theorem IsWord.exists_nat {x : Int} (h : IsWord x) : ∃ n : Nat, x = n ∧ n < wordSpan := by
  obtain ⟨n, rfl⟩ := Int.eq_ofNat_of_zero_le h.1
  exact ⟨n, rfl, Int.ofNat_lt.mp h.2⟩

theorem isWord_zero : IsWord 0 :=
  isWord_natCast wordSpan_pos

theorem IsWord.of_le {x y : Int} (hy : IsWord y) (hx : 0 ≤ x) (h : x ≤ y) : IsWord x :=
  ⟨hx, h.trans_lt hy.2⟩

namespace Bits

theorem isWord_and {a b : Int} (ha : IsWord a) (hb : IsWord b) : IsWord (and a b) := by
  obtain ⟨m, rfl, hm⟩ := ha.exists_nat
  obtain ⟨n, rfl, hn⟩ := hb.exists_nat
  exact isWord_natCast (Nat.and_lt_two_pow m hn)

theorem isWord_or {a b : Int} (ha : IsWord a) (hb : IsWord b) : IsWord (or a b) := by
  obtain ⟨m, rfl, hm⟩ := ha.exists_nat
  obtain ⟨n, rfl, hn⟩ := hb.exists_nat
  exact isWord_natCast (Nat.or_lt_two_pow hm hn)

theorem isWord_xor {a b : Int} (ha : IsWord a) (hb : IsWord b) : IsWord (xor a b) := by
  obtain ⟨m, rfl, hm⟩ := ha.exists_nat
  obtain ⟨n, rfl, hn⟩ := hb.exists_nat
  exact isWord_natCast (Nat.xor_lt_two_pow hm hn)

end Bits

namespace Word

variable {x v b shift : Int}

theorem isWord_wrap (x : Int) : IsWord (wrap x) :=
  ⟨Int.emod_nonneg x (Int.natCast_ne_zero.mpr wordSpan_pos.ne'),
    Int.emod_lt_of_pos x (Int.natCast_pos.mpr wordSpan_pos)⟩

theorem isWord_ones : IsWord ones := by
  have hpos := wordSpan_pos
  constructor
  · rw [ones]
    omega
  · rw [ones]
    omega

theorem isWord_ofBool (b : Bool) : IsWord (ofBool b) := by
  cases b with
  | false => exact isWord_zero
  | true => exact isWord_natCast (n := 1) (Nat.one_lt_two_pow (by decide))

theorem isWord_div {a : Int} (ha : IsWord a) (hb : IsWord b) : IsWord (div a b) := by
  unfold div
  split
  · exact isWord_zero
  · rw [Int.fdiv_eq_ediv_of_nonneg a hb.1]
    exact ha.of_le (Int.ediv_nonneg ha.1 hb.1) (Int.ediv_le_self b ha.1)

theorem isWord_mod (a : Int) (hb : IsWord b) : IsWord (mod a b) := by
  unfold mod
  split
  · exact isWord_zero
  · rename_i hne
    rw [Int.fmod_eq_emod_of_nonneg a hb.1]
    have hlt : a % b < b := Int.emod_lt_of_pos a (lt_of_le_of_ne hb.1 (Ne.symm hne))
    exact hb.of_le (Int.emod_nonneg a hne) hlt.le

theorem isWord_sdiv (a b : Int) : IsWord (sdiv a b) := by
  unfold sdiv
  split
  · exact isWord_zero
  · exact isWord_wrap _

theorem isWord_smod (a b : Int) : IsWord (smod a b) := by
  unfold smod
  split
  · exact isWord_zero
  · exact isWord_wrap _

theorem powMod_lt {modulus : Nat} (hmodulus : 0 < modulus) (base exponent : Nat) :
    powMod modulus base exponent < modulus := by
  fun_induction powMod modulus base exponent with
  | case1 => exact Nat.mod_lt _ hmodulus
  | case2 base exponent _ half _ ih => exact ih
  | case3 => exact Nat.mod_lt _ hmodulus

theorem isWord_power (base : Int) (exponent : Nat) : IsWord (power base exponent) :=
  isWord_natCast (powMod_lt wordSpan_pos _ _)

theorem isWord_exp {a : Int} (h : exp a b = .ok v) : IsWord v := by
  unfold exp at h
  split at h
  · cases h
    exact isWord_power _ _
  · split at h
    · cases h
    · cases h
      exact isWord_power _ _

theorem shiftRight_nonneg_le (hx : 0 ≤ x) (n : Nat) :
    0 ≤ Int.shiftRight x n ∧ Int.shiftRight x n ≤ x := by
  obtain ⟨m, rfl⟩ := Int.eq_ofNat_of_zero_le hx
  exact ⟨Int.natCast_nonneg _, Int.ofNat_le.mpr (Nat.shiftRight_le m n)⟩

theorem isWord_shiftRight (hx : IsWord x) (n : Nat) : IsWord (Int.shiftRight x n) := by
  obtain ⟨hnonneg, hle⟩ := shiftRight_nonneg_le hx.1 n
  exact hx.of_le hnonneg hle

theorem isWord_twoTo_pred {n : Nat} (h : n ≤ 256) : IsWord (twoTo n - 1) := by
  have hpos : 0 < Nat.pow 2 n := Nat.pow_pos Nat.zero_lt_two
  have hle : Nat.pow 2 n ≤ wordSpan := Nat.pow_le_pow_right (by decide) h
  have hcast : twoTo n - 1 = ((Nat.pow 2 n - 1 : Nat) : Int) := by
    rw [twoTo, Int.natCast_sub hpos]
    rfl
  rw [hcast]
  exact isWord_natCast (by omega)

theorem isWord_byte {n : Int} (hx : IsWord x) : IsWord (byte n x) := by
  unfold byte
  split
  · exact isWord_zero
  · exact Bits.isWord_and (isWord_shiftRight hx _) (isWord_twoTo_pred (n := 8) (by decide))

theorem isWord_shl (h : shl shift x = .ok v) : IsWord v := by
  unfold shl at h
  split at h
  · cases h
    exact isWord_zero
  · split at h
    · cases h
    · cases h
      exact isWord_wrap _

theorem isWord_shr (hx : IsWord x) (h : shr shift x = .ok v) : IsWord v := by
  unfold shr at h
  split at h
  · cases h
    exact isWord_zero
  · split at h
    · cases h
    · cases h
      exact isWord_shiftRight hx _

theorem isWord_sar (h : sar shift x = .ok v) : IsWord v := by
  unfold sar at h
  split at h
  · cases h
    split
    · exact isWord_ones
    · exact isWord_zero
  · split at h
    · cases h
    · cases h
      exact isWord_wrap _

theorem isWord_signextend (hx : IsWord x) (h : signextend b x = .ok v) :
    IsWord v := by
  unfold signextend at h
  split at h
  · cases h
    exact hx
  · split at h
    · cases h
    · simp only at h
      split at h
      · cases h
        exact isWord_wrap _
      · cases h
        exact Bits.isWord_and hx (isWord_twoTo_pred (by omega))

end Word

def Fold.KeepsWords : Fold → Prop
  | .unary f => ∀ a, IsWord a → IsWord (f a)
  | .binary f => ∀ a b v, IsWord a → IsWord b → f a b = .ok v → IsWord v
  | .ternary f => ∀ a b c, IsWord a → IsWord b → IsWord c → IsWord (f a b c)

theorem Fold.KeepsWords.eval {fold : Fold} (h : fold.KeepsWords) {values : List Int} {v : Int}
    (hvalues : ∀ x ∈ values, IsWord x) (hv : fold.eval values = .ok (some v)) : IsWord v := by
  unfold Fold.eval at hv
  split at hv
  · rename_i f a
    cases hv
    exact h a (hvalues a (by simp))
  · rename_i f a b
    cases hf : f a b with
    | error reason =>
      rw [hf] at hv
      cases hv
    | ok w =>
      rw [hf] at hv
      cases hv
      exact h a b _ (hvalues a (by simp)) (hvalues b (by simp)) hf
  · rename_i f a b c
    cases hv
    exact h a b c (hvalues a (by simp)) (hvalues b (by simp)) (hvalues c (by simp))
  · cases hv

namespace Builtin

variable {b : Builtin}

def FoldsWords (b : Builtin) : Prop :=
  ∀ fold, b.fold? = some fold → fold.KeepsWords

theorem foldsWords_unary (name : String) {f : Int → Int} (h : ∀ a, IsWord a → IsWord (f a)) :
    (unary name f).FoldsWords := by
  rintro _ ⟨⟩
  exact h

theorem foldsWords_guardedBinary (name : String) {f : Int → Int → Except Word.Undefined Int}
    (h : ∀ a b v, IsWord a → IsWord b → f a b = .ok v → IsWord v) :
    (guardedBinary name f).FoldsWords := by
  rintro _ ⟨⟩
  exact h

theorem foldsWords_binary (name : String) {f : Int → Int → Int}
    (h : ∀ a b, IsWord a → IsWord b → IsWord (f a b)) : (binary name f).FoldsWords := by
  refine foldsWords_guardedBinary name fun a b v ha hb hv => ?_
  cases hv
  exact h a b ha hb

theorem foldsWords_ternary (name : String) {f : Int → Int → Int → Int}
    (h : ∀ a b c, IsWord a → IsWord b → IsWord c → IsWord (f a b c)) :
    (ternary name f).FoldsWords := by
  rintro _ ⟨⟩
  exact h

/-- Every computation yields words from words. -/
theorem foldsWords_arithmetic : ∀ b ∈ arithmetic, b.FoldsWords := by
  simp only [arithmetic, List.forall_mem_cons]
  exact ⟨foldsWords_binary _ fun a b _ _ => Word.isWord_wrap _,
    foldsWords_binary _ fun a b _ _ => Word.isWord_wrap _,
    foldsWords_binary _ fun a b _ _ => Word.isWord_wrap _,
    foldsWords_binary _ fun a b => Word.isWord_div,
    foldsWords_binary _ fun a b _ _ => Word.isWord_sdiv a b,
    foldsWords_binary _ fun a b _ hb => Word.isWord_mod a hb,
    foldsWords_binary _ fun a b _ _ => Word.isWord_smod a b,
    foldsWords_guardedBinary _ fun a b v _ _ => Word.isWord_exp,
    foldsWords_binary _ fun a b _ _ => Word.isWord_ofBool _,
    foldsWords_binary _ fun a b _ _ => Word.isWord_ofBool _,
    foldsWords_binary _ fun a b _ _ => Word.isWord_ofBool _,
    foldsWords_binary _ fun a b _ _ => Word.isWord_ofBool _,
    foldsWords_binary _ fun a b _ _ => Word.isWord_ofBool _,
    foldsWords_binary _ fun a b => Bits.isWord_and,
    foldsWords_binary _ fun a b => Bits.isWord_or,
    foldsWords_binary _ fun a b => Bits.isWord_xor,
    foldsWords_binary _ fun a b _ hb => Word.isWord_byte hb,
    foldsWords_guardedBinary _ fun a b v _ _ => Word.isWord_shl,
    foldsWords_guardedBinary _ fun a b v _ hb => Word.isWord_shr hb,
    foldsWords_guardedBinary _ fun a b v _ _ => Word.isWord_sar,
    foldsWords_guardedBinary _ fun a b v _ hb => Word.isWord_signextend hb,
    foldsWords_unary _ fun a ha => Bits.isWord_xor Word.isWord_ones ha,
    foldsWords_unary _ fun a _ => Word.isWord_ofBool _,
    foldsWords_ternary _ fun a b c _ _ hc => Word.isWord_mod (a + b) hc,
    foldsWords_ternary _ fun a b c _ _ hc => Word.isWord_mod (a * b) hc,
    foldsWords_unary _ fun a ha => ha, List.forall_mem_nil _⟩

/-- Only arithmetic is folded. -/
theorem fold?_eq_none : ∀ b ∈ storage ++ memory ++ data ++ environment ++ calls ++ control,
    b.fold?.isNone = true := by
  decide

theorem mem_arithmetic (hb : b ∈ table) (hfold : b.fold?.isSome = true) :
    b ∈ arithmetic := by
  have hsplit : b ∈ arithmetic ∨
      b ∈ storage ++ memory ++ data ++ environment ++ calls ++ control := by
    simpa [table, List.mem_append, or_assoc] using hb
  rcases hsplit with harithmetic | hother
  · exact harithmetic
  · have hnone := fold?_eq_none b hother
    simp [Option.isSome_iff_ne_none.mp hfold] at hnone

/-- What holds of every fold of arithmetic holds of every fold. -/
theorem forall_fold_of_arithmetic {P : Fold → Prop}
    (h : ∀ b ∈ arithmetic, ∀ fold, b.fold? = some fold → P fold) (hb : b ∈ table) {fold : Fold}
    (hfold : b.fold? = some fold) : P fold :=
  h b (mem_arithmetic hb (Option.isSome_of_eq_some hfold)) fold hfold

theorem foldsWords_of_mem (hb : b ∈ table) : b.FoldsWords :=
  fun _ hfold => forall_fold_of_arithmetic foldsWords_arithmetic hb hfold

theorem allConstant?_map_some (values : List Int) :
    allConstant? (values.map some) = some values := by
  induction values with
  | nil => rfl
  | cons v rest ih =>
    rw [allConstant?] at ih ⊢
    rw [List.map_cons, List.mapM_cons, ih]
    rfl

/-- A constant application of a builtin to words is a word. -/
theorem isWord_effectFor {name : String} {values : List Int} (hvalues : ∀ x ∈ values, IsWord x)
    {v : Int} (h : (effectFor name (values.map some)).constant = some v) : IsWord v := by
  unfold effectFor at h
  cases hb : lookup? name with
  | none =>
    rw [hb] at h
    cases h
  | some b =>
    rw [hb] at h
    simp only [effectWith, folded, allConstant?_map_some] at h
    cases hfold : b.fold? with
    | none =>
      rw [hfold] at h
      cases h
    | some fold =>
      rw [hfold] at h
      simp only at h
      split at h
      · cases heval : fold.eval values with
        | error reason =>
          rw [heval] at h
          cases h
        | ok result =>
          rw [heval] at h
          obtain rfl : result = some v := h
          exact (foldsWords_of_mem (List.mem_of_find?_eq_some hb) fold hfold).eval hvalues
            heval
      · cases h

end Builtin

theorem ofBytes_lt (bytes : List UInt8) : ofBytes bytes < 256 ^ bytes.length := by
  have hfold (bytes : List UInt8) (n : Nat) :
      bytes.foldl (fun n b => n * 256 + b.toNat) n < (n + 1) * 256 ^ bytes.length := by
    induction bytes generalizing n with
    | nil => simp
    | cons b rest ih =>
      have hb : b.toNat < 256 := b.toNat_lt
      refine (ih (n * 256 + b.toNat)).trans_le ?_
      rw [List.length_cons, Nat.pow_succ, Nat.mul_comm (256 ^ rest.length), ← Nat.mul_assoc]
      exact Nat.mul_le_mul_right _ (by omega)
  simpa [ofBytes] using hfold bytes 0

/-- The bytes of a text fit in a word. -/
theorem textWord?_lt {s : String} {word : Nat} (h : textWord? s = .ok word) : word < wordSpan := by
  unfold textWord? at h
  simp only at h
  split at h
  · rename_i hlength
    cases h
    have hsplit : wordSpan = 256 ^ s.toUTF8.toList.length * 256 ^ (32 - s.toUTF8.toList.length) := by
      rw [← Nat.pow_add, Nat.add_sub_cancel' hlength]
      rfl
    rw [hsplit]
    exact Nat.mul_lt_mul_of_pos_right (ofBytes_lt _) (Nat.pow_pos (by decide))
  · cases h

/-- A literal denotes a word. -/
theorem Literal.word?_lt {value : Literal} {word : Nat} (h : value.word? = .ok word) :
    word < wordSpan := by
  cases value with
  | truth value =>
    cases h
    cases value with
    | false => exact wordSpan_pos
    | true => exact Nat.one_lt_two_pow (by decide)
  | integer value =>
    rw [Literal.word?] at h
    split at h
    · cases h
      have hword := Word.isWord_wrap value
      exact (Int.toNat_lt hword.1).mpr hword.2
    · split at h
      · cases h
        assumption
      · cases h
  | text value => exact textWord?_lt h

end YulTaint
