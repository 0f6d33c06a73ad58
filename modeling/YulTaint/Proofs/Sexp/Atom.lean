import Mathlib.Tactic
import YulTaint.Sexp.Token

/-!
Names and decimal numbers as atoms. A name starts with a letter, an underscore or
a dollar sign, so it can be taken for a number only if it is one of the words for
infinity and the undefined number. The decimal digits of an integer, with a minus
sign in front of a negative one, are read back as that integer.
-/

namespace YulTaint

namespace Sexp

def isNameStart (c : Char) : Bool :=
  c.isAlpha || c = '_' || c = '$'

def isNameChar (c : Char) : Bool :=
  isNameStart c || c.isDigit || c = '.'

def numberWords : List (List Char) :=
  ["inf".toList, "infinity".toList, "nan".toList]

def isName (name : String) : Bool :=
  match name.toList with
  | [] => false
  | c :: cs =>
    isNameStart c && cs.all isNameChar && !numberWords.contains ((c :: cs).map Char.toLower)

def decimal (value : Int) : List Char :=
  (toString value).toList

/-- What names and decimal numbers are made of. -/
def isPlain (c : Char) : Bool :=
  isNameChar c || c = '-'

theorem toNat_lt_of_isPlain {c : Char} (h : isPlain c = true) : c.toNat < 128 := by
  have hbelow {d : Char} (hd : d.toNat < 128) (hle : c.val ≤ d.val) : c.toNat < 128 :=
    Nat.lt_of_le_of_lt (UInt32.le_iff_toNat_le.mp hle) hd
  have hupper (h : c.isUpper = true) : c.toNat < 128 :=
    hbelow (by decide : 'Z'.toNat < 128) (of_decide_eq_true h).2
  have hlower (h : c.isLower = true) : c.toNat < 128 :=
    hbelow (by decide : 'z'.toNat < 128) (of_decide_eq_true (Bool.and_eq_true_iff.mp h).2)
  have hdigit (h : c.isDigit = true) : c.toNat < 128 :=
    hbelow (by decide : '9'.toNat < 128) (of_decide_eq_true (Bool.and_eq_true_iff.mp h).2)
  simp only [isPlain, isNameChar, isNameStart, Bool.or_eq_true, decide_eq_true_eq] at h
  rcases h with ((((h | rfl) | rfl) | h) | rfl) | rfl
  · exact (Bool.or_eq_true_iff.mp h).elim hupper hlower
  · decide
  · decide
  · exact hdigit h
  · decide
  · decide

/-- A property of the first characters that holds of each of them. -/
theorem of_ascii {p : Char → Bool} (h : ∀ n : Fin 128, p (Char.ofNat n) = true) {c : Char}
    (hc : c.toNat < 128) : p c = true := by
  have hchar := h ⟨c.toNat, hc⟩
  rwa [Char.ofNat_toNat] at hchar

/-- A plain character is part of an atom wherever it stands. -/
theorem isPlain_spec {c : Char} (h : isPlain c = true) :
    Decimal.isSpace c = false ∧ endsAtom c = false ∧ c ≠ '\\' ∧ c ≠ '\x27' := by
  have htable : ∀ n : Fin 128, (!isPlain (Char.ofNat n) || (!Decimal.isSpace (Char.ofNat n) &&
      !endsAtom (Char.ofNat n) && Char.ofNat n != '\\' && Char.ofNat n != '\x27')) = true := by
    decide
  have hspec := of_ascii (p := fun c => !isPlain c || (!Decimal.isSpace c && !endsAtom c &&
    c != '\\' && c != '\x27')) htable (toNat_lt_of_isPlain h)
  simpa [h, and_assoc] using hspec

end Sexp

namespace Decimal

variable {cs ds : List Char} {c : Char}

open Sexp (isPlain isPlain_spec toNat_lt_of_isPlain isNameStart isNameChar isName numberWords)

theorem dropWhile_isSpace (h : ∀ c ∈ cs, isPlain c = true) :
    cs.dropWhile isSpace = cs := by
  cases cs with
  | nil => rfl
  | cons c rest =>
    have hc := (isPlain_spec (h c List.mem_cons_self)).1
    rw [List.dropWhile_cons_of_neg (by rw [hc]; exact Bool.false_ne_true)]

theorem bare?_of_isPlain (h : ∀ c ∈ cs, isPlain c = true) :
    bare? cs = joinDigits false cs := by
  have hplain : plain cs = cs := by
    refine if_pos (List.all_eq_true.mpr fun c hc => ?_)
    exact decide_eq_true (toNat_lt_of_isPlain (h c hc))
  have hstrip : strip cs = cs := by
    rw [strip, dropWhile_isSpace h, dropWhile_isSpace fun c hc => h c (List.mem_reverse.mp hc),
      List.reverse_reverse]
  rw [bare?, hplain, hstrip]

theorem joinDigits_of_digits (h : '_' ∉ cs) (afterDigit : Bool) :
    joinDigits afterDigit cs = some cs := by
  induction cs generalizing afterDigit with
  | nil => rfl
  | cons c rest ih =>
    obtain ⟨hc, hrest⟩ := not_or.mp (List.mem_cons.not.mp h)
    rw [joinDigits, ih hrest]
    · rfl
    · exact fun heq => hc heq.symm

/-- Where an underscore was removed, a digit stands. -/
theorem joinDigits_eq_self {afterDigit : Bool} (h : joinDigits afterDigit cs = some ds)
    (hdigit : ∀ d ∈ ds, d.isDigit = false) : ds = cs := by
  fun_induction joinDigits afterDigit cs generalizing ds with
  | case1 _ =>
    cases h
    rfl
  | case2 afterDigit d rest hbetween ih =>
    rw [ih h hdigit] at hdigit
    rw [hdigit d List.mem_cons_self, Bool.and_false] at hbetween
    cases hbetween
  | case3 => cases h
  | case4 => cases h
  | case5 _ c rest _ ih =>
    obtain ⟨others, hothers, rfl⟩ := Option.map_eq_some_iff.mp h
    rw [ih hothers fun d hd => hdigit d (List.mem_cons_of_mem _ hd)]

theorem exists_cons_of_joinDigits (h : joinDigits false (c :: cs) = some ds) :
    ∃ rest, ds = c :: rest := by
  by_cases hc : c = '_'
  · subst hc
    cases cs with
    | nil => cases h
    | cons d rest => cases h
  · rw [joinDigits] at h
    · obtain ⟨rest, _, rfl⟩ := Option.map_eq_some_iff.mp h
      exact ⟨rest, rfl⟩
    · exact hc

/-- A name starts neither with a digit nor with a sign or a point. -/
theorem isNameStart_spec (h : isNameStart c = true) :
    c.isDigit = false ∧ c ≠ '-' ∧ c ≠ '+' ∧ c ≠ '.' := by
  have hplain : isPlain c = true := by simp [isPlain, isNameChar, h]
  have htable : ∀ n : Fin 128, (!isNameStart (Char.ofNat n) || (!(Char.ofNat n).isDigit &&
      Char.ofNat n != '-' && Char.ofNat n != '+' && Char.ofNat n != '.')) = true := by
    decide
  have hspec := Sexp.of_ascii (p := fun c => !isNameStart c || (!c.isDigit && c != '-' && c != '+' &&
    c != '.')) htable (toNat_lt_of_isPlain hplain)
  simpa [h, and_assoc] using hspec

theorem splitSign_of_isNameStart (h : isNameStart c = true) (rest : List Char) :
    splitSign (c :: rest) = (false, c :: rest) := by
  obtain ⟨_, hminus, hplus, _⟩ := isNameStart_spec h
  exact splitSign.eq_3 _ (fun _ heq => hminus (List.cons.inj heq).1)
    (fun _ heq => hplus (List.cons.inj heq).1)

theorem finite?_of_isNameStart (h : isNameStart c = true) (rest : List Char) :
    finite? (c :: rest) = none := by
  obtain ⟨hdigit, _, _, hpoint⟩ := isNameStart_spec h
  have hfalse : ¬ c.isDigit = true := by rw [hdigit]; exact Bool.false_ne_true
  rw [finite?, List.takeWhile_cons_of_neg hfalse, List.dropWhile_cons_of_neg hfalse]
  split
  rename_i fraction others heq
  split at heq
  · rename_i hcons
    exact absurd (List.cons.inj hcons).1 hpoint
  · cases heq
    rfl

theorem toLower_of_isDigit {d : Char} (h : d.isDigit = true) : d.toLower = d := by
  have hplain : isPlain d = true := by simp [isPlain, isNameChar, h]
  have htable : ∀ n : Fin 128, (!(Char.ofNat n).isDigit || (Char.ofNat n).toLower == Char.ofNat n) =
      true := by
    decide
  have hspec := Sexp.of_ascii (p := fun d => !d.isDigit || d.toLower == d) htable
    (toNat_lt_of_isPlain hplain)
  simpa [h] using hspec

/-- The words for numbers have no digits, so no underscore was removed from them. -/
theorem isDigit_of_numberWords (h : ds.map Char.toLower ∈ numberWords) {d : Char} (hd : d ∈ ds) :
    d.isDigit = false := by
  have hwords : numberWords.all (·.all fun d => !d.isDigit) = true := by decide
  have hword := List.all_eq_true.mp hwords _ h
  have hlower := List.all_eq_true.mp hword _ (List.mem_map_of_mem hd)
  cases hdigit : d.isDigit with
  | false => rfl
  | true =>
    rw [toLower_of_isDigit hdigit, hdigit] at hlower
    cases hlower

theorem magnitude?_of_name (hc : isNameStart c = true)
    (hword : (c :: cs).map Char.toLower ∉ numberWords) (h : joinDigits false (c :: cs) = some ds) :
    magnitude? ds = none := by
  obtain ⟨rest, rfl⟩ := exists_cons_of_joinDigits h
  have hno : (c :: rest).map Char.toLower ∉ numberWords := by
    intro hmem
    rw [joinDigits_eq_self h fun d hd => isDigit_of_numberWords hmem hd] at hmem
    exact hword hmem
  simp only [numberWords, List.mem_cons, List.not_mem_nil, or_false, not_or] at hno
  obtain ⟨hinf, hinfinity, hnan⟩ := hno
  simp only [magnitude?, hinf, hinfinity, hnan, decide_false, Bool.or_false, if_false]
  exact finite?_of_isNameStart hc rest

end Decimal

namespace Sexp

open Decimal

/-- A name is read as a symbol. -/
theorem ofAtom_name {name : String} (h : isName name = true) :
    ofAtom name.toList = .symbol name := by
  unfold isName at h
  split at h
  · cases h
  · rename_i c cs hname
    simp only [Bool.and_eq_true, Bool.not_eq_true', List.contains_eq_mem, decide_eq_false_iff_not] at h
    obtain ⟨⟨hc, hcs⟩, hword⟩ := h
    have hplain : ∀ d ∈ c :: cs, isPlain d = true := by
      intro d hd
      rcases List.mem_cons.mp hd with rfl | hd
      · simp [isPlain, isNameChar, hc]
      · simp [isPlain, List.all_eq_true.mp hcs d hd]
    have hbare := bare?_of_isPlain hplain
    have hinteger : integer? (c :: cs) = none := by
      unfold integer?
      rw [hbare]
      cases hjoin : joinDigits false (c :: cs) with
      | none => rfl
      | some ds =>
        obtain ⟨rest, rfl⟩ := exists_cons_of_joinDigits hjoin
        simp [splitSign_of_isNameStart hc, (isNameStart_spec hc).1]
    have hreal : real? (c :: cs) = none := by
      unfold real?
      rw [hbare]
      cases hjoin : joinDigits false (c :: cs) with
      | none => rfl
      | some ds =>
        have hmagnitude := magnitude?_of_name hc hword hjoin
        obtain ⟨rest, rfl⟩ := exists_cons_of_joinDigits hjoin
        simp [splitSign_of_isNameStart hc, hmagnitude]
    rw [hname, ofAtom, hinteger, hreal, ← hname, String.ofList_toList]

theorem ofDigits_toDigits (n : Nat) : ofDigits (Nat.toDigits 10 n) = n := by
  have hvalue := Nat.ofDigitChars_ten_toDigits (n := n)
  rw [Nat.ofDigitChars_eq_foldl] at hvalue
  simp only [ofDigits, Nat.mul_comm _ 10]
  exact hvalue

theorem decimal_eq (value : Int) :
    decimal value = (if value < 0 then ['-'] else []) ++ Nat.toDigits 10 value.natAbs := by
  cases value with
  | ofNat n =>
    have hstring : toString (Int.ofNat n) = toString n := rfl
    rw [decimal, hstring, Nat.toString_eq_ofList_toDigits, String.toList_ofList]
    rfl
  | negSucc n =>
    have hstring : toString (Int.negSucc n) = "-" ++ toString (n + 1) := rfl
    rw [decimal, hstring, Nat.toString_eq_ofList_toDigits, String.toList_append,
      String.toList_ofList, String.toList_ofList, if_pos (Int.negSucc_lt_zero n)]
    rfl

theorem isPlain_of_mem_decimal {value : Int} {c : Char} (h : c ∈ decimal value) :
    isPlain c = true := by
  rw [decimal_eq] at h
  rcases List.mem_append.mp h with h | h
  · split at h
    · rw [List.mem_singleton.mp h]
      rfl
    · cases h
  · simp [isPlain, isNameChar, Nat.isDigit_of_mem_toDigits (by decide) (by decide) h]

theorem splitSign_decimal (value : Int) :
    splitSign (decimal value) = (decide (value < 0), Nat.toDigits 10 value.natAbs) := by
  rw [decimal_eq]
  by_cases hneg : value < 0
  · rw [if_pos hneg, decide_eq_true hneg]
    rfl
  · rw [if_neg hneg, decide_eq_false hneg, List.nil_append]
    have hdigits : ∀ c ∈ Nat.toDigits 10 value.natAbs, c.isDigit = true :=
      fun c hc => Nat.isDigit_of_mem_toDigits (by decide) (by decide) hc
    refine splitSign.eq_3 _ (fun rest heq => ?_) (fun rest heq => ?_)
    · have hminus := hdigits '-' (heq ▸ List.mem_cons_self)
      cases hminus
    · have hplus := hdigits '+' (heq ▸ List.mem_cons_self)
      cases hplus

/-- An integer that is not too long is read back from its digits. -/
theorem ofAtom_decimal {value : Int}
    (h : (Nat.toDigits 10 value.natAbs).length ≤ maxIntegerDigits) :
    ofAtom (decimal value) = .integer value := by
  have hunderscore : '_' ∉ decimal value := by
    rw [decimal_eq]
    intro hmem
    rcases List.mem_append.mp hmem with hmem | hmem
    · split at hmem
      · cases List.mem_singleton.mp hmem
      · cases hmem
    · exact Nat.underscore_not_in_toDigits hmem
  have hbare : bare? (decimal value) = some (decimal value) := by
    rw [bare?_of_isPlain fun _ => isPlain_of_mem_decimal, joinDigits_of_digits hunderscore]
  have hempty : (Nat.toDigits 10 value.natAbs).isEmpty = false :=
    List.isEmpty_eq_false_iff.mpr Nat.toDigits_ne_nil
  have hdigits : (Nat.toDigits 10 value.natAbs).all Char.isDigit = true :=
    List.all_eq_true.mpr fun c hc => Nat.isDigit_of_mem_toDigits (by decide) (by decide) hc
  have hlength : decide ((Nat.toDigits 10 value.natAbs).length > maxIntegerDigits) = false :=
    decide_eq_false (Nat.not_lt.mpr h)
  have hsigned : (if decide (value < 0) = true then -(value.natAbs : Int) else value.natAbs) =
      value := by
    simp only [decide_eq_true_eq]
    split <;> omega
  have hinteger : integer? (decimal value) = some value := by
    unfold integer?
    rw [hbare]
    simp only [Option.bind_eq_bind, Option.bind_some, splitSign_decimal, hempty, hdigits, hlength,
      ofDigits_toDigits, Bool.not_true, Bool.or_false, Bool.false_eq_true, if_false]
    exact congrArg some hsigned
  rw [ofAtom, hinteger]

end Sexp

end YulTaint
