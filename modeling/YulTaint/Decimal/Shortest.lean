import YulTaint.Decimal.Numeral

/-!
The text of a real numeral: it is rounded to the nearest binary64 value and
written with the fewest digits that round to the same value, positionally
while the decimal point stays within the first sixteen digits and at most
three zeros lead. All arithmetic is exact.
-/

namespace YulTaint.Decimal

structure Binary64 where
  mantissa : Nat
  exponent : Int
deriving DecidableEq, Repr

def minExponent : Int := -1074
def maxExponent : Int := 971
def hiddenBit : Nat := Nat.pow 2 52

def powQuotient (base : Nat) (exponent : Int) : Nat × Nat :=
  if 0 ≤ exponent then (Nat.pow base exponent.toNat, 1)
  else (1, Nat.pow base (-exponent).toNat)

/-- The quotient rounded to the nearest integer, a half going to the even one. -/
def roundDiv (num den : Nat) : Nat :=
  let q := num / den
  let twice := 2 * (num % den)
  if twice < den then q
  else if den < twice then q + 1
  else if q % 2 = 0 then q else q + 1

/-- The binary64 value nearest to a positive quotient; `none` if it is too
large for one. -/
def Binary64.nearest? (num den : Nat) : Option Binary64 :=
  let scaled (q : Int) : Nat × Nat :=
    let (up, down) := powQuotient 2 q
    (num * down, den * up)
  let guess := max ((num.log2 : Int) - den.log2 - 53) minExponent
  let fits := let (n, d) := scaled guess; n / d < 2 * hiddenBit
  let exponent := if fits then guess else guess + 1
  let mantissa := let (n, d) := scaled exponent; roundDiv n d
  let value : Binary64 :=
    if mantissa = 2 * hiddenBit then ⟨hiddenBit, exponent + 1⟩ else ⟨mantissa, exponent⟩
  if value.exponent > maxExponent then none else some value

/-- A numeral's value as a binary64 one. Sizes far outside the range are
decided by the number of digits alone. -/
def Magnitude.binary64? : Magnitude → Option Binary64
  | .infinite | .undefined => none
  | .finite digits exponent =>
      let point := ((Nat.toDigits 10 digits).length : Int) + exponent
      if digits = 0 || point < -400 then some ⟨0, minExponent⟩
      else if point > 400 then none
      else
        let (up, down) := powQuotient 10 exponent
        Binary64.nearest? (digits * up) down

/-- The largest `e` with `10 ^ e` at most a positive quotient, searched
downwards from an upper bound. -/
def leadingExponent (num den : Nat) : Nat → Int → Int
  | 0, e => e
  | steps + 1, e =>
      let (up, down) := powQuotient 10 e
      if up * den ≤ num * down then e else leadingExponent num den steps (e - 1)

/-- The reals that round to a value: those between its two midpoints, which
belong to it when its mantissa is even. The comparison is with
`candidate * 10 ^ unit`. -/
def Binary64.covers (value : Binary64) (candidate : Nat) (unit : Int) : Bool :=
  let below : Nat :=
    if value.mantissa = hiddenBit && value.exponent > minExponent then 4 * value.mantissa - 1
    else 4 * value.mantissa - 2
  let above := 4 * value.mantissa + 2
  let (binUp, binDown) := powQuotient 2 (value.exponent - 2)
  let (decUp, decDown) := powQuotient 10 unit
  let target := candidate * decUp * binDown
  let low := below * binUp * decDown
  let high := above * binUp * decDown
  if value.mantissa % 2 = 0 then low ≤ target && target ≤ high
  else low < target && target < high

/-- The shortest decimal `digits * 10 ^ unit` that rounds to a positive value,
the nearest one if there are two of the same length. -/
def Binary64.shortest (value : Binary64) : Nat × Int :=
  let (up, down) := powQuotient 2 value.exponent
  let num := value.mantissa * up
  let top := leadingExponent num down 700 ((Nat.toDigits 10 num).length : Int)
  let attempt (count : Nat) : Option (Nat × Int) :=
    let unit := top - (count : Int) + 1
    let (uUp, uDown) := powQuotient 10 unit
    let n := num * uDown
    let d := down * uUp
    let floor := n / d
    let hits := [floor, floor + 1].filter (value.covers · unit)
    match hits with
    | [] => none
    | [c] => some (c, unit)
    | _ => some (roundDiv n d, unit)
  ((List.range 17).findSome? fun i => attempt (i + 1)).getD (num, 0)

/-- The significant digits without trailing zeros, and the place of the
decimal point before them. -/
def significant (digits : Nat) (unit : Int) : List Char × Int :=
  let all := Nat.toDigits 10 digits
  let kept := (all.reverse.dropWhile (· = '0')).reverse
  (kept, all.length + unit)

def exponentText (e : Int) : String :=
  let digits := toString e.natAbs
  (if e < 0 then "e-" else "e+") ++ (if digits.length < 2 then "0" ++ digits else digits)

/-- Digits with the decimal point after the first `point` of them. -/
def layout (digits : List Char) (point : Int) : String :=
  if point > 16 || point ≤ -4 then
    let fraction := digits.drop 1
    String.ofList (digits.take 1 ++ (if fraction.isEmpty then [] else '.' :: fraction))
      ++ exponentText (point - 1)
  else if point ≤ 0 then
    String.ofList ("0.".toList ++ List.replicate (-point).toNat '0' ++ digits)
  else
    let whole := digits.take point.toNat
    let padding := List.replicate (point.toNat - whole.length) '0'
    let fraction := digits.drop point.toNat
    String.ofList (whole ++ padding ++ '.' :: (if fraction.isEmpty then ['0'] else fraction))

def Numeral.render (x : Numeral) : String :=
  let body :=
    match x.magnitude with
    | .undefined => "nan"
    | magnitude =>
        match magnitude.binary64? with
        | none => "inf"
        | some value =>
            if value.mantissa = 0 then "0.0"
            else
              let (digits, unit) := value.shortest
              let (kept, point) := significant digits unit
              layout kept point
  if x.negative && x.magnitude ≠ .undefined then "-" ++ body else body

end YulTaint.Decimal
