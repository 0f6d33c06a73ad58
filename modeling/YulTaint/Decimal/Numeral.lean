import YulTaint.Text.Digit

/-!
Number tokens. A token is an integer or a real numeral if it has one of their
spellings, with digits of any script, single underscores between digits, and
blanks around the whole. Everything here is exact; rounding is left to the
printer of reals.
-/

namespace YulTaint.Decimal

/-- The size of a real numeral; `finite digits exponent` is
`digits * 10 ^ exponent`. -/
inductive Magnitude where
  | finite (digits : Nat) (exponent : Int)
  | infinite
  | undefined
deriving DecidableEq, Repr

structure Numeral where
  negative : Bool
  magnitude : Magnitude
deriving DecidableEq, Repr

/-- More digits than this are too many for an integer. -/
def maxIntegerDigits : Nat := 4300

/-- A token with any character beyond ASCII may use the digits and blanks of
every script; they become the plain ones, and other such characters a `?`,
which no number contains. -/
def plainChar (c : Char) : Char :=
  if c.toNat < 0x7f then c
  else if Text.isBlank c then ' '
  else match Text.digitValue? c with
    | some d => Nat.digitChar d
    | none => '?'

def plain (cs : List Char) : List Char :=
  if cs.all (·.toNat < 0x80) then cs else cs.map plainChar

def isSpace (c : Char) : Bool :=
  c = ' ' || (0x09 ≤ c.toNat && c.toNat ≤ 0x0d)

def strip (cs : List Char) : List Char :=
  ((cs.dropWhile isSpace).reverse.dropWhile isSpace).reverse

/-- Removes the underscores, if each of them stands between two digits.
`afterDigit` tells whether a digit came just before. -/
def joinDigits : Bool → List Char → Option (List Char)
  | _, [] => some []
  | afterDigit, '_' :: rest =>
      match rest with
      | d :: _ => if afterDigit && d.isDigit then joinDigits false rest else none
      | [] => none
  | _, c :: rest => (joinDigits c.isDigit rest).map (c :: ·)

def splitSign : List Char → Bool × List Char
  | '-' :: rest => (true, rest)
  | '+' :: rest => (false, rest)
  | rest => (false, rest)

def ofDigits (cs : List Char) : Nat :=
  cs.foldl (fun n c => n * 10 + (c.toNat - '0'.toNat)) 0

def bare? (cs : List Char) : Option (List Char) :=
  joinDigits false (strip (plain cs))

def integer? (cs : List Char) : Option Int := do
  let (negative, digits) := splitSign (← bare? cs)
  if digits.isEmpty || !digits.all Char.isDigit || digits.length > maxIntegerDigits then
    none
  else
    let n : Int := ofDigits digits
    return if negative then -n else n

/-- The exponent part: nothing, or `e` with an optional sign and digits. -/
def exponent? : List Char → Option Int
  | [] => some 0
  | c :: rest =>
      if c.toLower = 'e' then
        let (negative, digits) := splitSign rest
        if digits.isEmpty || !digits.all Char.isDigit then none
        else
          let n : Int := ofDigits digits
          some (if negative then -n else n)
      else none

def finite? (cs : List Char) : Option Magnitude := do
  let whole := cs.takeWhile Char.isDigit
  let (fraction, rest) := match cs.dropWhile Char.isDigit with
    | '.' :: rest => (rest.takeWhile Char.isDigit, rest.dropWhile Char.isDigit)
    | rest => ([], rest)
  if whole.isEmpty && fraction.isEmpty then
    none
  else
    let e ← exponent? rest
    return .finite (ofDigits (whole ++ fraction)) (e - fraction.length)

def magnitude? (cs : List Char) : Option Magnitude :=
  let word := cs.map Char.toLower
  if word = "inf".toList || word = "infinity".toList then some .infinite
  else if word = "nan".toList then some .undefined
  else finite? cs

def real? (cs : List Char) : Option Numeral := do
  let (negative, body) := splitSign (← bare? cs)
  return ⟨negative, ← magnitude? body⟩

end YulTaint.Decimal
