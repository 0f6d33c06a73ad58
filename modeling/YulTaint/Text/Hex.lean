/-!
Hexadecimal text. Digits are lower-case and the sign stands before the `0x`.
-/

namespace YulTaint.Text

def hexDigits (width n : Nat) : String :=
  let digits := Nat.toDigits 16 n
  String.ofList (List.replicate (width - digits.length) '0' ++ digits)

def hexNat (n : Nat) : String :=
  "0x" ++ hexDigits 1 n

def hexInt (width : Nat) (n : Int) : String :=
  (if n < 0 then "-0x" else "0x") ++ hexDigits width n.natAbs

def hexValue? (c : Char) : Option Nat :=
  if '0' ≤ c ∧ c ≤ '9' then some (c.toNat - '0'.toNat)
  else if 'a' ≤ c ∧ c ≤ 'f' then some (c.toNat - 'a'.toNat + 10)
  else if 'A' ≤ c ∧ c ≤ 'F' then some (c.toNat - 'A'.toNat + 10)
  else none

/-- The number that hexadecimal digits spell, if there is at least one digit
and nothing but digits. -/
def ofHexDigits? : List Char → Option Nat
  | [] => none
  | cs => cs.foldlM (fun n c => (hexValue? c).map (n * 16 + ·)) 0

end YulTaint.Text
