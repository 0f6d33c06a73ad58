import YulTaint.Text.Hex
import YulTaint.Text.Quoted

/-!
Literals and the 256-bit words they denote. A truth value is zero or one, a
negative integer is its two's complement, and a text fills a word from its
most significant byte on.
-/

namespace YulTaint

def wordSpan : Nat := Nat.pow 2 256

inductive Literal where
  | truth (value : Bool)
  | integer (value : Int)
  | text (value : String)
deriving DecidableEq, Repr

inductive LiteralError where
  | tooLarge (value : Nat)
  | tooLong (value : String)
deriving DecidableEq, Repr

def LiteralError.message : LiteralError → String
  | .tooLarge value => s!"literal {Text.hexNat value} does not fit in a word"
  | .tooLong value => s!"string literal {Text.quoted value} is longer than 32 bytes"

def ofBytes (bytes : List UInt8) : Nat :=
  bytes.foldl (fun n b => n * 256 + b.toNat) 0

/-- A text's bytes, followed by zero bytes up to a whole word. -/
def textWord? (s : String) : Except LiteralError Nat :=
  let bytes := s.toUTF8.toList
  if bytes.length ≤ 32 then
    .ok (ofBytes bytes * Nat.pow 256 (32 - bytes.length))
  else
    .error (.tooLong s)

def Literal.word? : Literal → Except LiteralError Nat
  | .truth value => .ok value.toNat
  | .integer value =>
      if value < 0 then .ok (value % wordSpan).toNat
      else if value.toNat < wordSpan then .ok value.toNat
      else .error (.tooLarge value.toNat)
  | .text value => textWord? value

end YulTaint
