import YulTaint.Decimal.Shortest

/-!
S-expressions, the notation in which programs are written. A parenthesised
list remembers where it opened; bracketed lists, quoted items and reals are
read but mean nothing in a program.
-/

namespace YulTaint

/-- Line and column of an opening parenthesis; zeros stand for an unknown
place. -/
structure Position where
  line : Nat := 0
  column : Nat := 0
deriving DecidableEq, Repr, Inhabited

inductive Sexp where
  | list (start : Position) (items : List Sexp)
  | bracketed (items : List Sexp)
  | quoted (item : Sexp)
  | integer (value : Int)
  | real (value : Decimal.Numeral)
  | text (value : String)
  | symbol (name : String)

instance : Inhabited Sexp := ⟨.symbol ""⟩

inductive Bracket where
  | round
  | square
deriving DecidableEq, Repr

def Bracket.closer : Bracket → Char
  | .round => ')'
  | .square => ']'

/-- A token is an integer if it can be, else a real if it can be, else a
symbol. -/
def Sexp.ofAtom (cs : List Char) : Sexp :=
  match Decimal.integer? cs with
  | some n => .integer n
  | none =>
      match Decimal.real? cs with
      | some x => .real x
      | none => .symbol (String.ofList cs)

/-- A closed bracket's contents as one item; positions are filled in later. -/
def Sexp.ofItems : Bracket → List Sexp → Sexp
  | .round, items => .list {} items
  | .square, items => .bracketed items

end YulTaint
