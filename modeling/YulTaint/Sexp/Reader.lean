import YulTaint.Sexp.Token
import YulTaint.Text.Quoted

/-!
Reading S-expressions, with the grammar and the messages of the `sexpdata`
reader. The forms of a text are read as the items of one list, for which the
text is put between parentheses on lines of their own. Tokens are taken one by
one with a stack of open brackets; an apostrophe waits for the item that
follows it.
-/

namespace YulTaint.Sexp

inductive ReadError where
  | unterminatedText
  | missingCloser (expected : Bracket) (found : Option Bracket)
  | danglingQuote (offset : Nat)
  | surplus (rest : List Char)
  | notOneItem
deriving DecidableEq, Repr

def ReadError.message : ReadError → String
  | .unterminatedText => "\x27NoneType\x27 object has no attribute \x27start\x27"
  | .missingCloser expected found =>
      let got := match found with
        | some bracket => Text.quoted (String.ofList [bracket.closer])
        | none => "None"
      "Not enough closing brackets. Expected "
        ++ Text.quoted (String.ofList [expected.closer])
        ++ " to be the last letter in the sexp. Got: " ++ got
  | .danglingQuote offset => s!"No s-exp is found after an apostrophe at position {offset}"
  | .surplus rest =>
      "Too many closing brackets. Expected no character left in the sexp. Got: "
        ++ Text.quoted (String.ofList rest)
  | .notOneItem => ""

/-- What has been read at one nesting level: the items, last one first, and
the apostrophes still waiting for an item, last one first. -/
structure Level where
  items : List Sexp := []
  quotes : List Nat := []

def Level.push (level : Level) (item : Sexp) : Level :=
  { items := level.quotes.foldl (fun inner _ => .quoted inner) item :: level.items }

/-- The innermost level, and outside it each open bracket with the level it
interrupted. -/
structure Reading where
  level : Level := {}
  outer : List (Bracket × Level) := []

/-- One token. The text is needed only to quote what a surplus closing
bracket leaves over. -/
def Reading.take (text : List Char) (r : Reading) (lexeme : Lexeme) : Except ReadError Reading :=
  match lexeme.token with
  | .opening bracket => .ok { outer := (bracket, r.level) :: r.outer }
  | .closing bracket =>
      match r.level.quotes, r.outer with
      | offset :: _, _ => .error (.danglingQuote offset)
      | [], [] => .error (.surplus (text.drop lexeme.offset))
      | [], (expected, level) :: outer =>
          if bracket = expected then
            .ok { level := level.push (.ofItems bracket r.level.items.reverse), outer }
          else
            .error (.missingCloser expected (some bracket))
  | .quote => .ok { r with level := { r.level with quotes := lexeme.offset :: r.level.quotes } }
  | .text value => .ok { r with level := r.level.push (.text (String.ofList value)) }
  | .atom value => .ok { r with level := r.level.push (.ofAtom value) }
  | .unterminated => .error .unterminatedText

def Reading.close (r : Reading) : Except ReadError (List Sexp) :=
  match r.level.quotes, r.outer with
  | offset :: _, _ => .error (.danglingQuote offset)
  | [], (expected, _) :: _ => .error (.missingCloser expected none)
  | [], [] => .ok r.level.items.reverse

def readItems (text : List Char) : Except ReadError (List Sexp) := do
  let r ← (lex text).foldlM (Reading.take text) {}
  r.close

def wrap (text : List Char) : List Char :=
  '(' :: '\n' :: text ++ ['\n', ')']

def readForms (text : List Char) : Except ReadError (List Sexp) := do
  match ← readItems (wrap text) with
  | [.list _ forms] => .ok forms
  | _ => .error .notOneItem

end YulTaint.Sexp
