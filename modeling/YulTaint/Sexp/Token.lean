import YulTaint.Sexp.Basic

/-!
Tokens of S-expression text. The grammar is that of the `sexpdata` reader:
blanks and line comments separate tokens, a text runs to the next unescaped
double quote, and an atom runs up to a blank, a bracket, a double quote or a
semicolon. One scan over the characters yields the tokens in order, so a fault
late in the text never hides an earlier one.
-/

namespace YulTaint.Sexp

inductive Token where
  | opening (bracket : Bracket)
  | closing (bracket : Bracket)
  | quote
  | text (value : List Char)
  | atom (value : List Char)
  | unterminated
deriving DecidableEq, Repr

/-- A token and the index of its first character. -/
structure Lexeme where
  token : Token
  offset : Nat
deriving DecidableEq, Repr

/-- What the scan is inside of. An unfinished token is kept back to front
with the index where it began. -/
inductive Mode where
  | between
  | comment
  | text (start : Nat) (reversed : List Char)
  | textEscape (start : Nat) (reversed : List Char)
  | atom (start : Nat) (reversed : List Char)
  | atomEscape (start : Nat) (reversed : List Char)

/-- Only these six characters separate tokens. -/
def isSeparator (c : Char) : Bool :=
  c = ' ' || (0x09 ≤ c.toNat && c.toNat ≤ 0x0d)

def endsAtom (c : Char) : Bool :=
  isSeparator c || c = '(' || c = ')' || c = '[' || c = ']' || c = '"' || c = ';'

/-- The escapes of a text; any other pair stands for itself. -/
def unescapeText? : Char → Option Char
  | '\\' => some '\\'
  | '"' => some '"'
  | 'b' => some '\x08'
  | 'f' => some '\x0c'
  | 'n' => some '\n'
  | 'r' => some '\r'
  | 't' => some '\t'
  | _ => none

/-- The characters that a backslash protects in a symbol. -/
def isSpecial (c : Char) : Bool :=
  c = '\\' || c = '\x27' || c = '\x60' || c = '"' || c = '(' || c = ')' || c = '[' || c = ']'
    || c = ' ' || c = ',' || c = '?' || c = ';' || c = '#'

/-- What a character starts when no token is under way: possibly a token of
its own, and the mode for what follows. -/
def begin (offset : Nat) (c : Char) : List Lexeme × Mode :=
  if isSeparator c then ([], .between)
  else if c = '"' then ([], .text offset [])
  else if c = '(' then ([⟨.opening .round, offset⟩], .between)
  else if c = '[' then ([⟨.opening .square, offset⟩], .between)
  else if c = ')' then ([⟨.closing .round, offset⟩], .between)
  else if c = ']' then ([⟨.closing .square, offset⟩], .between)
  else if c = '\x27' then ([⟨.quote, offset⟩], .between)
  else if c = ';' then ([], .comment)
  else if c = '\\' then ([], .atomEscape offset [])
  else ([], .atom offset [c])

/-- One character's tokens and the mode after it. -/
def advance (offset : Nat) (c : Char) : Mode → List Lexeme × Mode
  | .between => begin offset c
  | .comment => ([], if c = '\n' then .between else .comment)
  | .text start reversed =>
      if c = '"' then ([⟨.text reversed.reverse, start⟩], .between)
      else if c = '\\' then ([], .textEscape start reversed)
      else ([], .text start (c :: reversed))
  | .textEscape start reversed =>
      match unescapeText? c with
      | some plain => ([], .text start (plain :: reversed))
      | none => ([], .text start (c :: '\\' :: reversed))
  | .atom start reversed =>
      if c = '\\' then ([], .atomEscape start reversed)
      else if endsAtom c then
        let (own, mode) := begin offset c
        (⟨.atom reversed.reverse, start⟩ :: own, mode)
      else ([], .atom start (c :: reversed))
  | .atomEscape start reversed =>
      if isSpecial c then ([], .atom start (c :: reversed))
      else ([], .atom start (c :: '\\' :: reversed))

def finish : Mode → List Lexeme
  | .between | .comment => []
  | .text start _ | .textEscape start _ => [⟨.unterminated, start⟩]
  | .atom start reversed => [⟨.atom reversed.reverse, start⟩]
  | .atomEscape start reversed => [⟨.atom ('\\' :: reversed).reverse, start⟩]

def lexFrom (offset : Nat) (mode : Mode) : List Char → List Lexeme
  | [] => finish mode
  | c :: rest =>
      let (own, next) := advance offset c mode
      own ++ lexFrom (offset + 1) next rest

def lex (cs : List Char) : List Lexeme :=
  lexFrom 0 .between cs

end YulTaint.Sexp
