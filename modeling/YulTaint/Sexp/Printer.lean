import YulTaint.Sexp.Token

/-!
S-expressions as text, for messages that show what was found instead of what
was expected.
-/

namespace YulTaint.Sexp

def escapeText (c : Char) : List Char :=
  match c with
  | '\\' => ['\\', '\\']
  | '"' => ['\\', '"']
  | '\x08' => ['\\', 'b']
  | '\x0c' => ['\\', 'f']
  | '\n' => ['\\', 'n']
  | '\r' => ['\\', 'r']
  | '\t' => ['\\', 't']
  | c => [c]

def escapeSymbol (c : Char) : List Char :=
  if isSpecial c then ['\\', c] else [c]

mutual

def print : Sexp → String
  | .list _ items => "(" ++ String.intercalate " " (printAll items) ++ ")"
  | .bracketed items => "[" ++ String.intercalate " " (printAll items) ++ "]"
  | .quoted item => "\x27" ++ print item
  | .integer value => toString value
  | .real value => value.render
  | .text value => "\"" ++ String.ofList (value.toList.flatMap escapeText) ++ "\""
  | .symbol name => String.ofList (name.toList.flatMap escapeSymbol)

def printAll : List Sexp → List String
  | [] => []
  | item :: rest => print item :: printAll rest

end

end YulTaint.Sexp
