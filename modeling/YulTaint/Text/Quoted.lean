import YulTaint.Text.Hex
import YulTaint.Text.Printable

/-!
Quoted text in messages. A text stands between single quotes, or between
double quotes when it holds a single quote and no double one. The quote in
use and the backslash are escaped, and so is every character that cannot be
shown.
-/

namespace YulTaint.Text

/-- A text with an apostrophe and no double quote is quoted with the latter. -/
def quoteMark (cs : List Char) : Char :=
  if cs.contains '\x27' && !cs.contains '"' then '"' else '\x27'

def escapeHidden (c : Char) : String :=
  if c.toNat < 0x100 then "\\x" ++ hexDigits 2 c.toNat
  else if c.toNat < 0x10000 then "\\u" ++ hexDigits 4 c.toNat
  else "\\U" ++ hexDigits 8 c.toNat

def quotedChar (mark c : Char) : String :=
  if c = mark || c = '\\' then String.ofList ['\\', c]
  else if c = '\n' then "\\n"
  else if c = '\r' then "\\r"
  else if c = '\t' then "\\t"
  else if isPrintable c then String.ofList [c]
  else escapeHidden c

def quoted (s : String) : String :=
  let mark := quoteMark s.toList
  String.ofList [mark] ++ String.join (s.toList.map (quotedChar mark)) ++ String.ofList [mark]

end YulTaint.Text
