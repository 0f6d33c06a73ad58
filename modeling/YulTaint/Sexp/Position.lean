import YulTaint.Sexp.Basic

/-!
Where forms begin. A scan of the text notes every opening parenthesis outside
texts and line comments, and the lists of the parsed forms take these
positions in the order in which they open. Lists inside brackets or behind an
apostrophe take none.
-/

namespace YulTaint

def Position.after (c : Char) (place : Position) : Position :=
  if c = '\n' then ⟨place.line + 1, 1⟩ else ⟨place.line, place.column + 1⟩

namespace Sexp

inductive Region where
  | code
  | comment
  | text
  | textEscape

def Region.after (c : Char) : Region → Region
  | .code => if c = '"' then .text else if c = ';' then .comment else .code
  | .comment => if c = '\n' then .code else .comment
  | .text => if c = '\\' then .textEscape else if c = '"' then .code else .text
  | .textEscape => .text

def Region.opens (c : Char) : Region → Bool
  | .code => c = '('
  | _ => false

def openingsFrom (place : Position) (region : Region) : List Char → List Position
  | [] => []
  | c :: rest =>
      let later := openingsFrom (place.after c) (region.after c) rest
      if region.opens c then place :: later else later

/-- The positions of all opening parentheses, counted from line one and
column one. -/
def openings (text : List Char) : List Position :=
  openingsFrom ⟨1, 1⟩ .code text

mutual

/-- Give the lists of a form their positions in order; the positions not used
are handed on. A list for which none is left stays at an unknown place. -/
def locate (places : List Position) : Sexp → Sexp × List Position
  | .list _ items =>
      let (items, rest) := locateAll places.tail items
      (.list (places.headD {}) items, rest)
  | other => (other, places)

def locateAll (places : List Position) : List Sexp → List Sexp × List Position
  | [] => ([], places)
  | item :: items =>
      let (item, places) := locate places item
      let (items, places) := locateAll places items
      (item :: items, places)

end

end Sexp

end YulTaint
