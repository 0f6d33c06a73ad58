import YulTaint.Text.Hex

/-!
JSON documents as text, with nothing but ASCII in them: other characters are
written as escaped UTF-16 units. Members keep their order.
-/

namespace YulTaint

inductive Json where
  | text (value : String)
  | number (value : Int)
  | list (items : List Json)
  | object (members : List (String × Json))

namespace Json

def unitEscape (unit : Nat) : String :=
  "\\u" ++ Text.hexDigits 4 unit

/-- One UTF-16 unit, or two for a character beyond the first 65536. -/
def unitEscapes (c : Char) : String :=
  if c.toNat < 0x10000 then unitEscape c.toNat
  else
    let rest := c.toNat - 0x10000
    unitEscape (0xd800 + rest / 0x400) ++ unitEscape (0xdc00 + rest % 0x400)

def escapedChar (c : Char) : String :=
  if c = '"' then "\\\""
  else if c = '\\' then "\\\\"
  else if c = '\n' then "\\n"
  else if c = '\r' then "\\r"
  else if c = '\t' then "\\t"
  else if c = '\x08' then "\\b"
  else if c = '\x0c' then "\\f"
  else if 0x20 ≤ c.toNat && c.toNat < 0x7f then String.ofList [c]
  else unitEscapes c

def renderText (s : String) : String :=
  "\"" ++ String.join (s.toList.map escapedChar) ++ "\""

/-- How items follow each other: on one line, or each on a line of its own
with a number of spaces per level. -/
inductive Layout where
  | compact
  | indented (width : Nat)

def lineStart (width level : Nat) : String :=
  "\n" ++ String.ofList (List.replicate (width * level) ' ')

def enclose (layout : Layout) (level : Nat) (opening closing : String) (items : List String) :
    String :=
  if items.isEmpty then opening ++ closing
  else match layout with
    | .compact => opening ++ String.intercalate ", " items ++ closing
    | .indented width =>
        let start := lineStart width (level + 1)
        opening ++ start ++ String.intercalate ("," ++ start) items ++ lineStart width level
          ++ closing

mutual

def renderAt (layout : Layout) (level : Nat) : Json → String
  | .text value => renderText value
  | .number value => toString value
  | .list items => enclose layout level "[" "]" (renderItems layout (level + 1) items)
  | .object members => enclose layout level "\x7b" "\x7d" (renderMembers layout (level + 1) members)

def renderItems (layout : Layout) (level : Nat) : List Json → List String
  | [] => []
  | item :: rest => renderAt layout level item :: renderItems layout level rest

def renderMembers (layout : Layout) (level : Nat) : List (String × Json) → List String
  | [] => []
  | (key, value) :: rest =>
      (renderText key ++ ": " ++ renderAt layout level value) :: renderMembers layout level rest

end

def render (layout : Layout) (j : Json) : String :=
  renderAt layout 0 j

end Json

end YulTaint
