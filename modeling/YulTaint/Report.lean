import YulTaint.Analysis

/-!
Results as text: a listing for people, with or without colour, one line per
violation for tools that read compiler output, or a JSON document.
-/

namespace YulTaint.Report

inductive Format where
  | listing
  | lines
  | json
deriving DecidableEq, Repr

def Format.ofName? : String → Option Format
  | "text" => some .listing
  | "plain" => some .lines
  | "json" => some .json
  | _ => none

def Format.unknownMessage (name : String) : String :=
  s!"unknown report format {Text.quoted name}"

inductive Colour where
  | red
  | yellow
  | blue
  | cyan
  | white
deriving DecidableEq, Repr

def Colour.code : Colour → Nat
  | .red => 31
  | .yellow => 33
  | .blue => 34
  | .cyan => 36
  | .white => 97

def paint (coloured : Bool) (colour : Colour) (text : String) : String :=
  if coloured then s!"\x1b[1m\x1b[{colour.code}m{text}\x1b[0m" else text

def summary (violations : List Violation) (fault : Option Fault) : String :=
  match fault, violations.length with
  | some fault, _ => s!"analysis aborted: {fault.code.render}"
  | none, 0 => "no dynamic state access found"
  | none, 1 => "1 violation"
  | none, n => s!"{n} violations"

def placeLines (coloured : Bool) (loc : Option Loc) : List String :=
  match Loc.known? loc with
  | some loc =>
      let arrow := paint coloured .blue "-->"
      [s!"  {arrow} {loc.render}"]
  | none => []

def violationLines (coloured : Bool) (v : Violation) : List String :=
  let head := paint coloured .yellow s!"warning[{Violation.errorId}]"
  let body := paint coloured .white v.message
  let note := paint coloured .cyan "note"
  let path := String.intercalate " -> " v.taintPath
  [s!"{head}: {body}"]
    ++ placeLines coloured v.loc
    ++ (if v.taintPath.isEmpty then [] else [s!"  = {note}: taint path: {path}"])
    ++ [s!"  = {note}: declared in {v.function}"]
    ++ (if v.embeddedName = v.variableName then []
      else [s!"  = {note}: embedded as {v.embeddedName}"])
    ++ [""]

def faultLines (coloured : Bool) (fault : Fault) : List String :=
  let head := paint coloured .red s!"error[{fault.code.render}]"
  [s!"{head}: {fault.message}"] ++ placeLines coloured fault.loc ++ [""]

def listing (coloured : Bool) (r : Result) : String :=
  let lines := (r.fault.map (faultLines coloured)).getD []
    ++ r.violations.flatMap (violationLines coloured)
    ++ [summary r.violations r.fault]
  String.intercalate "\n" lines ++ "\n"

def lines (r : Result) : String :=
  String.join (r.violations.map fun v => v.render ++ "\n")
    ++ (match r.fault with
      | some fault => fault.render ++ "\n"
      | none => "")

def statisticsJson (s : Statistics) : Json :=
  .object [("nodes", .number s.nodes), ("edges", .number s.edges), ("scopes", .number s.scopes),
    ("blocks", .number s.blocks), ("protected", .number s.addresses),
    ("memory_words", .number s.memoryWords), ("call_sites", .number s.callSites)]

def faultJson (fault : Fault) : Json :=
  .object [("code", .text fault.code.render), ("kind", .text fault.kind.render),
    ("message", .text fault.message)]

def document (r : Result) : Json :=
  .object <|
    [("status", .text r.status.render), ("violations", .list (r.violations.map (·.toJson)))]
    ++ (r.fault.map fun fault => ("error", faultJson fault)).toList
    ++ (r.graph.map fun g => ("statistics", statisticsJson g.statistics)).toList

def json (layout : Json.Layout) (r : Result) : String :=
  (document r).render layout

def render (format : Format) (coloured : Bool) (r : Result) : String :=
  match format with
  | .listing => listing coloured r
  | .lines => lines r
  | .json => json (.indented 2) r ++ "\n"

end YulTaint.Report
