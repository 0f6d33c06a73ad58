/-!
Source locations. Lines and columns of read programs count from one; line zero
stands for an unknown place, which is never printed. Trees that are handed in
may carry any numbers.
-/

namespace YulTaint

structure Loc where
  file : String := "<unknown>"
  line : Int := 0
  column : Int := 0
deriving DecidableEq, Repr, Inhabited

def Loc.isKnown (loc : Loc) : Bool :=
  loc.line != 0

def Loc.render (loc : Loc) : String :=
  loc.file ++ ":" ++ toString loc.line ++ ":" ++ toString loc.column

def Loc.known? (loc : Option Loc) : Option Loc :=
  loc.filter Loc.isKnown

end YulTaint
