import YulTaint.Graph.Basic
import YulTaint.Text.Hex

/-!
Memory as shared nodes, one for each 32-byte word that a constant range
touches. A range that is not constant, or spans too many words, is the
unknown region. Every store also writes the node for all of memory, which is
what a load from an unknown range reads; a load from a known range also reads
the unknown region. So two accesses share a node exactly when they may
overlap.
-/

namespace YulTaint.Memory

def wordSize : Int := 32

/-- A range over more words than this is treated as unknown. -/
def maxTrackedWords : Int := 64

def unknownRegion : String := "memory[?]"

def anyRegion : String := "memory[*]"

/-- The name of the word that starts at byte `32 * index`. -/
def wordName (index : Int) : String :=
  "memory[" ++ Text.hexInt 2 (index * wordSize) ++ "]"

/-- What a range covers: nothing, the words from `first` on, or it cannot be
told. -/
inductive Cover where
  | words (first : Int) (count : Nat)
  | unknown
deriving DecidableEq, Repr

def cover (offset width : Option Int) : Cover :=
  match offset, width with
  | some offset, some width =>
      if width = 0 then .words 0 0
      else
        let first := offset.fdiv wordSize
        let last := (offset + width - 1).fdiv wordSize
        if maxTrackedWords < last - first + 1 then .unknown
        else .words first (last - first + 1).toNat
  | _, _ => .unknown

def globals (g : Graph) : List String → List NodeId × Graph
  | [] => ([], g)
  | name :: rest =>
      let (id, g) := g.global name
      let (ids, g) := globals g rest
      (id :: ids, g)

def wordNames (first : Int) (count : Nat) : List String :=
  (List.range count).map fun (i : Nat) => wordName (first + i)

def coverNames : Cover → List String
  | .words first count => wordNames first count
  | .unknown => [unknownRegion]

def resolve (g : Graph) (offset width : Option Int) : List NodeId × Graph :=
  globals g (coverNames (cover offset width))

/-- Are these nodes anything but the unknown region alone? -/
def isKnown (g : Graph) (words : List NodeId) : Bool :=
  match g.globals.lookup unknownRegion with
  | some id => words != [id]
  | none => true

/-- One written word takes the value, the offset and the governing block. -/
def writeWord (scope : String) (offsetVar valueVar : NodeId) (block : Option NodeId)
    (g : Graph) (word : NodeId) : Graph :=
  let g := g.addEdge scope valueVar word
  let g := if offsetVar = valueVar then g else g.addEdge scope offsetVar word
  match block with
  | some block => g.addEdge scope block word
  | none => g

def store (g : Graph) (scope : String) (offsetVar : NodeId) (offset width : Option Int)
    (valueVar : NodeId) (block : Option NodeId) : List NodeId × Graph :=
  match resolve g offset width with
  | ([], g) => ([], g)
  | (words, g) =>
      let (all, g) := g.global anyRegion
      let written := words ++ [all]
      (written, written.foldl (writeWord scope offsetVar valueVar block) g)

/-- The nodes that a load reads, given those that its range covers. -/
def readNodes (g : Graph) (words : List NodeId) : List NodeId × Graph :=
  if isKnown g words then
    let (unknown, g) := g.global unknownRegion
    (words ++ [unknown], g)
  else
    let (all, g) := g.global anyRegion
    ([all], g)

def load (g : Graph) (scope : String) (offsetVar : NodeId) (offset width : Option Int)
    (resultVar : NodeId) : List NodeId × Graph :=
  match resolve g offset width with
  | ([], g) => ([], g)
  | (words, g) =>
      let (read, g) := readNodes g words
      let g := read.foldl (fun g word => g.addEdge scope word resultVar) g
      (read, g.addEdge scope offsetVar resultVar)

end YulTaint.Memory
