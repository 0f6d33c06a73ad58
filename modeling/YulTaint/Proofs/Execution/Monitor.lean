import YulTaint.Flow.Finish
import YulTaint.Proofs.Execution.Code
import YulTaint.Taint.Config

/-!
Execution under a taint monitor. Every value carries a taint bit. A value that
a builtin computes is tainted by its operands and by the bytes it reads, and a
write to a variable or to memory also by the control path: by the conditions
around it, by those of earlier rounds of a loop around it, and by those that
could have led to a jump out of its loop or its function. What the program
cannot compute is drawn from a world. The monitor notes each storage access
through a tainted address.
-/

namespace YulTaint.Execution

structure Value where
  word : Int := 0
  tainted : Bool := false
deriving DecidableEq

/-- A storage access through a tainted address: the scopes called, outermost
first, and the node that holds the address. -/
structure Event where
  chain : List String
  node : NodeId
deriving DecidableEq

/-- Memory is a map of bytes, all zero at first. -/
structure Machine where
  memory : Int → Value := fun _ => {}
  drawn : Nat := 0
  events : List Event := []

/-- Why an execution ends early: its fuel is used up, the program halts, or a
called function does not exist. -/
inductive Stop where
  | exhausted
  | halted
  | stuck
deriving DecidableEq

abbrev Run := EStateM Stop Machine

structure World where
  word : Nat → Int
  byte : Nat → Nat → Int

/-- What an execution runs under. A monitor that exempts constants lets no taint into
a storage address that is constant for the analysis, and none from constant operands
into the value of a builtin, as long as the words are the ones that the analysis has
found. -/
structure Setting where
  program : List Function
  graph : Graph
  world : World
  sources : Bool
  exempts : Bool := true

/-- A storage address that is constant for the analysis and holds its
constant. -/
def Setting.isFixed (σ : Setting) (id : NodeId) (word : Int) : Bool :=
  (σ.graph.node? id).any fun n => n.isUntaintable && n.constant = some word

def Setting.hold (σ : Setting) (id : NodeId) (v : Value) : Value :=
  if σ.exempts && σ.isFixed id v.word then { v with tainted := false } else v

def startOf (words : List Int) (access : MemoryAccess) : Int :=
  words.getD access.offset 0

def lengthOf (words : List Int) : Extent → Int
  | .bytes width => width
  | .operand index => words.getD index 0

def byteOf (word : Int) (width i : Nat) : Int :=
  word / Nat.pow 256 (width - 1 - i) % 256

def Machine.load (m : Machine) (offset : Int) : Int :=
  (List.range 32).foldl (fun word (i : Nat) => word * 256 + (m.memory (offset + i)).word) 0

def Machine.isTainted (m : Machine) (offset length : Int) : Bool :=
  (List.range length.toNat).any fun (i : Nat) => (m.memory (offset + i)).tainted

def propagates (name : String) : Bool :=
  ((Builtin.lookup? name).map (·.propagates)).getD true

def haltingBuiltins : List String :=
  ["stop", "return", "revert", "invalid", "selfdestruct"]

/-- An application of a builtin: the node of its value, the operands' nodes and
values, and the taint of the control path. -/
structure Call where
  node : NodeId
  name : String
  ids : List NodeId
  values : List Value
  pc : Bool

namespace Call

def words (a : Call) : List Int :=
  a.values.map (·.word)

def effect (a : Call) (σ : Setting) : Effect :=
  Builtin.effectFor a.name (a.ids.map (Flow.constantOf σ.graph))

/-- All operands are constant for the analysis and hold their constants. -/
def isConstant (a : Call) (σ : Setting) : Bool :=
  a.ids.map (Flow.constantOf σ.graph) = a.words.map some

/-- Does the taint of operands reach the value? The exemption of constant operands is
one for builtins; of an unknown function the value depends on them all the same. -/
def mixes (a : Call) (σ : Setting) : Bool :=
  propagates a.name && !(σ.exempts && Builtin.isBuiltin a.name && a.isConstant σ)

def isTainted (a : Call) (σ : Setting) (m : Machine) : Bool :=
  a.mixes σ && a.values.any (·.tainted) || (a.effect σ).source && σ.sources ||
    (a.effect σ).reads.any fun access =>
      m.isTainted (startOf a.words access) (lengthOf a.words access.extent)

/-- The word of an application: computed if the builtin is a computation, loaded
from memory, or drawn. -/
def word (a : Call) (σ : Setting) (m : Machine) : Int :=
  match (Builtin.effectFor a.name (a.words.map some)).constant with
  | some word => word
  | none => if a.name = "mload" then m.load (a.words.headD 0) else σ.world.word m.drawn

def value (a : Call) (σ : Setting) (m : Machine) : Value :=
  σ.hold a.node { word := a.word σ m, tainted := a.isTainted σ m }

def events (a : Call) (σ : Setting) (chain : List String) : List Event :=
  ((a.effect σ).addresses.filter fun i => (a.values.getD i {}).tainted).map fun i =>
    { chain, node := a.ids.getD i 0 }

def written (a : Call) (σ : Setting) (m : Machine) (access : MemoryAccess) (i : Nat) : Int :=
  match access.value? with
  | some k => byteOf (a.words.getD k 0) (lengthOf a.words access.extent).toNat i
  | none =>
    if a.name = "mcopy" then (m.memory (a.words.getD 1 0 + i)).word
    else σ.world.byte m.drawn i

/-- The taint of a write: that of what is written, of the offset and of the
control path. -/
def writeTaint (a : Call) (σ : Setting) (m : Machine) (access : MemoryAccess) : Bool :=
  (match access.value? with
    | some k => (a.values.getD k {}).tainted
    | none => (a.value σ m).tainted) ||
  (a.values.getD access.offset {}).tainted || a.pc

def write (a : Call) (σ : Setting) (m : Machine) (memory : Int → Value) (access : MemoryAccess)
    (b : Int) : Value :=
  let start := startOf a.words access
  if start ≤ b ∧ b < start + lengthOf a.words access.extent then
    { word := a.written σ m access (b - start).toNat, tainted := a.writeTaint σ m access }
  else memory b

/-- The machine after an application. All reads come before the writes. -/
def next (a : Call) (σ : Setting) (chain : List String) (m : Machine) : Machine :=
  { memory := (a.effect σ).writes.foldl (a.write σ m) m.memory
    drawn := m.drawn + 1
    events := m.events ++ a.events σ chain }

def run (a : Call) (σ : Setting) (chain : List String) : Run Value := fun m =>
  if haltingBuiltins.contains a.name then .error .halted (a.next σ chain m)
  else .ok (a.value σ m) (a.next σ chain m)

end Call

/-- Call a function: the scopes called so far, the taint of the control path,
the function and its arguments. -/
abbrev Invoke := List String → Bool → String → List Value → Run (List Value)

mutual

/-- The value of an expression. Arguments are evaluated from the last one to
the first. -/
def eval (σ : Setting) (invoke : Invoke) (chain : List String) (pc : Bool)
    (store : NodeId → Value) : Term → Run Value
  | .literal _ value => return { word := value }
  | .read id => return store id
  | .apply node name args => do
    let values ← evalAll σ invoke chain pc store args
    Call.run { node, name, ids := args.map (·.node), values, pc } σ chain
  | .call node function args _ => do
    let values ← evalAll σ invoke chain pc store args
    let results ← invoke chain pc function values
    return σ.hold node (results.headD {})

def evalAll (σ : Setting) (invoke : Invoke) (chain : List String) (pc : Bool)
    (store : NodeId → Value) : List Term → Run (List Value)
  | [] => return []
  | t :: rest => do
    let values ← evalAll σ invoke chain pc store rest
    let value ← eval σ invoke chain pc store t
    return value :: values

end

/-- The variables of a call under way, and the taint of the jumps that could
have been taken: out of the innermost loop, and out of the function. -/
structure Frame where
  store : NodeId → Value := fun _ => {}
  loopTaint : Bool := false
  leaveTaint : Bool := false

namespace Frame

def path (f : Frame) (pc : Bool) : Bool :=
  pc || f.loopTaint || f.leaveTaint

def write (σ : Setting) (pc : Bool) (f : Frame) (entry : NodeId × Value) : Frame :=
  let v : Value := { entry.2 with tainted := entry.2.tainted || f.path pc }
  { f with store := fun id => if id = entry.1 then σ.hold id v else f.store id }

def writeAll (σ : Setting) (pc : Bool) (f : Frame) (entries : List (NodeId × Value)) : Frame :=
  entries.foldl (write σ pc) f

def guard (f : Frame) (breaks leaves tainted : Bool) : Frame :=
  { f with
    loopTaint := f.loopTaint || (breaks && tainted)
    leaveTaint := f.leaveTaint || (leaves && tainted) }

end Frame

inductive Exit where
  | next
  | broke
  | continued
  | left
deriving DecidableEq

/-- A statement as a step: from the taint of the conditions around it and the
frame before to the frame after. -/
abbrev Step := Bool → Frame → Run (Frame × Exit)

def drawAll (σ : Setting) (tainted : Bool) : List NodeId → Run (List (NodeId × Value))
  | [] => return []
  | id :: rest => do
    let m ← get
    set { m with drawn := m.drawn + 1 }
    let others ← drawAll σ tainted rest
    return (id, { word := σ.world.word m.drawn, tainted }) :: others

/-- The rounds of a loop. The conditions of earlier rounds taint later ones. -/
def iterate (condition : Bool → Frame → Run Value) (leaves : Bool) (body post : Step) : Nat → Step
  | 0 => fun _ _ => throw .exhausted
  | rounds + 1 => fun pc f => do
    let v ← condition pc f
    let pc := pc || v.tainted
    let f := f.guard false leaves v.tainted
    if v.word = 0 then return (f, .next)
    let (f, exit) ← body pc f
    match exit with
    | .broke => return (f, .next)
    | .left => return (f, .left)
    | _ =>
      let (f, exit) ← post pc f
      match exit with
      | .broke => return (f, .next)
      | .left => return (f, .left)
      | _ => iterate condition leaves body post rounds pc f

section Exec

variable (σ : Setting) (invoke : Invoke) (chain : List String) (rounds : Nat)

def evalIn (t : Term) (pc : Bool) (f : Frame) : Run Value :=
  eval σ invoke chain (f.path pc) f.store t

mutual

def exec : Code → Step
  | .skip | .declare _ => fun _ f => return (f, .next)
  | .seq first second => fun pc f => do
    let (f, exit) ← exec first pc f
    match exit with
    | .next => exec second pc f
    | exit => return (f, exit)
  | .constant targets value => fun pc f =>
    return (f.writeAll σ pc (targets.map (·, { word := value })), .next)
  | .copy targets source => fun pc f =>
    return (f.writeAll σ pc (targets.map (·, f.store source)), .next)
  | .compute target name args => fun pc f => do
    let values ← evalAll σ invoke chain (f.path pc) f.store args
    let v ← Call.run
      { node := target, name, ids := args.map (·.node), values, pc := f.path pc } σ chain
    return (f.write σ pc (target, v), .next)
  | .scatter value targets => fun pc f => do
    let v ← evalIn σ invoke chain value pc f
    let entries ← drawAll σ v.tainted targets
    return (f.writeAll σ pc entries, .next)
  | .call function args targets _ => fun pc f => do
    let values ← evalAll σ invoke chain (f.path pc) f.store args
    let results ← invoke chain (f.path pc) function values
    return (f.writeAll σ pc (targets.zip results), .next)
  | .branch condition _ body => fun pc f => do
    let v ← evalIn σ invoke chain condition pc f
    let f := f.guard body.breaks body.leaves v.tainted
    if v.word = 0 then return (f, .next) else exec body (pc || v.tainted) f
  | .switch selector cases => fun pc f => do
    let v ← evalIn σ invoke chain selector pc f
    let f := f.guard cases.breaks cases.leaves v.tainted
    execCases cases v.word (pc || v.tainted) f
  | .loop init condition _ body post => fun pc f => do
    let (f, exit) ← exec init pc f
    match exit with
    | .next =>
      let (after, exit) ← iterate (evalIn σ invoke chain condition) (body.leaves || post.leaves)
        (exec body) (exec post) rounds (pc || f.loopTaint) { f with loopTaint := false }
      return ({ after with loopTaint := f.loopTaint }, exit)
    | exit => return (f, exit)
  | .breakOut => fun _ f => return (f, .broke)
  | .continueOn => fun _ f => return (f, .continued)
  | .leave => fun _ f => return (f, .left)

def execCases : Cases → Int → Step
  | .nil, _ => fun _ f => return (f, .next)
  | .fallback _ body, _ => exec body
  | .cons value _ body rest, word => if word = value then exec body else execCases rest word

end

end Exec

def Function.frame (σ : Setting) (f : Function) (pc : Bool) (args : List Value) : Frame :=
  ({} : Frame).writeAll σ pc (f.params.zip args ++ f.returns.map (·, ({} : Value)))

/-- Call a function, with a bound on the depth of calls and the rounds of
loops. -/
def invoke (σ : Setting) : Nat → Invoke
  | 0 => fun _ _ _ _ => throw .exhausted
  | fuel + 1 => fun chain pc name args =>
    match σ.program.find? (·.scope = name) with
    | none => throw .stuck
    | some f => do
      let (frame, _) ← exec σ (invoke σ fuel) (chain ++ [name]) fuel f.body pc
        (f.frame σ pc args)
      return f.returns.map frame.store

end YulTaint.Execution
