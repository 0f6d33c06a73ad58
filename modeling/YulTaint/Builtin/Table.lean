import YulTaint.Word

/-!
The builtin functions: their arities, where their values come from, which
operands are storage addresses, which memory they touch, and how those that
compute from their operands alone are folded.
-/

namespace YulTaint

/-- How a builtin's value relates to its operands: computed from them, taken
from outside the program, trusted but unknown, or absent. -/
inductive BuiltinKind where
  | pure
  | source
  | trusted
  | effect
deriving DecidableEq, Repr

def BuiltinKind.render : BuiltinKind → String
  | .pure => "pure"
  | .source => "source"
  | .trusted => "opaque"
  | .effect => "effect"

/-- The size of a memory range: a number of bytes, or the operand that holds
it. -/
inductive Extent where
  | bytes (width : Nat)
  | operand (index : Nat)
deriving DecidableEq, Repr

/-- A memory range that starts at an operand. A write stores the operand
`value?`, or without one the value of the application itself. -/
structure MemoryAccess where
  offset : Nat
  extent : Extent
  value? : Option Nat := none
deriving DecidableEq, Repr

inductive Fold where
  | unary (f : Int → Int)
  | binary (f : Int → Int → Except Word.Undefined Int)
  | ternary (f : Int → Int → Int → Int)

/-- The value at a list of operands; none if their number is wrong. -/
def Fold.eval : Fold → List Int → Except Word.Undefined (Option Int)
  | .unary f, [a] => .ok (some (f a))
  | .binary f, [a, b] => (f a b).map some
  | .ternary f, [a, b, c] => .ok (some (f a b c))
  | _, _ => .ok none

structure Builtin where
  name : String
  arity : Nat
  returns : Nat
  kind : BuiltinKind
  /-- The operands that are storage addresses. -/
  addresses : List Nat := []
  reads : List MemoryAccess := []
  writes : List MemoryAccess := []
  fold? : Option Fold := none

def Builtin.propagates (b : Builtin) : Bool :=
  b.kind != .trusted

namespace Builtin

def unary (name : String) (f : Int → Int) : Builtin :=
  { name, arity := 1, returns := 1, kind := .pure, fold? := some (.unary f) }

def guardedBinary (name : String) (f : Int → Int → Except Word.Undefined Int) : Builtin :=
  { name, arity := 2, returns := 1, kind := .pure, fold? := some (.binary f) }

def binary (name : String) (f : Int → Int → Int) : Builtin :=
  guardedBinary name fun a b => .ok (f a b)

def ternary (name : String) (f : Int → Int → Int → Int) : Builtin :=
  { name, arity := 3, returns := 1, kind := .pure, fold? := some (.ternary f) }

def source (name : String) (arity : Nat) : Builtin :=
  { name, arity, returns := 1, kind := .source }

def trusted (name : String) (arity : Nat) : Builtin :=
  { name, arity, returns := 1, kind := .trusted }

def effect (name : String) (arity : Nat) : Builtin :=
  { name, arity, returns := 0, kind := .effect }

def range (offset length : Nat) : MemoryAccess :=
  { offset, extent := .operand length }

def leading (width : Nat) : MemoryAccess :=
  { offset := 0, extent := .bytes width }

/-- A copy of outside data into memory. -/
def copyIn (name : String) (arity : Nat) (kind : BuiltinKind) (target : MemoryAccess) : Builtin :=
  { name, arity, returns := 0, kind, writes := [target] }

def arithmetic : List Builtin := [
  binary "add" Word.add, binary "sub" Word.sub, binary "mul" Word.mul, binary "div" Word.div,
  binary "sdiv" Word.sdiv, binary "mod" Word.mod, binary "smod" Word.smod,
  guardedBinary "exp" Word.exp, binary "lt" Word.lt, binary "gt" Word.gt, binary "slt" Word.slt,
  binary "sgt" Word.sgt, binary "eq" Word.eq, binary "and" Bits.and, binary "or" Bits.or,
  binary "xor" Bits.xor, binary "byte" Word.byte, guardedBinary "shl" Word.shl,
  guardedBinary "shr" Word.shr, guardedBinary "sar" Word.sar,
  guardedBinary "signextend" Word.signextend, unary "not" Word.not, unary "iszero" Word.iszero,
  ternary "addmod" Word.addmod, ternary "mulmod" Word.mulmod, unary "memoryguard" id]

def storage : List Builtin := [
  { source "sload" 1 with addresses := [0] },
  { effect "sstore" 2 with addresses := [0] },
  source "tload" 1,
  effect "tstore" 2]

def memory : List Builtin := [
  { name := "mload", arity := 1, returns := 1, kind := .pure, reads := [leading 32] },
  { effect "mstore" 2 with writes := [{ leading 32 with value? := some 1 }] },
  { effect "mstore8" 2 with writes := [{ leading 1 with value? := some 1 }] },
  { effect "mcopy" 3 with reads := [range 1 2], writes := [range 0 2] },
  source "msize" 0,
  { name := "keccak256", arity := 2, returns := 1, kind := .pure, reads := [range 0 1] }]

def data : List Builtin := [
  source "calldataload" 1,
  source "calldatasize" 0,
  copyIn "calldatacopy" 3 .source (range 0 2),
  source "returndatasize" 0,
  copyIn "returndatacopy" 3 .source (range 0 2),
  trusted "codesize" 0,
  copyIn "codecopy" 3 .effect (range 0 2),
  source "extcodesize" 1,
  source "extcodehash" 1,
  copyIn "extcodecopy" 4 .source (range 1 3)]

def environment : List Builtin :=
  ["caller", "callvalue", "origin", "gasprice", "gas", "selfbalance", "coinbase", "timestamp",
    "number", "difficulty", "prevrandao", "gaslimit", "basefee", "blobbasefee"].map (source · 0)
  ++ [source "balance" 1, source "blockhash" 1, source "blobhash" 1,
    trusted "address" 0, trusted "chainid" 0, trusted "pc" 0,
    trusted "datasize" 1, trusted "dataoffset" 1, trusted "loadimmutable" 1,
    trusted "linkersymbol" 1]

def calls : List Builtin := [
  { source "call" 7 with reads := [range 3 4], writes := [range 5 6] },
  { source "callcode" 7 with reads := [range 3 4], writes := [range 5 6] },
  { source "delegatecall" 6 with reads := [range 2 3], writes := [range 4 5] },
  { source "staticcall" 6 with reads := [range 2 3], writes := [range 4 5] },
  { source "create" 3 with reads := [range 1 2] },
  { source "create2" 4 with reads := [range 1 2] }]

def control : List Builtin := [
  effect "log0" 2, effect "log1" 3, effect "log2" 4, effect "log3" 5, effect "log4" 6,
  effect "return" 2, effect "revert" 2, effect "stop" 0, effect "invalid" 0,
  effect "selfdestruct" 1, effect "pop" 1, effect "setimmutable" 3,
  copyIn "datacopy" 3 .effect (range 0 2)]

def table : List Builtin :=
  arithmetic ++ storage ++ memory ++ data ++ environment ++ calls ++ control

def lookup? (name : String) : Option Builtin :=
  table.find? (·.name = name)

def isBuiltin (name : String) : Bool :=
  (lookup? name).isSome

end Builtin

end YulTaint
