import MiniLang.Bytecode.Program

/-!
# Execution traces

The events both machines record when tracing is on.
-/

namespace MiniLang

/-- Result of executing one traced instruction. -/
inductive TraceOutcome
  | continue
  | jump
  | exit
  | trap (code : TrapCode) (message : String)
deriving DecidableEq

/-- One VM instruction execution event; stacks are listed from the bottom. -/
structure TraceEvent where
  cycle : Nat
  pc : Nat
  opcode : String
  arg1 : Int32
  arg2 : Int32
  stackBefore : List Int
  stackAfter : List Int
  frameDepthBefore : Nat
  frameDepthAfter : Nat
  nextPc : Nat
  outcome : TraceOutcome
deriving DecidableEq

end MiniLang
