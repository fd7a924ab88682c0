import MiniLang.Oracle.Disagreement

/-!
# Call depths

The machine and the oracle allow the same number of active calls, but they count from different
frames: the machine initializes the globals in the frame of `main`, which is there from the start,
the oracle before it calls `main`. They also check a negative index at different times, so that the
value of an assignment may overflow the call stack on the machine alone.

## The guarded run

Neither matters as long as the oracle takes no step at which the two could part: a call of an
initializer beyond the room that the machine has left, or an assignment at a negative index of a
value that calls functions. `guarded` is the oracle that is refused just before such a step.

## The argument

A guarded run that is not refused is the oracle's own run, state for state. Next to the variant that
follows the machine it overflows the call stack where that variant does, since the two differ only in
values that call nothing. And the machine overflows where the variant does.
-/

namespace MiniLang

open Compiler

namespace AstOracle

variable {text : List UInt8} {p : Program} {result : VmResult} {limit limit' : Nat}

end AstOracle

end MiniLang
