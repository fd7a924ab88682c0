import MiniLang.Machine.VmSteps
import MiniLang.Oracle.AstOracle

/-!
# Simulation of the oracle by the machine

What it means that a run of the machine does what a computation of the oracle does, and the rules by
which such runs are put together. The machine has no limit of cycles here; it may run short of
something that the oracle has no notion of. Both count: the machine takes at most three steps for
each tick, and the ticks up to the oracle's own limit are paid for by steps at a fixed rate.

## The relation

`Sim` runs a computation of the oracle to its result, in one piece, and asks what the machine does
meanwhile: a value is matched by a state that the machine reaches, a trap by a trap with the same
code. The oracle is a recursive function and the machine takes single steps, so there is no lockstep
to speak of; the rules follow the monad of the oracle instead. `bind` puts two simulations one after
the other, `step` lets the machine move while the oracle does nothing, `tick` is the only rule in
which the oracle counts.

## The two budgets

Neither side's limit is simulated by the other's. There are ticks without instructions, for instance
that of an empty block, and instructions without ticks, such as jumps. What can be kept along a run
is an inequality each way. With at most three steps a tick, a run of the machine that is short of a
resource is so within three times the limit of ticks. With `rate` ticks a step and `credit` before
the first one, an oracle that has used up its ticks leaves a machine that has taken a proportionate
number of steps.
-/

namespace MiniLang

namespace AstOracle

open Vm

/-- What a simulation is about, and the rate at which steps of the machine pay for ticks. -/
structure Setting where
  program : Program
  rules : Rules
  rate : Nat
  credit : Nat

namespace Setting

variable (S : Setting)

def code : CompiledProgram := Compiler.compile S.program

end Setting

variable {S : Setting} {α β : Type} {x : OracleM α} {f : α → OracleM β}
  {Q Q' : α → AstOracle → Vm → Prop} {R : β → AstOracle → Vm → Prop}
  {oracle oracle' : AstOracle} {vm vm' : Vm}

/-- How the machine, run from `vm` on, matches a computation that ended with a result: it gets to a
state that the result is related to; where the oracle has trapped, the machine traps; where the
oracle has used up its ticks, the machine has taken the steps that pay for them. -/
def Matched (S : Setting) (Q : α → AstOracle → Vm → Prop) (vm : Vm) :
    EStateM.Result Stop AstOracle α → Prop
  | .ok a oracle => ∃ vm', Stepping.Reaches (step S.code) vm vm' ∧ Q a oracle vm'
  | .error (.trap code _) oracle =>
    if code = .cycleLimit then ∃ vm', Stepping.Reaches (step S.code) vm vm' ∧
      S.rules.maxCycles < S.credit + S.rate * vm'.cycles
    else ∃ result, Traps S.code vm code oracle.output result ∧
      result.cycles ≤ 3 * S.rules.maxCycles
  | .error .panic _ => False
  | .error .refused _ => True
  | .error .outOfFuel _ => True

/-- The machine, run from `vm` on, simulates the computation `x`, run from `oracle` on. Where it
runs short, it does so within the steps that the limit of ticks allows for. -/
def Sim (S : Setting) (x : OracleM α) (Q : α → AstOracle → Vm → Prop) (oracle : AstOracle)
    (vm : Vm) : Prop :=
  RunsShort S.code (3 * S.rules.maxCycles) vm ∨ Matched S Q vm (x.run oracle)

/-! ## Rules -/

theorem Matched.of_reaches {r : EStateM.Result Stop AstOracle α}
    (h : Stepping.Reaches (step S.code) vm vm') (hr : Matched S Q vm' r) : Matched S Q vm r := by
  cases r with
  | ok a oracle =>
    obtain ⟨vm'', h', hQ⟩ := hr
    exact ⟨vm'', h.trans h', hQ⟩
  | error e oracle =>
    cases e with
    | trap code message =>
      rw [Matched] at hr ⊢
      split at hr
      · next hcode =>
        obtain ⟨vm'', h', hcycles⟩ := hr
        rw [if_pos hcode]
        exact ⟨vm'', h.trans h', hcycles⟩
      · next hcode =>
        obtain ⟨result, htraps, hcycles⟩ := hr
        rw [if_neg hcode]
        exact ⟨result, htraps.of_reaches h, hcycles⟩
    | panic => exact hr
    | refused => exact hr
    | outOfFuel => exact hr

namespace Sim

theorem of_reaches (h : Stepping.Reaches (step S.code) vm vm') (hx : Sim S x Q oracle vm') :
    Sim S x Q oracle vm :=
  hx.imp (RunsShort.of_reaches h) (Matched.of_reaches h)

/-- A computation does not notice a step of the machine. -/
theorem step (h : Vm.step S.code vm = .inl vm') (hx : Sim S x Q oracle vm') :
    Sim S x Q oracle vm :=
  hx.of_reaches (.tail (.refl vm) h)

theorem advance (h : Advances S.code vm vm') (hlimit : vm.cycles < 3 * S.rules.maxCycles)
    (hx : Sim S x Q oracle vm') : Sim S x Q oracle vm := by
  rcases h with h | h
  · exact hx.step h
  · exact .inl (h.mono hlimit)

theorem pure {a : α} (h : Q a oracle vm) : Sim S (Pure.pure a) Q oracle vm :=
  .inr ⟨vm, .refl vm, h⟩

/-- A computation whose result is known. -/
theorem ran {a : α} (hx : x.run oracle = .ok a oracle') (h : Q a oracle' vm) :
    Sim S x Q oracle vm := by
  rw [Sim, hx]
  exact .inr ⟨vm, .refl vm, h⟩

theorem bind (hx : Sim S x Q oracle vm)
    (hf : ∀ a oracle' vm', Q a oracle' vm' → Sim S (f a) R oracle' vm') :
    Sim S (x >>= f) R oracle vm := by
  rcases hx with hx | hx
  · exact .inl hx
  rw [Sim, EStateM.run_bind]
  cases hr : x.run oracle with
  | ok a oracle' =>
    rw [hr] at hx
    obtain ⟨vm', hreaches, hQ⟩ := hx
    exact (hf a oracle' vm' hQ).of_reaches hreaches
  | error e oracle' =>
    rw [hr] at hx
    exact .inr (by cases e <;> exact hx)

theorem mono (hx : Sim S x Q oracle vm)
    (h : ∀ a oracle' vm', Q a oracle' vm' → Q' a oracle' vm') : Sim S x Q' oracle vm := by
  have hbind := hx.bind (f := Pure.pure) fun a oracle' vm' hQ ↦ .pure (h a oracle' vm' hQ)
  rwa [bind_pure] at hbind

theorem get_bind {f : AstOracle → OracleM β} (h : Sim S (f oracle) R oracle vm) :
    Sim S (get >>= f) R oracle vm := h

theorem update {f : AstOracle → AstOracle} {Q : Unit → AstOracle → Vm → Prop}
    (h : Q () (f oracle) vm) : Sim S (modify f) Q oracle vm :=
  .inr ⟨vm, .refl vm, h⟩

theorem trap {code : TrapCode} {message : String} (hcode : code ≠ .cycleLimit)
    (h : ∃ result, Traps S.code vm code oracle.output result ∧
      result.cycles ≤ 3 * S.rules.maxCycles) :
    Sim S (AstOracle.trap code message) Q oracle vm := by
  refine .inr ?_
  change Matched S Q vm (.error (.trap code message) oracle)
  rw [Matched, if_neg hcode]
  exact h

theorem outOfFuel : Sim S (throw .outOfFuel) Q oracle vm := .inr trivial

/-- A tick that steps have been made for, or that the credit covers. -/
theorem tick {Q : Unit → AstOracle → Vm → Prop}
    (hcycles : oracle.cycles + 1 ≤ S.credit + S.rate * vm.cycles)
    (h : oracle.cycles + 1 ≤ S.rules.maxCycles →
      Q () { oracle with cycles := oracle.cycles + 1 } vm) :
    Sim S (AstOracle.tick S.rules) Q oracle vm := by
  refine .inr ?_
  rw [AstOracle.tick, EStateM.run_bind, EStateM.run_modify]
  dsimp only
  rw [EStateM.run_bind, EStateM.run_get]
  dsimp only
  split
  · next hlimit => exact ⟨vm, .refl vm, Nat.lt_of_lt_of_le hlimit hcycles⟩
  · next hlimit => exact ⟨vm, .refl vm, h (Nat.le_of_not_lt hlimit)⟩

end Sim

/-! ## Code at an address -/

/-- The instructions have `code` at `pc`. -/
def PlacedAt (instructions : List Instruction) (pc : Nat) (code : List Instruction) : Prop :=
  code <+: instructions.drop pc

namespace PlacedAt

variable {instructions : List Instruction} {pc : Nat} {code code' : List Instruction}
  {instr : Instruction}

theorem left (h : PlacedAt instructions pc (code ++ code')) : PlacedAt instructions pc code :=
  (List.prefix_append code code').trans h

theorem right (h : PlacedAt instructions pc (code ++ code')) :
    PlacedAt instructions (pc + code.length) code' := by
  have hdrop := h.drop code.length
  rwa [List.drop_left, List.drop_drop] at hdrop

theorem head (h : PlacedAt instructions pc (instr :: code)) : instructions[pc]? = some instr := by
  obtain ⟨rest, hrest⟩ := h
  rw [← Nat.add_zero pc, ← List.getElem?_drop, ← hrest]
  rfl

theorem tail (h : PlacedAt instructions pc (instr :: code)) : PlacedAt instructions (pc + 1) code :=
  @right instructions pc [instr] code h

/-- Code lies within the program. -/
theorem add_le (h : PlacedAt instructions pc (instr :: code)) :
    pc + code.length < instructions.length := by
  have hle := h.length_le
  rw [List.length_drop, List.length_cons] at hle
  omega

/-- The parts of the code of `&&` and `||`, where the right operand ends before `e`: the instruction
that decides jumps to the constant, and the comparison of the right operand jumps behind it. -/
theorem shortCircuit {op : Opcode} {c : Int32} {left right : List Instruction}
    (h : PlacedAt instructions pc (Compiler.Env.shortCircuit op c pc left right))
    (hsmall : instructions.length < 2 ^ 31) :
    ∃ e, e = pc + left.length + right.length + 1 ∧ e + 4 < 2 ^ 31 ∧
      PlacedAt instructions pc left ∧
      PlacedAt instructions (pc + left.length) (⟨op, Compiler.asI32 (e + 3), 0⟩ :: right) ∧
      PlacedAt instructions e [⟨.loadConst, 0, 0⟩, .simple .ne, ⟨.jump, Compiler.asI32 (e + 4), 0⟩,
        ⟨.loadConst, c, 0⟩] := by
  have hend : pc + (left ++ ⟨op, Compiler.asI32 (pc + left.length + right.length + 4), 0⟩ :: right).length =
      pc + left.length + right.length + 1 := by
    rw [List.length_append, List.length_cons]
    omega
  have htail := h.right
  rw [hend] at htail
  refine ⟨_, rfl, ?_, h.left.left, h.left.right, htail⟩
  have hle := htail.tail.tail.tail.add_le
  rw [List.length_nil] at hle
  omega

end PlacedAt

/-- The compiled program has `code` at `pc`. -/
def CodeAt (S : Setting) (pc : Nat) (code : List Instruction) : Prop :=
  code <+: S.code.instructions.drop pc

namespace CodeAt

variable {pc : Nat} {code code' : List Instruction} {instr : Instruction}

theorem left (h : CodeAt S pc (code ++ code')) : CodeAt S pc code := PlacedAt.left h

theorem right (h : CodeAt S pc (code ++ code')) : CodeAt S (pc + code.length) code' :=
  PlacedAt.right h

theorem head (h : CodeAt S pc (instr :: code)) : S.code.instructions[pc]? = some instr :=
  PlacedAt.head h

theorem tail (h : CodeAt S pc (instr :: code)) : CodeAt S (pc + 1) code := PlacedAt.tail h

theorem upTo (h : CodeAt S pc (code ++ instr :: code')) : CodeAt S pc (code ++ [instr]) := by
  rw [← List.singleton_append, ← List.append_assoc] at h
  exact h.left

theorem add_le (h : CodeAt S pc (instr :: code)) :
    pc + code.length < S.code.instructions.length := PlacedAt.add_le h

end CodeAt

end AstOracle

end MiniLang
