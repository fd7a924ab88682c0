import MiniLang.Oracle.Correspondence

/-!
# Expressions

The code of an expression does what the oracle does with the expression: it leaves the value on the
operand stack, and it disturbs nothing of the activation.

## What the code leaves

`Yields` describes the end of a piece of code: the value is on top of the operands that were there
before, the program counter is behind the code, the cells of the activation and all arrays are as
they were, and the two budgets have been kept. A call inside the expression may have written
globals, so globals are not among what stays; they correspond again to the oracle's.

## Names

The oracle looks a name up in its scopes, the code has the operand that the compiler chose for it.
`Seen` says for a visible name which variable of the activation or which global both sides mean. It
is about names visible at the expression, because the oracle's scope has only those that control has
passed so far, and the compiler's table has all of the function.

## Calls

The interpreter is given the function that it calls with, and the induction on the expression has
`CallsOk` of that function as a hypothesis. The functions that are called contain expressions in
turn; that circle is broken by the fuel of calls, where the functions are put together. `&&` and
`||` are compiled to jumps and share one rule, in which the left operand decides by a predicate.
-/

namespace MiniLang

open Compiler

mutual

/-- The number of ticks that one evaluation charges for the expression itself. -/
def Expr.nodes : Expr → Nat
  | .intLiteral .. => 1
  | .boolLiteral .. => 1
  | .identifier .. => 1
  | .binary _ left right _ => left.nodes + right.nodes + 1
  | .unary _ operand _ => operand.nodes + 1
  | .call _ args _ => nodesArgs args + 2
  | .arrayIndex _ index _ => index.nodes + 1
termination_by structural e => e

def nodesArgs : List Expr → Nat
  | [] => 0
  | arg :: args => arg.nodes + nodesArgs args
termination_by structural args => args

end

namespace AstOracle

open Vm
open Verifier (width)

variable {S : Setting} {A : Activation} {scope : HashMap String Slot} {oracle oracle' : AstOracle}
  {vm vm' : Vm} {Γ : Names} {E : Env} {name : String} {stack : List Int} {value a b : Int}

/-! ## Results -/

/-- What the simulations rest on: the program is small enough for its addresses, its globals have
cells, each step pays for two ticks, and the oracle does what the machine does where it has a
choice. -/
structure Setting.Ok (S : Setting) : Prop where
  small : S.code.instructions.length < 2 ^ 31
  laid : GlobalsLaid S.globals
  rate : 2 ≤ S.rate
  late : S.rules.indexCheck = .late
  scalar : ∀ name t, S.program.topLevel name = some (.scalar t) →
    ∃ info, S.globals.lookup name = some info ∧ info.isArray = false
  array : ∀ name t, S.program.topLevel name = some (.array t) →
    ∃ info, S.globals.lookup name = some info ∧ info.isArray = true
  function : ∀ name params, S.program.topLevel name = some (.function params) →
    ∃ func ∈ S.program.functions, func.name = name ∧ func.params.length = params.length

/-- A single instruction has pushed `value`. -/
structure Pushes (oracle : AstOracle) (vm : Vm) (stack : List Int) (value : Int)
    (oracle' : AstOracle) (vm' : Vm) : Prop where
  isI32 : IsI32 value
  oracle_eq : oracle' = oracle
  vm_eq : vm' = { vm with stack := value :: stack, pc := vm.pc + 1, cycles := vm.cycles + 1 }

/-- A piece of code has left `value` on `stack`, at `pc`. -/
structure Yields (S : Setting) (A : Activation) (scope : HashMap String Slot) (stack : List Int)
    (pc slack : Nat) (oracle : AstOracle) (vm : Vm) (value : Int) (oracle' : AstOracle) (vm' : Vm) :
    Prop where
  isI32 : IsI32 value
  stack_eq : vm'.stack = value :: stack
  pc_eq : vm'.pc = pc
  matched : Matches S A scope oracle' vm'
  frames : oracle'.frames = oracle.frames
  undisturbed : Undisturbed A vm.locals vm'.locals
  spent : Spent S slack 0 oracle vm oracle' vm'

/-- The code leaves the result of `x`, which charges `nodes` ticks of its own. -/
def Evaluates (S : Setting) (A : Activation) (scope : HashMap String Slot) (nodes : Nat)
    (x : OracleM Int) (code : Nat → List Instruction) : Prop :=
  ∀ oracle vm, Matches S A scope oracle vm → CodeAt S vm.pc (code vm.pc) →
    Covered S nodes oracle vm → Sim S x
      (Yields S A scope vm.stack (vm.pc + (code vm.pc).length) 2 oracle vm) oracle vm

/-- The last instruction of an expression. -/
theorem Pushes.yields {oracle₁ : AstOracle} {vm₁ : Vm} {pc slack k : Nat}
    (h : Pushes oracle₁ vm₁ stack value oracle' vm') (hm : Matches S A scope oracle₁ vm₁)
    (hpace : vm₁.cycles < 3 * oracle₁.cycles) (hframes : oracle₁.frames = oracle.frames)
    (hundisturbed : Undisturbed A vm.locals vm₁.locals)
    (hspent : Spent S (slack + 1) k oracle vm oracle₁ vm₁) (hover : k ≤ S.rate)
    (hpc : vm₁.pc + 1 = pc) : Yields S A scope stack pc slack oracle vm value oracle' vm' := by
  obtain ⟨hvalue, rfl, rfl⟩ := h
  obtain ⟨hsteps, hticks⟩ := hspent
  refine ⟨hvalue, rfl, hpc, hm.next hpace, hframes, hundisturbed, ?_, ?_⟩
  · dsimp only
    omega
  · dsimp only
    rw [Nat.mul_succ]
    omega

/-! ## Names -/

/-- How the code and the oracle find the variable that a visible name stands for. -/
inductive Seen (S : Setting) (A : Activation) (scope : HashMap String Slot) (E : Env)
    (isArray : Bool) (name : String) : Prop
  | ofLocal {loc : LocalVar} (hslot : E.locals.lookup name = some loc)
    (hloc : A.locals.lookup name = some loc) (harray : loc.isArray = isArray)
    (hscope : name ∈ scope)
  | ofGlobal {info : GlobalInfo} (hslot : E.locals.lookup name = none) (hscope : name ∉ scope)
    (hinfo : S.globals.lookup name = some info) (harray : info.isArray = isArray)

/-- What is visible is found. -/
structure Sees (S : Setting) (A : Activation) (scope : HashMap String Slot) (Γ : Names) (E : Env) :
    Prop where
  globals : E.globals = S.globals
  ids : E.funcNameToId = (globalEnv S.program).funcNameToId
  scalar : ∀ name t, Γ name = some (.scalar t) → Seen S A scope E false name
  array : ∀ name t, Γ name = some (.array t) → Seen S A scope E true name
  function : ∀ name params, Γ name = some (.function params) →
    ∃ func ∈ S.program.functions, func.name = name ∧ func.params.length = params.length

/-- An instruction that pushes a value the oracle has computed. -/
theorem Sim.push {x : OracleM Int} (hx : x.run oracle = .ok value oracle) (hvalue : IsI32 value)
    (h : Advances S.code vm
      { vm with stack := value :: stack, pc := vm.pc + 1, cycles := vm.cycles + 1 })
    (hlimit : vm.cycles < 3 * S.rules.maxCycles) : Sim S x (Pushes oracle vm stack) oracle vm := by
  refine .advance h hlimit (.inr ?_)
  rw [hx]
  exact ⟨_, .refl _, hvalue, rfl, rfl⟩

/-- An instruction that traps as the oracle does. -/
theorem Sim.trapped {α : Type} {x : OracleM α} {Q : α → AstOracle → Vm → Prop} {code : TrapCode}
    {message : String} (hx : x.run oracle = .error (.trap code message) oracle)
    (hcode : code ≠ .cycleLimit) (houtput : vm.output = oracle.output)
    (hlimit : vm.cycles < 3 * S.rules.maxCycles)
    (h : ∃ result, Traps S.code vm code vm.output result ∧ result.cycles = vm.cycles + 1) :
    Sim S x Q oracle vm := by
  refine .inr ?_
  rw [hx, Matched, if_neg hcode]
  obtain ⟨result, htraps, hcycles⟩ := h
  exact ⟨result, houtput ▸ htraps, hcycles ▸ hlimit⟩

theorem run_get_bind {α : Type} (f : AstOracle → OracleM α) (oracle : AstOracle) :
    (get >>= f).run oracle = (f oracle).run oracle := rfl

/-- Reading a scalar. -/
theorem sim_readScalar (hlaid : A.Laid S) (hS : S.Ok) (hE : E.globals = S.globals)
    (hname : Seen S A scope E false name) (hm : Matches S A scope oracle vm)
    (hpace : vm.cycles < 3 * oracle.cycles)
    (hcode : CodeAt S vm.pc (E.accessCode name .loadLocal .loadGlobal false)) :
    Sim S (readScalar name) (Pushes oracle vm vm.stack) oracle vm := by
  rw [Env.accessCode] at hcode
  cases hname with
  | @ofLocal loc hslot hloc hscalar hscope =>
    rw [hslot] at hcode
    obtain ⟨v, hv, hi32, hcell⟩ := hm.locals.scalar hloc hscalar hscope
    have hlookup := hm.inScope.lookupSlot_of_mem hv
    have hfetch := hm.fetches hlaid hcode
    have hlt := hlaid.slot_lt name loc hloc
    cases v with
    | some v =>
      refine .push ?_ (hi32 v rfl) (puts_loadLocal hfetch
        (hm.current hlaid) hlt hcell (hi32 v rfl).ne_i64Min).advances (hm.cycles_lt hpace)
      rw [readScalar, run_get_bind, hlookup]
      rfl
    | none =>
      have hmessage : (readScalar name).run oracle =
          .error (.trap .undefinedLocal s!"Undefined local {name}") oracle := by
        rw [readScalar, run_get_bind, hlookup]
        rfl
      exact .trapped hmessage (by decide) hm.output_eq (hm.cycles_lt hpace)
        (fails_loadLocal hfetch (hm.current hlaid) hlt hcell).traps
  | @ofGlobal info hslot hscope hinfo hscalar =>
    rw [hslot, hE, hinfo] at hcode
    obtain ⟨v, hv, hi32, hcell⟩ := hm.globals.scalar hinfo hscalar
    have hlookup := (hm.inScope.lookupSlot_of_notMem hscope).trans hv
    have hle := hS.laid.le name info hinfo
    rw [width, hscalar] at hle
    refine .push ?_ hi32 (puts_loadGlobal (hm.fetches hlaid hcode)
      hm.globals.length hle hcell).advances (hm.cycles_lt hpace)
    rw [readScalar, run_get_bind, hlookup]
    rfl

theorem getElem?_of_inBounds {values : List Int} {index : Int}
    (h : InBounds index values.length) : ∃ value ∈ values, values[index.toNat]? = some value :=
  ⟨_, List.getElem_mem h.lt, List.getElem?_eq_getElem h.lt⟩

theorem run_readArray {values : List Int} (hlookup : oracle.lookupSlot name = some (.array values))
    {i : Nat} (hvalue : values[i]? = some value) :
    (readArray name i).run oracle = .ok value oracle := by
  rw [readArray, run_get_bind, hlookup]
  dsimp only
  rw [hvalue]
  rfl

/-- The oracle traps where the index is not within the bounds. -/
theorem run_readArray_error {values : List Int} {index : Int}
    (hlookup : oracle.lookupSlot name = some (.array values))
    (hindex : ¬InBounds index values.length) : ∃ message,
      (do readArray name (← checkedArrayIndex index)).run oracle =
        .error (.trap .arrayOutOfBounds message) oracle := by
  rw [checkedArrayIndex]
  by_cases hneg : index < 0
  · rw [if_pos hneg]
    exact ⟨_, rfl⟩
  · have hlt : values.length ≤ index.toNat := by
      by_contra hlt
      exact hindex ⟨Int.not_lt.mp hneg, Nat.not_le.mp hlt⟩
    rw [if_neg hneg, EStateM.run_bind, EStateM.run_pure]
    dsimp only
    rw [readArray, run_get_bind, hlookup]
    dsimp only
    rw [List.getElem?_eq_none hlt]
    exact ⟨_, rfl⟩

/-- Reading an array element. -/
theorem sim_readArray (hlaid : A.Laid S) (hS : S.Ok) (hE : E.globals = S.globals)
    (hname : Seen S A scope E true name) (hm : Matches S A scope oracle vm)
    (hpace : vm.cycles < 3 * oracle.cycles) {index : Int} (hstack : vm.stack = index :: stack)
    (hcode : CodeAt S vm.pc (E.accessCode name .localArrayLoad .arrayLoad true)) :
    Sim S (do readArray name (← checkedArrayIndex index)) (Pushes oracle vm stack) oracle vm := by
  have hok {values : List Int} {value : Int} (hlookup : oracle.lookupSlot name = some (.array values))
      (hindex : InBounds index values.length) (hvalue : values[index.toNat]? = some value) :
      (do readArray name (← checkedArrayIndex index)).run oracle = .ok value oracle := by
    rw [checkedArrayIndex, if_neg (Int.not_lt.mpr hindex.nonneg), EStateM.run_bind,
      EStateM.run_pure]
    exact run_readArray hlookup hvalue
  rw [Env.accessCode] at hcode
  cases hname with
  | @ofLocal loc hslot hloc harray hscope =>
    rw [hslot] at hcode
    obtain ⟨values, first, hvalues, hsize, hi32, -, hfirst, hle, hregion⟩ :=
      hm.locals.array hloc harray hscope
    have hlookup := hm.inScope.lookupSlot_of_mem hvalues
    have hfetch := hm.fetches hlaid hcode
    rw [if_pos rfl] at hfetch
    have hlt := hlaid.slot_lt name loc hloc
    have hsize' := hlaid.size_lt name loc hloc
    by_cases hindex : InBounds index values.length
    · obtain ⟨value, hmem, hvalue⟩ := getElem?_of_inBounds hindex
      rw [hsize] at hle hindex
      exact .push (hok hlookup (hsize ▸ hindex) hvalue) (hi32 value hmem)
        (advances_localArrayLoad hfetch hstack (hm.current hlaid) hlt
          ⟨hsize', hfirst, hle⟩ hindex (hregion _ _ hvalue) hm.bound) (hm.cycles_lt hpace)
    · obtain ⟨message, herror⟩ := run_readArray_error hlookup hindex
      rw [hsize] at hindex
      exact .trapped herror (by decide) hm.output_eq (hm.cycles_lt hpace)
        (fails_localArrayLoad hfetch hstack hsize' hindex).traps
  | @ofGlobal info hslot hscope hinfo harray =>
    rw [hslot, hE, hinfo] at hcode
    obtain ⟨values, hvalues, hsize, hi32, hregion⟩ := hm.globals.array hinfo harray
    have hlookup := (hm.inScope.lookupSlot_of_notMem hscope).trans hvalues
    have hfetch := hm.fetches hlaid hcode
    rw [if_pos rfl] at hfetch
    have hle := hS.laid.le name info hinfo
    rw [width, harray, if_pos rfl] at hle
    have hglobal : GlobalArray vm.globals info.slot info.arraySize :=
      ⟨hm.globals.length, hS.laid.pos name info hinfo harray, hle⟩
    by_cases hindex : InBounds index values.length
    · obtain ⟨value, hmem, hvalue⟩ := getElem?_of_inBounds hindex
      rw [hsize] at hindex
      exact .push (hok hlookup (hsize ▸ hindex) hvalue) (hi32 value hmem)
        (puts_arrayLoad hfetch hstack hglobal hindex (hregion _ _ hvalue)).advances (hm.cycles_lt hpace)
    · obtain ⟨message, herror⟩ := run_readArray_error hlookup hindex
      rw [hsize] at hindex
      exact .trapped herror (by decide) hm.output_eq (hm.cycles_lt hpace)
        (fails_arrayLoad hfetch hstack hglobal hindex).traps

/-! ## Operators -/

theorem sim_evalBinary (hlaid : A.Laid S) {op : BinaryOp} (hand : op ≠ .and) (hor : op ≠ .or)
    (hm : Matches S A scope oracle vm) (hpace : vm.cycles < 3 * oracle.cycles)
    (hstack : vm.stack = b :: a :: stack) (ha : IsI32 a)
    (hcode : CodeAt S vm.pc [.simple (binaryOpcode op)]) :
    Sim S (evalBinary op a b) (Pushes oracle vm stack) oracle vm := by
  have hfetch := hm.fetches hlaid hcode
  have hbinary {f : Int → Int → Int} (hrun : (evalBinary op a b).run oracle = .ok (f a b) oracle)
      (hvalue : IsI32 (f a b)) (hexec : executeInstruction S.code (binaryOpcode op) 0 0 = binary f) :
      Sim S (evalBinary op a b) (Pushes oracle vm stack) oracle vm :=
    .push hrun hvalue (puts_binary hfetch hstack hexec).advances (hm.cycles_lt hpace)
  cases op with
  | add => exact hbinary rfl (isI32_normalizeI32 _) rfl
  | sub => exact hbinary rfl (isI32_normalizeI32 _) rfl
  | mul => exact hbinary rfl (isI32_normalizeI32 _) rfl
  | div =>
    by_cases hb : b = 0
    · subst hb
      exact .trapped rfl (by decide) hm.output_eq (hm.cycles_lt hpace) (fails_div hfetch hstack).traps
    · refine .push ?_ (isI32_normalizeI32 _)
        (puts_div hfetch hstack hb ha.ne_i64Min).advances (hm.cycles_lt hpace)
      rw [evalBinary, if_neg hb, if_neg fun h ↦ ha.ne_i64Min h.1]
      rfl
  | eq => exact hbinary rfl (isI32_flag _) rfl
  | ne => exact hbinary rfl (isI32_flag _) rfl
  | lt => exact hbinary rfl (isI32_flag _) rfl
  | gt => exact hbinary rfl (isI32_flag _) rfl
  | le => exact hbinary rfl (isI32_flag _) rfl
  | ge => exact hbinary rfl (isI32_flag _) rfl
  | and => exact absurd rfl hand
  | or => exact absurd rfl hor

theorem sim_evalUnary (hlaid : A.Laid S) (op : UnaryOp) (hm : Matches S A scope oracle vm)
    (hpace : vm.cycles < 3 * oracle.cycles) (hstack : vm.stack = a :: stack) (ha : IsI32 a)
    (hcode : CodeAt S vm.pc [.simple (unaryOpcode op)]) :
    Sim S (evalUnary op a) (Pushes oracle vm stack) oracle vm := by
  have hfetch := hm.fetches hlaid hcode
  cases op with
  | neg =>
    refine .push ?_ (isI32_normalizeI32 _)
      (puts_neg hfetch hstack ha.ne_i64Min).advances (hm.cycles_lt hpace)
    rw [evalUnary, if_neg ha.ne_i64Min]
    rfl
  | not => exact .push rfl (isI32_flag _) (puts_not hfetch hstack).advances (hm.cycles_lt hpace)

/-! ## Composition -/

namespace Evaluates

variable {x y : OracleM Int} {code left right : Nat → List Instruction} {nodes nodes' : Nat}

/-- The tick of an expression, and what is left to do after it. -/
theorem afterTick {α : Type} {x : OracleM α} {Q : α → AstOracle → Vm → Prop} (hcovered : Covered S (nodes + 1) oracle vm)
    (hm : Matches S A scope oracle vm)
    (h : ∀ oracle₁, oracle₁ = { oracle with cycles := oracle.cycles + 1 } →
      Matches S A scope oracle₁ vm → Covered S nodes oracle₁ vm → Sim S x Q oracle₁ vm) :
    Sim S (do AstOracle.tick S.rules; x) Q oracle vm := by
  rw [Covered] at hcovered
  refine .bind (.tick (by omega) (Q := fun _ oracle' vm' ↦
    oracle.cycles + 1 ≤ S.rules.maxCycles ∧
      oracle' = { oracle with cycles := oracle.cycles + 1 } ∧ vm' = vm) (⟨·, rfl, rfl⟩)) ?_
  rintro _ oracle' vm' ⟨hbudget, rfl, rfl⟩
  refine h _ rfl (hm.tick hbudget) ?_
  rw [Covered]
  dsimp only
  omega

/-- An expression that is a single instruction. -/
theorem ofPush (hS : S.Ok) {instr : Instruction}
    (h : ∀ oracle vm, Matches S A scope oracle vm → vm.cycles < 3 * oracle.cycles →
      CodeAt S vm.pc [instr] → Sim S x (Pushes oracle vm vm.stack) oracle vm) :
    Evaluates S A scope 1 (do AstOracle.tick S.rules; x) fun _ ↦ [instr] := by
  intro oracle vm hm hcode hcovered
  have hpace := hm.pace
  refine afterTick hcovered hm fun oracle₁ horacle hm₁ _ ↦ ?_
  have hrate := hS.rate
  refine (h oracle₁ vm hm₁ ?_ hcode).mono fun value oracle' vm' hpush ↦
    hpush.yields (k := 1) hm₁ ?_ ?_ (.refl A _) ⟨?_, ?_⟩ (by omega) rfl
  all_goals
    subst horacle
    dsimp only
  all_goals omega

/-- An operator applied to one operand. -/
theorem unary (hS : S.Ok) (h : Evaluates S A scope nodes x code) {f : Int → OracleM Int}
    {instr : Instruction}
    (hf : ∀ value stack oracle vm, Matches S A scope oracle vm → vm.cycles < 3 * oracle.cycles →
      vm.stack = value :: stack → IsI32 value → CodeAt S vm.pc [instr] →
      Sim S (f value) (Pushes oracle vm stack) oracle vm) :
    Evaluates S A scope (nodes + 1) (do AstOracle.tick S.rules; f (← x))
      fun base ↦ code base ++ [instr] := by
  intro oracle vm hm hcode hcovered
  have hpace := hm.pace
  have hrate := hS.rate
  refine afterTick hcovered hm fun oracle₁ horacle hm₁ hcovered₁ ↦ ?_
  refine (h oracle₁ vm hm₁ hcode.left hcovered₁).bind fun value oracle₂ vm₂ h₂ ↦ ?_
  obtain ⟨hsteps, hticks⟩ := h₂.spent
  have hpace₂ : vm₂.cycles < 3 * oracle₂.cycles := by
    have := hm₁.pace
    omega
  have hcycles : oracle₁.cycles = oracle.cycles + 1 := by rw [horacle]
  have hframes : oracle₁.frames = oracle.frames := by rw [horacle]
  refine (hf value vm.stack oracle₂ vm₂ h₂.matched hpace₂ h₂.stack_eq h₂.isI32
    (h₂.pc_eq ▸ hcode.right)).mono fun value' oracle' vm' hpush ↦
    hpush.yields (k := 1) h₂.matched hpace₂ (h₂.frames.trans hframes) h₂.undisturbed ⟨?_, ?_⟩
      (by omega) ?_
  · omega
  · omega
  · rw [h₂.pc_eq, List.length_append]
    rfl

/-- An operator applied to two operands. -/
theorem binary (hS : S.Ok) (hx : Evaluates S A scope nodes x left)
    (hy : Evaluates S A scope nodes' y right) {f : Int → Int → OracleM Int} {instr : Instruction}
    (hf : ∀ a b stack oracle vm, Matches S A scope oracle vm → vm.cycles < 3 * oracle.cycles →
      vm.stack = b :: a :: stack → IsI32 a → CodeAt S vm.pc [instr] →
      Sim S (f a b) (Pushes oracle vm stack) oracle vm) :
    Evaluates S A scope (nodes + nodes' + 1)
      (do AstOracle.tick S.rules; let a ← x; let b ← y; f a b)
      fun base ↦ left base ++ right (base + (left base).length) ++ [instr] := by
  intro oracle vm hm hcode hcovered
  have hpace := hm.pace
  have hrate := hS.rate
  refine afterTick hcovered hm fun oracle₁ horacle hm₁ hcovered₁ ↦ ?_
  have hcycles : oracle₁.cycles = oracle.cycles + 1 := by rw [horacle]
  have hframes : oracle₁.frames = oracle.frames := by rw [horacle]
  refine (hx oracle₁ vm hm₁ hcode.left.left (hcovered₁.mono (Nat.le_add_right ..))).bind
    fun a oracle₂ vm₂ h₂ ↦ ?_
  obtain ⟨hsteps₂, hticks₂⟩ := h₂.spent
  have hcovered₂ : Covered S nodes' oracle₂ vm₂ :=
    Covered.spent (k := 0) (hcovered₁.mono (Nat.le_add_left ..)) h₂.spent
  have hright := hcode.left.right
  rw [← h₂.pc_eq] at hright
  refine (hy oracle₂ vm₂ h₂.matched hright hcovered₂).bind fun b oracle₃ vm₃ h₃ ↦ ?_
  obtain ⟨hsteps₃, hticks₃⟩ := h₃.spent
  have hpace₃ : vm₃.cycles < 3 * oracle₃.cycles := by
    have := hm₁.pace
    omega
  have hlast := hcode.right
  rw [List.length_append, ← Nat.add_assoc, ← h₂.pc_eq, ← h₃.pc_eq] at hlast
  refine (hf a b vm.stack oracle₃ vm₃ h₃.matched hpace₃ (by rw [h₃.stack_eq, h₂.stack_eq])
    h₂.isI32 hlast).mono fun value' oracle' vm' hpush ↦
    hpush.yields (k := 1) h₃.matched hpace₃ (h₃.frames.trans (h₂.frames.trans hframes))
      (h₂.undisturbed.trans h₃.undisturbed) ⟨?_, ?_⟩ (by omega) ?_
  · omega
  · omega
  · rw [h₃.pc_eq, h₂.pc_eq, List.length_append, List.length_append]
    dsimp only [List.length_singleton]
    omega

/-- The code behind the right operand of `&&` and `||` compares it with zero and jumps. -/
theorem sim_compareZero {α : Type} {x : OracleM α} {Q : α → AstOracle → Vm → Prop} {b : Int}
    {stack : List Int} {target : Nat} {rest : List Instruction} (hlaid : A.Laid S)
    (hm : Matches S A scope oracle vm) (hstack : vm.stack = b :: stack)
    (hcode : CodeAt S vm.pc (⟨.loadConst, 0, 0⟩ :: .simple .ne :: ⟨.jump, asI32 target, 0⟩ :: rest))
    (htarget : target < 2 ^ 31) (hpace : vm.cycles + 2 < 3 * oracle.cycles)
    (hx : Matches S A scope oracle { vm with
        stack := flag (b ≠ 0) :: stack
        pc := target
        cycles := vm.cycles + 3 } →
      Sim S x Q oracle { vm with
        stack := flag (b ≠ 0) :: stack
        pc := target
        cycles := vm.cycles + 3 }) : Sim S x Q oracle vm := by
  refine .advance (puts_loadConst (hm.fetches hlaid hcode)).advances (hm.cycles_lt (by omega)) ?_
  have hm₁ := @Matches.next _ _ _ _ _ ((0 : Int32).toInt :: vm.stack) (vm.pc + 1) hm (by omega)
  refine .advance (puts_binary (f := fun a b ↦ flag (a ≠ b)) (hm₁.fetches hlaid hcode.tail)
    (congrArg _ hstack) rfl).advances (hm₁.cycles_lt (by dsimp only; omega)) ?_
  have hm₂ := @Matches.next _ _ _ _ _ (flag (b ≠ (0 : Int32).toInt) :: stack) (vm.pc + 2) hm₁
    (by dsimp only; omega)
  have hm₃ := @Matches.next _ _ _ _ _ (flag (b ≠ (0 : Int32).toInt) :: stack)
    (asUsize (asI32 target)) hm₂ (by dsimp only; omega)
  refine .step (step_jump (hm₂.fetches hlaid hcode.tail.tail)) ?_
  rw [asUsize_asI32 (by omega)] at hm₃ ⊢
  exact hx hm₃

/-- `&&` and `||`: an instruction that jumps where the left operand meets `P` decides. -/
theorem shortCircuit (hlaid : A.Laid S) (hS : S.Ok) (hx : Evaluates S A scope nodes x left)
    (hy : Evaluates S A scope nodes' y right) {op : Opcode} {c : Int32} {P : Int → Prop}
    [DecidablePred P]
    (hjump : ∀ vm target value stack, Fetches S.code vm ⟨op, target, 0⟩ →
      vm.stack = value :: stack → Vm.step S.code vm = .inl { vm with
        stack := stack
        pc := if P value then asUsize target else vm.pc + 1
        cycles := vm.cycles + 1 }) :
    Evaluates S A scope (nodes + nodes' + 1)
      (do
        AstOracle.tick S.rules
        let a ← x
        if P a then return c.toInt else return flag ((← y) ≠ 0))
      fun base ↦ Env.shortCircuit op c base (left base)
        (right (base + (left base).length + 1)) := by
  intro oracle vm hm hcode hcovered
  have hpace := hm.pace
  have hrate := hS.rate
  rw [length_shortCircuit]
  dsimp only at hcode
  generalize hl : left vm.pc = leftCode at hcode ⊢
  generalize hr : right (vm.pc + leftCode.length + 1) = rightCode at hcode ⊢
  obtain ⟨e, he, hsmall, hleft, hbranch, htail⟩ := PlacedAt.shortCircuit hcode hS.small
  rw [show vm.pc + (leftCode.length + rightCode.length + 5) = e + 4 by omega]
  refine afterTick hcovered hm fun oracle₁ horacle hm₁ hcovered₁ ↦ ?_
  have hcycles : oracle₁.cycles = oracle.cycles + 1 := by rw [horacle]
  have hframes : oracle₁.frames = oracle.frames := by rw [horacle]
  have hx' := hx oracle₁ vm hm₁ (hl ▸ hleft) (hcovered₁.mono (Nat.le_add_right ..))
  rw [hl] at hx'
  refine hx'.bind fun a oracle₂ vm₂ h₂ ↦ ?_
  obtain ⟨hsteps₂, hticks₂⟩ := h₂.spent
  have hpace₂ := hm₁.pace
  rw [← h₂.pc_eq] at hbranch
  -- the jump takes the left operand, which `P` tells to decide or not
  refine .step (hjump vm₂ _ a vm.stack (h₂.matched.fetches hlaid hbranch) h₂.stack_eq) ?_
  have hm₃ := @Matches.next _ _ _ _ _ vm.stack
    (if P a then asUsize (asI32 (e + 3)) else vm₂.pc + 1) h₂.matched (by omega)
  -- the left operand decides: the constant behind the code is pushed
  by_cases hcond : P a
  · rw [if_pos hcond, if_pos hcond, asUsize_asI32 (by omega)] at *
    refine .advance (puts_loadConst
      (hm₃.fetches hlaid htail.tail.tail.tail)).advances
      (hm₃.cycles_lt (by dsimp only; omega)) (.pure ?_)
    refine Pushes.yields (k := 1) ⟨isI32_toInt c, rfl, rfl⟩ hm₃ (by dsimp only; omega)
      (h₂.frames.trans hframes) h₂.undisturbed ⟨?_, ?_⟩ (by omega) rfl
    · dsimp only
      omega
    · dsimp only
      rw [Nat.mul_succ]
      omega
  -- the right operand decides, as 0 or 1
  · rw [if_neg hcond, if_neg hcond] at *
    have hcovered₃ : Covered S nodes' oracle₂ { vm₂ with
        stack := vm.stack
        pc := vm₂.pc + 1
        cycles := vm₂.cycles + 1 } := by
      rw [Covered] at hcovered₁ ⊢
      dsimp only
      rw [Nat.mul_succ]
      omega
    have hright : right (vm₂.pc + 1) = rightCode := by rw [h₂.pc_eq, hr]
    have hy' := hy oracle₂ _ hm₃ (hright ▸ hbranch.tail) hcovered₃
    dsimp only at hy'
    rw [hright] at hy'
    refine hy'.bind fun b oracle₄ vm₄ h₄ ↦ ?_
    obtain ⟨hsteps₄, hticks₄⟩ := h₄.spent
    dsimp only at hsteps₄ hticks₄
    rw [Nat.mul_succ] at hticks₄
    have hpc₄ : vm₄.pc = e := by rw [h₄.pc_eq, h₂.pc_eq]; omega
    rw [← hpc₄] at htail
    refine sim_compareZero hlaid h₄.matched h₄.stack_eq htail (by omega) (by omega)
      fun hm₅ ↦ .pure ⟨isI32_flag _, rfl, by rw [hpc₄], hm₅, ?_, ?_, ⟨?_, ?_⟩⟩
    · exact h₄.frames.trans (h₂.frames.trans hframes)
    · exact h₂.undisturbed.trans h₄.undisturbed
    · dsimp only
      omega
    · dsimp only
      rw [Nat.mul_succ, Nat.mul_succ, Nat.mul_succ]
      omega

end Evaluates

/-! ## Calls -/

/-- The values of arguments are on the stack, the last one on top. -/
structure YieldsArgs (S : Setting) (A : Activation) (scope : HashMap String Slot) (count pc : Nat)
    (oracle : AstOracle) (vm : Vm) (values : List Int) (oracle' : AstOracle) (vm' : Vm) : Prop where
  length : values.length = count
  isI32 : ∀ value ∈ values, IsI32 value
  stack_eq : vm'.stack = values.reverse ++ vm.stack
  pc_eq : vm'.pc = pc
  matched : Matches S A scope oracle' vm'
  frames : oracle'.frames = oracle.frames
  undisturbed : Undisturbed A vm.locals vm'.locals
  spent : Spent S 0 0 oracle vm oracle' vm'

def EvaluatesArgs (S : Setting) (A : Activation) (scope : HashMap String Slot) (count nodes : Nat)
    (x : OracleM (List Int)) (code : Nat → List Instruction) : Prop :=
  ∀ oracle vm, Matches S A scope oracle vm → CodeAt S vm.pc (code vm.pc) →
    Covered S nodes oracle vm →
    Sim S x (YieldsArgs S A scope count (vm.pc + (code vm.pc).length) oracle vm) oracle vm

/-- A call has left its value on `stack`, and paid for its own tick and one more. -/
structure Returned (S : Setting) (A : Activation) (scope : HashMap String Slot) (stack : List Int)
    (oracle : AstOracle) (vm : Vm) (value : Int) (oracle' : AstOracle) (vm' : Vm) : Prop
    extends Yields S A scope stack (vm.pc + 1) 0 oracle vm value oracle' vm' where
  paid : oracle'.cycles + 1 + S.rate * vm.cycles ≤ oracle.cycles + S.rate * vm'.cycles

/-- The instruction that calls a function. -/
def Setting.callOf (S : Setting) (name : String) (count : Nat) : Instruction :=
  ⟨.call, asI32 (((globalEnv S.program).funcNameToId.lookup name).getD 0), asI32 count⟩

/-- A call instruction does what `call` does. -/
def CallsOk (S : Setting) (call : String → List Int → OracleM Int) : Prop :=
  ∀ (A : Activation) (scope : HashMap String Slot) (func : Function) (values stack : List Int)
    (oracle : AstOracle) (vm : Vm), A.Laid S → func ∈ S.program.functions → func.name ≠ "main" →
    values.length = func.params.length → (∀ value ∈ values, IsI32 value) →
    Matches S A scope oracle vm → vm.stack = values.reverse ++ stack →
    Fetches S.code vm (S.callOf func.name values.length) → Covered S 1 oracle vm →
    Sim S (call func.name values) (Returned S A scope stack oracle vm) oracle vm

variable {call : String → List Int → OracleM Int} {nodes nodes' count : Nat}

theorem EvaluatesArgs.nil : EvaluatesArgs S A scope 0 0 (pure []) fun _ ↦ [] := by
  intro oracle vm hm _ _
  exact .pure ⟨rfl, fun _ h ↦ absurd h List.not_mem_nil, rfl, rfl, hm, rfl, .refl A _, le_rfl, le_rfl⟩

theorem EvaluatesArgs.cons {x : OracleM Int} {xs : OracleM (List Int)}
    {code codes : Nat → List Instruction} (hx : Evaluates S A scope nodes x code)
    (hxs : EvaluatesArgs S A scope count nodes' xs codes) :
    EvaluatesArgs S A scope (count + 1) (nodes + nodes')
      (do let value ← x; let values ← xs; return value :: values)
      fun base ↦ code base ++ codes (base + (code base).length) := by
  intro oracle vm hm hcode hcovered
  refine (hx oracle vm hm hcode.left (hcovered.mono (Nat.le_add_right ..))).bind
    fun value oracle₂ vm₂ h₂ ↦ ?_
  have hcovered₂ : Covered S nodes' oracle₂ vm₂ :=
    Covered.spent (k := 0) (hcovered.mono (Nat.le_add_left ..)) h₂.spent
  have hright := hcode.right
  rw [← h₂.pc_eq] at hright
  refine (hxs oracle₂ vm₂ h₂.matched hright hcovered₂).bind fun values oracle₃ vm₃ h₃ ↦ .pure ?_
  obtain ⟨hsteps₂, hticks₂⟩ := h₂.spent
  obtain ⟨hsteps₃, hticks₃⟩ := h₃.spent
  refine ⟨congrArg Nat.succ h₃.length, List.forall_mem_cons.mpr ⟨h₂.isI32, h₃.isI32⟩, ?_, ?_,
    h₃.matched, h₃.frames.trans h₂.frames, h₂.undisturbed.trans h₃.undisturbed, ?_, ?_⟩
  · rw [h₃.stack_eq, h₂.stack_eq, List.reverse_cons, List.append_assoc]
    rfl
  · rw [h₃.pc_eq, h₂.pc_eq, List.length_append, Nat.add_assoc]
  · omega
  · omega

theorem Evaluates.ofCall (hlaid : A.Laid S) (hcalls : CallsOk S call) {func : Function}
    (hfunc : func ∈ S.program.functions) (hmain : func.name ≠ "main")
    {xs : OracleM (List Int)} {codes : Nat → List Instruction}
    (hxs : EvaluatesArgs S A scope func.params.length nodes xs codes) :
    Evaluates S A scope (nodes + 2) (do AstOracle.tick S.rules; call func.name (← xs))
      fun base ↦ codes base ++ [S.callOf func.name func.params.length] := by
  intro oracle vm hm hcode hcovered
  refine afterTick hcovered hm fun oracle₁ horacle hm₁ hcovered₁ ↦ ?_
  have hcycles : oracle₁.cycles = oracle.cycles + 1 := by rw [horacle]
  have hframes : oracle₁.frames = oracle.frames := by rw [horacle]
  refine (hxs oracle₁ vm hm₁ hcode.left (hcovered₁.mono (Nat.le_add_right ..))).bind
    fun values oracle₂ vm₂ h₂ ↦ ?_
  have hcovered₂ : Covered S 1 oracle₂ vm₂ :=
    Covered.spent (k := 0) (hcovered₁.mono (Nat.le_add_left ..)) h₂.spent
  have hright := hcode.right
  rw [← h₂.pc_eq, ← h₂.length] at hright
  refine (hcalls A scope func values vm.stack oracle₂ vm₂ hlaid hfunc hmain h₂.length h₂.isI32
    h₂.matched h₂.stack_eq (h₂.matched.fetches hlaid hright) hcovered₂).mono
    fun value oracle' vm' h₃ ↦ ?_
  obtain ⟨hsteps₂, hticks₂⟩ := h₂.spent
  obtain ⟨hsteps₃, -⟩ := h₃.spent
  have hpaid := h₃.paid
  refine ⟨h₃.isI32, h₃.stack_eq, ?_, h₃.matched, h₃.frames.trans (h₂.frames.trans hframes),
    h₂.undisturbed.trans h₃.undisturbed, ?_, ?_⟩
  · rw [h₃.pc_eq, h₂.pc_eq, List.length_append]
    rfl
  · omega
  · omega

/-! ## All expressions -/

theorem evalExpr_strict {rules : Rules} {op : BinaryOp} (hand : op ≠ .and) (hor : op ≠ .or)
    (left right : Expr) (span : Span) : evalExpr rules call (.binary op left right span) = (do
      AstOracle.tick rules
      let a ← evalExpr rules call left
      let b ← evalExpr rules call right
      evalBinary op a b) := by
  cases op with
  | and => exact absurd rfl hand
  | or => exact absurd rfl hor
  | _ => rfl

theorem accessCode_singleton (hE : E.globals = S.globals) {isArray : Bool}
    (hname : Seen S A scope E isArray name) (localOp globalOp : Opcode) (sized : Bool) :
    ∃ instr, E.accessCode name localOp globalOp sized = [instr] := by
  rw [Env.accessCode]
  cases hname with
  | ofLocal hslot => exact ⟨_, by rw [hslot]⟩
  | ofGlobal hslot _ hinfo => exact ⟨_, by rw [hslot, hE, hinfo]⟩

theorem evaluates_identifier (hS : S.Ok) (hlaid : A.Laid S) (hsees : Sees S A scope Γ E) {t : Ty}
    (hname : Γ name = some (.scalar t)) (span : Span) :
    Evaluates S A scope 1 (evalExpr S.rules call (.identifier name span))
      (E.exprCode (.identifier name span)) := by
  have hseen := hsees.scalar name t hname
  obtain ⟨instr, hinstr⟩ :=
    accessCode_singleton hsees.globals hseen .loadLocal .loadGlobal false
  rw [show E.exprCode (.identifier name span) = fun _ ↦ [instr] from funext fun _ ↦ hinstr]
  exact .ofPush hS fun oracle vm hm hpace hcode ↦
    sim_readScalar hlaid hS hsees.globals hseen hm hpace (hinstr ▸ hcode)

theorem evaluates_arrayIndex (hS : S.Ok) (hlaid : A.Laid S) (hsees : Sees S A scope Γ E) {t : Ty}
    (hname : Γ name = some (.array t)) {index : Expr}
    (hindex : Evaluates S A scope index.nodes (evalExpr S.rules call index) (E.exprCode index))
    (span : Span) : Evaluates S A scope (index.nodes + 1)
      (evalExpr S.rules call (.arrayIndex name index span))
      (E.exprCode (.arrayIndex name index span)) := by
  have hseen := hsees.array name t hname
  obtain ⟨instr, hinstr⟩ :=
    accessCode_singleton hsees.globals hseen .localArrayLoad .arrayLoad true
  have hcode : E.exprCode (.arrayIndex name index span) =
      fun base ↦ E.exprCode index base ++ [instr] := funext fun base ↦ by rw [Env.exprCode, hinstr]
  rw [hcode]
  refine Evaluates.unary hS hindex (f := fun value ↦ do readArray name (← checkedArrayIndex value))
    fun value stack oracle vm hm hpace hstack _ hcode ↦ ?_
  exact sim_readArray hlaid hS hsees.globals hseen hm hpace hstack (hinstr ▸ hcode)

theorem evaluates_binary (hS : S.Ok) (hlaid : A.Laid S) {op : BinaryOp} {left right : Expr}
    (hleft : Evaluates S A scope left.nodes (evalExpr S.rules call left) (E.exprCode left))
    (hright : Evaluates S A scope right.nodes (evalExpr S.rules call right) (E.exprCode right))
    (span : Span) : Evaluates S A scope (left.nodes + right.nodes + 1)
      (evalExpr S.rules call (.binary op left right span))
      (E.exprCode (.binary op left right span)) := by
  by_cases hand : op = .and
  · subst hand
    refine Evaluates.shortCircuit (P := fun value ↦ value = 0) (c := 0) hlaid hS hleft
      hright fun vm target value stack hfetch hstack ↦ ?_
    exact step_jumpIfFalse hfetch hstack
  by_cases hor : op = .or
  · subst hor
    refine Evaluates.shortCircuit (P := fun value ↦ value ≠ 0) (c := 1) hlaid hS hleft
      hright fun vm target value stack hfetch hstack ↦ ?_
    rw [ite_not]
    exact step_jumpIfTrue hfetch hstack
  rw [evalExpr_strict hand hor, show E.exprCode (.binary op left right span) = _ from
    funext (Env.exprCode_strict hand hor left right span)]
  exact .binary hS hleft hright fun a b stack oracle vm hm hpace hstack ha hcode ↦
    sim_evalBinary hlaid hand hor hm hpace hstack ha hcode

theorem evaluates_call (hlaid : A.Laid S) (hcalls : CallsOk S call) (hsees : Sees S A scope Γ E)
    {params : List Ty} (hname : Γ name = some (.function params))
    (hmain : name ≠ "main") {args : List Expr}
    (hargs : EvaluatesArgs S A scope args.length (nodesArgs args) (evalArgs S.rules call args)
      (E.argsCode args)) (hcount : args.length = params.length) (span : Span) :
    Evaluates S A scope (nodesArgs args + 2) (evalExpr S.rules call (.call name args span))
      (E.exprCode (.call name args span)) := by
  obtain ⟨func, hfunc, rfl, hparams⟩ := hsees.function name params hname
  have hlength : args.length = func.params.length := hcount.trans hparams.symm
  have hcode : E.exprCode (.call func.name args span) =
      fun base ↦ E.argsCode args base ++ [S.callOf func.name func.params.length] := by
    funext base
    rw [Env.exprCode, Setting.callOf, hsees.ids, hlength]
  rw [hcode]
  rw [hlength] at hargs
  exact .ofCall hlaid hcalls hfunc hmain hargs

mutual

/-- **The code of an expression does what the oracle does.** -/
theorem evaluates_expr (hS : S.Ok) (hlaid : A.Laid S) (hcalls : CallsOk S call)
    (hsees : Sees S A scope Γ E) : (e : Expr) → {t : Ty} → HasType Γ e t → "main" ∉ e.callees →
    Evaluates S A scope e.nodes (evalExpr S.rules call e) (E.exprCode e)
  | .intLiteral value _, _, _, _ => .ofPush hS fun _ vm hm hpace hcode ↦
    .push rfl (isI32_toInt value) (puts_loadConst (hm.fetches hlaid hcode)).advances (hm.cycles_lt hpace)
  | .boolLiteral value _, _, _, _ => .ofPush hS fun _ vm hm hpace hcode ↦
    .push rfl (isI32_flag _) (by
      have hadvances := (puts_loadConst (hm.fetches hlaid hcode)).advances
      rw [show (if value then (1 : Int32) else 0).toInt = flag (value = true) by
        cases value <;> rfl] at hadvances
      exact hadvances) (hm.cycles_lt hpace)
  | .identifier name span, _, htype, _ => by
    cases htype with
    | identifier hname => exact evaluates_identifier hS hlaid hsees hname span
  | .binary op left right span, _, htype, hmain => by
    rw [Expr.callees, List.mem_append, not_or] at hmain
    cases htype with
    | binary hl hr =>
      exact evaluates_binary hS hlaid (evaluates_expr hS hlaid hcalls hsees left hl hmain.1)
        (evaluates_expr hS hlaid hcalls hsees right hr hmain.2) span
  | .unary op operand _, _, htype, hmain => by
    cases htype with
    | unary ht =>
      exact .unary hS (evaluates_expr hS hlaid hcalls hsees operand ht hmain)
        fun value stack oracle vm hm hpace hstack hvalue hcode ↦
          sim_evalUnary hlaid op hm hpace hstack hvalue hcode
  | .call name args span, _, htype, hmain => by
    rw [Expr.callees, List.mem_cons, not_or] at hmain
    cases htype with
    | call hname hargs =>
      obtain ⟨hcount, hargs⟩ := evaluates_args hS hlaid hcalls hsees args hargs hmain.2
      exact evaluates_call hlaid hcalls hsees hname (Ne.symm hmain.1) hargs hcount span
  | .arrayIndex name index span, _, htype, hmain => by
    cases htype with
    | arrayIndex hname hindex =>
      exact evaluates_arrayIndex hS hlaid hsees hname
        (evaluates_expr hS hlaid hcalls hsees index hindex hmain) span
termination_by structural e => e

theorem evaluates_args (hS : S.Ok) (hlaid : A.Laid S) (hcalls : CallsOk S call)
    (hsees : Sees S A scope Γ E) : (args : List Expr) → {ts : List Ty} → HaveTypes Γ args ts →
    "main" ∉ calleesArgs args → args.length = ts.length ∧
      EvaluatesArgs S A scope args.length (nodesArgs args) (evalArgs S.rules call args)
        (E.argsCode args)
  | [], _, htypes, _ => by
    cases htypes with
    | nil => exact ⟨rfl, .nil⟩
  | arg :: args, _, htypes, hmain => by
    rw [calleesArgs, List.mem_append, not_or] at hmain
    cases htypes with
    | cons htype htypes =>
      obtain ⟨hcount, hargs⟩ := evaluates_args hS hlaid hcalls hsees args htypes hmain.2
      exact ⟨congrArg Nat.succ hcount,
        .cons (evaluates_expr hS hlaid hcalls hsees arg htype hmain.1) hargs⟩
termination_by structural args => args

end

end AstOracle

end MiniLang
