import MiniLang.Machine.Retuned
import MiniLang.Oracle.Expressions

/-!
# The code of one expression

The code of an expression without calls, at any address of any program and in any state of the
machine that corresponds to the oracle's: the run stays within the code until it has put the value
of the oracle on the operand stack, and it changes nothing else; where the oracle traps, the run
traps with the same code. The operand stack or the limit of cycles may also end it.

## Why not the simulation of programs

There the program is a compiled one and the machine has no limit. Here the code stands in the middle
of arbitrary instructions, and the statement is about where the run is while it executes them:
`StaysIn` keeps each address within the range of the code, so that nothing outside of it can matter.
The limit of cycles and the trace are those of the machine as it is; each step is that of the
machine without limit, unless the cycles run out at it.

## States

`Mirrors` asks for a cell with the value of each visible scalar and for cells with the values of
each visible array, local or global, at the operand that the compiler's table gives for the name.
Nothing is said about other names, and none of it changes while an expression without calls is
evaluated. Evaluation takes ticks, which the limit of the oracle may end; there the run of the
machine is not restricted.
-/

namespace MiniLang

open Compiler

namespace Vm

variable {program : CompiledProgram} {lo hi : Nat} {vm vm' vm'' : Vm} {code : TrapCode}
  {value : Int} {stack : List Int} {pc : Nat}

/-! ## Runs within a range of addresses -/

/-- The machine gets from `vm` to `vm'` by instructions at addresses from `lo` on, below `hi`. -/
inductive StaysIn (program : CompiledProgram) (lo hi : Nat) : Vm → Vm → Prop
  | refl (vm : Vm) : StaysIn program lo hi vm vm
  | head {vm vm' vm'' : Vm} (hlo : lo ≤ vm.pc) (hhi : vm.pc < hi)
      (hstep : step program vm = .inl vm') (h : StaysIn program lo hi vm' vm'') :
      StaysIn program lo hi vm vm''

theorem StaysIn.trans (h : StaysIn program lo hi vm vm') (h' : StaysIn program lo hi vm' vm'') :
    StaysIn program lo hi vm vm'' := by
  induction h with
  | refl => exact h'
  | head hlo hhi hstep _ ih => exact .head hlo hhi hstep (ih h')

/-- The run from `vm` on traps at an address of the range. -/
def TrapsIn (program : CompiledProgram) (lo hi : Nat) (vm : Vm) (code : TrapCode) : Prop :=
  ∃ (vm' : Vm) (result : VmResult) (final : Vm), StaysIn program lo hi vm vm' ∧
    lo ≤ vm'.pc ∧ vm'.pc < hi ∧ step program vm' = .inr (.result result, final) ∧
    result.success = false ∧ result.trapCode = code

theorem TrapsIn.of_staysIn (h : StaysIn program lo hi vm vm')
    (h' : TrapsIn program lo hi vm' code) : TrapsIn program lo hi vm code := by
  obtain ⟨vm'', result, final, hstays, hend⟩ := h'
  exact ⟨vm'', result, final, h.trans hstays, hend⟩

/-- The operand stack or the cycles run out within the range. -/
def RunsOut (program : CompiledProgram) (lo hi : Nat) (vm : Vm) : Prop :=
  TrapsIn program lo hi vm .stackOverflow ∨ TrapsIn program lo hi vm .cycleLimit

theorem RunsOut.of_staysIn (h : StaysIn program lo hi vm vm') (h' : RunsOut program lo hi vm') :
    RunsOut program lo hi vm :=
  h'.imp (TrapsIn.of_staysIn h) (TrapsIn.of_staysIn h)

/-- Nothing but the operand stack, the address, the cycles and the trace has changed. -/
structure Moved (vm : Vm) (stack : List Int) (pc : Nat) (vm' : Vm) : Prop where
  stack_eq : vm'.stack = stack
  pc_eq : vm'.pc = pc
  locals_eq : vm'.locals = vm.locals
  globals_eq : vm'.globals = vm.globals
  callStack_eq : vm'.callStack = vm.callStack
  output_eq : vm'.output = vm.output

theorem Moved.trans {stack' : List Int} {pc' : Nat} (h : Moved vm stack pc vm')
    (h' : Moved vm' stack' pc' vm'') : Moved vm stack' pc' vm'' :=
  ⟨h'.stack_eq, h'.pc_eq, h'.locals_eq.trans h.locals_eq, h'.globals_eq.trans h.globals_eq,
    h'.callStack_eq.trans h.callStack_eq, h'.output_eq.trans h.output_eq⟩

/-! ### From the machine without limit -/

theorem fetches_limited {instr : Instruction} (hframes : vm.callStack ≠ [])
    (hfetch : program.instructions[vm.pc]? = some instr) :
    Fetches program (limited 0 vm) instr := ⟨⟨rfl, rfl⟩, hframes, hfetch⟩

theorem step_of_limited (hlo : lo ≤ vm.pc) (hhi : vm.pc < hi) :
    RunsOut program lo hi vm ∨ step program (limited 0 vm) = limitedStep 0 (step program vm) := by
  by_cases hlimit : AtLimit vm
  · exact .inl (.inr ⟨vm, _, _, .refl vm, hlo, hhi, if_pos hlimit, rfl, rfl⟩)
  · exact .inr (step_limited hlimit fun h ↦ Nat.lt_irrefl 0 h.1)

/-- A step that the machine without limit takes. -/
theorem next_of_limited (hlo : lo ≤ vm.pc) (hhi : vm.pc < hi)
    (h : step program (limited 0 vm) =
      .inl { limited 0 vm with stack := stack, pc := pc, cycles := vm.cycles + 1 }) :
    RunsOut program lo hi vm ∨ ∃ vm', StaysIn program lo hi vm vm' ∧ Moved vm stack pc vm' := by
  refine (step_of_limited hlo hhi).imp_right fun hstep ↦ ?_
  rw [h] at hstep
  cases hreal : step program vm with
  | inl vm' =>
    rw [hreal] at hstep
    have hmoved : Moved (limited 0 vm) stack pc (limited 0 vm') := by
      rw [← Sum.inl.inj hstep]
      exact ⟨rfl, rfl, rfl, rfl, rfl, rfl⟩
    obtain ⟨hstack, hpc, hlocals, hglobals, hframes, houtput⟩ := hmoved
    exact ⟨vm', .head hlo hhi hreal (.refl vm'), hstack, hpc, hlocals, hglobals, hframes, houtput⟩
  | inr halted =>
    rw [hreal] at hstep
    cases hstep

/-- A trap of the machine without limit. -/
theorem traps_of_limited {result : VmResult} {final : Vm} (hlo : lo ≤ vm.pc) (hhi : vm.pc < hi)
    (h : step program (limited 0 vm) = .inr (.result result, final))
    (hsuccess : result.success = false) (hcode : result.trapCode = code) :
    RunsOut program lo hi vm ∨ TrapsIn program lo hi vm code := by
  refine (step_of_limited hlo hhi).imp_right fun hstep ↦ ?_
  rw [h] at hstep
  cases hreal : step program vm with
  | inl vm' =>
    rw [hreal] at hstep
    cases hstep
  | inr halted =>
    obtain ⟨halt, final'⟩ := halted
    rw [hreal] at hstep
    obtain ⟨rfl, rfl⟩ := Prod.mk.inj (Sum.inr.inj hstep)
    exact ⟨vm, result, final', .refl vm, hlo, hhi, hreal, hsuccess, hcode⟩

theorem Puts.staysIn (hlo : lo ≤ vm.pc) (hhi : vm.pc < hi)
    (h : Puts program (limited 0 vm) value stack) : RunsOut program lo hi vm ∨
      ∃ vm', StaysIn program lo hi vm vm' ∧ Moved vm (value :: stack) (vm.pc + 1) vm' := by
  by_cases hroom : stack.length < maxOperandStack
  · exact next_of_limited hlo hhi (h.step hroom)
  · obtain ⟨instr, hfetch, hexec⟩ := h
    rw [EStateM.run_bind, run_push_overflow (Nat.not_lt.mp hroom)] at hexec
    have hstep := step_eq hfetch
    rw [hexec] at hstep
    have htraps : RunsOut program lo hi vm ∨ TrapsIn program lo hi vm .stackOverflow :=
      traps_of_limited hlo hhi hstep rfl rfl
    exact .inl (htraps.elim id .inl)

theorem Fails.staysIn (hlo : lo ≤ vm.pc) (hhi : vm.pc < hi) (h : Fails program (limited 0 vm) code) :
    RunsOut program lo hi vm ∨ TrapsIn program lo hi vm code := by
  obtain ⟨instr, message, after, hfetch, hexec, -, -⟩ := h
  have hstep := step_eq hfetch
  rw [hexec] at hstep
  exact traps_of_limited hlo hhi hstep rfl rfl

end Vm

namespace AstOracle

open Vm

variable {program : CompiledProgram} {lo hi : Nat} {α β : Type} {x : OracleM α}
  {f : α → OracleM β} {Q Q' : α → AstOracle → Vm → Prop} {R : β → AstOracle → Vm → Prop}
  {oracle oracle' : AstOracle} {vm vm' : Vm} {rules : Rules} {E : Env} {Γ : Names} {name : String}

/-! ## Following the oracle -/

/-- What a run within the range does, given how the computation of the oracle ended. -/
def FollowsTo (program : CompiledProgram) (lo hi : Nat) (Q : α → AstOracle → Vm → Prop) (vm : Vm) :
    EStateM.Result Stop AstOracle α → Prop
  | .ok a oracle => ∃ vm', StaysIn program lo hi vm vm' ∧ Q a oracle vm'
  | .error (.trap code _) _ => code = .cycleLimit ∨ TrapsIn program lo hi vm code
  | .error .panic _ => False
  | .error .refused _ => False
  | .error .outOfFuel _ => False

/-- The run from `vm` on does what the computation `x` does, if nothing runs out. -/
def Follows (program : CompiledProgram) (lo hi : Nat) (x : OracleM α)
    (Q : α → AstOracle → Vm → Prop) (oracle : AstOracle) (vm : Vm) : Prop :=
  RunsOut program lo hi vm ∨ FollowsTo program lo hi Q vm (x.run oracle)

namespace Follows

theorem of_staysIn (h : StaysIn program lo hi vm vm') (hx : Follows program lo hi x Q oracle vm') :
    Follows program lo hi x Q oracle vm := by
  refine hx.imp (RunsOut.of_staysIn h) fun hto ↦ ?_
  cases hr : x.run oracle with
  | ok a oracle' =>
    rw [hr] at hto
    obtain ⟨vm'', hstays, hQ⟩ := hto
    exact ⟨vm'', h.trans hstays, hQ⟩
  | error e oracle' =>
    rw [hr] at hto
    cases e with
    | trap code message => exact hto.imp_right (TrapsIn.of_staysIn h)
    | panic => exact hto
    | refused => exact hto
    | outOfFuel => exact hto

theorem pure {a : α} (h : Q a oracle vm) : Follows program lo hi (Pure.pure a) Q oracle vm :=
  .inr ⟨vm, .refl vm, h⟩

theorem bind (hx : Follows program lo hi x Q oracle vm)
    (hf : ∀ a oracle' vm', Q a oracle' vm' → Follows program lo hi (f a) R oracle' vm') :
    Follows program lo hi (x >>= f) R oracle vm := by
  rcases hx with hx | hx
  · exact .inl hx
  rw [Follows, EStateM.run_bind]
  cases hr : x.run oracle with
  | ok a oracle' =>
    rw [hr] at hx
    obtain ⟨vm', hstays, hQ⟩ := hx
    exact (hf a oracle' vm' hQ).of_staysIn hstays
  | error e oracle' =>
    rw [hr] at hx
    exact .inr (by cases e <;> exact hx)

theorem mono (hx : Follows program lo hi x Q oracle vm)
    (h : ∀ a oracle' vm', Q a oracle' vm' → Q' a oracle' vm') :
    Follows program lo hi x Q' oracle vm := by
  have hbind := hx.bind (f := Pure.pure) fun a oracle' vm' hQ ↦ .pure (h a oracle' vm' hQ)
  rwa [bind_pure] at hbind

/-- The tick of an expression. -/
theorem tick_bind {x : OracleM α}
    (h : Follows program lo hi x Q { oracle with cycles := oracle.cycles + 1 } vm) :
    Follows program lo hi (do AstOracle.tick rules; x) Q oracle vm := by
  by_cases hlimit : oracle.cycles + 1 > rules.maxCycles
  · refine .inr ?_
    have hrun : (do AstOracle.tick rules; x).run oracle =
        .error (.trap .cycleLimit s!"Cycle limit exceeded ({rules.maxCycles})")
          { oracle with cycles := oracle.cycles + 1 } := by
      rw [EStateM.run_bind, AstOracle.tick, EStateM.run_bind, EStateM.run_modify]
      dsimp only
      rw [EStateM.run_bind, EStateM.run_get]
      dsimp only
      rw [if_pos hlimit]
      rfl
    rw [hrun]
    exact .inl rfl
  · have hrun : (do AstOracle.tick rules; x).run oracle =
        x.run { oracle with cycles := oracle.cycles + 1 } := by
      rw [EStateM.run_bind, AstOracle.tick, EStateM.run_bind, EStateM.run_modify]
      dsimp only
      rw [EStateM.run_bind, EStateM.run_get]
      dsimp only
      rw [if_neg hlimit]
      rfl
    rw [Follows, hrun]
    exact h

/-- Steps that the computation does not notice. -/
theorem skip {P : Vm → Prop}
    (h : RunsOut program lo hi vm ∨ ∃ vm', StaysIn program lo hi vm vm' ∧ P vm')
    (hx : ∀ vm', P vm' → Follows program lo hi x Q oracle vm') :
    Follows program lo hi x Q oracle vm := by
  rcases h with hout | ⟨vm', hstays, hP⟩
  · exact .inl hout
  · exact (hx vm' hP).of_staysIn hstays

theorem fails {code : TrapCode} {message : String}
    (hx : x.run oracle = .error (.trap code message) oracle')
    (h : RunsOut program lo hi vm ∨ TrapsIn program lo hi vm code) :
    Follows program lo hi x Q oracle vm := by
  refine h.imp_right fun htraps ↦ ?_
  rw [hx]
  exact .inr htraps

end Follows

/-! ## Corresponding states -/

/-- The oracle's slot of a scalar name and the machine's cell for it hold the same value. -/
inductive ScalarMirrors (program : CompiledProgram) (E : Env) (oracle : AstOracle) (vm : Vm)
    (name : String) : Prop
  | ofLocal {loc : LocalVar} {base count : Nat} {value : Option Int}
    (hslot : E.locals.lookup name = some loc)
    (hcurrent : Current program vm.callStack base count) (hlt : loc.slot < count)
    (hvalue : oracle.lookupSlot name = some (.scalar value)) (hi32 : ∀ v ∈ value, IsI32 v)
    (hcell : vm.locals[base + loc.slot]? = some (value.getD i64Min))
  | ofGlobal {info : GlobalInfo} {value : Int} (hslot : E.locals.lookup name = none)
    (hinfo : E.globals.lookup name = some info) (hlt : info.slot < maxGlobalSlots)
    (hvalue : oracle.lookupSlot name = some (.scalar (some value))) (hi32 : IsI32 value)
    (hcell : vm.globals[info.slot]? = some value)

/-- The oracle's array and the machine's cells for it hold the same values. -/
inductive ArrayMirrors (program : CompiledProgram) (E : Env) (oracle : AstOracle) (vm : Vm)
    (name : String) : Prop
  | ofLocal {loc : LocalVar} {base count : Nat} {values : List Int} {first : Nat}
    (hslot : E.locals.lookup name = some loc) (hsize : values.length = loc.arraySize)
    (hcurrent : Current program vm.callStack base count) (hlt : loc.slot < count)
    (harray : LocalArray vm.locals (base + loc.slot) loc.arraySize first)
    (hvalue : oracle.lookupSlot name = some (.array values)) (hi32 : ∀ v ∈ values, IsI32 v)
    (hregion : Region vm.locals first values)
  | ofGlobal {info : GlobalInfo} {values : List Int} (hslot : E.locals.lookup name = none)
    (hinfo : E.globals.lookup name = some info) (hsize : values.length = info.arraySize)
    (harray : GlobalArray vm.globals info.slot info.arraySize)
    (hvalue : oracle.lookupSlot name = some (.array values)) (hi32 : ∀ v ∈ values, IsI32 v)
    (hregion : Region vm.globals info.slot values)

/-- The locals, arrays and globals of the machine correspond to the oracle's, for the visible names
`Γ` and the compiler's slots `E`. -/
structure Mirrors (program : CompiledProgram) (E : Env) (Γ : Names) (oracle : AstOracle) (vm : Vm) :
    Prop where
  frames : vm.callStack ≠ []
  globals : vm.globals.length = maxGlobalSlots
  locals : vm.locals.length ≤ usizeMax
  scalar : ∀ name t, Γ name = some (.scalar t) → ScalarMirrors program E oracle vm name
  array : ∀ name t, Γ name = some (.array t) → ArrayMirrors program E oracle vm name

theorem ScalarMirrors.accessCode (h : ScalarMirrors program E oracle vm name)
    (localOp globalOp : Opcode) (sized : Bool) :
    ∃ instr, E.accessCode name localOp globalOp sized = [instr] := by
  rw [Env.accessCode]
  cases h with
  | ofLocal hslot => exact ⟨_, by rw [hslot]⟩
  | ofGlobal hslot hinfo => exact ⟨_, by rw [hslot, hinfo]⟩

theorem ArrayMirrors.accessCode (h : ArrayMirrors program E oracle vm name)
    (localOp globalOp : Opcode) (sized : Bool) :
    ∃ instr, E.accessCode name localOp globalOp sized = [instr] := by
  rw [Env.accessCode]
  cases h with
  | ofLocal hslot => exact ⟨_, by rw [hslot]⟩
  | ofGlobal hslot hinfo => exact ⟨_, by rw [hslot, hinfo]⟩

/-- What is the same in the states before and after an expression. -/
structure Unchanged (oracle : AstOracle) (vm : Vm) (oracle' : AstOracle) (vm' : Vm) : Prop where
  lookup : ∀ name, oracle'.lookupSlot name = oracle.lookupSlot name
  locals : vm'.locals = vm.locals
  globals : vm'.globals = vm.globals
  callStack : vm'.callStack = vm.callStack

theorem ScalarMirrors.congr (h : ScalarMirrors program E oracle vm name)
    (hsame : Unchanged oracle vm oracle' vm') : ScalarMirrors program E oracle' vm' name := by
  obtain ⟨hlookup, hlocals, hglobals, hframes⟩ := hsame
  cases h with
  | ofLocal hslot hcurrent hlt hvalue hi32 hcell =>
    exact .ofLocal hslot (hframes ▸ hcurrent) hlt ((hlookup name).trans hvalue) hi32
      (hlocals ▸ hcell)
  | ofGlobal hslot hinfo hlt hvalue hi32 hcell =>
    exact .ofGlobal hslot hinfo hlt ((hlookup name).trans hvalue) hi32 (hglobals ▸ hcell)

theorem ArrayMirrors.congr (h : ArrayMirrors program E oracle vm name)
    (hsame : Unchanged oracle vm oracle' vm') : ArrayMirrors program E oracle' vm' name := by
  obtain ⟨hlookup, hlocals, hglobals, hframes⟩ := hsame
  cases h with
  | ofLocal hslot hsize hcurrent hlt harray hvalue hi32 hregion =>
    exact .ofLocal hslot hsize (hframes ▸ hcurrent) hlt (hlocals ▸ harray)
      ((hlookup name).trans hvalue) hi32 (hlocals ▸ hregion)
  | ofGlobal hslot hinfo hsize harray hvalue hi32 hregion =>
    exact .ofGlobal hslot hinfo hsize (hglobals ▸ harray) ((hlookup name).trans hvalue) hi32
      (hglobals ▸ hregion)

theorem Mirrors.congr (h : Mirrors program E Γ oracle vm)
    (hsame : Unchanged oracle vm oracle' vm') : Mirrors program E Γ oracle' vm' where
  frames := hsame.callStack ▸ h.frames
  globals := hsame.globals ▸ h.globals
  locals := hsame.locals ▸ h.locals
  scalar name t hname := (h.scalar name t hname).congr hsame
  array name t hname := (h.array name t hname).congr hsame

/-! ## Expressions -/

/-- The run has put the value on the operand stack, and the oracle has used ticks. -/
structure Leaves (oracle : AstOracle) (vm : Vm) (stack : List Int) (pc : Nat) (value : Int)
    (oracle' : AstOracle) (vm' : Vm) : Prop where
  isI32 : IsI32 value
  oracle_eq : oracle' = { oracle with cycles := oracle'.cycles }
  moved : Moved vm (value :: stack) pc vm'

variable {stack : List Int} {pc : Nat} {value a b : Int}

theorem Leaves.unchanged (h : Leaves oracle vm stack pc value oracle' vm') :
    Unchanged oracle vm oracle' vm' := by
  obtain ⟨-, horacle, hmoved⟩ := h
  exact ⟨fun name ↦ by rw [horacle]; rfl, hmoved.locals_eq, hmoved.globals_eq, hmoved.callStack_eq⟩

/-- The code, within the range, computes what `x` computes. -/
def Computes (program : CompiledProgram) (lo hi : Nat) (E : Env) (Γ : Names) (x : OracleM Int)
    (code : Nat → List Instruction) : Prop :=
  ∀ oracle vm, Mirrors program E Γ oracle vm → lo ≤ vm.pc → vm.pc + (code vm.pc).length ≤ hi →
    PlacedAt program.instructions vm.pc (code vm.pc) →
    Follows program lo hi x (Leaves oracle vm vm.stack (vm.pc + (code vm.pc).length)) oracle vm

/-- An instruction that pushes what the oracle has computed. -/
theorem Follows.push {x : OracleM Int} (hx : x.run oracle = .ok value oracle)
    (hvalue : IsI32 value)
    (h : RunsOut program lo hi vm ∨
      ∃ vm', StaysIn program lo hi vm vm' ∧ Moved vm (value :: stack) (vm.pc + 1) vm') :
    Follows program lo hi x (Leaves oracle vm stack (vm.pc + 1)) oracle vm := by
  refine h.imp_right ?_
  rintro ⟨vm', hstays, hmoved⟩
  rw [hx]
  exact ⟨vm', hstays, hvalue, rfl, hmoved⟩

theorem follows_readScalar (hname : ScalarMirrors program E oracle vm name)
    (hm : Mirrors program E Γ oracle vm) (hlo : lo ≤ vm.pc) (hhi : vm.pc < hi)
    (hcode : PlacedAt program.instructions vm.pc
      (E.accessCode name .loadLocal .loadGlobal false)) :
    Follows program lo hi (readScalar name) (Leaves oracle vm vm.stack (vm.pc + 1)) oracle vm := by
  rw [Env.accessCode] at hcode
  cases hname with
  | @ofLocal loc base count value hslot hcurrent hlt hvalue hi32 hcell =>
    rw [hslot] at hcode
    have hfetch := fetches_limited hm.frames hcode.head
    cases value with
    | some value =>
      refine .push ?_ (hi32 value rfl) (Puts.staysIn hlo hhi
        (puts_loadLocal hfetch hcurrent hlt hcell (hi32 value rfl).ne_i64Min))
      rw [readScalar, run_get_bind, hvalue]
      rfl
    | none =>
      have herror : (readScalar name).run oracle =
          .error (.trap .undefinedLocal s!"Undefined local {name}") oracle := by
        rw [readScalar, run_get_bind, hvalue]
        rfl
      exact .fails herror (Fails.staysIn hlo hhi (fails_loadLocal hfetch hcurrent hlt hcell))
  | @ofGlobal info value hslot hinfo hlt hvalue hi32 hcell =>
    rw [hslot, hinfo] at hcode
    have hfetch := fetches_limited hm.frames hcode.head
    refine .push ?_ hi32 (Puts.staysIn hlo hhi (puts_loadGlobal hfetch hm.globals hlt hcell))
    rw [readScalar, run_get_bind, hvalue]
    rfl

theorem run_readElement {values : List Int} {index : Int}
    (hlookup : oracle.lookupSlot name = some (.array values))
    (hindex : InBounds index values.length) (hvalue : values[index.toNat]? = some value) :
    (do readArray name (← checkedArrayIndex index)).run oracle = .ok value oracle := by
  rw [checkedArrayIndex, if_neg (Int.not_lt.mpr hindex.nonneg), EStateM.run_bind, EStateM.run_pure]
  exact run_readArray hlookup hvalue

theorem follows_readElement (hname : ArrayMirrors program E oracle vm name)
    (hm : Mirrors program E Γ oracle vm) (hlo : lo ≤ vm.pc) (hhi : vm.pc < hi) {index : Int}
    (hstack : vm.stack = index :: stack)
    (hcode : PlacedAt program.instructions vm.pc
      (E.accessCode name .localArrayLoad .arrayLoad true)) :
    Follows program lo hi (do readArray name (← checkedArrayIndex index))
      (Leaves oracle vm stack (vm.pc + 1)) oracle vm := by
  rw [Env.accessCode] at hcode
  cases hname with
  | @ofLocal loc base count values first hslot hsize hcurrent hlt harray hlookup hi32 hregion =>
    rw [hslot] at hcode
    have hfetch := fetches_limited hm.frames hcode.head
    rw [if_pos rfl] at hfetch
    by_cases hindex : InBounds index values.length
    · obtain ⟨value, hmem, hvalue⟩ := getElem?_of_inBounds hindex
      exact .push (run_readElement hlookup hindex hvalue) (hi32 value hmem) (Puts.staysIn hlo hhi
        (puts_localArrayLoad hfetch hstack hcurrent hlt harray (hsize ▸ hindex)
          (hregion _ _ hvalue) (harray.le.trans hm.locals)))
    · obtain ⟨message, herror⟩ := run_readArray_error hlookup hindex
      exact .fails herror (Fails.staysIn hlo hhi
        (fails_localArrayLoad hfetch hstack harray.size_lt (hsize ▸ hindex)))
  | @ofGlobal info values hslot hinfo hsize harray hlookup hi32 hregion =>
    rw [hslot, hinfo] at hcode
    have hfetch := fetches_limited hm.frames hcode.head
    rw [if_pos rfl] at hfetch
    by_cases hindex : InBounds index values.length
    · obtain ⟨value, hmem, hvalue⟩ := getElem?_of_inBounds hindex
      exact .push (run_readElement hlookup hindex hvalue) (hi32 value hmem) (Puts.staysIn hlo hhi
        (puts_arrayLoad hfetch hstack harray (hsize ▸ hindex) (hregion _ _ hvalue)))
    · obtain ⟨message, herror⟩ := run_readArray_error hlookup hindex
      exact .fails herror (Fails.staysIn hlo hhi
        (fails_arrayLoad hfetch hstack harray (hsize ▸ hindex)))

theorem follows_evalBinary {op : BinaryOp} (hand : op ≠ .and) (hor : op ≠ .or) (hlo : lo ≤ vm.pc)
    (hhi : vm.pc < hi) (hstack : vm.stack = b :: a :: stack) (ha : IsI32 a)
    (hfetch : Fetches program (limited 0 vm) (.simple (binaryOpcode op))) :
    Follows program lo hi (evalBinary op a b) (Leaves oracle vm stack (vm.pc + 1)) oracle vm := by
  have hbinary {f : Int → Int → Int} (hrun : (evalBinary op a b).run oracle = .ok (f a b) oracle)
      (hvalue : IsI32 (f a b)) (hexec : executeInstruction program (binaryOpcode op) 0 0 = binary f) :
      Follows program lo hi (evalBinary op a b) (Leaves oracle vm stack (vm.pc + 1)) oracle vm :=
    .push hrun hvalue (Puts.staysIn hlo hhi (puts_binary hfetch hstack hexec))
  cases op with
  | add => exact hbinary rfl (isI32_normalizeI32 _) rfl
  | sub => exact hbinary rfl (isI32_normalizeI32 _) rfl
  | mul => exact hbinary rfl (isI32_normalizeI32 _) rfl
  | div =>
    by_cases hb : b = 0
    · subst hb
      exact .fails rfl (Fails.staysIn hlo hhi (fails_div hfetch hstack))
    · refine .push ?_ (isI32_normalizeI32 _)
        (Puts.staysIn hlo hhi (puts_div hfetch hstack hb ha.ne_i64Min))
      rw [evalBinary, if_neg hb, if_neg fun h ↦ ha.ne_i64Min h.1]
      rfl
  | eq => exact hbinary rfl (isI32_flag _) rfl
  | ne => exact hbinary rfl (isI32_flag _) rfl
  | lt => exact hbinary rfl (isI32_flag _) rfl
  | gt => exact hbinary rfl (isI32_flag _) rfl
  | le => exact hbinary rfl (isI32_flag _) rfl
  | ge => exact hbinary rfl (isI32_flag _) rfl
  | and => exact absurd rfl hand
  | or => exact absurd rfl hor

theorem follows_evalUnary (op : UnaryOp) (hlo : lo ≤ vm.pc) (hhi : vm.pc < hi)
    (hstack : vm.stack = a :: stack) (ha : IsI32 a)
    (hfetch : Fetches program (limited 0 vm) (.simple (unaryOpcode op))) :
    Follows program lo hi (evalUnary op a) (Leaves oracle vm stack (vm.pc + 1)) oracle vm := by
  cases op with
  | neg =>
    refine .push ?_ (isI32_normalizeI32 _)
      (Puts.staysIn hlo hhi (puts_neg hfetch hstack ha.ne_i64Min))
    rw [evalUnary, if_neg ha.ne_i64Min]
    rfl
  | not => exact .push rfl (isI32_flag _) (Puts.staysIn hlo hhi (puts_not hfetch hstack))

/-! ### Composition -/

namespace Computes

variable {x y : OracleM Int} {code left right : Nat → List Instruction}

/-- An expression that is a single instruction. -/
theorem ofPush {instr : Instruction}
    (h : ∀ oracle vm, Mirrors program E Γ oracle vm → lo ≤ vm.pc → vm.pc < hi →
      PlacedAt program.instructions vm.pc [instr] →
      Follows program lo hi x (Leaves oracle vm vm.stack (vm.pc + 1)) oracle vm) :
    Computes program lo hi E Γ (do AstOracle.tick rules; x) fun _ ↦ [instr] := by
  intro oracle vm hm hlo hhi hcode
  have hm₁ : Mirrors program E Γ { oracle with cycles := oracle.cycles + 1 } vm :=
    hm.congr ⟨fun _ ↦ rfl, rfl, rfl, rfl⟩
  refine .tick_bind ((h _ vm hm₁ hlo hhi hcode).mono ?_)
  rintro value oracle' vm' ⟨hvalue, horacle, hmoved⟩
  exact ⟨hvalue, horacle, hmoved⟩

/-- An operator applied to one operand. -/
theorem unary (hx : Computes program lo hi E Γ x code) {f : Int → OracleM Int} {instr : Instruction}
    (hf : ∀ value stack oracle vm, Mirrors program E Γ oracle vm → lo ≤ vm.pc → vm.pc < hi →
      vm.stack = value :: stack → IsI32 value → PlacedAt program.instructions vm.pc [instr] →
      Follows program lo hi (f value) (Leaves oracle vm stack (vm.pc + 1)) oracle vm) :
    Computes program lo hi E Γ (do AstOracle.tick rules; f (← x)) fun base ↦ code base ++ [instr] := by
  intro oracle vm hm hlo hhi hcode
  rw [List.length_append, List.length_singleton] at hhi ⊢
  have hm₁ : Mirrors program E Γ { oracle with cycles := oracle.cycles + 1 } vm :=
    hm.congr ⟨fun _ ↦ rfl, rfl, rfl, rfl⟩
  refine .tick_bind ((hx _ vm hm₁ hlo (by omega) hcode.left).bind fun value oracle₂ vm₂ h₂ ↦ ?_)
  have hlast := hcode.right
  rw [← h₂.moved.pc_eq] at hlast
  have hpc := h₂.moved.pc_eq
  refine (hf value vm.stack oracle₂ vm₂ (hm₁.congr h₂.unchanged) (by omega) (by omega)
    h₂.moved.stack_eq h₂.isI32 hlast).mono fun value' oracle' vm' h₃ ↦ ?_
  refine ⟨h₃.isI32, ?_, ?_⟩
  · rw [h₃.oracle_eq, h₂.oracle_eq]
  · have hmoved := h₂.moved.trans h₃.moved
    rw [hpc, Nat.add_assoc] at hmoved
    exact hmoved

/-- An operator applied to two operands. -/
theorem binary (hx : Computes program lo hi E Γ x left) (hy : Computes program lo hi E Γ y right)
    {f : Int → Int → OracleM Int} {instr : Instruction}
    (hf : ∀ a b stack oracle vm, Mirrors program E Γ oracle vm → lo ≤ vm.pc → vm.pc < hi →
      vm.stack = b :: a :: stack → IsI32 a → PlacedAt program.instructions vm.pc [instr] →
      Follows program lo hi (f a b) (Leaves oracle vm stack (vm.pc + 1)) oracle vm) :
    Computes program lo hi E Γ (do AstOracle.tick rules; let a ← x; let b ← y; f a b)
      fun base ↦ left base ++ right (base + (left base).length) ++ [instr] := by
  intro oracle vm hm hlo hhi hcode
  rw [List.length_append, List.length_append, List.length_singleton] at hhi ⊢
  have hm₁ : Mirrors program E Γ { oracle with cycles := oracle.cycles + 1 } vm :=
    hm.congr ⟨fun _ ↦ rfl, rfl, rfl, rfl⟩
  refine .tick_bind ((hx _ vm hm₁ hlo (by omega) hcode.left.left).bind fun a oracle₂ vm₂ h₂ ↦ ?_)
  have hpc₂ := h₂.moved.pc_eq
  have hm₂ := hm₁.congr h₂.unchanged
  have hright := hcode.left.right
  rw [← hpc₂] at hright hhi ⊢
  refine (hy oracle₂ vm₂ hm₂ (by omega) (by omega) hright).bind fun b oracle₃ vm₃ h₃ ↦ ?_
  have hpc₃ := h₃.moved.pc_eq
  have hlast := hcode.right
  rw [List.length_append, ← Nat.add_assoc, ← hpc₂, ← hpc₃] at hlast
  refine (hf a b vm.stack oracle₃ vm₃ (hm₂.congr h₃.unchanged) (by omega) (by omega)
    (by rw [h₃.moved.stack_eq, h₂.moved.stack_eq]) h₂.isI32 hlast).mono fun value' oracle' vm' h₄ ↦ ?_
  refine ⟨h₄.isI32, ?_, ?_⟩
  · rw [h₄.oracle_eq, h₃.oracle_eq, h₂.oracle_eq]
  · have hmoved := (h₂.moved.trans h₃.moved).trans h₄.moved
    rw [hpc₃] at hmoved
    rwa [← Nat.add_assoc, ← Nat.add_assoc, ← hpc₂]

/-- The code behind the right operand of `&&` and `||` compares it with zero and jumps. -/
theorem compareZero {α : Type} {x : OracleM α} {Q : α → AstOracle → Vm → Prop} {b : Int}
    {stack : List Int} {target : Nat} {rest : List Instruction} (hm : Mirrors program E Γ oracle vm)
    (hlo : lo ≤ vm.pc) (hhi : vm.pc + 2 < hi) (hstack : vm.stack = b :: stack)
    (hcode : PlacedAt program.instructions vm.pc
      (⟨.loadConst, 0, 0⟩ :: .simple .ne :: ⟨.jump, asI32 target, 0⟩ :: rest))
    (htarget : target < 2 ^ 31)
    (hx : ∀ vm', Moved vm (flag (b ≠ 0) :: stack) target vm' →
      Follows program lo hi x Q oracle vm') : Follows program lo hi x Q oracle vm := by
  refine .skip (Puts.staysIn (by omega) (by omega)
    (puts_loadConst (fetches_limited hm.frames hcode.head))) fun vm₁ hmoved₁ ↦ ?_
  have hm₁ := hm.congr ⟨fun _ ↦ rfl, hmoved₁.locals_eq, hmoved₁.globals_eq, hmoved₁.callStack_eq⟩
  have hpc₁ := hmoved₁.pc_eq
  have hne := hcode.tail
  rw [← hpc₁] at hne
  refine .skip (Puts.staysIn (by omega) (by omega)
    (puts_binary (f := fun a b ↦ flag (a ≠ b)) (fetches_limited hm₁.frames hne.head)
      (hmoved₁.stack_eq.trans (congrArg _ hstack)) rfl)) fun vm₂ hmoved₂ ↦ ?_
  have hm₂ := hm₁.congr ⟨fun _ ↦ rfl, hmoved₂.locals_eq, hmoved₂.globals_eq, hmoved₂.callStack_eq⟩
  have hpc₂ := hmoved₂.pc_eq
  have hend := hne.tail
  rw [← hpc₂] at hend
  refine .skip (next_of_limited (by omega) (by omega)
    (step_jump (fetches_limited hm₂.frames hend.head))) fun vm₃ hmoved₃ ↦ hx vm₃ ?_
  rw [asUsize_asI32 (by omega), show (limited 0 vm₂).stack = vm₂.stack from rfl,
    hmoved₂.stack_eq] at hmoved₃
  exact (hmoved₁.trans hmoved₂).trans hmoved₃

/-- `&&` and `||`: an instruction that jumps where the left operand meets `P` decides. -/
theorem shortCircuit (hsmall : program.instructions.length < 2 ^ 31)
    (hx : Computes program lo hi E Γ x left) (hy : Computes program lo hi E Γ y right) {op : Opcode}
    {c : Int32} {P : Int → Prop} [DecidablePred P]
    (hjump : ∀ vm target value stack, Fetches program vm ⟨op, target, 0⟩ →
      vm.stack = value :: stack → Vm.step program vm = .inl { vm with
        stack := stack
        pc := if P value then asUsize target else vm.pc + 1
        cycles := vm.cycles + 1 }) :
    Computes program lo hi E Γ
      (do
        AstOracle.tick rules
        let a ← x
        if P a then return c.toInt else return flag ((← y) ≠ 0))
      fun base ↦ Env.shortCircuit op c base (left base)
        (right (base + (left base).length + 1)) := by
  intro oracle vm hm hlo hhi hcode
  have hm₁ : Mirrors program E Γ { oracle with cycles := oracle.cycles + 1 } vm :=
    hm.congr ⟨fun _ ↦ rfl, rfl, rfl, rfl⟩
  rw [length_shortCircuit] at hhi ⊢
  dsimp only at hcode
  generalize hl : left vm.pc = leftCode at *
  generalize hr : right (vm.pc + leftCode.length + 1) = rightCode at *
  obtain ⟨e, he, hfits, hleft, hbranch, htail⟩ := hcode.shortCircuit hsmall
  rw [show vm.pc + (leftCode.length + rightCode.length + 5) = e + 4 by omega] at hhi ⊢
  have hx' := hx _ vm hm₁ hlo (by rw [hl]; omega) (hl ▸ hleft)
  rw [hl] at hx'
  refine .tick_bind (hx'.bind fun a oracle₂ vm₂ h₂ ↦ ?_)
  have hpc₂ := h₂.moved.pc_eq
  have hm₂ := hm₁.congr h₂.unchanged
  rw [← hpc₂] at hbranch
  -- the jump, which `P` decides
  refine .skip (next_of_limited (by omega) (by omega) (hjump (limited 0 vm₂) _ a vm.stack
    (fetches_limited hm₂.frames hbranch.head) h₂.moved.stack_eq)) fun vm₃ hmoved₃ ↦ ?_
  have hm₃ := hm₂.congr ⟨fun _ ↦ rfl, hmoved₃.locals_eq, hmoved₃.globals_eq, hmoved₃.callStack_eq⟩
  have hpc₃ := hmoved₃.pc_eq
  have hmoved := h₂.moved.trans hmoved₃
  -- the left operand decides: the constant behind the code is pushed
  by_cases hcond : P a
  · rw [if_pos hcond] at hpc₃ ⊢
    rw [asUsize_asI32 (by omega)] at hpc₃
    have hload := htail.tail.tail.tail
    rw [← hpc₃] at hload
    refine (Follows.push (x := pure c.toInt) rfl (isI32_toInt c) (Puts.staysIn (by omega) (by omega)
      (puts_loadConst (fetches_limited hm₃.frames hload.head)))).mono fun value oracle' vm' h₄ ↦ ?_
    have hmoved₄ := hmoved.trans h₄.moved
    rw [hpc₃, show (limited 0 vm₃).stack = vm₃.stack from rfl, hmoved₃.stack_eq] at hmoved₄
    refine ⟨h₄.isI32, ?_, hmoved₄⟩
    rw [h₄.oracle_eq, h₂.oracle_eq]
  -- the right operand decides, as 0 or 1
  · rw [if_neg hcond, show (limited 0 vm₂).pc = vm₂.pc from rfl] at hpc₃
    rw [if_neg hcond]
    have hright : right vm₃.pc = rightCode := by rw [hpc₃, hpc₂, hr]
    have hcode₃ := hbranch.tail
    rw [← hpc₃] at hcode₃
    have hy' := hy oracle₂ vm₃ hm₃ (by omega) (by rw [hright]; omega) (hright ▸ hcode₃)
    rw [hright, hmoved₃.stack_eq] at hy'
    refine hy'.bind fun b oracle₄ vm₄ h₄ ↦ ?_
    have hpc₄ : vm₄.pc = e := by
      rw [h₄.moved.pc_eq, hpc₃, hpc₂]
      omega
    rw [← hpc₄] at htail
    refine compareZero (hm₃.congr h₄.unchanged) (by omega) (by omega) h₄.moved.stack_eq htail
      (by omega) fun vm₅ hmoved₅ ↦ .pure ⟨isI32_flag _, ?_, ?_⟩
    · rw [h₄.oracle_eq, h₂.oracle_eq]
    · rw [hpc₄] at hmoved₅
      exact (hmoved.trans h₄.moved).trans hmoved₅

end Computes

variable {call : String → List Int → OracleM Int}

/-- **The code of an expression without calls computes its value.** -/
theorem computes_expr (hsmall : program.instructions.length < 2 ^ 31) : (e : Expr) → {t : Ty} →
    HasType Γ e t → e.callees = [] →
    Computes program lo hi E Γ (evalExpr rules call e) (E.exprCode e)
  | .intLiteral value _, _, _, _ => .ofPush fun _ _ hm hlo hhi hcode ↦
    .push rfl (isI32_toInt value)
      (Puts.staysIn hlo hhi (puts_loadConst (fetches_limited hm.frames hcode.head)))
  | .boolLiteral value _, _, _, _ => .ofPush fun _ _ hm hlo hhi hcode ↦ by
    have hvalue : (if value then (1 : Int32) else 0).toInt = flag (value = true) := by
      cases value <;> rfl
    have hputs := puts_loadConst (fetches_limited hm.frames hcode.head)
    rw [hvalue] at hputs
    exact .push rfl (isI32_flag _) (Puts.staysIn hlo hhi hputs)
  | .identifier name span, _, htype, _ => by
    cases htype with
    | identifier hname =>
      intro oracle vm hm hlo hhi hcode
      obtain ⟨instr, hinstr⟩ := (hm.scalar name _ hname).accessCode .loadLocal .loadGlobal false
      have hcomputes : Computes program lo hi E Γ (evalExpr rules call (.identifier name span))
          fun _ ↦ [instr] := .ofPush fun oracle vm hm hlo hhi hcode ↦
        follows_readScalar (hm.scalar name _ hname) hm hlo hhi (hinstr ▸ hcode)
      rw [show E.exprCode (.identifier name span) = fun _ ↦ [instr] from funext fun _ ↦ hinstr]
        at hhi hcode ⊢
      exact hcomputes oracle vm hm hlo hhi hcode
  | .binary op left right span, _, htype, hcalls => by
    rw [Expr.callees, List.append_eq_nil_iff] at hcalls
    cases htype with
    | binary hl hr =>
      have hleft := computes_expr hsmall left hl hcalls.1
      have hright := computes_expr hsmall right hr hcalls.2
      by_cases hand : op = .and
      · subst hand
        refine Computes.shortCircuit (P := fun value ↦ value = 0) (c := 0) hsmall hleft hright
          fun vm target value stack hfetch hstack ↦ ?_
        exact step_jumpIfFalse hfetch hstack
      by_cases hor : op = .or
      · subst hor
        refine Computes.shortCircuit (P := fun value ↦ value ≠ 0) (c := 1) hsmall hleft hright
          fun vm target value stack hfetch hstack ↦ ?_
        rw [ite_not]
        exact step_jumpIfTrue hfetch hstack
      -- all other operators evaluate both operands, the left one first
      rw [evalExpr_strict hand hor, show E.exprCode (.binary op left right span) = _ from
        funext (Env.exprCode_strict hand hor left right span)]
      exact .binary hleft hright fun a b stack oracle vm hm hlo hhi hstack ha hcode ↦
        follows_evalBinary hand hor hlo hhi hstack ha (fetches_limited hm.frames hcode.head)
  | .unary op operand _, _, htype, hcalls => by
    cases htype with
    | unary ht =>
      exact .unary (computes_expr hsmall operand ht hcalls)
        fun value stack oracle vm hm hlo hhi hstack hvalue hcode ↦
          follows_evalUnary op hlo hhi hstack hvalue (fetches_limited hm.frames hcode.head)
  | .call name args _, _, _, hcalls => by cases hcalls
  | .arrayIndex name index span, _, htype, hcalls => by
    cases htype with
    | arrayIndex hname hindex =>
      intro oracle vm hm hlo hhi hcode
      obtain ⟨instr, hinstr⟩ := (hm.array name _ hname).accessCode .localArrayLoad .arrayLoad true
      have hcomputes : Computes program lo hi E Γ (evalExpr rules call (.arrayIndex name index span))
          fun base ↦ E.exprCode index base ++ [instr] :=
        .unary (computes_expr hsmall index hindex hcalls)
          (f := fun value ↦ do readArray name (← checkedArrayIndex value))
          fun value stack oracle vm hm hlo hhi hstack _ hcode ↦
            follows_readElement (hm.array name _ hname) hm hlo hhi hstack (hinstr ▸ hcode)
      have hcode_eq : E.exprCode (.arrayIndex name index span) =
          fun base ↦ E.exprCode index base ++ [instr] :=
        funext fun base ↦ by rw [Env.exprCode, hinstr]
      rw [hcode_eq] at hhi hcode ⊢
      exact hcomputes oracle vm hm hlo hhi hcode
termination_by structural e => e

theorem hasType_of_accepted {a : SemanticAnalyzer} (hΓ : Γ.Simple) (ha : a.Represents Γ) {e : Expr}
    (h : ((SemanticAnalyzer.analyzeExpr e).run a).2.errors = a.errors) : ∃ t, HasType Γ e t := by
  obtain ⟨t, es, hreports, htype, -⟩ := SemanticAnalyzer.analyzeExpr_spec hΓ e ha
  rw [SemanticAnalyzer.Reports] at hreports
  rw [hreports] at h
  exact ⟨t, htype (List.append_right_eq_self.mp h)⟩

/-- **The code of an expression.** The program has the code that `compileExpr` emits, and the
machine is about to execute it in a state that corresponds to the oracle's. If neither the operand
stack nor the cycles run out, the run pushes the oracle's value and changes nothing else, or it
traps as the oracle does. -/
theorem compileExpr_computes (rules : Rules) (call : String → List Int → OracleM Int) (e : Expr)
    (c : Compiler) {a : SemanticAnalyzer} (hΓ : Γ.Simple) (ha : a.Represents Γ)
    (haccepted : ((SemanticAnalyzer.analyzeExpr e).run a).2.errors = a.errors)
    (hcalls : e.callees = [])
    (hcode : PlacedAt program.instructions c.currentPc
      ((c.compileExpr e).instructions.drop c.currentPc))
    (hsmall : program.instructions.length < 2 ^ 31) (hm : Mirrors program c.env Γ oracle vm)
    (hpc : vm.pc = c.currentPc)
    (hmachine : ¬RunsOut program c.currentPc (c.compileExpr e).currentPc vm)
    (horacle : ∀ message oracle', (evalExpr rules call e).run oracle ≠
      .error (.trap .cycleLimit message) oracle') :
    (∀ value oracle', (evalExpr rules call e).run oracle = .ok value oracle' →
      oracle' = { oracle with cycles := oracle'.cycles } ∧
      ∃ vm', StaysIn program c.currentPc (c.compileExpr e).currentPc vm vm' ∧
        Moved vm (value :: vm.stack) (c.compileExpr e).currentPc vm') ∧
    (∀ stop oracle', (evalExpr rules call e).run oracle = .error stop oracle' →
      ∃ code message, stop = .trap code message ∧
        TrapsIn program c.currentPc (c.compileExpr e).currentPc vm code) := by
  obtain ⟨t, htype⟩ := hasType_of_accepted hΓ ha haccepted
  have hend : (c.compileExpr e).currentPc =
      vm.pc + (c.env.exprCode e vm.pc).length := by
    rw [compileExpr_eq, hpc, currentPc_append]
  have hplaced : PlacedAt program.instructions vm.pc (c.env.exprCode e vm.pc) := by
    rw [compileExpr_eq, Compiler.append, currentPc, List.drop_left] at hcode
    rw [hpc]
    exact hcode
  rw [hend, ← hpc] at hmachine ⊢
  -- the code in place computes the expression, wherever the run does not use up its limits
  have hcomputes : Computes program vm.pc (vm.pc + (c.env.exprCode e vm.pc).length) c.env Γ
      (evalExpr rules call e) (c.env.exprCode e) := computes_expr hsmall e htype hcalls
  have hfollows := (hcomputes oracle vm hm le_rfl le_rfl hplaced).resolve_left hmachine
  constructor
  · intro value oracle' hrun
    rw [hrun] at hfollows
    obtain ⟨vm', hstays, -, horacle', hmoved⟩ := hfollows
    exact ⟨horacle', vm', hstays, hmoved⟩
  · intro stop oracle' hrun
    rw [hrun] at hfollows
    cases stop with
    | trap code message =>
      refine ⟨code, message, rfl, hfollows.resolve_left fun hcode ↦ ?_⟩
      rw [hcode] at hrun
      exact horacle message oracle' hrun
    | panic => exact hfollows.elim
    | refused => exact hfollows.elim
    | outOfFuel => exact hfollows.elim

/-! ### A sample expression -/

/-- The run leaves the range, or traps in it for another reason, within so many steps. -/
def fits (program : CompiledProgram) (lo hi : Nat) : Nat → Vm → Bool
  | 0, _ => false
  | fuel + 1, vm =>
    if lo ≤ vm.pc ∧ vm.pc < hi then
      match step program vm with
      | .inl vm' => fits program lo hi fuel vm'
      | .inr (.result result, _) =>
        result.trapCode ≠ .stackOverflow && result.trapCode ≠ .cycleLimit
      | .inr (.panic, _) => true
    else true

theorem not_runsOut_of_fits (fuel : Nat) (h : fits program lo hi fuel vm = true) :
    ¬RunsOut program lo hi vm := by
  have hcode {code : TrapCode} (hcode : code = .stackOverflow ∨ code = .cycleLimit) :
      ¬TrapsIn program lo hi vm code := by
    rintro ⟨vm', result, final, hstays, hlo, hhi, hend, -, hresult⟩
    induction fuel generalizing vm with
    | zero => cases h
    | succ fuel ih =>
      cases hstays with
      | refl =>
        rw [fits, if_pos ⟨hlo, hhi⟩, hend] at h
        dsimp only at h
        rw [hresult] at h
        rcases hcode with rfl | rfl <;> exact absurd h (by decide)
      | head hlo' hhi' hstep hrest =>
        rw [fits, if_pos ⟨hlo', hhi'⟩, hstep] at h
        exact ih h hrest
  rintro (h | h)
  · exact hcode (.inl rfl) h
  · exact hcode (.inr rfl) h

/-- An analyzer that knows a global `g`. -/
def globalAnalyzer : SemanticAnalyzer :=
  { SemanticAnalyzer.new with
    scope := SemanticAnalyzer.new.scope.insert ⟨"g", .int, true, false, 0, false, []⟩ }

def globalNames : Names := Names.declare (fun _ ↦ none) "g" (.scalar .int)

theorem lookup_globalAnalyzer {name : String} (h : name ≠ "g") :
    globalAnalyzer.scope.lookup name = none := by
  have hlookup : (AList.insert "g" (⟨"g", .int, true, false, 0, false, []⟩ : Symbol)
      (∅ : HashMap String Symbol)).lookup name = none := AList.lookup_insert_ne h
  rw [Scope.lookup, Scope.lookupChain]
  exact (congrArg (· <|> none) hlookup).trans rfl

theorem globalNames_of_ne {name : String} (h : name ≠ "g") : globalNames name = none := by
  rw [globalNames, Names.declare]
  exact Function.update_of_ne h _ _

theorem globalAnalyzer_represents : globalAnalyzer.Represents globalNames := by
  refine ⟨fun name ↦ ?_, fun name params ↦ ?_, fun name sym hsym ↦ ?_⟩
  · by_cases h : name = "g"
    · subst h
      rfl
    · rw [lookup_globalAnalyzer h, globalNames_of_ne h]
      rfl
  · by_cases h : name = "g"
    · subst h
      constructor <;> intro hparams <;> cases hparams
    · rw [globalNames_of_ne h]
      constructor <;> intro hparams <;> cases hparams
  · by_cases h : name = "g"
    · subst h
      obtain rfl := Option.some.inj hsym
      exact fun h ↦ absurd h.1 (by decide)
    · rw [lookup_globalAnalyzer h] at hsym
      cases hsym

theorem globalNames_cases {name : String} {entity : Entity} (h : globalNames name = some entity) :
    name = "g" ∧ entity = .scalar .int := by
  by_cases hname : name = "g"
  · subst hname
    exact ⟨rfl, (Option.some.inj h).symm⟩
  · rw [globalNames_of_ne hname] at h
    cases h

/-- The compiler that has laid out a global `g`. -/
def globalCompiler : Compiler :=
  Compiler.new.collectGlobals [⟨.int, "g", none, none, .default⟩]

/-- `g && 6 / g` -/
def sampleExpr : Expr :=
  .binary .and (.identifier "g" .default)
    (.binary .div (.intLiteral 6 .default) (.identifier "g" .default) .default) .default

def sampleCode : CompiledProgram :=
  ⟨(globalCompiler.compileExpr sampleExpr).instructions, ∅, globalCompiler.globals, 0, []⟩

/-- The oracle where `g` is 3. -/
def sampleOracle : AstOracle :=
  ⟨(∅ : HashMap String Slot).insert "g" (.scalar (some 3)), [], [], 0⟩

def sampleMachine : Vm :=
  { Vm.new with globals := 3 :: List.replicate 255 0, callStack := [⟨usizeMax, 0, 0⟩] }

theorem sample_mirrors :
    Mirrors sampleCode globalCompiler.env globalNames sampleOracle sampleMachine := by
  refine ⟨by decide, by decide +kernel, by decide +kernel, fun name t hname ↦ ?_,
    fun name t hname ↦ ?_⟩
  · obtain ⟨rfl, -⟩ := globalNames_cases hname
    exact @ScalarMirrors.ofGlobal _ _ _ _ _ ⟨"g", 0, false, 0⟩ 3 rfl rfl (by decide) rfl
      (isI32_toInt 3) rfl
  · cases (globalNames_cases hname).2

theorem compileExpr_computes_sample :
    ∃ vm', StaysIn sampleCode 0 9 sampleMachine vm' ∧ Moved sampleMachine [1] 9 vm' := by
  have hΓ : globalNames.Simple := by
    refine ⟨fun name t hname ↦ ?_, fun name t hname ↦ ?_, fun name params hname ↦ ?_⟩
    · obtain rfl := Entity.scalar.inj (globalNames_cases hname).2
      exact .inl rfl
    · cases (globalNames_cases hname).2
    · cases (globalNames_cases hname).2
  have hrun : (evalExpr source (fun _ _ ↦ throw .panic) sampleExpr).run sampleOracle =
      .ok 1 { sampleOracle with cycles := 5 } := rfl
  have hplaced : PlacedAt sampleCode.instructions globalCompiler.currentPc
      ((globalCompiler.compileExpr sampleExpr).instructions.drop globalCompiler.currentPc) :=
    List.prefix_refl _
  have hcomputes := compileExpr_computes source (fun _ _ ↦ throw .panic) sampleExpr globalCompiler
    hΓ globalAnalyzer_represents (by decide +kernel) rfl hplaced (by decide +kernel)
    sample_mirrors rfl (not_runsOut_of_fits 20 (by decide +kernel)) (fun message oracle' herror ↦ by
      rw [hrun] at herror
      cases herror)
  exact (hcomputes.1 1 _ hrun).2

end AstOracle

end MiniLang
