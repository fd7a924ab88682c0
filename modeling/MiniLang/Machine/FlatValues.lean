import MiniLang.Lib.Coupling
import MiniLang.Machine.Preflight
import MiniLang.Machine.ValueStore
import MiniLang.Machine.VmSafety
import MiniLang.Machine.VmSteps

/-!
# The reference machine computes the values

## The relation

A state of the reference machine stores a state of the value machine when the frames, the program
counter and the counters agree, the operands are the same integers, and the variables are placed in
the vector of locals. A fresh array is the last one in the vector; its index is on top of the
operands until the next instruction stores it.

## The argument

Each operand function of the reference machine follows its counterpart, so each instruction does,
and the runs end alike. The value machine bounds its variables by `maxLocalSlots` here, as the
reference machine does.

## Where the value machine gives up

`FollowsVm` says nothing from the point on where the value machine gives up. That is what makes
these lemmas short: an operand that should be an integer and is not, a variable that holds an array
where a number is asked for, a jump out of the code, each of them ends the comparison instead of
calling for an argument about what the reference machine does with the raw number. That compiled
programs never give up is a matter of their shapes, and no matter of storage.

A check that both machines make comes out the same on both sides. A check that only the value
machine makes is `follows_require`.
-/

namespace MiniLang

open FlatMemory (Block Apart)
open EStateM (Follows)

namespace ValueVm

variable {program : CompiledProgram} {s s' : ValueVm} {t t' : Vm} {raw : Int32} {value : Int32}
  {frame : ValueFrame} {frames : List ValueFrame} {cell : LocalValue} {storage : Option Nat}
  {arg1 arg2 : Int32}

/-! ## Stored states -/

/-- The frames of the reference machine: each has its variables behind those of its callers. -/
inductive Framed (program : CompiledProgram) : List ValueFrame → List CallFrame → Prop
  | main {frame : ValueFrame} {info : FunctionInfo} :
    program.functions.lookup frame.funcId = some info → info.localCount = frame.cells.length →
    frame.returnPc = usizeMax → Framed program [frame] [⟨usizeMax, 0, frame.funcId⟩]
  | call {frame : ValueFrame} {frames : List ValueFrame} {callers : List CallFrame}
    {info : FunctionInfo} : Framed program frames callers →
    program.functions.lookup frame.funcId = some info → info.localCount = frame.cells.length →
    frame.returnPc ≠ usizeMax → Framed program (frame :: frames)
      (⟨frame.returnPc, (allCells frames).length, frame.funcId⟩ :: callers)

/-- The operands of the reference machine: a fresh array is on top, by its index. -/
def OperandsAt (cells : List LocalValue) (locals stack ints : List Int) : Option Nat → Prop
  | none => stack = ints
  | some size => ∃ base : Nat, stack = (base : Int) :: ints ∧ FreshAt cells locals base size

/-- `t` stores the state `s` of the value machine. -/
structure Stored (program : CompiledProgram) (s : ValueVm) (t : Vm) : Prop where
  pc : t.pc = s.pc
  cycles : t.cycles = s.cycles
  maxCycles : t.maxCycles = s.maxCycles
  output : t.output = s.output
  frames : Framed program s.frames t.callStack
  globals : t.globals = s.globals.map Int32.toInt
  globals_length : s.globals.length = maxGlobalSlots
  placed : Placed (allCells s.frames) t.locals
  operands : OperandsAt (allCells s.frames) t.locals t.stack ((allInts s.frames).map Int32.toInt)
    s.fresh
  -- every instruction allocates less than `2 ^ 31` cells
  space : t.locals.length ≤ maxLocalSlots + s.cycles * 2 ^ 31
  cycles_le : s.cycles ≤ 2 ^ 32
  budget : 0 < s.maxCycles ∧ s.maxCycles ≤ 2 ^ 32

/-- What a result shows of a state. -/
structure SameView (s : ValueVm) (t : Vm) : Prop where
  pc : t.pc = s.pc
  cycles : t.cycles = s.cycles
  output : t.output = s.output
  stack : t.stack.length = s.operandCount
  frames : t.callStack.length = s.frames.length

theorem Framed.length_eq {callers : List CallFrame} (h : Framed program frames callers) :
    callers.length = frames.length := by
  induction h with
  | main => rfl
  | call _ _ _ _ ih => exact congrArg (· + 1) ih

/-- Changed operands and variables leave the frames as they are. -/
theorem Framed.update {callers : List CallFrame} (h : Framed program (frame :: frames) callers)
    {frame' : ValueFrame} (hpc : frame'.returnPc = frame.returnPc)
    (hfunc : frame'.funcId = frame.funcId) (hcells : frame'.cells.length = frame.cells.length) :
    Framed program (frame' :: frames) callers := by
  cases h with
  | main hlookup hcount hreturn =>
    rw [← hfunc] at hlookup ⊢
    exact .main hlookup (hcount.trans hcells.symm) (hpc.trans hreturn)
  | call hframes hlookup hcount hreturn =>
    rw [← hfunc] at hlookup ⊢
    rw [← hpc] at hreturn ⊢
    exact .call hframes hlookup (hcount.trans hcells.symm) hreturn

/-- The current frame of the reference machine. -/
theorem Framed.current {callers : List CallFrame} (h : Framed program (frame :: frames) callers) :
    ∃ info rest, callers = ⟨frame.returnPc, (allCells frames).length, frame.funcId⟩ :: rest ∧
      program.functions.lookup frame.funcId = some info ∧
      info.localCount = frame.cells.length := by
  cases h with
  | main hlookup hcount hreturn => exact ⟨_, [], by rw [hreturn]; rfl, hlookup, hcount⟩
  | call _ hlookup hcount _ => exact ⟨_, _, rfl, hlookup, hcount⟩

namespace Stored

theorem operands_none (h : Stored program s t) (hfresh : s.fresh = none) :
    t.stack = (allInts s.frames).map Int32.toInt := by
  have hoperands := h.operands
  rw [hfresh] at hoperands
  exact hoperands

theorem stack_length (h : Stored program s t) : t.stack.length = s.operandCount := by
  have hoperands := h.operands
  rw [operandCount, ints_eq]
  cases hfresh : s.fresh with
  | none =>
    rw [h.operands_none hfresh, List.length_map]
    rfl
  | some size =>
    rw [hfresh] at hoperands
    obtain ⟨base, hstack, -⟩ := hoperands
    rw [hstack, List.length_cons, List.length_map]
    rfl

theorem view (h : Stored program s t) : SameView s t :=
  ⟨h.pc, h.cycles, h.output, h.stack_length, h.frames.length_eq⟩

theorem length_globals (h : Stored program s t) : t.globals.length = maxGlobalSlots := by
  rw [h.globals, List.length_map, h.globals_length]

theorem length_locals (h : Stored program s t) : t.locals.length ≤ usizeMax := by
  have hspace := h.space
  have hcycles := h.cycles_le
  rw [show maxLocalSlots = 1024 from rfl] at hspace
  rw [usizeMax]
  omega

/-- The cell of a variable of the current frame. -/
theorem slot (h : Stored program s t) (hraw : 0 ≤ raw) (hframes : s.frames = frame :: frames)
    (hcell : asUsize raw < frame.cells.length) (stack : List Int) :
    (Vm.currentLocalSlot program raw).run { t with stack := stack } =
      .ok ((allCells frames).length + asUsize raw) { t with stack := stack } := by
  have hcurrent := h.frames
  rw [hframes] at hcurrent
  obtain ⟨info, rest, hcallers, hlookup, hcount⟩ := hcurrent.current
  have hlimit := h.placed.length_le
  rw [hframes, allCells_cons, List.length_append] at hlimit
  have hcallers' : ({ t with stack := stack } : Vm).callStack = _ := hcallers
  exact Vm.run_currentLocalSlot hraw hcallers' hlookup (hcount ▸ hcell) (by
    dsimp only
    omega)

/-- The value of a variable of the current frame. -/
theorem cellAt (h : Stored program s t) (hframes : s.frames = frame :: frames)
    (hcell : frame.cells[asUsize raw]? = some cell) :
    CellAt t.locals ((allCells frames).length + asUsize raw) cell := by
  apply h.placed.cellAt
  rw [hframes]
  exact getElem?_allCells hcell

/-- Other integers as operands of the current frame. -/
theorem setOperands (h : Stored program s t) (hfresh : s.fresh = none)
    (hframes : s.frames = frame :: frames) {operands : List Int32} {stack : List Int}
    (hstack : stack = (operands ++ allInts frames).map Int32.toInt) :
    Stored program { s with frames := { frame with operands := operands } :: frames }
      { t with stack := stack } := by
  have hplaced := h.placed
  have hcurrent := h.frames
  rw [hframes, allCells_cons] at hplaced
  rw [hframes] at hcurrent
  refine ⟨h.pc, h.cycles, h.maxCycles, h.output, hcurrent.update rfl rfl rfl, h.globals,
    h.globals_length, ?_, ?_, h.space, h.cycles_le, h.budget⟩
  · rw [allCells_cons]
    exact hplaced
  · dsimp only
    rw [hfresh, allInts_cons]
    exact hstack

/-- Another value for a variable of the current frame. -/
theorem setCell (h : Stored program s t) (hfresh : s.fresh = none)
    (hframes : s.frames = frame :: frames) {slot : Nat} {locals : List Int}
    (hlength : locals.length = t.locals.length)
    (hplaced : Placed ((allCells (frame :: frames)).set ((allCells frames).length + slot) cell)
      locals) :
    Stored program { s with frames := { frame with cells := frame.cells.set slot cell } :: frames }
      { t with locals := locals } := by
  have hcurrent := h.frames
  rw [hframes] at hcurrent
  refine ⟨h.pc, h.cycles, h.maxCycles, h.output, hcurrent.update rfl rfl List.length_set, h.globals,
    h.globals_length, ?_, ?_, hlength.trans_le h.space, h.cycles_le, h.budget⟩
  · rw [set_allCells]
    exact hplaced
  · dsimp only
    rw [hfresh, h.operands_none hfresh, hframes, allInts_cons, allInts_cons]
    rfl

end Stored

/-! ## Operand functions -/

/-- Between two operand functions: there is no fresh array. -/
def Settled (program : CompiledProgram) (s : ValueVm) (t : Vm) : Prop :=
  Stored program s t ∧ s.fresh = none

/-- `y` follows `x`, which may give up. -/
abbrev FollowsVm {α β : Type} (P : ValueVm → Vm → Prop) (x : ValueVmM α) (y : Vm.VmM β)
    (Q : α → β → ValueVm → Vm → Prop) : Prop :=
  Follows (· = .panic) SameView P x y Q

theorem matches_givesUp {α β : Type} {x : ValueVmM α} {r : EStateM.Result Stop Vm β}
    {Q : α → β → ValueVm → Vm → Prop} (h : GivesUp x s) :
    (x.run s).Matches (· = .panic) Q SameView r := by
  obtain ⟨s', hrun⟩ := h
  rw [hrun]
  exact EStateM.Result.matches_of_free rfl

theorem follows_pop : FollowsVm (Stored program) pop Vm.pop
    fun v w s t ↦ w = v.toInt ∧ Settled program s t := by
  intro s t h
  rcases pop_cases s with hup | ⟨frame, frames, value, operands, hfresh, hframes, hops, hrun⟩
  · exact matches_givesUp hup
  have hstack := h.operands_none hfresh
  rw [hframes, allInts_cons, hops, List.cons_append, List.map_cons] at hstack
  rw [hrun, Vm.run_pop hstack]
  exact ⟨rfl, h.setOperands hfresh hframes rfl, hfresh⟩

theorem follows_push (value : Int32) : FollowsVm (Stored program) (push value)
    (Vm.push value.toInt) fun _ _ ↦ Settled program := by
  intro s t h
  rcases push_cases value s with hup | ⟨hfresh, ⟨hfull, hrun⟩ | ⟨hroom, frame, frames, hframes, hrun⟩⟩
  · exact matches_givesUp hup
  · rw [hrun, Vm.run_push_overflow (by rwa [h.stack_length])]
    exact .inr ⟨rfl, h.view⟩
  · have hstack := h.operands_none hfresh
    rw [hframes, allInts_cons] at hstack
    rw [hrun, Vm.run_push (by rwa [h.stack_length])]
    exact ⟨h.setOperands hfresh hframes (by rw [hstack]; rfl), hfresh⟩

theorem follows_arrayIndex (index : Int32) (size : Nat) {P : ValueVm → Vm → Prop}
    (hP : ∀ s t, P s t → SameView s t) :
    FollowsVm P (arrayIndex index size) (Vm.arrayIndex index.toInt size)
      fun i j s t ↦ j = i ∧ i < size ∧ P s t := by
  rw [arrayIndex, Vm.arrayIndex]
  by_cases hindex : index.toInt < 0 ∨ index.toInt.toNat ≥ size
  · rw [if_pos hindex, if_pos hindex]
    exact .stop hP
  · rw [if_neg hindex, if_neg hindex]
    exact .pure fun s t h ↦ ⟨rfl, by omega, h⟩

/-- Setting a variable to an integer. -/
theorem follows_writeInt (raw value : Int32) {α β : Type} {a : α} {b : β} :
    FollowsVm (Settled program) (do writeCell raw (.int value); return a)
      (do
        let slot ← Vm.currentLocalSlot program raw
        Vm.writeLocal slot value.toInt
        return b)
      fun a' b' s t ↦ a' = a ∧ b' = b ∧ Stored program s t := by
  rintro s t ⟨h, hfresh⟩
  rcases writeCell_cases raw (.int value) s with ⟨s', hrun⟩ | ⟨frame, frames, hraw, hframes, hslot, hrun⟩
  · exact EStateM.Result.matches_bind_of_free hrun rfl
  have hplaced := h.placed
  rw [hframes] at hplaced
  have hlt : (allCells frames).length + asUsize raw < (allCells (frame :: frames)).length := by
    rw [allCells_cons, List.length_append]
    omega
  refine .bind_left hrun (.bind_right (h.slot hraw hframes hslot t.stack)
    (.bind_right (Vm.run_writeLocal (hplaced.lt_length hlt)) ?_))
  exact ⟨rfl, rfl, h.setCell hfresh hframes List.length_set (hplaced.setInt hlt value)⟩

/-! ## Instructions -/

/-- What the two machines do after an instruction. -/
def Continues (program : CompiledProgram) (flow : Flow) (advance : Bool) (s : ValueVm) (t : Vm) :
    Prop :=
  match flow with
  | .next => advance = true ∧ Stored program s t
  | .jump => advance = false ∧ Stored program s t
  | .exit value => advance = false ∧ t.callStack = [] ∧ t.stack = [value.toInt] ∧ t.pc = s.pc ∧
      t.cycles = s.cycles ∧ t.output = s.output

theorem follows_next : FollowsVm (Settled program) (return Flow.next) (return true)
    (Continues program) :=
  .pure fun _ _ h ↦ ⟨rfl, h.1⟩

theorem follows_pushNext (value : Int32) : FollowsVm (Stored program)
    (do push value; return Flow.next) (do Vm.push value.toInt; return true) (Continues program) :=
  (follows_push value).bind fun _ _ ↦ follows_next

theorem follows_popAgain : FollowsVm (Settled program) pop Vm.pop
    fun v w s t ↦ w = v.toInt ∧ Settled program s t :=
  follows_pop.weaken fun _ _ h ↦ h.1

theorem follows_binary {f : Int32 → Int32 → Int32} {g : Int → Int → Int}
    (h : ∀ a b, (f a b).toInt = g a.toInt b.toInt) :
    FollowsVm (Stored program) (binary f) (Vm.binary g) (Continues program) := by
  refine follows_pop.bind fun b b' ↦ .assuming fun hb ↦ ?_
  refine follows_popAgain.bind fun a a' ↦ .assuming fun ha ↦ ?_
  rw [ha, hb, ← h]
  exact (follows_pushNext _).weaken fun _ _ h ↦ h.1

theorem follows_neg : FollowsVm (Stored program) (unary (- ·))
    (Vm.executeInstruction program .neg arg1 arg2) (Continues program) := by
  refine follows_pop.bind fun a a' ↦ .assuming fun ha ↦ ?_
  rw [ha, if_neg (toInt_ne_i64Min a), ← toInt_neg]
  exact (follows_pushNext _).weaken fun _ _ h ↦ h.1

theorem follows_not : FollowsVm (Stored program) (unary fun a ↦ flag (a = 0))
    (Vm.executeInstruction program .not arg1 arg2) (Continues program) := by
  refine follows_pop.bind fun a a' ↦ .assuming fun ha ↦ ?_
  rw [ha, ← toInt_flag toInt_eq_zero.symm]
  exact (follows_pushNext _).weaken fun _ _ h ↦ h.1

theorem follows_div : FollowsVm (Stored program)
    (executeInstruction program storage .div arg1 arg2)
    (Vm.executeInstruction program .div arg1 arg2) (Continues program) := by
  refine follows_pop.bind fun b b' ↦ .assuming fun hb ↦ ?_
  refine follows_popAgain.bind fun a a' ↦ .assuming fun ha ↦ ?_
  rw [ha, hb]
  refine .ite toInt_eq_zero.symm (fun _ ↦ .stop fun _ _ h ↦ h.1.view) fun _ ↦ ?_
  rw [if_neg fun h ↦ toInt_ne_i64Min a h.1, ← toInt_div]
  exact (follows_pushNext _).weaken fun _ _ h ↦ h.1

theorem follows_jump (target : Nat) : FollowsVm (Stored program)
    (do modify fun vm ↦ { vm with pc := target }; return Flow.jump)
    (do modify fun vm ↦ { vm with pc := target }; return false) (Continues program) := by
  intro s t h
  exact ⟨rfl, { h with pc := rfl }⟩

theorem follows_branch {jumpIf : Int32 → Bool} {p : Int → Prop} [DecidablePred p]
    (h : ∀ a, jumpIf a = true ↔ p a.toInt) (target : Int32) : FollowsVm (Stored program)
    (branch jumpIf target)
    (do
      let cond ← Vm.pop
      if p cond then
        modify fun vm ↦ { vm with pc := asUsize target }
        return false
      else return true)
    (Continues program) := by
  refine follows_pop.bind fun a a' ↦ .assuming fun ha ↦ ?_
  rw [ha]
  exact .ite (h a) (fun _ ↦ (follows_jump _).weaken fun _ _ h ↦ h.1) fun _ ↦ follows_next

theorem follows_print : FollowsVm (Stored program)
    (executeInstruction program storage .print arg1 arg2)
    (Vm.executeInstruction program .print arg1 arg2) (Continues program) := by
  refine follows_pop.bind fun a a' ↦ .assuming fun ha ↦ ?_
  rintro s t ⟨h, -⟩
  subst ha
  exact ⟨rfl, { h with output := congrArg (· ++ [s!"OUTPUT: {a.toInt}"]) h.output }⟩

theorem follows_dup : FollowsVm (Stored program)
    (executeInstruction program storage .dup arg1 arg2)
    (Vm.executeInstruction program .dup arg1 arg2) (Continues program) := by
  intro s t h
  rw [executeInstruction, Vm.executeInstruction]
  rcases top_cases s with ⟨s', hrun⟩ | ⟨frame, frames, value, operands, hfresh, hframes, hops, hrun⟩
  · exact EStateM.Result.matches_bind_of_free hrun rfl
  have hstack := h.operands_none hfresh
  rw [hframes, allInts_cons, hops, List.cons_append, List.map_cons] at hstack
  refine .bind_left hrun (.bind_right (EStateM.run_get t) ?_)
  rw [hstack]
  exact follows_pushNext value s t h

/-! ### Variables -/

theorem follows_loadLocal : FollowsVm (Stored program)
    (executeInstruction program storage .loadLocal arg1 arg2)
    (Vm.executeInstruction program .loadLocal arg1 arg2) (Continues program) := by
  intro s t h
  rw [executeInstruction, Vm.executeInstruction]
  rcases readCell_cases arg1 s with ⟨s', hrun⟩ | ⟨frame, frames, cell, hraw, hframes, hcell, hrun⟩
  · exact EStateM.Result.matches_bind_of_free hrun rfl
  have hat := h.cellAt hframes hcell
  refine .bind_left hrun (.bind_right
    (h.slot hraw hframes (List.getElem?_eq_some_iff.mp hcell).1 t.stack) ?_)
  cases cell with
  | undefined =>
    refine .bind_right (Vm.run_readLocal hat) ?_
    exact .inr ⟨rfl, h.view⟩
  | int value =>
    refine .bind_right (Vm.run_readLocal hat) ?_
    rw [if_neg (toInt_ne_i64Min value)]
    exact follows_pushNext value s t h
  | array data => exact EStateM.Result.matches_of_free rfl

/-- The fresh array gets its variable, an integer is copied. -/
theorem follows_storeLocal : FollowsVm (Stored program) (storeLocal arg1)
    (Vm.executeInstruction program .storeLocal arg1 arg2) (Continues program) := by
  intro s t h
  rw [storeLocal, Vm.executeInstruction]
  refine .bind_left (EStateM.run_get s) ?_
  cases hfresh : s.fresh with
  | none =>
    have hint : FollowsVm (Stored program)
        (do let value ← pop; writeCell arg1 (.int value); return Flow.next)
        (do
          let value ← Vm.pop
          let slot ← Vm.currentLocalSlot program arg1
          Vm.writeLocal slot value
          return true)
        (Continues program) := by
      refine follows_pop.bind fun v w ↦ .assuming fun hw ↦ ?_
      rw [hw]
      refine (follows_writeInt arg1 v).consequence (fun _ _ ↦ id) fun a b s t hst ↦ ?_
      rw [hst.1, hst.2.1]
      exact ⟨rfl, hst.2.2⟩
    exact hint s t h
  | some size =>
    dsimp only
    rcases writeCell_cases arg1 (.array (List.replicate size 0)) s with
      ⟨s', hrun⟩ | ⟨frame, frames, hraw, hframes, hslot, hrun⟩
    · exact EStateM.Result.matches_bind_of_free hrun rfl
    have hplaced := h.placed
    have hcurrent := h.frames
    have hoperands := h.operands
    rw [hframes] at hplaced hcurrent hoperands
    rw [hfresh] at hoperands
    obtain ⟨base, hstack, hat⟩ := hoperands
    have hlt : (allCells frames).length + asUsize arg1 < (allCells (frame :: frames)).length := by
      rw [allCells_cons, List.length_append]
      omega
    refine .bind_left hrun (.bind_right (Vm.run_pop hstack) (.bind_right
      (h.slot hraw hframes hslot _)
      (.bind_right (Vm.run_writeLocal (hplaced.lt_length hlt)) ?_)))
    refine ⟨rfl, h.pc, h.cycles, h.maxCycles, h.output, hcurrent.update rfl rfl List.length_set,
      h.globals, h.globals_length, ?_, rfl, List.length_set.trans_le h.space, h.cycles_le, h.budget⟩
    rw [set_allCells]
    exact hplaced.setFresh hat hlt

/-! ### Global variables -/

/-- A check of the value machine that the reference machine does not make. -/
theorem follows_require {p : Prop} [Decidable p] {α β : Type} {P : ValueVm → Vm → Prop}
    {x : ValueVmM α} {y : Vm.VmM β} {Q : α → β → ValueVm → Vm → Prop}
    (h : p → FollowsVm P x y Q) : FollowsVm P (do require p; x) y Q := by
  intro s t hst
  by_cases hp : p
  · exact .bind_left (run_require hp s) (h hp s t hst)
  · exact EStateM.Result.matches_bind_of_free (run_require_of_not hp s) rfl

theorem follows_readGlobal (slot : Nat) : FollowsVm (Stored program) (readGlobal slot)
    (Vm.readGlobal slot) fun v w s t ↦ w = v.toInt ∧ Stored program s t := by
  intro s t h
  rcases readGlobal_cases slot s with hup | ⟨value, hvalue, hrun⟩
  · exact matches_givesUp hup
  · have hread : t.globals[slot]? = some value.toInt := by
      rw [h.globals, List.getElem?_map, hvalue]
      rfl
    rw [hrun, Vm.run_readGlobal hread]
    exact ⟨rfl, h⟩

theorem follows_writeGlobal {slot : Nat} (value : Int32) (hslot : slot < maxGlobalSlots) :
    FollowsVm (Stored program) (writeGlobal slot value) (Vm.writeGlobal slot value.toInt)
      fun _ _ ↦ Stored program := by
  intro s t h
  rw [Vm.run_writeGlobal (by rwa [h.length_globals])]
  refine { h with globals := ?_, globals_length := List.length_set.trans h.globals_length }
  dsimp only
  rw [h.globals, List.map_set]

/-- The value machine goes on after an instruction that leaves no value. -/
theorem continues_next : FollowsVm (Stored program) (return Flow.next) (return true)
    (Continues program) :=
  .pure fun _ _ h ↦ ⟨rfl, h⟩

theorem run_globalSlot (h : Stored program s t) (hraw : 0 ≤ raw)
    (hslot : asUsize raw < maxGlobalSlots) :
    (Vm.globalSlot raw).run t = .ok (asUsize raw) t :=
  Vm.run_globalSlot hraw (by rwa [h.length_globals])

theorem run_globalArrayRange {rawSize : Int32} (h : Stored program s t) (hraw : 0 ≤ raw)
    (hsize : 0 ≤ rawSize) (hpos : 0 < asUsize rawSize)
    (hfit : asUsize raw + asUsize rawSize ≤ maxGlobalSlots) :
    (Vm.globalArrayRange raw rawSize).run t = .ok (asUsize raw, asUsize rawSize) t := by
  have hlength := h.length_globals
  refine Vm.run_globalArrayRange hraw hsize ?_ ?_ ?_
  · omega
  · omega
  · rw [hlength]
    decide

theorem follows_loadGlobal : FollowsVm (Stored program)
    (executeInstruction program storage .loadGlobal arg1 arg2)
    (Vm.executeInstruction program .loadGlobal arg1 arg2) (Continues program) := by
  refine follows_require fun hglobal ↦ ?_
  refine .reads_right (fun s t h ↦ run_globalSlot h hglobal.1 hglobal.2.1) ?_
  refine (follows_readGlobal _).bind fun v w ↦ .assuming fun hw ↦ ?_
  rw [hw]
  exact follows_pushNext v

theorem follows_storeGlobal : FollowsVm (Stored program)
    (executeInstruction program storage .storeGlobal arg1 arg2)
    (Vm.executeInstruction program .storeGlobal arg1 arg2) (Continues program) := by
  refine follows_require fun hglobal ↦ ?_
  refine .reads_right (fun s t h ↦ run_globalSlot h hglobal.1 hglobal.2.1) ?_
  refine follows_pop.bind fun v w ↦ .assuming fun hw ↦ ?_
  rw [hw]
  exact ((follows_writeGlobal v hglobal.2.1).weaken fun _ _ h ↦ h.1).bind fun _ _ ↦ continues_next

theorem follows_arrayLoad (hfit : ArraysFit program) : FollowsVm (Stored program)
    (executeInstruction program storage .arrayLoad arg1 arg2)
    (Vm.executeInstruction program .arrayLoad arg1 arg2) (Continues program) := by
  refine follows_require fun ⟨hslot, hsize, harray⟩ ↦ ?_
  obtain ⟨hpos, hlast⟩ := hfit _ _ harray
  refine .reads_right (fun s t h ↦ run_globalArrayRange h hslot hsize hpos hlast) ?_
  refine follows_pop.bind fun i i' ↦ .assuming fun hi ↦ ?_
  rw [hi]
  refine (follows_arrayIndex i _ fun _ _ h ↦ h.1.view).bind fun j j' ↦ .assuming fun hj ↦
    .assuming fun _ ↦ ?_
  rw [hj]
  refine ((follows_readGlobal _).weaken fun _ _ h ↦ h.1).bind fun v w ↦ .assuming fun hw ↦ ?_
  rw [hw]
  exact follows_pushNext v

theorem follows_arrayStore (hfit : ArraysFit program) : FollowsVm (Stored program)
    (executeInstruction program storage .arrayStore arg1 arg2)
    (Vm.executeInstruction program .arrayStore arg1 arg2) (Continues program) := by
  refine follows_require fun ⟨hslot, hsize, harray⟩ ↦ ?_
  obtain ⟨hpos, hlast⟩ := hfit _ _ harray
  refine .reads_right (fun s t h ↦ run_globalArrayRange h hslot hsize hpos hlast) ?_
  refine follows_pop.bind fun v w ↦ .assuming fun hw ↦ ?_
  refine follows_popAgain.bind fun i i' ↦ .assuming fun hi ↦ ?_
  rw [hi, hw]
  refine (follows_arrayIndex i _ fun _ _ h ↦ h.1.view).bind fun j j' ↦ .assuming fun hj ↦
    .assuming fun hlt ↦ ?_
  rw [hj]
  exact ((follows_writeGlobal v (by omega)).weaken fun _ _ h ↦ h.1).bind fun _ _ ↦ continues_next

/-! ### Local arrays -/

/-- The array in a variable of the current frame. -/
theorem Stored.localArray {data : List Int32} (h : Stored program s t)
    (hframes : s.frames = frame :: frames)
    (hcell : frame.cells[asUsize raw]? = some (.array data)) (hsize : data.length < 2 ^ 31) :
    ∃ base : Nat, Vm.LocalArray t.locals ((allCells frames).length + asUsize raw) data.length base ∧
      base + data.length ≤ usizeMax ∧ maxLocalSlots ≤ base ∧
      Block t.locals base (data.map Int32.toInt) := by
  obtain ⟨base, hbase, hbehind, hblock⟩ := h.cellAt hframes hcell
  have hinside := hblock.inside
  rw [List.length_map] at hinside
  exact ⟨base, ⟨hsize, hbase, hinside⟩, hinside.trans h.length_locals, hbehind, hblock⟩

/-- The instruction looks at the variable it names. -/
theorem follows_readCell {α β : Type} {P : ValueVm → Vm → Prop} {x : ValueVmM α} {y : Vm.VmM β}
    {Q : α → β → ValueVm → Vm → Prop} (h : FollowsVm P x y Q) :
    FollowsVm P (do let _ ← readCell raw; x) y Q := by
  refine .reads_left (fun s t _ ↦ ?_) fun _ ↦ h
  rcases readCell_cases raw s with ⟨s', hrun⟩ | ⟨_, _, cell, -, -, -, hrun⟩
  · exact .inr ⟨_, s', hrun, rfl⟩
  · exact .inl ⟨cell, hrun⟩

/-- An element of an array is read. -/
theorem follows_readElement (raw : Int32) {size i : Nat} (hi : i < size) (hsize : size < 2 ^ 31) :
    FollowsVm (Stored program) (do let data ← readArray raw size; return data[i]?.getD 0)
      (do
        let refSlot ← Vm.currentLocalSlot program raw
        let arrayBase ← Vm.localArrayBase refSlot size
        Vm.readLocal (arrayBase + i))
      fun v w s t ↦ w = v.toInt ∧ Stored program s t := by
  intro s t h
  rcases readArray_cases raw size s with
    ⟨s', hrun⟩ | ⟨frame, frames, data, hraw, hframes, hcell, hlen, hrun⟩
  · exact EStateM.Result.matches_bind_of_free hrun rfl
  subst hlen
  obtain ⟨base, harray, hlimit, -, hblock⟩ := h.localArray hframes hcell hsize
  have hvalue : data[i]? = some data[i] := List.getElem?_eq_getElem hi
  have hread : t.locals[base + i]? = some data[i].toInt :=
    hblock.get i _ (by rw [List.getElem?_map, hvalue]; rfl)
  refine .bind_left hrun (.bind_right (h.slot hraw hframes
    (List.getElem?_eq_some_iff.mp hcell).1 t.stack) (.bind_right (harray.run hlimit) ?_))
  rw [Vm.run_readLocal hread, hvalue]
  exact ⟨rfl, h⟩

/-- An element of an array is written. -/
theorem follows_writeElement (raw value : Int32) {size i : Nat} (hi : i < size)
    (hsize : size < 2 ^ 31) :
    FollowsVm (Settled program)
      (do
        let data ← readArray raw size
        writeCell raw (.array (data.set i value)))
      (do
        let refSlot ← Vm.currentLocalSlot program raw
        let arrayBase ← Vm.localArrayBase refSlot size
        Vm.writeLocal (arrayBase + i) value.toInt)
      fun _ _ ↦ Stored program := by
  rintro s t ⟨h, hfresh⟩
  rcases readArray_cases raw size s with
    ⟨s', hrun⟩ | ⟨frame, frames, data, hraw, hframes, hcell, hlen, hrun⟩
  · exact EStateM.Result.matches_bind_of_free hrun rfl
  subst hlen
  obtain ⟨base, harray, hlimit, -, -⟩ := h.localArray hframes hcell hsize
  refine .bind_left hrun (.bind_right (h.slot hraw hframes
    (List.getElem?_eq_some_iff.mp hcell).1 t.stack) (.bind_right (harray.run hlimit) ?_))
  rcases writeCell_cases raw (.array (data.set i value)) s with
    hup | ⟨frame', frames', -, hframes', -, hrun'⟩
  · exact matches_givesUp hup
  obtain ⟨rfl, rfl⟩ := List.cons.inj (hframes.symm.trans hframes')
  have hinside := harray.le
  have hplaced := h.placed
  rw [hframes] at hplaced
  rw [hrun', Vm.run_writeLocal (by omega)]
  exact h.setCell hfresh hframes List.length_set
    (hplaced.setElement (getElem?_allCells hcell) harray.reference hi value)

theorem follows_localArrayLoad : FollowsVm (Stored program)
    (executeInstruction program storage .localArrayLoad arg1 arg2)
    (Vm.executeInstruction program .localArrayLoad arg1 arg2) (Continues program) := by
  refine follows_require fun hsize ↦ follows_readCell ?_
  refine .reads_right (fun s t h ↦ Vm.run_arraySize hsize) ?_
  refine follows_pop.bind fun i i' ↦ .assuming fun hi ↦ ?_
  rw [hi]
  refine (follows_arrayIndex i _ fun _ _ h ↦ h.1.view).bind fun j j' ↦ .assuming fun hj ↦
    .assuming fun hlt ↦ ?_
  rw [hj]
  have h := ((follows_readElement arg1 hlt (asUsize_lt hsize)).weaken
    fun _ _ (h : Settled program _ _) ↦ h.1).bind fun v w ↦ .assuming fun hw ↦
      (hw ▸ follows_pushNext v)
  simpa only [bind_assoc, pure_bind] using h

theorem follows_localArrayStore : FollowsVm (Stored program)
    (executeInstruction program storage .localArrayStore arg1 arg2)
    (Vm.executeInstruction program .localArrayStore arg1 arg2) (Continues program) := by
  refine follows_require fun hsize ↦ follows_readCell ?_
  refine .reads_right (fun s t h ↦ Vm.run_arraySize hsize) ?_
  refine follows_pop.bind fun v w ↦ .assuming fun hw ↦ ?_
  refine follows_popAgain.bind fun i i' ↦ .assuming fun hi ↦ ?_
  rw [hi, hw]
  refine (follows_arrayIndex i _ fun _ _ h ↦ h.1.view).bind fun j j' ↦ .assuming fun hj ↦
    .assuming fun hlt ↦ ?_
  rw [hj]
  have h : FollowsVm (Settled program) _ _ (Continues program) :=
    (follows_writeElement arg1 v hlt (asUsize_lt hsize)).bind fun _ _ ↦ continues_next
  simpa only [bind_assoc, pure_bind] using h

end ValueVm

end MiniLang
