import MiniLang.Machine.FlatValues

/-!
# Runs of the reference machine

Calls and returns of the reference machine follow those of the value machine. With the other
instructions this makes a simulation in lockstep, so that both machines end after the same number of
steps with the same result.

## The construction

The value machine gives each frame variables and operands of its own; the reference machine has one
vector of locals and one operand stack for all of them. A call therefore has to place the new
variables behind those of the callers, where `Framed` expects them, and to leave the arguments in
the first of them. A return shrinks the slots in use and moves no array: the cells of the callee's
arrays stay in the vector, which is why the relation asks where arrays lie, but never that the
vector ends with one of them, but for a fresh array.

## The invariant

Between two steps a state is `Stored`. While an instruction is under way its cycle is already
counted, but the cells it may allocate are not there yet, so the bound on the length of the vector
has a slack of `2 ^ 31` cells: this is `Underway`. An allocation takes fewer than that many cells
and one cycle, so that the addresses of array elements fit a `usize` as long as there are no more
than `2 ^ 32` cycles. A limit of cycles from 1 to `2 ^ 32` is therefore part of the relation.
-/

namespace MiniLang

open FlatMemory (Block Apart)
open EStateM (Follows)

namespace ValueVm

variable {program : CompiledProgram} {s s' : ValueVm} {t t' : Vm} {value : Int32}
  {frame : ValueFrame} {frames : List ValueFrame} {storage : Option Nat} {arg1 arg2 : Int32}
  {maxCycles fuel : Nat} {trace : Option (List TraceEvent)}

/-- An instruction is under way: its cycle is counted, the cells that it may allocate are not there
yet. -/
structure Underway (program : CompiledProgram) (s : ValueVm) (t : Vm) : Prop where
  stored : Stored program s t
  space : t.locals.length + 2 ^ 31 ≤ maxLocalSlots + s.cycles * 2 ^ 31
  pc_lt : s.pc < program.instructions.length

/-! ## Allocation -/

theorem follows_alloc : FollowsVm (Underway program) (alloc arg1)
    (Vm.executeInstruction program .allocArray arg1 arg2) (Continues program) := by
  refine follows_require fun hsize ↦ ?_
  refine .reads_right (fun s t h ↦ Vm.run_arraySize hsize) ?_
  rintro s t ⟨h, hspace, -⟩
  refine .bind_left (EStateM.run_get s) (.bind_left (EStateM.run_get s) ?_)
  by_cases hfresh : s.fresh = none ∧ s.frames ≠ []
  swap
  · exact EStateM.Result.matches_bind_of_free (run_require_of_not hfresh s) rfl
  have hstack := h.operands_none hfresh.1
  have hlt := asUsize_lt hsize
  refine .bind_left (run_require hfresh s) (.bind_left (EStateM.run_get s)
    (.bind_right (EStateM.run_get t) (.bind_right (EStateM.run_modify _ t) ?_)))
  by_cases hcount : s.operandCount ≥ maxOperandStack
  · rw [if_pos hcount, EStateM.run_bind, Vm.run_push_overflow (by rwa [← h.stack_length] at hcount)]
    exact .inr ⟨rfl, { h.view with }⟩
  · rw [if_neg hcount]
    rw [← h.stack_length, ge_iff_le, Nat.not_le] at hcount
    refine .bind_left (EStateM.run_modify _ s) (.bind_right (Vm.run_push hcount) ?_)
    refine ⟨rfl, { h with placed := h.placed.grow _, operands := ?_, space := ?_ }⟩
    · exact ⟨t.locals.length, congrArg _ hstack, h.placed.freshAt _⟩
    · dsimp only
      rw [List.length_append, List.length_replicate]
      omega

/-! ## Calls -/

theorem Framed.ne_nil {callers : List CallFrame} (h : Framed program frames callers) :
    frames ≠ [] := by
  intro hnil
  subst hnil
  cases h

/-- The slots of a callee come after all others. -/
theorem Framed.newBase {callers : List CallFrame} (h : Framed program frames callers) (t : Vm)
    (ht : t.callStack = callers) :
    (t.callStack.head?.map CallFrame.basePtr).getD 0 + Vm.currentLocalCount program t =
      (allCells frames).length := by
  obtain ⟨frame, frames, rfl⟩ := List.exists_cons_of_ne_nil h.ne_nil
  obtain ⟨info, rest, hcallers, hlookup, hcount⟩ := h.current
  rw [Vm.currentLocalCount, ht, hcallers, List.head?_cons, Option.map_some, Option.map_some,
    Option.getD_some, Option.getD_some, hlookup, Option.map_some, Option.getD_some, allCells_cons,
    List.length_append, hcount]

/-- The variables of a callee: its arguments, and the others without a value. -/
theorem entered_cellAt {locals locals' : List Int} {base count : Nat} {args : List Int32}
    (h : Vm.Entered locals locals' base (args.map Int32.toInt) count) (i : Nat) (cell : LocalValue)
    (hcell : (args.map LocalValue.int ++ List.replicate (count - args.length) .undefined)[i]? = some cell) :
    cell.IsScalar ∧ CellAt locals' (base + i) cell := by
  rcases Nat.lt_or_ge i args.length with hlt | hge
  · rw [List.getElem?_append_left (by rwa [List.length_map]), List.getElem?_map,
      List.getElem?_eq_getElem hlt] at hcell
    obtain rfl := Option.some_inj.mp hcell
    refine ⟨trivial, h.given i _ ?_⟩
    rw [List.getElem?_map, List.getElem?_eq_getElem hlt]
    rfl
  · rw [List.getElem?_append_right (by rwa [List.length_map]), List.length_map] at hcell
    obtain ⟨hi, rfl⟩ := List.getElem?_eq_some_iff.mp hcell
    rw [List.length_replicate] at hi
    rw [List.getElem_replicate]
    exact ⟨trivial, h.rest i (by rwa [List.length_map]) (by omega)⟩

/-- **The state in the callee.** Its frame has the arguments in its first variables, which lie behind
those of the callers; the arguments are gone from the operands. -/
theorem stored_entered {id : Nat} {func : FunctionInfo} {args operands : List Int32}
    {locals' : List Int} (hpre : Preflight program) (h : Stored program s t)
    (hpc : s.pc < program.instructions.length) (hlookup : program.functions.lookup id = some func)
    (hframes : s.frames = frame :: frames) (hfresh : s.fresh = none)
    (hle : args.length ≤ func.localCount)
    (hspace : (allCells s.frames).length + func.localCount ≤ maxLocalSlots)
    (hentered : Vm.Entered t.locals locals' (allCells s.frames).length (args.map Int32.toInt)
      func.localCount) :
    Stored program
      { s with
        frames := ⟨s.pc + 1, id, args.map .int ++
          List.replicate (func.localCount - args.length) .undefined, []⟩ ::
            { frame with operands := operands } :: frames
        pc := func.entryPc }
      { t with
        locals := locals'
        stack := (operands ++ allInts frames).map Int32.toInt
        callStack := ⟨t.pc + 1, (allCells s.frames).length, id⟩ :: t.callStack
        pc := func.entryPc } := by
  have hframed := h.frames
  rw [hframes] at hframed
  have hsame : allCells ({ frame with operands := operands } :: frames) = allCells s.frames := by
    rw [hframes, allCells_cons, allCells_cons]
  have hnew : (args.map LocalValue.int ++ List.replicate (func.localCount - args.length)
      LocalValue.undefined).length = func.localCount := by
    rw [List.length_append, List.length_map, List.length_replicate]
    omega
  refine ⟨rfl, h.cycles, h.maxCycles, h.output, ?_, h.globals, h.globals_length, ?_, ?_,
    hentered.length.trans_le h.space, h.cycles_le, h.budget⟩
  · dsimp only
    rw [← hsame, h.pc]
    refine .call (hframed.update rfl rfl rfl) hlookup hnew.symm ?_
    -- the return address is one of the code, and not that of `main`
    have hcode := hpre.count
    rw [maxInstructions] at hcode
    rw [usizeMax]
    dsimp only
    omega
  · dsimp only
    rw [allCells_cons, hsame]
    apply h.placed.enter
    · rw [List.length_append, hnew]
      exact hspace
    · exact hentered.length
    · exact entered_cellAt hentered
    · rw [hnew]
      exact hentered.outside
  · dsimp only
    rw [hfresh, allInts_cons, List.nil_append, allInts_cons]
    rfl

theorem follows_call (hpre : Preflight program) : FollowsVm (Underway program)
    (call program (some maxLocalSlots) arg1 arg2) (Vm.call program arg1 arg2)
    (Continues program) := by
  refine follows_require fun hargs ↦ ?_
  rw [Vm.call, if_neg (Int32.not_lt.mpr hargs.1), if_neg (Int32.not_lt.mpr hargs.2)]
  dsimp only
  cases hlookup : program.functions.lookup (asUsize arg1) with
  | none => exact .giveUp rfl
  | some func =>
  rintro s t ⟨h, -, hpc⟩
  refine .bind_left (EStateM.run_get s) ?_
  -- a check of the value machine: without it there is nothing to compare
  by_cases hcall : asUsize arg2 = func.paramCount ∧ func.paramCount ≤ func.localCount ∧
    s.fresh = none
  swap
  · exact EStateM.Result.matches_bind_of_free (run_require_of_not hcall s) rfl
  obtain ⟨hparams, hle, hfresh⟩ := hcall
  refine .bind_left (run_require ⟨hparams, hle, hfresh⟩ s) ?_
  dsimp only
  rw [if_neg (not_not.mpr hparams)]
  refine .bind_left (EStateM.run_get s) (.bind_right (EStateM.run_get t) ?_)
  have hdepth := h.frames.length_eq
  by_cases hfull : s.frames.length ≥ maxFrames
  · rw [if_pos hfull, if_pos (by rwa [hdepth])]
    exact .inr ⟨rfl, h.view⟩
  rw [if_neg hfull, if_neg (by rwa [hdepth])]
  refine .bind_left (EStateM.run_get s) (.bind_right (EStateM.run_get t) ?_)
  -- the sum of the slots does not overflow, so the first check of the source never fails
  have hcount := hpre.locals _ _ hlookup
  have hbase := h.placed.length_le
  have hadd : checkedAdd (allCells s.frames).length func.localCount =
      some ((allCells s.frames).length + func.localCount) := by
    refine checkedAdd_eq ?_
    rw [show maxLocalSlots = 1024 from rfl] at hcount hbase
    rw [usizeMax]
    omega
  rw [h.frames.newBase t rfl, hadd, cells_eq]
  dsimp only
  have hover : (some maxLocalSlots).elim false
      (fun limit ↦ decide ((allCells s.frames).length + func.localCount > limit)) = true ↔
        (allCells s.frames).length + func.localCount > maxLocalSlots := decide_eq_true_iff
  -- the limit of the variables, where both trap with the same message
  by_cases hspace : (allCells s.frames).length + func.localCount > maxLocalSlots
  · rw [if_pos hspace, if_pos (hover.mpr hspace)]
    exact .inr ⟨rfl, h.view⟩
  rw [if_neg hspace, if_neg (mt hover.mp hspace)]
  obtain ⟨frame, frames, hframes⟩ := List.exists_cons_of_ne_nil h.frames.ne_nil
  rcases popArgs_cases func.paramCount [] hfresh hframes with
    ⟨s', hrun⟩ | ⟨values, operands, hops, hlen, hrun⟩
  · exact EStateM.Result.matches_bind_of_free hrun rfl
  have hstack := h.operands_none hfresh
  rw [hframes, allInts_cons, hops, List.append_assoc, List.map_append] at hstack
  have hcells : (allCells s.frames).length + func.localCount ≤ t.locals.length := by
    have hroom := h.placed.room
    omega
  -- the operands of the caller that become variables of the callee
  generalize hargs' : values.reverse ++ [] = args at hrun
  have hvalues : values.map Int32.toInt = (args.map Int32.toInt).reverse := by
    rw [← hargs', List.append_nil, List.map_reverse, List.reverse_reverse]
  have hcount' : args.length = func.paramCount := by
    rw [← hargs', List.append_nil, List.length_reverse, hlen]
  rw [hvalues] at hstack
  rw [← hcount'] at hle hparams hrun ⊢
  obtain ⟨locals', hentered, hrun'⟩ := Vm.exists_entered hstack (by rwa [List.length_map]) hcells
  rw [List.length_map, ← hparams] at hrun'
  refine .bind_left hrun ?_
  rw [← bind_assoc]
  refine .bind_left (EStateM.run_modify _ _) (.bind_right hrun'
    (.bind_right (EStateM.run_modify _ _) ?_))
  exact ⟨rfl, stored_entered hpre h hpc hlookup hframes hfresh hle (Nat.le_of_not_lt hspace)
    hentered⟩

/-! ## Returns -/

/-- The slots of the frame go with it. -/
theorem follows_ret : FollowsVm (Stored program) ret Vm.ret (Continues program) := by
  refine follows_pop.bind fun v w ↦ .assuming fun hw ↦ ?_
  rw [hw]
  rintro s t ⟨h, hfresh⟩
  refine .bind_left (EStateM.run_get s) (.bind_right (EStateM.run_get t) ?_)
  obtain ⟨frame, frames, hframes⟩ := List.exists_cons_of_ne_nil h.frames.ne_nil
  have hstack := h.operands_none hfresh
  have hplaced := h.placed
  have hcurrent := h.frames
  rw [hframes] at hplaced hcurrent hstack ⊢
  dsimp only
  by_cases hops : frame.operands = []
  swap
  · exact EStateM.Result.matches_bind_of_free (run_require_of_not hops s) rfl
  rw [allInts_cons, hops, List.nil_append] at hstack
  rw [allCells_cons] at hplaced
  refine .bind_left (run_require hops s) (.bind_left (EStateM.run_modify _ s) ?_)
  generalize hcallers : t.callStack = callers at hcurrent ⊢
  cases hcurrent with
  | main hlookup hcount hreturn =>
    refine .bind_right (EStateM.run_modify _ t) (.bind_right (Vm.run_push ?_) ?_)
    · dsimp only
      rw [hstack]
      exact Nat.zero_lt_succ _
    · refine ⟨rfl, rfl, ?_, h.pc, h.cycles, h.output⟩
      dsimp only
      rw [hstack]
      rfl
  | @call _ _ callers _ hrest hlookup hcount hreturn =>
    have hleft : Stored program { s with frames := frames } { t with callStack := callers } :=
      { h with
        frames := hrest
        placed := hplaced.leave
        operands := by
          dsimp only
          rw [hfresh]
          exact hstack }
    refine .bind_right (EStateM.run_modify _ t) ?_
    dsimp only
    rw [if_neg hrest.ne_nil, if_pos hreturn]
    exact (follows_push v).bind
      (fun _ _ ↦ (follows_jump frame.returnPc).weaken fun _ _ h ↦ h.1) _ _ hleft

/-! ## Instructions -/

/-- **Every instruction** of the reference machine follows that of the value machine. -/
theorem follows_executeInstruction (hpre : Preflight program) (opcode : Opcode)
    (arg1 arg2 : Int32) : FollowsVm (Underway program)
      (executeInstruction program (some maxLocalSlots) opcode arg1 arg2)
      (Vm.executeInstruction program opcode arg1 arg2) (Continues program) := by
  have of_stored {x : ValueVmM Flow} {y : Vm.VmM Bool}
      (h : FollowsVm (Stored program) x y (Continues program)) :
      FollowsVm (Underway program) x y (Continues program) := h.weaken fun _ _ h ↦ h.stored
  cases opcode with
  | loadConst => exact of_stored (follows_pushNext arg1)
  | loadLocal => exact of_stored follows_loadLocal
  | storeLocal => exact of_stored follows_storeLocal
  | loadGlobal => exact of_stored follows_loadGlobal
  | storeGlobal => exact of_stored follows_storeGlobal
  | add => exact of_stored (follows_binary toInt_add)
  | sub => exact of_stored (follows_binary toInt_sub)
  | mul => exact of_stored (follows_binary toInt_mul)
  | div => exact of_stored follows_div
  | neg => exact of_stored follows_neg
  | eq => exact of_stored (follows_binary fun _ _ ↦ toInt_flag Int32.toInt_inj.symm)
  | ne => exact of_stored (follows_binary fun _ _ ↦ toInt_flag (not_congr Int32.toInt_inj.symm))
  | lt => exact of_stored (follows_binary fun _ _ ↦ toInt_flag Int32.lt_iff_toInt_lt)
  | gt => exact of_stored (follows_binary fun _ _ ↦ toInt_flag Int32.lt_iff_toInt_lt)
  | le => exact of_stored (follows_binary fun _ _ ↦ toInt_flag Int32.le_iff_toInt_le)
  | ge => exact of_stored (follows_binary fun _ _ ↦ toInt_flag Int32.le_iff_toInt_le)
  | and => exact of_stored (follows_binary fun _ _ ↦ toInt_flag
      (and_congr (not_congr toInt_eq_zero.symm) (not_congr toInt_eq_zero.symm)))
  | or => exact of_stored (follows_binary fun _ _ ↦ toInt_flag
      (or_congr (not_congr toInt_eq_zero.symm) (not_congr toInt_eq_zero.symm)))
  | not => exact of_stored follows_not
  | jump => exact of_stored (follows_jump _)
  | jumpIfFalse => exact of_stored (follows_branch (by simp [toInt_eq_zero]) arg1)
  | jumpIfTrue => exact of_stored (follows_branch (by simp [toInt_eq_zero]) arg1)
  | call => exact follows_call hpre
  | «return» => exact of_stored follows_ret
  | arrayLoad => exact of_stored (follows_arrayLoad hpre.arrays)
  | arrayStore => exact of_stored (follows_arrayStore hpre.arrays)
  | localArrayLoad => exact of_stored follows_localArrayLoad
  | localArrayStore => exact of_stored follows_localArrayStore
  | arrayNew => exact @follows_alloc program arg1 arg2
  | allocArray => exact follows_alloc
  | print => exact of_stored follows_print
  | pop => exact of_stored (follows_pop.bind fun _ _ ↦ .assuming fun _ ↦ follows_next)
  | dup => exact of_stored follows_dup
  | halt => exact .giveUp rfl

/-! ## Runs -/

theorem SameView.trapResult_eq (h : SameView s t) (code : TrapCode) (message : String) :
    t.makeTrapResult code message = s.makeTrapResult code message := by
  rw [Vm.makeTrapResult, makeTrapResult, h.pc, h.cycles, h.output, h.stack, h.frames]

/-- The record of a step is no part of what is stored. -/
theorem Stored.recorded (h : Stored program s t) (before : Vm) (instr : Instruction)
    (outcome : TraceOutcome) : Stored program s (Vm.recordTrace before t instr outcome) :=
  { h with }

theorem Stored.active (h : Stored program s t) : t.callStack ≠ [] := by
  intro hnil
  have hlength := h.frames.length_eq
  rw [hnil, List.length_nil] at hlength
  exact h.frames.ne_nil (List.eq_nil_of_length_eq_zero hlength.symm)

/-- What the machines do after an instruction. -/
theorem afterInstruction_follows {flow : Flow} {advance : Bool}
    (h : Continues program flow advance s t) (before : Vm) (instr : Instruction) :
    (∃ s' t', afterInstruction (.ok flow s) = .inl s' ∧
      Vm.afterInstruction before instr t advance = .inl t' ∧ Stored program s' t') ∨
    ∃ result vm, afterInstruction (.ok flow s) = .inr result ∧
      Vm.afterInstruction before instr t advance = .inr (result, vm) := by
  cases flow with
  | next =>
    obtain ⟨rfl, hst⟩ := h
    have hst' : Stored program { s with pc := s.pc + 1 } { t with pc := t.pc + 1 } :=
      { hst with pc := congrArg (· + 1) hst.pc }
    refine .inl ⟨_, _, rfl, ?_, hst'.recorded before instr .continue⟩
    exact if_neg hst.active
  | jump =>
    obtain ⟨rfl, hst⟩ := h
    refine .inl ⟨_, _, rfl, ?_, hst.recorded before instr .jump⟩
    exact if_neg hst.active
  | exit value =>
    obtain ⟨rfl, hframes, hstack, hpc, hcycles, houtput⟩ := h
    refine .inr ⟨_, _, rfl, (if_pos hframes).trans (congrArg Sum.inr (Prod.ext ?_ rfl))⟩
    simp [Vm.recordTrace, exitResult, hframes, hstack, hpc, hcycles, houtput]

theorem Stored.underway (h : Stored program s t) (hlt : s.cycles < 2 ^ 32)
    (hpc : s.pc < program.instructions.length) :
    Underway program { s with cycles := s.cycles + 1 } { t with cycles := t.cycles + 1 } := by
  have hspace : t.locals.length + 2 ^ 31 ≤ maxLocalSlots + (s.cycles + 1) * 2 ^ 31 := by
    rw [Nat.add_mul, Nat.one_mul, ← Nat.add_assoc]
    exact Nat.add_le_add_right h.space _
  refine ⟨{ h with cycles := ?_, space := ?_, cycles_le := hlt }, hspace, hpc⟩
  · exact congrArg (· + 1) h.cycles
  · exact (Nat.le_add_right _ _).trans hspace

/-- **The step lemma.** -/
theorem step_follows (hpre : Preflight program) (h : Stored program s t) :
    (∃ s' t', step program (some maxLocalSlots) s = .inl s' ∧ Vm.step program t = .inl t' ∧
      Stored program s' t') ∨
    ∃ r, step program (some maxLocalSlots) s = .inr r ∧
      (r = .panic ∨ ∃ w, Vm.step program t = .inr w ∧ r = w.1) := by
  rw [step, Vm.step]
  obtain ⟨hpos, hle⟩ := h.budget
  by_cases hlimit : s.maxCycles > 0 ∧ s.cycles ≥ s.maxCycles
  · rw [if_pos hlimit, if_pos (by rwa [h.maxCycles, h.cycles])]
    exact .inr ⟨_, rfl, .inr ⟨_, rfl, by rw [h.view.trapResult_eq, h.maxCycles]⟩⟩
  have hcode : program.instructions[t.pc]? = program.instructions[s.pc]? := by rw [h.pc]
  rw [if_neg hlimit, if_neg (by rwa [h.maxCycles, h.cycles]), hcode]
  cases hfetch : program.instructions[s.pc]? with
  | none => exact .inr ⟨_, rfl, .inr ⟨_, rfl, by rw [h.view.trapResult_eq, h.pc]⟩⟩
  | some instr =>
  have hunder := h.underway (by omega) (List.getElem?_eq_some_iff.mp hfetch).1
  have hexec := follows_executeInstruction hpre instr.opcode instr.arg1 instr.arg2 _ _ hunder
  dsimp only
  cases hrun : (executeInstruction program (some maxLocalSlots) instr.opcode instr.arg1
      instr.arg2).run { s with cycles := s.cycles + 1 } with
  | ok flow s' =>
    rw [hrun] at hexec
    obtain ⟨advance, t', hrun', hcontinues⟩ := hexec.ok_inv
    rw [hrun']
    rcases afterInstruction_follows hcontinues t instr with hnext | ⟨result, vm, hend, hend'⟩
    · exact .inl hnext
    · exact .inr ⟨result, hend, .inr ⟨_, hend', rfl⟩⟩
  | error stop s' =>
    rw [hrun] at hexec
    cases stop with
    | panic => exact .inr ⟨_, rfl, .inl rfl⟩
    | trap code message =>
      obtain ⟨t', hrun', hview⟩ := hexec.error_inv (by simp)
      rw [hrun']
      exact .inr ⟨_, rfl, .inr ⟨_, rfl, by rw [hview.trapResult_eq]⟩⟩

/-- The state both machines start in. -/
theorem stored_start {info : FunctionInfo} (hpre : Preflight program)
    (hmain : program.functions.lookup program.mainFuncId = some info) (hpos : 0 < maxCycles)
    (hle : maxCycles ≤ 2 ^ 32) :
    Stored program { init maxCycles with
        pc := info.entryPc
        frames := [⟨usizeMax, program.mainFuncId, List.replicate info.localCount .undefined, []⟩] }
      { Vm.init maxCycles trace with
        pc := info.entryPc
        callStack := [⟨usizeMax, 0, program.mainFuncId⟩] } := by
  have hcount := hpre.locals _ _ hmain
  have hglobals : List.replicate maxGlobalSlots (0 : Int) =
      (List.replicate maxGlobalSlots (0 : Int32)).map Int32.toInt := by
    rw [List.map_replicate, Int32.toInt_zero]
  have hempty : Placed [] (List.replicate maxLocalSlots i64Min) := by
    refine ⟨Nat.zero_le _, List.length_replicate.ge, ?_, ?_⟩
    · intro addr cell hcell
      rw [List.getElem?_nil] at hcell
      cases hcell
    · intro addr addr' data data' base base' _ hcell
      rw [List.getElem?_nil] at hcell
      cases hcell
  have hplaced : Placed (allCells [⟨usizeMax, program.mainFuncId, List.replicate info.localCount .undefined, []⟩])
      (List.replicate maxLocalSlots i64Min) := by
    rw [allCells_cons]
    refine hempty.enter ?_ rfl (fun i cell hcell ↦ ?_) fun _ _ ↦ rfl
    · exact List.length_replicate.trans_le hcount
    · obtain ⟨hi, rfl⟩ := List.getElem?_eq_some_iff.mp hcell
      rw [List.length_replicate] at hi
      rw [List.getElem_replicate, List.length_nil, Nat.zero_add]
      refine ⟨trivial, ?_⟩
      rw [CellAt, List.getElem?_replicate, if_pos (hi.trans_le hcount)]
  have hspace : (List.replicate maxLocalSlots i64Min).length ≤ maxLocalSlots + 0 * 2 ^ 31 :=
    List.length_replicate.le
  exact ⟨rfl, rfl, rfl, rfl, .main hmain List.length_replicate.symm rfl, hglobals,
    List.length_replicate, hplaced, rfl, hspace, Nat.zero_le _, hpos, hle⟩

/-- **The reference machine computes the values.** Wherever a run of the value machine does not give
up, that of the reference machine goes the same way: the same result after the same number of steps,
down to the message of a trap, or none yet. -/
theorem run_vm_eq (hkeys : Vm.KeyedById program) (hpos : 0 < maxCycles) (hle : maxCycles ≤ 2 ^ 32)
    (trace : Option (List TraceEvent)) (fuel : Nat) :
    run program (some maxLocalSlots) fuel (init maxCycles) = some .panic ∨
      Vm.run program fuel (Vm.init maxCycles trace) =
        run program (some maxLocalSlots) fuel (init maxCycles) := by
  rw [run, Vm.run, Vm.runFull, start, Vm.start]
  cases hvalidate : program.validate with
  | error e => exact .inr rfl
  | ok u =>
  have hpre := preflight_of_validate hvalidate
  cases hmain : program.functions.lookup program.mainFuncId with
  | none => exact .inr rfl
  | some info =>
  dsimp only
  rw [if_neg (Nat.not_lt.mpr (hpre.locals _ _ hmain)), hkeys _ _ hmain]
  rcases Stepping.run_follows (fun s t h ↦ step_follows hpre h)
    (@stored_start _ _ trace _ hpre hmain hpos hle) fuel with
    ⟨hnone, hnone'⟩ | ⟨r, hr, rfl | ⟨w, hw, rfl⟩⟩
  · exact .inr ((congrArg (Option.map Prod.fst) hnone').trans hnone.symm)
  · exact .inl hr
  · exact .inr ((congrArg (Option.map Prod.fst) hw).trans hr.symm)

end ValueVm

end MiniLang
