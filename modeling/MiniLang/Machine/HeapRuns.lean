import MiniLang.Machine.HeapValues

/-!
# Runs of the garbage-collected machine

Allocations, calls and returns of the garbage-collected machine follow those of the value machine:
an allocation makes a fresh array, whether or not it collects first, a call makes new variables
without arrays, and a return gives up the arrays of the frame. With the other instructions this
makes a simulation in lockstep.

The value machine has no bound on its variables here.

## When it collects

The value machine does not collect, and an array that no variable refers to is no part of its state.
The relation therefore asks only that the arrays of the variables are on the heap with the right
elements, which a collection respects because variables are roots (`holds_of_mem_storeSlots`). Which
other arrays are there, when a collection happens and which slot a new array gets are left open.
That is why the result holds for every threshold of the collector, and why two thresholds give the
same run.

## Before the run

The source allocates the global arrays first, one after the other, and a collection may come between
two of them. `Initialised` is the invariant of that loop: the arrays so far are on the heap with
zeros and are held by their slots, every other slot still has the number 0.
-/

namespace MiniLang

open EStateM (Follows)
open Verifier (Apart)

namespace ValueVm

variable {program : CompiledProgram} {s s' : ValueVm} {t t' : GcVm} {value : Int32}
  {frame : ValueFrame} {frames : List ValueFrame} {storage : Option Nat} {arg1 arg2 : Int32}
  {maxCycles threshold fuel : Nat} {trace : Option (List TraceEvent)} {id : Nat}
  {heap heap' : List (Option HeapArray)} {cells : List LocalValue} {slots : List (Option GcValue)}

/-! ## Allocation -/

/-- The collector finds the variables. -/
theorem holds_of_mem_storeSlots (h : some (.arrayRef id) ∈ storeSlots program t) :
    t.Holds (.arrayRef id) := by
  rw [storeSlots, List.mem_append] at h
  rcases h with h | h
  · obtain ⟨frame, hframe, hslot⟩ := List.mem_flatMap.mp h
    obtain ⟨i, hi⟩ := List.mem_iff_getElem?.mp hslot
    exact .inr (.inr ⟨frame, hframe, i, get_eq hi⟩)
  · obtain ⟨info, -, hglobal⟩ := List.mem_map.mp h
    exact .inr (.inl (List.mem_of_getElem? hglobal))

theorem Owned.exists_data (h : Owned heap cells slots) (hid : some (.arrayRef id) ∈ slots) :
    ∃ elements, arrayData heap id = some elements := by
  obtain ⟨i, hi⟩ := List.mem_iff_getElem?.mp hid
  obtain ⟨hlt, hget⟩ := List.getElem?_eq_some_iff.mp hi
  have hin := h.cellIn.get (h.cellIn.length_eq ▸ hlt) hlt
  generalize cells.get _ = cell at hin
  rw [List.get_eq_getElem, hget] at hin
  cases hin with
  | array hdata => exact ⟨_, hdata⟩

/-- What the variables own stays through an allocation, and the new array belongs to none. -/
theorem Owned.allocate {elements : List Int} (h : Owned t.heapArrays cells slots)
    (hholds : ∀ id, some (.arrayRef id) ∈ slots → t.Holds (.arrayRef id))
    (halloc : Allocates t elements id t') :
    Owned t'.heapArrays cells slots ∧ some (.arrayRef id) ∉ slots := by
  have hothers {id' : Nat} (hid : some (.arrayRef id') ∈ slots) :
      id' ≠ id ∧ arrayData t'.heapArrays id' = arrayData t.heapArrays id' := by
    obtain ⟨elements', hdata⟩ := h.exists_data hid
    rw [hdata]
    exact halloc.others id' elements' (hholds id' hid) hdata
  exact ⟨h.congr fun id' hid ↦ (hothers hid).2, fun hid ↦ (hothers hid).1 rfl⟩

theorem gc_alloc : FollowsGc (Heaped program) (alloc arg1) (GcVm.alloc arg1)
    (ContinuesGc program) := by
  refine gc_require fun hsize ↦ ?_
  refine .reads_right (fun s t h ↦ GcVm.run_arraySize hsize) ?_
  intro s t h
  refine .bind_left (EStateM.run_get s) (.bind_left (EStateM.run_get s) ?_)
  by_cases hfresh : s.fresh = none ∧ s.frames ≠ []
  swap
  · exact EStateM.Result.matches_bind_of_free (run_require_of_not hfresh s) rfl
  obtain ⟨hstack, howned⟩ := h.operands_none hfresh.1
  -- with or without a collection, what is held stays and the new array is held by nothing
  have halloc := allocates_allocArray h.tidy (asUsize arg1)
  refine .bind_left (run_require hfresh s) (.bind_left (EStateM.run_get s)
    (.bind_right (EStateM.run_modifyGet _ t) ?_))
  generalize t.allocArray (asUsize arg1) = result at halloc
  obtain ⟨id, t'⟩ := result
  have hview : SameGcView s t' :=
    ⟨halloc.same.pc.trans h.pc, halloc.same.cycles.trans h.cycles,
      halloc.same.output.trans h.output, (congrArg _ halloc.same.stack).trans h.stack_length,
      (congrArg _ halloc.same.callStack).trans h.view.frames⟩
  -- both push the array, or trap for lack of room
  by_cases hcount : s.operandCount ≥ maxOperandStack
  · rw [if_pos hcount, EStateM.run_bind, GcVm.run_push_full (by rwa [hview.stack])]
    exact .inr ⟨rfl, hview⟩
  · rw [if_neg hcount]
    rw [ge_iff_le, Nat.not_le] at hcount
    refine .bind_left (EStateM.run_modify _ s)
      (.bind_right (GcVm.run_push_room (by rwa [hview.stack]) _) ?_)
    obtain ⟨hkept, hnew⟩ := howned.allocate (fun _ ↦ holds_of_mem_storeSlots) halloc
    have hslots : storeSlots program { t' with stack := .arrayRef id :: t'.stack } =
        storeSlots program t := by
      rw [storeSlots, storeSlots]
      dsimp only
      rw [halloc.same.callStack, halloc.globals]
    refine ⟨rfl, hview.pc, hview.cycles, halloc.same.maxCycles.trans h.maxCycles, hview.output,
      ?_, h.linked, h.globals_length, ?_, ?_, ⟨id, ?_, ?_⟩, { halloc.tidy with }, ?_⟩
    · dsimp only
      rw [halloc.same.callStack]
      exact h.frames
    · dsimp only
      rw [halloc.globals]
      exact h.length_globals
    · dsimp only
      rw [halloc.globals]
      exact h.scalars
    · dsimp only
      rw [halloc.same.stack, hstack]
    · rw [hslots]
      have hdata := halloc.data
      rw [← Int32.toInt_zero, ← List.map_replicate] at hdata
      refine (Owned.single hdata).join hkept fun a ha ↦ ?_
      obtain rfl := List.mem_singleton.mp ha
      exact Owned.separate_fresh hnew
    · rw [operandCount_none hfresh.1] at hcount
      exact hcount

/-! ## Calls -/

theorem run_gcPopArgs {values stack : List GcValue} (args : List GcValue)
    (h : t.stack = values ++ stack) : (GcVm.popArgs values.length args).run t =
      .ok (values.reverse ++ args) { t with stack := stack } := by
  induction values generalizing t args with
  | nil =>
    obtain rfl : t.stack = stack := h
    rfl
  | cons value values ih =>
    have hrest := @ih { t with stack := values ++ stack } (value :: args) rfl
    rw [List.length_cons, GcVm.popArgs, EStateM.run_bind, GcVm.run_pop h, List.reverse_cons,
      List.append_assoc]
    exact hrest

theorem sameFrame_initParams {frame' : GcCallFrame} (args : List GcValue) (slot : Nat)
    (h : SameFrame frame frame') : SameFrame frame (frame'.initParams slot args) := by
  induction args generalizing frame' slot with
  | nil => exact h
  | cons arg args ih =>
    refine ih (slot + 1) ⟨h.returnPc, ?_, ?_⟩
    · rw [GcCallFrame.set, List.length_set, List.length_set]
      exact h.flags
    · rw [GcCallFrame.set, List.length_set]
      exact h.locals

/-- The variables of a callee: its arguments, and the others without a value. -/
theorem cellIn_entered (heap : List (Option HeapArray)) (args : List Int32) (rest : Nat) :
    List.Forall₂ (CellIn heap) (args.map LocalValue.int ++ List.replicate rest .undefined)
      ((args.map fun value ↦ GcValue.int value.toInt).map some ++ List.replicate rest none) := by
  refine List.rel_append ?_ ?_
  · induction args with
    | nil => exact .nil
    | cons arg args ih => exact .cons (.int arg) ih
  · induction rest with
    | zero => exact .nil
    | succ rest ih => exact .cons .undefined ih

theorem gc_call : FollowsGc (fun s t ↦ Heaped program s t ∧ s.pc + 1 ≠ usizeMax)
    (call program none arg1 arg2) (GcVm.call program arg1 arg2) (ContinuesGc program) := by
  refine gc_require fun hargs ↦ ?_
  rw [GcVm.call, if_neg (Int32.not_lt.mpr hargs.1), if_neg (Int32.not_lt.mpr hargs.2)]
  dsimp only
  cases hlookup : program.functions.lookup (asUsize arg1) with
  | none => exact .giveUp rfl
  | some func =>
  rintro s t ⟨h, hpc⟩
  refine .bind_left (EStateM.run_get s) ?_
  -- a check of the value machine: without it there is nothing to compare
  by_cases hcall : asUsize arg2 = func.paramCount ∧ func.paramCount ≤ func.localCount ∧
    s.fresh = none
  swap
  · exact EStateM.Result.matches_bind_of_free (run_require_of_not hcall s) rfl
  obtain ⟨hparams, hle, hfresh⟩ := hcall
  refine .bind_left (run_require ⟨hparams, hle, hfresh⟩ s) ?_
  dsimp only
  refine .bind_left (EStateM.run_get s) (.bind_right (EStateM.run_get t) ?_)
  have hdepth := h.view.frames
  by_cases hfull : s.frames.length ≥ maxFrames
  · rw [if_pos hfull, if_pos (by rwa [hdepth])]
    exact .inr ⟨rfl, h.view⟩
  rw [if_neg hfull, if_neg (by rwa [hdepth]), if_neg (not_not.mpr hparams), hparams]
  refine .bind_left (EStateM.run_get s) ?_
  rw [if_neg (by exact Bool.false_ne_true)]
  -- both pop the arguments, the value machine only if there are as many integers
  obtain ⟨frame, frames, hframes⟩ := List.exists_cons_of_ne_nil h.linked.ne_nil
  rcases popArgs_cases func.paramCount [] hfresh hframes with
    ⟨s', hrun⟩ | ⟨values, operands, hops, hlen, hrun⟩
  · exact EStateM.Result.matches_bind_of_free hrun rfl
  obtain ⟨hstack, howned⟩ := h.operands_none hfresh
  have hcount := h.operands_le
  rw [hframes, intOperands, allInts_cons, hops, List.append_assoc, List.map_append] at hstack
  rw [operandCount_none hfresh, hframes, allInts_cons, hops, List.append_assoc,
    List.length_append] at hcount
  have hpop := run_gcPopArgs [] hstack
  rw [List.length_map, hlen] at hpop
  refine .bind_left hrun (.bind_right hpop (.bind_left (EStateM.run_modify _ _)
    (.bind_right (EStateM.run_modify _ _) ?_)))
  -- the operands of the caller that become variables of the callee
  rw [List.append_nil, List.append_nil, ← List.map_reverse]
  have hargs' : values.reverse.length = func.paramCount := by rw [List.length_reverse, hlen]
  generalize values.reverse = args at hargs'
  -- the first variables are the arguments, the others have no value
  have hsplit : func.localCount = args.length + (func.localCount - func.paramCount) := by omega
  have hsame : innerCells ({ frame with operands := operands } :: frames) = innerCells s.frames := by
    rw [hframes, innerCells_cons, innerCells_cons]
  have hslots := @slots_initParams (GcCallFrame.new func.localCount (t.pc + 1)) []
    (args.map fun value ↦ .int value.toInt) (func.localCount - func.paramCount) (by
      rw [slots_new, List.length_map, ← hsplit, List.nil_append])
  rw [List.nil_append, List.length_nil] at hslots
  refine ⟨rfl, rfl, h.cycles, h.maxCycles, h.output, .cons ?_ ?_, .call ?_ ?_, h.globals_length,
    h.length_globals, h.scalars, ?_, { h.tidy with }, ?_⟩
  · refine sameFrame_initParams _ _ ⟨congrArg (· + 1) h.pc, ?_, ?_⟩
    · rw [GcCallFrame.new, List.length_replicate, List.length_replicate]
    · rw [GcCallFrame.new, List.length_replicate, List.length_append, List.length_map,
        List.length_replicate]
      exact hsplit
  · have hcurrent := h.frames
    rw [hframes] at hcurrent
    obtain ⟨frame', frames', hframe, hrest, hcallers⟩ := List.forall₂_cons_left_iff.mp hcurrent
    rw [hcallers]
    exact .cons { hframe with } hrest
  · have hlinked := h.linked
    rw [hframes] at hlinked
    exact hlinked.update rfl
  · exact hpc
  · dsimp only
    rw [hfresh]
    refine ⟨?_, ?_⟩
    · rw [intOperands, allInts_cons, List.nil_append, allInts_cons]
    · rw [storeCells, storeSlots, innerCells_cons, innerSlots_cons, hslots, hsame,
        List.append_assoc _ (innerCells s.frames), List.append_assoc _ (innerSlots t.callStack)]
      refine howned.append (cellIn_entered _ args _) fun id hid ↦ ?_
      simp at hid
  · rw [operandCount_none (by exact hfresh), allInts_cons, List.nil_append, allInts_cons]
    rw [List.length_append] at hcount ⊢
    dsimp only
    omega

/-! ## Returns -/

/-- The variables of the frame go with it. -/
theorem gc_ret : FollowsGc (Heaped program) ret GcVm.ret (ContinuesGc program) := by
  intro s t h
  rcases pop_cases s with ⟨s', hrun⟩ | ⟨frame, frames, value, operands, hfresh, hframes, hops, hrun⟩
  · exact EStateM.Result.matches_bind_of_free hrun rfl
  -- the value machine asks for a single operand; the other one would leave the rest behind
  by_cases hlast : operands = []
  swap
  · refine .bind_left hrun (.bind_left (EStateM.run_get _) ?_)
    exact EStateM.Result.matches_bind_of_free (run_require_of_not hlast _) rfl
  subst hlast
  obtain ⟨hstack, howned⟩ := h.operands_none hfresh
  have hcount := h.operands_le
  have hcurrent := h.frames
  have hlinked := h.linked
  rw [hframes, intOperands, allInts_cons, hops, List.cons_append, List.map_cons] at hstack
  rw [operandCount_none hfresh, hframes, allInts_cons, hops] at hcount
  rw [hframes] at hlinked hcurrent
  obtain ⟨frame', frames', hframe, hrest, hcallers⟩ := List.forall₂_cons_left_iff.mp hcurrent
  refine .bind_left hrun (.bind_right (GcVm.run_pop hstack) (.bind_left (EStateM.run_get _)
    (.bind_right (EStateM.run_get _) ?_)))
  dsimp only
  rw [hcallers]
  refine .bind_left (run_require rfl _) (.bind_left (EStateM.run_modify _ _)
    (.bind_right (EStateM.run_modify _ _) ?_))
  rw [hframe.returnPc]
  -- the arrays of the frame belong to nobody now, and need not be on the heap
  have hstore : Owned t.heapArrays
      (innerCells frames ++ (arrayInfos program).map fun info ↦ .array (globalData s.globals info))
      (innerSlots frames' ++ (arrayInfos program).map fun info ↦ t.globals[info.slot]?) := by
    rw [storeCells, storeSlots, hframes, hcallers, innerCells_cons, innerSlots_cons,
      List.append_assoc, List.append_assoc] at howned
    exact howned.drop (by rw [length_slots hframe.flags, hframe.locals])
  cases hlinked with
  -- the run ends
  | main hreturn =>
    obtain rfl := List.forall₂_nil_left_iff.mp hrest
    rw [if_pos rfl, if_neg (not_not.mpr hreturn)]
    refine .bind_right (GcVm.run_push_room ?_ _) ⟨rfl, rfl, rfl, h.pc, h.cycles, h.output⟩
    exact Nat.zero_lt_succ _
  -- the caller goes on with the value
  | call hlinked' hreturn =>
    have hleft : Heaped program { s with frames := frames }
        { t with stack := intOperands frames, callStack := frames' } :=
      { h with
        frames := hrest
        linked := hlinked'
        operands := by
          dsimp only
          rw [hfresh]
          exact ⟨rfl, hstore⟩
        tidy := { h.tidy with }
        operands_le := by
          rw [operandCount_none (by exact hfresh)]
          exact Nat.le_of_succ_le hcount }
    obtain ⟨caller, callers, rfl⟩ := List.exists_cons_of_ne_nil hlinked'.ne_nil
    rw [if_neg (List.cons_ne_nil _ _), if_pos hreturn]
    have hroom : (allInts (caller :: callers)).length < maxOperandStack := hcount
    rcases push_cases value { s with frames := caller :: callers } with
      ⟨s', hpush⟩ | ⟨-, ⟨hfull, -⟩ | ⟨-, _, _, hframes', hpush⟩⟩
    · exact EStateM.Result.matches_bind_of_free hpush rfl
    · rw [operandCount_none (by exact hfresh)] at hfull
      exact absurd hfull (Nat.not_le.mpr hroom)
    obtain ⟨rfl, rfl⟩ := List.cons.inj hframes'
    refine .bind_left hpush (.bind_left (EStateM.run_modify _ _) (.bind_right
      (EStateM.run_modify _ _) (.bind_right (GcVm.run_push_room ?_ _) ?_)))
    · exact (length_intOperands _).trans_lt hroom
    · have hints : .int value.toInt :: intOperands (caller :: callers) =
          ((value :: caller.operands) ++ allInts callers).map fun value ↦ .int value.toInt := by
        rw [intOperands, allInts_cons]
        rfl
      have hpushed := hleft.setOperands hfresh rfl hints hroom
      exact ⟨rfl, { hpushed with pc := rfl, tidy := { h.tidy with } }⟩

/-! ## Instructions -/

/-- **Every instruction** of the garbage-collected machine follows that of the value machine. -/
theorem gc_executeInstruction (hpre : Preflight program)
    (hapart : program.globals.values.Pairwise Apart) (opcode : Opcode) (arg1 arg2 : Int32) :
    FollowsGc (fun s t ↦ Heaped program s t ∧ s.pc + 1 ≠ usizeMax)
      (executeInstruction program none opcode arg1 arg2)
      (GcVm.executeInstruction program opcode arg1 arg2) (ContinuesGc program) := by
  have of_heaped {x : ValueVmM Flow} {y : GcVm.GcVmM Bool}
      (h : FollowsGc (Heaped program) x y (ContinuesGc program)) :
      FollowsGc (fun s t ↦ Heaped program s t ∧ s.pc + 1 ≠ usizeMax) x y (ContinuesGc program) :=
    h.weaken fun _ _ h ↦ h.1
  cases opcode with
  | loadConst => exact of_heaped (gc_pushNext arg1)
  | loadLocal => exact of_heaped gc_loadLocal
  | storeLocal => exact of_heaped gc_storeLocal
  | loadGlobal => exact of_heaped gc_loadGlobal
  | storeGlobal => exact of_heaped (gc_storeGlobal hpre.arrays)
  | add => exact of_heaped (gc_binary toInt_add)
  | sub => exact of_heaped (gc_binary toInt_sub)
  | mul => exact of_heaped (gc_binary toInt_mul)
  | div => exact of_heaped gc_div
  | neg => exact of_heaped gc_neg
  | eq => exact of_heaped (gc_binary fun _ _ ↦ toInt_flag Int32.toInt_inj.symm)
  | ne => exact of_heaped (gc_binary fun _ _ ↦ toInt_flag (not_congr Int32.toInt_inj.symm))
  | lt => exact of_heaped (gc_binary fun _ _ ↦ toInt_flag Int32.lt_iff_toInt_lt)
  | gt => exact of_heaped (gc_binary fun _ _ ↦ toInt_flag Int32.lt_iff_toInt_lt)
  | le => exact of_heaped (gc_binary fun _ _ ↦ toInt_flag Int32.le_iff_toInt_le)
  | ge => exact of_heaped (gc_binary fun _ _ ↦ toInt_flag Int32.le_iff_toInt_le)
  | and =>
    refine of_heaped (gc_logical fun a b ↦ toInt_flag ?_)
    rw [Bool.and_eq_true, isTruthy_int, isTruthy_int]
  | or =>
    refine of_heaped (gc_logical fun a b ↦ toInt_flag ?_)
    rw [Bool.or_eq_true, isTruthy_int, isTruthy_int]
  | not => exact of_heaped gc_not
  | jump => exact of_heaped (gc_jump _)
  | jumpIfFalse =>
    refine of_heaped (@gc_branch _ _ (fun cond ↦ !cond.isTruthy) (fun a ↦ ?_) arg1)
    rw [decide_eq_true_iff, Bool.not_eq_true', ← Bool.not_eq_true, isTruthy_int, not_not]
  | jumpIfTrue =>
    refine of_heaped (@gc_branch _ _ GcValue.isTruthy (fun a ↦ ?_) arg1)
    rw [decide_eq_true_iff, isTruthy_int]
  | call => exact gc_call
  | «return» => exact of_heaped gc_ret
  | arrayLoad => exact of_heaped (gc_arrayLoad hpre.arrays)
  | arrayStore => exact of_heaped (gc_arrayStore hpre.arrays hapart)
  | localArrayLoad => exact of_heaped gc_localArrayLoad
  | localArrayStore => exact of_heaped gc_localArrayStore
  | arrayNew => exact of_heaped gc_alloc
  | allocArray => exact of_heaped gc_alloc
  | print => exact of_heaped gc_print
  | pop =>
    exact of_heaped (gc_pop.bind fun _ _ ↦ .assuming fun _ ↦ gc_next.weaken fun _ _ h ↦ h.1)
  | dup => exact of_heaped gc_dup
  | halt => exact .giveUp rfl

/-! ## Steps -/

end ValueVm

/-- What both machines report. -/
def GcVmResult.observed (result : GcVmResult) : VmResult where
  success := result.success
  returnValue := result.returnValue
  trapCode := result.trapCode
  trapMessage := result.trapMessage
  cycles := result.cycles
  output := result.output
  pc := result.pc
  stackDepth := result.stackDepth
  frameDepth := result.frameDepth

def GcVmHalt.observed : GcVmHalt → VmHalt
  | .result r => .result r.observed
  | .panic => .panic

namespace ValueVm

theorem SameGcView.trapResult_eq (h : SameGcView s t) (code : TrapCode) (message : String) :
    (t.makeTrapResult code message).observed = s.makeTrapResult code message := by
  rw [GcVm.makeTrapResult, makeTrapResult, GcVmResult.observed, h.pc, h.cycles, h.output, h.stack,
    h.frames]

theorem Heaped.recorded (h : Heaped program s t) (before : GcVm) (instr : Instruction)
    (outcome : TraceOutcome) : Heaped program s (GcVm.recordTrace before t instr outcome) :=
  { h with tidy := { h.tidy with } }

theorem Heaped.active (h : Heaped program s t) : t.callStack ≠ [] := by
  intro hnil
  have hlength := h.view.frames
  rw [hnil, List.length_nil] at hlength
  exact h.linked.ne_nil (List.eq_nil_of_length_eq_zero hlength.symm)

theorem gc_afterInstruction {flow : Flow} {advance : Bool}
    (h : ContinuesGc program flow advance s t) (before : GcVm) (instr : Instruction) :
    (∃ s' t', afterInstruction (.ok flow s) = .inl s' ∧
      GcVm.afterInstruction before instr t advance = .inl t' ∧ Heaped program s' t') ∨
    ∃ halt vm, afterInstruction (.ok flow s) = .inr halt.observed ∧
      GcVm.afterInstruction before instr t advance = .inr (halt, vm) := by
  cases flow with
  | next =>
    obtain ⟨rfl, hst⟩ := h
    have hst' : Heaped program { s with pc := s.pc + 1 } { t with pc := t.pc + 1 } :=
      { hst with pc := congrArg (· + 1) hst.pc, tidy := { hst.tidy with } }
    refine .inl ⟨_, _, rfl, ?_, hst'.recorded before instr .continue⟩
    exact if_neg hst.active
  | jump =>
    obtain ⟨rfl, hst⟩ := h
    refine .inl ⟨_, _, rfl, ?_, hst.recorded before instr .jump⟩
    exact if_neg hst.active
  | exit value =>
    obtain ⟨rfl, hframes, hstack, hpc, hcycles, houtput⟩ := h
    refine .inr ⟨_, _, congrArg Sum.inr ?_, if_pos hframes⟩
    simp [GcVm.recordTrace, exitResult, GcVmHalt.observed, GcVmResult.observed, GcValue.toI64,
      hframes, hstack, hpc, hcycles, houtput]

/-- **The step lemma.** -/
theorem gc_step (hpre : Preflight program) (hapart : program.globals.values.Pairwise Apart)
    (h : Heaped program s t) :
    (∃ s' t', step program none s = .inl s' ∧ GcVm.step program t = .inl t' ∧
      Heaped program s' t') ∨
    ∃ r, step program none s = .inr r ∧
      (r = .panic ∨ ∃ w, GcVm.step program t = .inr w ∧ r = w.1.observed) := by
  rw [step, GcVm.step]
  by_cases hlimit : s.maxCycles > 0 ∧ s.cycles ≥ s.maxCycles
  · rw [if_pos hlimit, if_pos (by rwa [h.maxCycles, h.cycles])]
    exact .inr ⟨_, rfl, .inr ⟨_, rfl, by rw [GcVmHalt.observed, h.view.trapResult_eq, h.maxCycles]⟩⟩
  have hcode : program.instructions[t.pc]? = program.instructions[s.pc]? := by rw [h.pc]
  rw [if_neg hlimit, if_neg (by rwa [h.maxCycles, h.cycles]), hcode]
  cases hfetch : program.instructions[s.pc]? with
  | none =>
    exact .inr ⟨_, rfl, .inr ⟨_, rfl, by rw [GcVmHalt.observed, h.view.trapResult_eq, h.pc]⟩⟩
  | some instr =>
  have hcycle : Heaped program { s with cycles := s.cycles + 1 } { t with cycles := t.cycles + 1 } :=
    { h with cycles := congrArg (· + 1) h.cycles, tidy := { h.tidy with } }
  -- the return address of a call is not that of `main`
  have hpc : s.pc + 1 ≠ usizeMax := by
    have hlt := (List.getElem?_eq_some_iff.mp hfetch).1.trans_le hpre.count
    rw [maxInstructions] at hlt
    rw [usizeMax]
    omega
  have hexec := gc_executeInstruction hpre hapart instr.opcode instr.arg1 instr.arg2 _ _
    ⟨hcycle, hpc⟩
  dsimp only
  cases hrun : (executeInstruction program none instr.opcode instr.arg1 instr.arg2).run
      { s with cycles := s.cycles + 1 } with
  | ok flow s' =>
    rw [hrun] at hexec
    obtain ⟨advance, t', hrun', hcontinues⟩ := hexec.ok_inv
    rw [hrun']
    rcases gc_afterInstruction hcontinues t instr with hnext | ⟨halt, vm, hend, hend'⟩
    · exact .inl hnext
    · exact .inr ⟨_, hend, .inr ⟨_, hend', rfl⟩⟩
  | error stop s' =>
    rw [hrun] at hexec
    cases stop with
    | panic => exact .inr ⟨_, rfl, .inl rfl⟩
    | trap code message =>
      obtain ⟨t', hrun', hview⟩ := hexec.error_inv (by simp)
      rw [hrun']
      exact .inr ⟨_, rfl, .inr ⟨_, rfl, by rw [GcVmHalt.observed, hview.trapResult_eq]⟩⟩

/-! ## Runs -/

/-- The global arrays `done` are on the heap and hold zeros, every other global slot holds 0. -/
structure Initialised (done : List GlobalInfo) (vm vm' : GcVm) : Prop where
  same : SameBut vm vm'
  tidy : Tidy vm'
  length : vm'.globals.length = maxGlobalSlots
  owned : Owned vm'.heapArrays (done.map fun info ↦ .array (List.replicate info.arraySize 0))
    (done.map fun info ↦ vm'.globals[info.slot]?)
  scalars : ∀ slot < maxGlobalSlots, (∀ info ∈ done, info.slot ≠ slot) →
    vm'.globals[slot]? = some (.int 0)

theorem Initialised.add {done : List GlobalInfo} {vm vm' : GcVm} (h : Initialised done vm vm')
    {info : GlobalInfo} (hslot : info.slot < maxGlobalSlots)
    (hne : ∀ info' ∈ done, info'.slot ≠ info.slot) :
    Initialised (done ++ [info]) vm { (vm'.allocArray info.arraySize).2 with
      globals := (vm'.allocArray info.arraySize).2.globals.set info.slot
        (.arrayRef (vm'.allocArray info.arraySize).1) } := by
  have halloc := allocates_allocArray h.tidy info.arraySize
  generalize vm'.allocArray info.arraySize = result at halloc
  obtain ⟨id, after⟩ := result
  have hglobals := halloc.globals
  have hlength : after.globals.length = maxGlobalSlots := by rw [hglobals, h.length]
  have hself : (after.globals.set info.slot (.arrayRef id))[info.slot]? = some (.arrayRef id) :=
    List.getElem?_set_self (by rwa [hlength])
  have hothers {slot : Nat} (hslot : info.slot ≠ slot) :
      (after.globals.set info.slot (.arrayRef id))[slot]? = vm'.globals[slot]? := by
    rw [List.getElem?_set_ne hslot]
    exact congrArg (·[slot]?) hglobals
  obtain ⟨hkept, hnew⟩ := h.owned.allocate (fun id' hid ↦ by
    obtain ⟨info', -, hglobal⟩ := List.mem_map.mp hid
    exact .inr (.inl (List.mem_of_getElem? hglobal))) halloc
  have hdata := halloc.data
  rw [← Int32.toInt_zero, ← List.map_replicate] at hdata
  have hslots : ((done ++ [info]).map fun info' ↦
      (after.globals.set info.slot (.arrayRef id))[info'.slot]?) =
      (done.map fun info' ↦ vm'.globals[info'.slot]?) ++ [some (.arrayRef id)] := by
    rw [List.map_append, List.map_singleton, hself]
    exact congrArg (· ++ [some (.arrayRef id)])
      (List.map_congr_left fun info' hmem ↦ hothers (hne info' hmem).symm)
  refine ⟨?_, { halloc.tidy with }, List.length_set.trans hlength, ?_, ?_⟩
  · have hsame := halloc.same
    exact ⟨hsame.stack.trans h.same.stack, hsame.callStack.trans h.same.callStack,
      hsame.pc.trans h.same.pc, hsame.cycles.trans h.same.cycles,
      hsame.maxCycles.trans h.same.maxCycles, hsame.output.trans h.same.output⟩
  · dsimp only
    rw [hslots, List.map_append, List.map_singleton]
    refine hkept.join (Owned.single hdata) fun a ha b hb ↦ ?_
    obtain rfl := List.mem_singleton.mp hb
    exact (Owned.separate_fresh hnew a ha).symm
  · intro slot hlt houtside
    rw [List.forall_mem_append] at houtside
    exact (hothers (houtside.2 info (List.mem_singleton_self info))).trans
      (h.scalars slot hlt houtside.1)

/-- All global arrays are allocated before the run. -/
theorem Initialised.run {infos done : List GlobalInfo} {vm vm' : GcVm}
    (h : Initialised done vm vm')
    (hslots : ∀ info ∈ infos, info.isArray = true → info.slot < maxGlobalSlots)
    (hne : (done ++ infos.filter GlobalInfo.isArray).Pairwise fun info info' ↦
      info.slot ≠ info'.slot) :
    ∃ vm₁, GcVm.initGlobalArrays infos vm' = some vm₁ ∧
      Initialised (done ++ infos.filter GlobalInfo.isArray) vm vm₁ := by
  induction infos generalizing done vm' with
  | nil => exact ⟨vm', rfl, by rwa [List.filter_nil, List.append_nil]⟩
  | cons info infos ih =>
    obtain ⟨hslot, hslots⟩ := List.forall_mem_cons.mp hslots
    rw [GcVm.initGlobalArrays]
    by_cases harray : info.isArray = true
    · rw [List.filter_cons_of_pos harray, List.append_cons] at hne ⊢
      have hpair := (List.pairwise_append.mp (List.pairwise_append.mp hne).1).2.2
      have hadd := h.add (hslot harray)
        fun info' hmem ↦ hpair info' hmem info (List.mem_singleton_self info)
      have hlength : info.slot < (vm'.allocArray info.arraySize).2.globals.length := by
        have hset := hadd.length
        dsimp only at hset
        rw [List.length_set] at hset
        rw [hset]
        exact hslot harray
      rw [if_pos harray]
      dsimp only
      rw [if_pos hlength]
      exact ih hadd hslots hne
    · rw [List.filter_cons_of_neg harray] at hne ⊢
      rw [if_neg harray]
      exact ih h hslots hne

/-- The machine before a run, with a threshold of its own for the collector. -/
def gcInit (maxCycles threshold : Nat) (trace : Option (List TraceEvent)) : GcVm :=
  { GcVm.init maxCycles trace with gcThreshold := threshold }

theorem slots_ne (harrays : ArraysFit program) (hapart : program.globals.values.Pairwise Apart) :
    (arrayInfos program).Pairwise fun info info' ↦ info.slot ≠ info'.slot := by
  have hpos {info : GlobalInfo} (h : info ∈ arrayInfos program) :
      info.isArray = true ∧ 0 < info.arraySize := by
    obtain ⟨hmem, harray⟩ := mem_arrayInfos.mp h
    exact ⟨harray, (harrays _ _ ⟨info, hmem, harray, rfl, rfl⟩).1⟩
  refine (hapart.filter _).imp_of_mem fun {info info'} hmem hmem' h ↦ ?_
  obtain ⟨harray, hsize⟩ := hpos hmem
  obtain ⟨harray', hsize'⟩ := hpos hmem'
  rw [Apart, Verifier.width, Verifier.width, if_pos harray, if_pos harray'] at h
  omega

/-- The state both machines start in. -/
theorem exists_gcStart {info : FunctionInfo} (hpre : Preflight program)
    (hapart : program.globals.values.Pairwise Apart) (maxCycles threshold : Nat)
    (trace : Option (List TraceEvent)) : ∃ vm,
      GcVm.initGlobalArrays program.globals.values (gcInit maxCycles threshold trace) = some vm ∧
      Heaped program { init maxCycles with
          pc := info.entryPc
          frames := [⟨usizeMax, program.mainFuncId, List.replicate info.localCount .undefined, []⟩] }
        { vm with
          pc := info.entryPc
          callStack := GcCallFrame.new info.localCount usizeMax :: vm.callStack } := by
  have hnew : Initialised [] (gcInit maxCycles threshold trace) (gcInit maxCycles threshold trace) := by
    refine ⟨⟨rfl, rfl, rfl, rfl, rfl, rfl⟩, ⟨.nil, rfl⟩, List.length_replicate, ⟨.nil, .nil⟩, ?_⟩
    intro slot hslot _
    exact (List.getElem?_replicate ..).trans (if_pos hslot)
  have hfits {info : GlobalInfo} (hmem : info ∈ arrayInfos program) :
      0 < info.arraySize ∧ info.slot + info.arraySize ≤ maxGlobalSlots := by
    obtain ⟨hmem, harray⟩ := mem_arrayInfos.mp hmem
    exact hpre.arrays _ _ ⟨info, hmem, harray, rfl, rfl⟩
  have hslots (info : GlobalInfo) (hmem : info ∈ program.globals.values)
      (harray : info.isArray = true) : info.slot < maxGlobalSlots := by
    have hlast := hfits (mem_arrayInfos.mpr ⟨hmem, harray⟩)
    omega
  -- the global arrays are allocated one by one, each in a slot of its own
  obtain ⟨vm, hinit, hvm⟩ := hnew.run hslots (slots_ne hpre.arrays hapart)
  have hempty : vm.callStack = [] := hvm.same.callStack
  have hframe := cellIn_entered vm.heapArrays [] info.localCount
  have hcells : ((arrayInfos program).map fun info ↦ LocalValue.array (List.replicate info.arraySize 0)) =
      (arrayInfos program).map fun info ↦
        .array (globalData (List.replicate maxGlobalSlots 0) info) := by
    refine List.map_congr_left fun info hmem ↦ congrArg LocalValue.array ?_
    have hlast := hfits hmem
    rw [globalData, List.drop_replicate, List.take_replicate, Nat.min_eq_left (by omega)]
  refine ⟨vm, hinit, rfl, hvm.same.cycles, hvm.same.maxCycles, hvm.same.output, ?_, .main rfl,
    List.length_replicate, hvm.length, fun slot value hscalar hvalue ↦ ?_, ⟨hvm.same.stack, ?_⟩,
    { hvm.tidy with }, Nat.zero_le _⟩
  · dsimp only
    rw [hempty]
    refine .cons ⟨rfl, ?_, ?_⟩ .nil
    · rw [GcCallFrame.new, List.length_replicate, List.length_replicate]
    · rw [GcCallFrame.new, List.length_replicate, List.length_replicate]
  · obtain rfl := List.eq_of_mem_replicate (List.mem_of_getElem? hvalue)
    refine hvm.scalars slot hscalar.1 fun info' hmem ↦ ?_
    have hpos := (hfits hmem).1
    have houtside := hscalar.2 info' (mem_arrayInfos.mp hmem).1 (mem_arrayInfos.mp hmem).2
    omega
  · rw [storeCells, storeSlots, innerCells_cons, innerSlots_cons, slots_new, List.append_assoc,
      List.append_assoc]
    dsimp only
    rw [hempty]
    refine Owned.append ?_ hframe fun id hid ↦ ?_
    · exact hcells ▸ hvm.owned
    · exact absurd (List.eq_of_mem_replicate hid) (by simp)

/-- **The garbage-collected machine computes the values**, whenever it collects. Wherever a run of
the value machine does not give up, that of the garbage-collected machine goes the same way. -/
theorem run_gc_eq (hapart : program.globals.values.Pairwise Apart) (maxCycles threshold : Nat)
    (trace : Option (List TraceEvent)) (fuel : Nat) :
    run program none fuel (init maxCycles) = some .panic ∨
      (GcVm.run program fuel (gcInit maxCycles threshold trace)).map GcVmHalt.observed =
        run program none fuel (init maxCycles) := by
  rw [run, GcVm.run, GcVm.runFull, start, GcVm.start]
  cases hvalidate : program.validate with
  | error e => exact .inr rfl
  | ok u =>
  have hpre := preflight_of_validate hvalidate
  cases hmain : program.functions.lookup program.mainFuncId with
  | none => exact .inr rfl
  | some info =>
  obtain ⟨vm, hinit, hstart⟩ := @exists_gcStart _ info hpre hapart maxCycles threshold trace
  dsimp only
  rw [hinit]
  rcases Stepping.run_follows (fun s t h ↦ gc_step hpre hapart h) hstart fuel with
    ⟨hnone, hnone'⟩ | ⟨r, hr, rfl | ⟨w, hw, rfl⟩⟩
  · exact .inr ((congrArg (fun r ↦ (r.map Prod.fst).map GcVmHalt.observed) hnone').trans hnone.symm)
  · exact .inl hr
  · exact .inr ((congrArg (fun r ↦ (r.map Prod.fst).map GcVmHalt.observed) hw).trans hr.symm)

end ValueVm

end MiniLang
