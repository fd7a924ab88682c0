import MiniLang.Bytecode.DepthCheck
import MiniLang.Lib.Coupling
import MiniLang.Machine.GcRules
import MiniLang.Machine.HeapStore
import MiniLang.Machine.Preflight

/-!
# The garbage-collected machine computes the values

## The relation

A state of the garbage-collected machine stores a state of the value machine when the program
counter and the counters agree, the operands are the same integers, and the variables of the frames
and the global arrays own the arrays on the heap. A fresh array is owned by the reference on top of
the operands.

## The argument

Each operand function follows its counterpart. Since every array has one owner, the write to an
element is seen in the owner only. Nothing depends on when the machine collects.
-/

namespace MiniLang

open EStateM (Follows)
open Verifier (Apart)

namespace ValueVm

variable {program : CompiledProgram} {s s' : ValueVm} {t t' : GcVm} {raw : Int32} {value : Int32}
  {frame : ValueFrame} {frames : List ValueFrame} {cell : LocalValue} {storage : Option Nat}
  {arg1 arg2 : Int32} {heap : List (Option HeapArray)} {cells : List LocalValue}
  {slots : List (Option GcValue)}

/-! ## Stored states -/

/-- The variables of frames, innermost frame first. -/
def innerCells (frames : List ValueFrame) : List LocalValue := frames.flatMap ValueFrame.cells

def innerSlots (frames : List GcCallFrame) : List (Option GcValue) :=
  frames.flatMap GcCallFrame.slots

def arrayInfos (program : CompiledProgram) : List GlobalInfo :=
  program.globals.values.filter GlobalInfo.isArray

/-- The elements of a global array. -/
def globalData (globals : List Int32) (info : GlobalInfo) : List Int32 :=
  (globals.drop info.slot).take info.arraySize

/-- The variables of `s` that may hold arrays: those of the frames and the global arrays. -/
def storeCells (program : CompiledProgram) (s : ValueVm) : List LocalValue :=
  innerCells s.frames ++ (arrayInfos program).map fun info ↦ .array (globalData s.globals info)

def storeSlots (program : CompiledProgram) (t : GcVm) : List (Option GcValue) :=
  innerSlots t.callStack ++ (arrayInfos program).map fun info ↦ t.globals[info.slot]?

/-- The operands that are integers. -/
def intOperands (frames : List ValueFrame) : List GcValue :=
  (allInts frames).map fun value ↦ .int value.toInt

/-- The frames agree on where to return and on the number of variables. -/
structure SameFrame (frame : ValueFrame) (frame' : GcCallFrame) : Prop where
  returnPc : frame'.returnPc = frame.returnPc
  flags : frame'.initFlags.length = frame'.locals.length
  locals : frame'.locals.length = frame.cells.length

/-- The outermost frame is the one that returns nowhere. -/
inductive Linked : List ValueFrame → Prop
  | main {frame : ValueFrame} : frame.returnPc = usizeMax → Linked [frame]
  | call {frame : ValueFrame} {frames : List ValueFrame} : Linked frames →
    frame.returnPc ≠ usizeMax → Linked (frame :: frames)

/-- The operands, and what the variables own; a fresh array is owned by the top operand. -/
def OperandsOwn (heap : List (Option HeapArray)) (cells : List LocalValue)
    (slots : List (Option GcValue)) (stack ints : List GcValue) : Option Nat → Prop
  | none => stack = ints ∧ Owned heap cells slots
  | some size => ∃ id, stack = .arrayRef id :: ints ∧
    Owned heap (.array (List.replicate size 0) :: cells) (some (.arrayRef id) :: slots)

/-- `t` stores the state `s` of the value machine. -/
structure Heaped (program : CompiledProgram) (s : ValueVm) (t : GcVm) : Prop where
  pc : t.pc = s.pc
  cycles : t.cycles = s.cycles
  maxCycles : t.maxCycles = s.maxCycles
  output : t.output = s.output
  frames : List.Forall₂ SameFrame s.frames t.callStack
  linked : Linked s.frames
  globals_length : s.globals.length = maxGlobalSlots
  length_globals : t.globals.length = maxGlobalSlots
  scalars : ∀ (slot : Nat) (value : Int32), ScalarGlobal program slot →
    s.globals[slot]? = some value → t.globals[slot]? = some (.int value.toInt)
  operands : OperandsOwn t.heapArrays (storeCells program s) (storeSlots program t) t.stack
    (intOperands s.frames) s.fresh
  tidy : Tidy t
  operands_le : s.operandCount ≤ maxOperandStack

/-- What a result shows of a state. -/
structure SameGcView (s : ValueVm) (t : GcVm) : Prop where
  pc : t.pc = s.pc
  cycles : t.cycles = s.cycles
  output : t.output = s.output
  stack : t.stack.length = s.operandCount
  frames : t.callStack.length = s.frames.length

theorem Linked.ne_nil (h : Linked frames) : frames ≠ [] := by
  intro hnil
  subst hnil
  cases h

theorem Linked.update (h : Linked (frame :: frames)) {frame' : ValueFrame}
    (hpc : frame'.returnPc = frame.returnPc) : Linked (frame' :: frames) := by
  cases h with
  | main hreturn => exact .main (hpc.trans hreturn)
  | call hrest hreturn => exact .call hrest (hpc ▸ hreturn)

theorem innerCells_cons (frame : ValueFrame) (frames : List ValueFrame) :
    innerCells (frame :: frames) = frame.cells ++ innerCells frames := List.flatMap_cons

theorem innerSlots_cons (frame : GcCallFrame) (frames : List GcCallFrame) :
    innerSlots (frame :: frames) = frame.slots ++ innerSlots frames := List.flatMap_cons

theorem length_intOperands (frames : List ValueFrame) :
    (intOperands frames).length = (allInts frames).length := List.length_map ..

theorem operandCount_none (h : s.fresh = none) : s.operandCount = (allInts s.frames).length := by
  rw [operandCount, h]
  rfl

namespace Heaped

theorem operands_none (h : Heaped program s t) (hfresh : s.fresh = none) :
    t.stack = intOperands s.frames ∧
      Owned t.heapArrays (storeCells program s) (storeSlots program t) := by
  have hoperands := h.operands
  rw [hfresh] at hoperands
  exact hoperands

theorem stack_length (h : Heaped program s t) : t.stack.length = s.operandCount := by
  have hoperands := h.operands
  cases hfresh : s.fresh with
  | none => rw [(h.operands_none hfresh).1, operandCount_none hfresh, length_intOperands]
  | some size =>
    rw [hfresh] at hoperands
    obtain ⟨id, hstack, -⟩ := hoperands
    rw [hstack, List.length_cons, length_intOperands, operandCount, hfresh, ints_eq]
    rfl

theorem view (h : Heaped program s t) : SameGcView s t :=
  ⟨h.pc, h.cycles, h.output, h.stack_length, h.frames.length_eq.symm⟩

/-- What the variables own, with or without a fresh array. -/
theorem owned (h : Heaped program s t) :
    ∃ cells slots, cells.length = slots.length ∧
      Owned t.heapArrays (cells ++ storeCells program s) (slots ++ storeSlots program t) := by
  have hoperands := h.operands
  cases hfresh : s.fresh with
  | none => exact ⟨[], [], rfl, (h.operands_none hfresh).2⟩
  | some size =>
    rw [hfresh] at hoperands
    obtain ⟨id, -, howned⟩ := hoperands
    exact ⟨[_], [_], rfl, howned⟩

/-- The current frame. -/
theorem current (h : Heaped program s t) (hframes : s.frames = frame :: frames) :
    ∃ frame' frames', t.callStack = frame' :: frames' ∧ SameFrame frame frame' ∧
      List.Forall₂ SameFrame frames frames' := by
  have hcurrent := h.frames
  rw [hframes] at hcurrent
  obtain ⟨frame', frames', hframe, hrest, hframes'⟩ := List.forall₂_cons_left_iff.mp hcurrent
  exact ⟨frame', frames', hframes', hframe, hrest⟩

/-- A variable of the current frame. -/
theorem exists_slot (h : Heaped program s t) (hframes : s.frames = frame :: frames) {slot : Nat}
    (hcell : frame.cells[slot]? = some cell) : ∃ frame' frames' value,
      t.callStack = frame' :: frames' ∧ SameFrame frame frame' ∧
        frame'.slots[slot]? = some value ∧ CellIn t.heapArrays cell value := by
  obtain ⟨frame', frames', hframes', hframe, -⟩ := h.current hframes
  obtain ⟨cells, slots, hlength, howned⟩ := h.owned
  rw [storeCells, storeSlots, hframes, hframes', innerCells_cons, innerSlots_cons] at howned
  have hlt := (List.getElem?_eq_some_iff.mp hcell).1
  have hslots := length_slots hframe.flags
  obtain ⟨value, hvalue, hin⟩ := @Owned.get _ _ cell _ (cells.length + slot) howned (by
    rw [List.getElem?_append_right (Nat.le_add_right ..), Nat.add_sub_cancel_left,
      List.append_assoc, List.getElem?_append_left hlt]
    exact hcell)
  refine ⟨frame', frames', value, hframes', hframe, ?_, hin⟩
  rw [hlength, List.getElem?_append_right (Nat.le_add_right ..), Nat.add_sub_cancel_left,
    List.append_assoc, List.getElem?_append_left (by rw [hslots, hframe.locals]; exact hlt)] at hvalue
  exact hvalue

/-- Other integers as operands of the current frame. -/
theorem setOperands (h : Heaped program s t) (hfresh : s.fresh = none)
    (hframes : s.frames = frame :: frames) {operands : List Int32} {stack : List GcValue}
    (hstack : stack = (operands ++ allInts frames).map fun value ↦ .int value.toInt)
    (hcount : (operands ++ allInts frames).length ≤ maxOperandStack) :
    Heaped program { s with frames := { frame with operands := operands } :: frames }
      { t with stack := stack } := by
  have hcurrent := h.frames
  have hlinked := h.linked
  rw [hframes] at hcurrent hlinked
  obtain ⟨-, howned⟩ := h.operands_none hfresh
  rw [storeCells, hframes, innerCells_cons] at howned
  have hint : stack = intOperands ({ frame with operands := operands } :: frames) := by
    rw [intOperands, allInts_cons]
    exact hstack
  refine { h with
    frames := ?_
    linked := hlinked.update rfl
    operands := ?_
    tidy := { h.tidy with }
    operands_le := ?_ }
  · obtain ⟨frame', frames', hframe, hrest, hframes'⟩ := List.forall₂_cons_left_iff.mp hcurrent
    dsimp only
    rw [hframes']
    exact .cons { hframe with } hrest
  · dsimp only
    rw [hfresh]
    refine ⟨hint, ?_⟩
    rw [storeCells, innerCells_cons]
    exact howned
  · rw [operandCount_none (by exact hfresh)]
    dsimp only
    rw [allInts_cons]
    exact hcount

/-- Another value for a variable of the current frame. -/
theorem setCell (h : Heaped program s t) {frame' : GcCallFrame} {frames' : List GcCallFrame}
    (hframes : s.frames = frame :: frames) (hframes' : t.callStack = frame' :: frames')
    {slot : Nat} {value : GcValue} {fresh : Option Nat} {stack : List GcValue}
    (hslot : slot < frame.cells.length)
    (hstack : stack = intOperands s.frames) (hfresh : fresh = none)
    (howned : Owned t.heapArrays ((storeCells program s).set slot cell)
      ((storeSlots program t).set slot (some value))) :
    Heaped program
      { s with
        frames := { frame with cells := frame.cells.set slot cell } :: frames
        fresh := fresh }
      { t with
        stack := stack
        callStack := frame'.set slot value :: frames' } := by
  have hcurrent := h.frames
  have hlinked := h.linked
  have hcount := h.operands_le
  rw [hframes, hframes'] at hcurrent
  rw [hframes] at hlinked hstack
  obtain ⟨hframe, hrest⟩ := List.forall₂_cons.mp hcurrent
  have hslots : slot < frame'.slots.length := by
    rw [length_slots hframe.flags, hframe.locals]
    exact hslot
  subst hfresh
  refine { h with
    frames := .cons ⟨hframe.returnPc, ?_, ?_⟩ hrest
    linked := hlinked.update rfl
    operands := ⟨?_, ?_⟩
    tidy := { h.tidy with }
    operands_le := ?_ }
  · rw [GcCallFrame.set, List.length_set, List.length_set]
    exact hframe.flags
  · rw [GcCallFrame.set, List.length_set, List.length_set]
    exact hframe.locals
  · rw [hstack, intOperands, intOperands, allInts_cons, allInts_cons]
  · rw [storeCells, storeSlots, hframes, hframes', innerCells_cons, innerSlots_cons,
      List.append_assoc, List.append_assoc, List.set_append_left _ _ hslot,
      List.set_append_left _ _ hslots] at howned
    rw [storeCells, storeSlots, innerCells_cons, innerSlots_cons, List.append_assoc,
      List.append_assoc, slots_set]
    exact howned
  · rw [operandCount_none rfl, allInts_cons]
    refine le_trans ?_ hcount
    rw [operandCount, ints_eq, hframes, allInts_cons]
    exact Nat.le_add_right _ _

end Heaped

/-! ## Operand functions -/

/-- Between two operand functions: there is no fresh array. -/
def SettledGc (program : CompiledProgram) (s : ValueVm) (t : GcVm) : Prop :=
  Heaped program s t ∧ s.fresh = none

/-- `y` follows `x`, which may give up. -/
abbrev FollowsGc {α β : Type} (P : ValueVm → GcVm → Prop) (x : ValueVmM α) (y : GcVm.GcVmM β)
    (Q : α → β → ValueVm → GcVm → Prop) : Prop :=
  Follows (· = .panic) SameGcView P x y Q

theorem gc_matches_givesUp {α β : Type} {x : ValueVmM α} {r : EStateM.Result Stop GcVm β}
    {Q : α → β → ValueVm → GcVm → Prop} (h : GivesUp x s) :
    (x.run s).Matches (· = .panic) Q SameGcView r := by
  obtain ⟨s', hrun⟩ := h
  rw [hrun]
  exact EStateM.Result.matches_of_free rfl

theorem gc_pop : FollowsGc (Heaped program) pop GcVm.pop
    fun v w s t ↦ w = .int v.toInt ∧ SettledGc program s t := by
  intro s t h
  rcases pop_cases s with hup | ⟨frame, frames, value, operands, hfresh, hframes, hops, hrun⟩
  · exact gc_matches_givesUp hup
  have hstack := (h.operands_none hfresh).1
  have hcount := h.operands_le
  rw [hframes, intOperands, allInts_cons, hops, List.cons_append, List.map_cons] at hstack
  rw [operandCount_none hfresh, hframes, allInts_cons, hops] at hcount
  rw [hrun, GcVm.run_pop hstack]
  exact ⟨rfl, h.setOperands hfresh hframes rfl (Nat.le_of_succ_le hcount), hfresh⟩

theorem gc_popInt : FollowsGc (Heaped program) pop GcVm.popInt
    fun v w s t ↦ w = v.toInt ∧ SettledGc program s t :=
  gc_pop.map_right fun _ _ _ _ h ↦ ⟨congrArg GcValue.toI64 h.1, h.2⟩

theorem gc_popAgain : FollowsGc (SettledGc program) pop GcVm.pop
    fun v w s t ↦ w = .int v.toInt ∧ SettledGc program s t :=
  gc_pop.weaken fun _ _ h ↦ h.1

theorem gc_popIntAgain : FollowsGc (SettledGc program) pop GcVm.popInt
    fun v w s t ↦ w = v.toInt ∧ SettledGc program s t :=
  gc_popInt.weaken fun _ _ h ↦ h.1

theorem gc_push (value : Int32) : FollowsGc (Heaped program) (push value)
    (GcVm.push (.int value.toInt)) fun _ _ ↦ SettledGc program := by
  intro s t h
  rcases push_cases value s with hup | ⟨hfresh, ⟨hfull, hrun⟩ | ⟨hroom, frame, frames, hframes, hrun⟩⟩
  · exact gc_matches_givesUp hup
  · rw [hrun, GcVm.run_push_full (by rwa [h.stack_length])]
    exact .inr ⟨rfl, h.view⟩
  · have hstack := (h.operands_none hfresh).1
    rw [hframes, intOperands, allInts_cons] at hstack
    rw [hrun, GcVm.run_push_room (by rwa [h.stack_length])]
    rw [operandCount_none hfresh, hframes, allInts_cons] at hroom
    exact ⟨h.setOperands hfresh hframes (by rw [hstack]; rfl) hroom, hfresh⟩

theorem gc_arrayIndex (index : Int32) (size : Nat) {P : ValueVm → GcVm → Prop}
    (hP : ∀ s t, P s t → SameGcView s t) :
    FollowsGc P (arrayIndex index size) (GcVm.arrayIndex index.toInt size)
      fun i j s t ↦ j = i ∧ i < size ∧ P s t := by
  rw [arrayIndex, GcVm.arrayIndex]
  by_cases hindex : index.toInt < 0 ∨ index.toInt.toNat ≥ size
  · rw [if_pos hindex, if_pos hindex]
    exact .stop hP
  · rw [if_neg hindex, if_neg hindex]
    exact .pure fun s t h ↦ ⟨rfl, by omega, h⟩

/-- A check of the value machine that the other machine does not make. -/
theorem gc_require {p : Prop} [Decidable p] {α β : Type} {P : ValueVm → GcVm → Prop}
    {x : ValueVmM α} {y : GcVm.GcVmM β} {Q : α → β → ValueVm → GcVm → Prop}
    (h : p → FollowsGc P x y Q) : FollowsGc P (do require p; x) y Q := by
  intro s t hst
  by_cases hp : p
  · exact .bind_left (run_require hp s) (h hp s t hst)
  · exact EStateM.Result.matches_bind_of_free (run_require_of_not hp s) rfl

/-! ## Instructions -/

/-- What the two machines do after an instruction. -/
def ContinuesGc (program : CompiledProgram) (flow : Flow) (advance : Bool) (s : ValueVm)
    (t : GcVm) : Prop :=
  match flow with
  | .next => advance = true ∧ Heaped program s t
  | .jump => advance = false ∧ Heaped program s t
  | .exit value => advance = false ∧ t.callStack = [] ∧ t.stack = [.int value.toInt] ∧ t.pc = s.pc ∧
      t.cycles = s.cycles ∧ t.output = s.output

theorem gc_next : FollowsGc (Heaped program) (return Flow.next) (return true)
    (ContinuesGc program) :=
  .pure fun _ _ h ↦ ⟨rfl, h⟩

theorem gc_pushNext (value : Int32) : FollowsGc (Heaped program)
    (do push value; return Flow.next) (do GcVm.push (.int value.toInt); return true)
    (ContinuesGc program) :=
  (gc_push value).bind fun _ _ ↦ gc_next.weaken fun _ _ h ↦ h.1

theorem gc_binary {f : Int32 → Int32 → Int32} {g : Int → Int → Int}
    (h : ∀ a b, (f a b).toInt = g a.toInt b.toInt) :
    FollowsGc (Heaped program) (binary f) (GcVm.binary g) (ContinuesGc program) := by
  refine gc_popInt.bind fun b b' ↦ .assuming fun hb ↦ ?_
  refine gc_popIntAgain.bind fun a a' ↦ .assuming fun ha ↦ ?_
  rw [ha, hb, ← h]
  exact (gc_pushNext _).weaken fun _ _ h ↦ h.1

theorem isTruthy_int (a : Int32) : (GcValue.int a.toInt).isTruthy = true ↔ a ≠ 0 := by
  rw [GcValue.isTruthy, decide_eq_true_iff, ne_eq, toInt_eq_zero]

theorem gc_logical {f : Int32 → Int32 → Int32} {g : Bool → Bool → Bool}
    (h : ∀ a b, (f a b).toInt =
      MiniLang.flag (g (GcValue.int a.toInt).isTruthy (GcValue.int b.toInt).isTruthy)) :
    FollowsGc (Heaped program) (binary f) (GcVm.logical g) (ContinuesGc program) := by
  refine gc_pop.bind fun b b' ↦ .assuming fun hb ↦ ?_
  refine gc_popAgain.bind fun a a' ↦ .assuming fun ha ↦ ?_
  rw [ha, hb, ← h]
  exact (gc_pushNext _).weaken fun _ _ h ↦ h.1

theorem gc_neg : FollowsGc (Heaped program) (unary (- ·))
    (GcVm.executeInstruction program .neg arg1 arg2) (ContinuesGc program) := by
  refine gc_popInt.bind fun a a' ↦ .assuming fun ha ↦ ?_
  rw [ha, if_neg (toInt_ne_i64Min a), ← toInt_neg]
  exact (gc_pushNext _).weaken fun _ _ h ↦ h.1

theorem gc_not : FollowsGc (Heaped program) (unary fun a ↦ flag (a = 0))
    (GcVm.executeInstruction program .not arg1 arg2) (ContinuesGc program) := by
  refine gc_pop.bind fun a a' ↦ .assuming fun ha ↦ ?_
  have hflag : a = 0 ↔ (!(GcValue.int a.toInt).isTruthy) = true := by
    rw [Bool.not_eq_true', ← Bool.not_eq_true, isTruthy_int, not_not]
  rw [ha, ← toInt_flag hflag]
  exact (gc_pushNext _).weaken fun _ _ h ↦ h.1

theorem gc_div : FollowsGc (Heaped program)
    (executeInstruction program storage .div arg1 arg2)
    (GcVm.executeInstruction program .div arg1 arg2) (ContinuesGc program) := by
  refine gc_popInt.bind fun b b' ↦ .assuming fun hb ↦ ?_
  refine gc_popIntAgain.bind fun a a' ↦ .assuming fun ha ↦ ?_
  rw [ha, hb]
  refine .ite toInt_eq_zero.symm (fun _ ↦ .stop fun _ _ h ↦ h.1.view) fun _ ↦ ?_
  rw [if_neg fun h ↦ toInt_ne_i64Min a h.1, ← toInt_div]
  exact (gc_pushNext _).weaken fun _ _ h ↦ h.1

theorem gc_jump (target : Nat) : FollowsGc (Heaped program)
    (do modify fun vm ↦ { vm with pc := target }; return Flow.jump)
    (do modify fun vm ↦ { vm with pc := target }; return false) (ContinuesGc program) := by
  intro s t h
  exact ⟨rfl, { h with pc := rfl, tidy := { h.tidy with } }⟩

theorem gc_branch {jumpIf : Int32 → Bool} {p : GcValue → Bool}
    (h : ∀ a : Int32, jumpIf a = true ↔ p (.int a.toInt) = true) (target : Int32) :
    FollowsGc (Heaped program) (branch jumpIf target)
      (do
        let cond ← GcVm.pop
        if p cond then
          modify fun vm ↦ { vm with pc := asUsize target }
          return false
        else return true)
      (ContinuesGc program) := by
  refine gc_pop.bind fun a a' ↦ .assuming fun ha ↦ ?_
  rw [ha]
  exact .ite (h a) (fun _ ↦ (gc_jump _).weaken fun _ _ h ↦ h.1)
    fun _ ↦ gc_next.weaken fun _ _ h ↦ h.1

theorem gc_print : FollowsGc (Heaped program)
    (executeInstruction program storage .print arg1 arg2)
    (GcVm.executeInstruction program .print arg1 arg2) (ContinuesGc program) := by
  refine gc_popInt.bind fun a a' ↦ .assuming fun ha ↦ ?_
  rintro s t ⟨h, -⟩
  subst ha
  exact ⟨rfl, { h with
    output := congrArg (· ++ [s!"OUTPUT: {a.toInt}"]) h.output
    tidy := { h.tidy with } }⟩

theorem gc_dup : FollowsGc (Heaped program)
    (executeInstruction program storage .dup arg1 arg2)
    (GcVm.executeInstruction program .dup arg1 arg2) (ContinuesGc program) := by
  intro s t h
  rw [executeInstruction, GcVm.executeInstruction]
  rcases top_cases s with ⟨s', hrun⟩ | ⟨frame, frames, value, operands, hfresh, hframes, hops, hrun⟩
  · exact EStateM.Result.matches_bind_of_free hrun rfl
  have hstack := (h.operands_none hfresh).1
  rw [hframes, intOperands, allInts_cons, hops, List.cons_append, List.map_cons] at hstack
  refine .bind_left hrun (.bind_right (EStateM.run_get t) ?_)
  rw [hstack]
  exact gc_pushNext value s t h

/-! ### Variables -/

theorem Heaped.run_slot (h : Heaped program s t) (hraw : 0 ≤ raw)
    (hframes : s.frames = frame :: frames) (hslot : asUsize raw < frame.cells.length) :
    (GcVm.currentLocalSlot raw).run t = .ok (asUsize raw) t := by
  obtain ⟨frame', frames', hframes', hframe, -⟩ := h.current hframes
  exact GcVm.run_currentLocalSlot hraw hframes' (by rwa [hframe.locals])

/-- The instruction looks at the variable it names. -/
theorem gc_slot {α β : Type} {x : ValueVmM α} {g : Nat → GcVm.GcVmM β}
    {Q : α → β → ValueVm → GcVm → Prop} (h : FollowsGc (Heaped program) x (g (asUsize raw)) Q) :
    FollowsGc (Heaped program) (do let _ ← readCell raw; x)
      (do let slot ← GcVm.currentLocalSlot raw; g slot) Q := by
  intro s t hst
  rcases readCell_cases raw s with ⟨s', hrun⟩ | ⟨frame, frames, cell, hraw, hframes, hcell, hrun⟩
  · exact EStateM.Result.matches_bind_of_free hrun rfl
  · exact .bind_left hrun (.bind_right
      (hst.run_slot hraw hframes (List.getElem?_eq_some_iff.mp hcell).1) (h s t hst))

theorem gc_loadLocal : FollowsGc (Heaped program)
    (executeInstruction program storage .loadLocal arg1 arg2)
    (GcVm.executeInstruction program .loadLocal arg1 arg2) (ContinuesGc program) := by
  intro s t h
  rw [executeInstruction, GcVm.executeInstruction]
  rcases readCell_cases arg1 s with ⟨s', hrun⟩ | ⟨frame, frames, cell, hraw, hframes, hcell, hrun⟩
  · exact EStateM.Result.matches_bind_of_free hrun rfl
  obtain ⟨frame', frames', value, hframes', -, hvalue, hin⟩ := h.exists_slot hframes hcell
  refine .bind_left hrun (.bind_right
    (h.run_slot hraw hframes (List.getElem?_eq_some_iff.mp hcell).1)
    (.bind_right (GcVm.run_currentFrame hframes') ?_))
  rw [get_eq hvalue]
  cases hin with
  | undefined => exact .inr ⟨rfl, h.view⟩
  | int value => exact gc_pushNext value s t h
  | array hdata => exact EStateM.Result.matches_of_free rfl

/-- The fresh array gets its variable, an integer is copied. -/
theorem gc_storeLocal : FollowsGc (Heaped program) (storeLocal arg1)
    (GcVm.executeInstruction program .storeLocal arg1 arg2) (ContinuesGc program) := by
  intro s t h
  rw [storeLocal, GcVm.executeInstruction]
  refine .bind_left (EStateM.run_get s) ?_
  cases hfresh : s.fresh with
  | none =>
    dsimp only
    rcases pop_cases s with ⟨s', hrun⟩ | ⟨frame, frames, value, operands, -, hframes, hops, hrun⟩
    · exact EStateM.Result.matches_bind_of_free hrun rfl
    rcases writeCell_cases arg1 (.int value)
        { s with frames := { frame with operands := operands } :: frames } with
      ⟨s', hwrite⟩ | ⟨frame', frames', hraw, hframes', hslot, hwrite⟩
    · exact .bind_left hrun (EStateM.Result.matches_bind_of_free hwrite rfl)
    obtain ⟨rfl, rfl⟩ := List.cons.inj hframes'
    have hstack := (h.operands_none hfresh).1
    have hcount := h.operands_le
    rw [hframes, intOperands, allInts_cons, hops, List.cons_append, List.map_cons] at hstack
    rw [operandCount_none hfresh, hframes, allInts_cons, hops] at hcount
    have hpop := h.setOperands hfresh hframes rfl (Nat.le_of_succ_le hcount)
    obtain ⟨frame', frames', hcallers, -⟩ := hpop.current rfl
    obtain ⟨hints, howned⟩ := hpop.operands_none hfresh
    refine .bind_left hrun (.bind_left hwrite (.bind_right (h.run_slot hraw hframes hslot)
      (.bind_right (GcVm.run_pop hstack) (.bind_right (GcVm.run_setLocal hcallers) ?_))))
    exact ⟨rfl, hpop.setCell rfl hcallers hslot hints hfresh
      (howned.setScalar (.int value) (by simp) _)⟩
  | some size =>
    dsimp only
    rcases writeCell_cases arg1 (.array (List.replicate size 0)) s with
      ⟨s', hwrite⟩ | ⟨frame, frames, hraw, hframes, hslot, hwrite⟩
    · exact EStateM.Result.matches_bind_of_free hwrite rfl
    have hoperands := h.operands
    rw [hfresh] at hoperands
    obtain ⟨id, hstack, howned⟩ := hoperands
    obtain ⟨frame', frames', hcallers, -⟩ := h.current hframes
    refine .bind_left hwrite (.bind_right (h.run_slot hraw hframes hslot)
      (.bind_right (GcVm.run_pop hstack) (.bind_right (GcVm.run_setLocal hcallers) ?_)))
    exact ⟨rfl, h.setCell hframes hcallers hslot rfl rfl (howned.adopt _)⟩

/-! ### Local arrays -/

/-- The array in a variable of the current frame. -/
theorem Heaped.exists_array {data : List Int32} (h : Heaped program s t)
    (hframes : s.frames = frame :: frames)
    (hcell : frame.cells[asUsize raw]? = some (.array data)) : ∃ frame' frames' id arr,
      t.callStack = frame' :: frames' ∧ frame'.get (asUsize raw) = some (.arrayRef id) ∧
        frame'.slots[asUsize raw]? = some (some (.arrayRef id)) ∧ SameFrame frame frame' ∧
        t.getArray id = some arr ∧ arr.data = data.map Int32.toInt := by
  obtain ⟨frame', frames', value, hframes', hframe, hvalue, hin⟩ := h.exists_slot hframes hcell
  cases hin with
  | @array id _ hdata =>
    obtain ⟨arr, harr, hdata⟩ := Option.map_eq_some_iff.mp hdata
    exact ⟨frame', frames', id, arr, hframes', get_eq hvalue, hvalue, hframe, harr, hdata⟩

/-- An element of an array that a variable owns changes. -/
theorem Heaped.setElement {data : List Int32} {frame' : GcCallFrame} {frames' : List GcCallFrame}
    {id slot : Nat} {arr : HeapArray} (h : Heaped program s t) (hfresh : s.fresh = none)
    (hframes : s.frames = frame :: frames) (hcallers : t.callStack = frame' :: frames')
    (hcell : frame.cells[slot]? = some (.array data))
    (hslot : frame'.slots[slot]? = some (some (.arrayRef id))) (harr : t.getArray id = some arr)
    (i : Nat) (value : Int32) :
    Heaped program
      { s with frames :=
          { frame with cells := frame.cells.set slot (.array (data.set i value)) } :: frames }
      { t with heapArrays :=
          t.heapArrays.set id (some { arr with data := arr.data.set i value.toInt }) } := by
  obtain ⟨hstack, howned⟩ := h.operands_none hfresh
  have hcurrent := h.frames
  have hlinked := h.linked
  have hcount := h.operands_le
  have hlt := (List.getElem?_eq_some_iff.mp hcell).1
  have hlt' := (List.getElem?_eq_some_iff.mp hslot).1
  rw [hframes, hcallers] at hcurrent
  rw [hframes] at hlinked hstack
  obtain ⟨hframe, hrest⟩ := List.forall₂_cons.mp hcurrent
  rw [storeCells, storeSlots, hframes, hcallers, innerCells_cons, innerSlots_cons,
    List.append_assoc, List.append_assoc] at howned
  have hset := howned.setElement (by rw [List.getElem?_append_left hlt]; exact hcell)
    (by rw [List.getElem?_append_left hlt']; exact hslot) harr value (j := i)
  rw [List.set_append_left _ _ hlt] at hset
  refine { h with
    frames := ?_
    linked := hlinked.update rfl
    operands := ?_
    tidy := ⟨h.tidy.tracked.overwrite ?_, h.tidy.nextArrayId.trans List.length_set.symm⟩
    operands_le := ?_ }
  · dsimp only
    rw [hcallers]
    exact .cons ⟨hframe.returnPc, hframe.flags, hframe.locals.trans List.length_set.symm⟩ hrest
  · dsimp only
    rw [hfresh]
    refine ⟨?_, ?_⟩
    · rw [hstack, intOperands, intOperands, allInts_cons, allInts_cons]
    · rw [storeCells, storeSlots, innerCells_cons, hcallers, innerSlots_cons, List.append_assoc,
        List.append_assoc]
      exact hset
  · rw [SlotTable.mem_occupied]
    rw [GcVm.getArray] at harr
    rw [harr]
    rfl
  · rw [operandCount_none (by exact hfresh), allInts_cons]
    rw [operandCount_none hfresh, hframes, allInts_cons] at hcount
    exact hcount

theorem gc_localArrayLoad : FollowsGc (Heaped program)
    (executeInstruction program storage .localArrayLoad arg1 arg2)
    (GcVm.executeInstruction program .localArrayLoad arg1 arg2) (ContinuesGc program) := by
  refine gc_require fun hsize ↦ gc_slot ?_
  refine .reads_right (fun s t h ↦ GcVm.run_arraySize hsize) ?_
  refine gc_popInt.bind fun i i' ↦ .assuming fun hi ↦ ?_
  rw [hi]
  refine (gc_arrayIndex i _ fun _ _ h ↦ h.1.view).bind fun j j' ↦ .assuming fun hj ↦
    .assuming fun hlt ↦ ?_
  rw [hj]
  rintro s t ⟨h, -⟩
  rcases readArray_cases arg1 (asUsize arg2) s with
    ⟨s', hrun⟩ | ⟨frame, frames, data, -, hframes, hcell, hlen, hrun⟩
  · exact EStateM.Result.matches_bind_of_free hrun rfl
  rw [← hlen] at hlt
  obtain ⟨frame', frames', id, arr, hcallers, hget, -, -, harr, hdata⟩ :=
    h.exists_array hframes hcell
  have hvalue : data[j]? = some data[j] := List.getElem?_eq_getElem hlt
  have helement : arr.data[j]? = some data[j].toInt := by
    rw [hdata, List.getElem?_map, hvalue]
    rfl
  refine .bind_left hrun (.bind_right (GcVm.run_currentFrame hcallers) ?_)
  rw [hget, hvalue]
  exact .bind_right (GcVm.run_loadElement harr helement) (gc_pushNext data[j] s t h)

theorem gc_localArrayStore : FollowsGc (Heaped program)
    (executeInstruction program storage .localArrayStore arg1 arg2)
    (GcVm.executeInstruction program .localArrayStore arg1 arg2) (ContinuesGc program) := by
  refine gc_require fun hsize ↦ gc_slot ?_
  refine .reads_right (fun s t h ↦ GcVm.run_arraySize hsize) ?_
  refine gc_popInt.bind fun v w ↦ .assuming fun hw ↦ ?_
  refine gc_popIntAgain.bind fun i i' ↦ .assuming fun hi ↦ ?_
  rw [hi, hw]
  refine (gc_arrayIndex i _ fun _ _ h ↦ h.1.view).bind fun j j' ↦ .assuming fun hj ↦
    .assuming fun hlt ↦ ?_
  rw [hj]
  rintro s t ⟨h, hfresh⟩
  rcases readArray_cases arg1 (asUsize arg2) s with
    ⟨s', hrun⟩ | ⟨frame, frames, data, -, hframes, hcell, hlen, hrun⟩
  · exact EStateM.Result.matches_bind_of_free hrun rfl
  rcases writeCell_cases arg1 (.array (data.set j v)) s with
    ⟨s', hwrite⟩ | ⟨_, _, -, hframes', -, hwrite⟩
  · exact .bind_left hrun (EStateM.Result.matches_bind_of_free hwrite rfl)
  obtain ⟨rfl, rfl⟩ := List.cons.inj (hframes.symm.trans hframes')
  rw [← hlen] at hlt
  obtain ⟨frame', frames', id, arr, hcallers, hget, hslot, -, harr, hdata⟩ :=
    h.exists_array hframes hcell
  have hinside : j < arr.data.length := by rwa [hdata, List.length_map]
  refine .bind_left hrun (.bind_left hwrite (.bind_right (GcVm.run_currentFrame hcallers) ?_))
  rw [hget]
  refine .bind_right (GcVm.run_storeElement harr hinside v.toInt) ?_
  exact ⟨rfl, h.setElement hfresh hframes hcallers hcell hslot harr j v⟩

/-! ### Global variables -/

theorem globalData_set_outside {globals : List Int32} {info : GlobalInfo} {slot : Nat}
    (h : slot < info.slot ∨ info.slot + info.arraySize ≤ slot) (value : Int32) :
    globalData (globals.set slot value) info = globalData globals info := by
  apply List.ext_getElem?
  intro i
  rw [globalData, globalData, List.getElem?_take, List.getElem?_take, List.getElem?_drop,
    List.getElem?_drop]
  by_cases hi : i < info.arraySize
  · rw [if_pos hi, if_pos hi, List.getElem?_set_ne (by omega)]
  · rw [if_neg hi, if_neg hi]

theorem globalData_set_inside {globals : List Int32} {info : GlobalInfo} {i : Nat}
    (hi : i < info.arraySize) (value : Int32) :
    globalData (globals.set (info.slot + i) value) info = (globalData globals info).set i value := by
  apply List.ext_getElem?
  intro j
  rw [globalData, globalData, List.getElem?_take, List.getElem?_drop, List.getElem?_set,
    List.getElem?_set, List.getElem?_take, List.getElem?_drop, List.length_take, List.length_drop]
  by_cases hij : i = j
  · subst hij
    rw [if_pos hi, if_pos rfl, if_pos rfl]
    by_cases hlt : info.slot + i < globals.length
    · rw [if_pos hlt, if_pos (by omega)]
    · rw [if_neg hlt, if_neg (by omega)]
  · have hne : info.slot + i ≠ info.slot + j := fun h ↦ hij (Nat.add_left_cancel h)
    rw [if_neg hij, if_neg hne]

theorem mem_arrayInfos {info : GlobalInfo} :
    info ∈ arrayInfos program ↔ info ∈ program.globals.values ∧ info.isArray = true :=
  List.mem_filter

theorem gc_readGlobal {slot : Nat} (hscalar : ScalarGlobal program slot) :
    FollowsGc (Heaped program) (readGlobal slot) (GcVm.readGlobal slot)
      fun v w s t ↦ w = .int v.toInt ∧ Heaped program s t := by
  intro s t h
  rcases readGlobal_cases slot s with hup | ⟨value, hvalue, hrun⟩
  · exact gc_matches_givesUp hup
  · rw [hrun, GcVm.run_readGlobal (h.scalars slot value hscalar hvalue)]
    exact ⟨rfl, h⟩

theorem gc_writeGlobal (harrays : ArraysFit program) {slot : Nat} (value : Int32)
    (hscalar : ScalarGlobal program slot) : FollowsGc (Heaped program) (writeGlobal slot value)
      (GcVm.writeGlobal slot (.int value.toInt)) fun _ _ ↦ Heaped program := by
  intro s t h
  rw [GcVm.run_writeGlobal (by rw [h.length_globals]; exact hscalar.1)]
  have hcells : storeCells program { s with globals := s.globals.set slot value } =
      storeCells program s := by
    refine congrArg (innerCells s.frames ++ ·) (List.map_congr_left fun info hinfo ↦ ?_)
    obtain ⟨hmem, harray⟩ := mem_arrayInfos.mp hinfo
    rw [globalData_set_outside (hscalar.2 info hmem harray)]
  have hslots : storeSlots program { t with globals := t.globals.set slot (.int value.toInt) } =
      storeSlots program t := by
    refine congrArg (innerSlots t.callStack ++ ·) (List.map_congr_left fun info hinfo ↦ ?_)
    obtain ⟨hmem, harray⟩ := mem_arrayInfos.mp hinfo
    have hpos := (harrays _ _ ⟨info, hmem, harray, rfl, rfl⟩).1
    have houtside := hscalar.2 info hmem harray
    exact List.getElem?_set_ne (by omega)
  refine { h with
    globals_length := List.length_set.trans h.globals_length
    length_globals := List.length_set.trans h.length_globals
    scalars := fun slot' value' hscalar' hvalue' ↦ ?_
    operands := ?_
    tidy := { h.tidy with } }
  · dsimp only at hvalue' ⊢
    by_cases heq : slot = slot'
    · subst heq
      rw [List.getElem?_set_self (by rw [h.globals_length]; exact hscalar.1)] at hvalue'
      obtain rfl := Option.some_inj.mp hvalue'
      exact List.getElem?_set_self (by rw [h.length_globals]; exact hscalar.1)
    · rw [List.getElem?_set_ne heq] at hvalue' ⊢
      exact h.scalars slot' value' hscalar' hvalue'
  · rw [hcells, hslots]
    exact h.operands

theorem gc_loadGlobal : FollowsGc (Heaped program)
    (executeInstruction program storage .loadGlobal arg1 arg2)
    (GcVm.executeInstruction program .loadGlobal arg1 arg2) (ContinuesGc program) := by
  refine gc_require fun hglobal ↦ ?_
  refine .reads_right (fun s t h ↦
    GcVm.run_globalSlot hglobal.1 (by rw [h.length_globals]; exact hglobal.2.1)) ?_
  refine (gc_readGlobal hglobal.2).bind fun v w ↦ .assuming fun hw ↦ ?_
  rw [hw]
  exact gc_pushNext v

theorem gc_storeGlobal (harrays : ArraysFit program) : FollowsGc (Heaped program)
    (executeInstruction program storage .storeGlobal arg1 arg2)
    (GcVm.executeInstruction program .storeGlobal arg1 arg2) (ContinuesGc program) := by
  refine gc_require fun hglobal ↦ ?_
  refine .reads_right (fun s t h ↦
    GcVm.run_globalSlot hglobal.1 (by rw [h.length_globals]; exact hglobal.2.1)) ?_
  refine gc_pop.bind fun v w ↦ .assuming fun hw ↦ ?_
  rw [hw]
  exact ((gc_writeGlobal harrays v hglobal.2).weaken fun _ _ h ↦ h.1).bind fun _ _ ↦ gc_next

/-! ### Global arrays -/

theorem run_gcArrayRange {rawSize : Int32} (h : Heaped program s t) (hraw : 0 ≤ raw)
    (hsize : 0 ≤ rawSize) (hpos : 0 < asUsize rawSize)
    (hfit : asUsize raw + asUsize rawSize ≤ maxGlobalSlots) :
    (GcVm.globalArrayRange raw rawSize).run t = .ok (asUsize raw, asUsize rawSize) t := by
  have hlength := h.length_globals
  refine GcVm.run_globalArrayRange hraw hsize ?_ ?_ ?_
  · omega
  · omega
  · rw [hlength]
    decide

/-- The global array number `k` among the variables. -/
theorem Heaped.exists_global {k : Nat} {info : GlobalInfo} (h : Heaped program s t)
    (hfresh : s.fresh = none) (hinfo : (arrayInfos program)[k]? = some info) : ∃ id arr,
      (storeCells program s)[(innerCells s.frames).length + k]? =
        some (.array (globalData s.globals info)) ∧
      (storeSlots program t)[(innerCells s.frames).length + k]? = some (some (.arrayRef id)) ∧
      t.globals[info.slot]? = some (.arrayRef id) ∧ t.getArray id = some arr ∧
      arr.data = (globalData s.globals info).map Int32.toInt := by
  obtain ⟨-, howned⟩ := h.operands_none hfresh
  have hlength := howned.cellIn.length_eq
  rw [storeCells, storeSlots, List.length_append, List.length_append, List.length_map,
    List.length_map, Nat.add_right_cancel_iff] at hlength
  have hcell : (storeCells program s)[(innerCells s.frames).length + k]? =
      some (.array (globalData s.globals info)) := by
    rw [storeCells, List.getElem?_append_right (Nat.le_add_right ..), Nat.add_sub_cancel_left,
      List.getElem?_map, hinfo]
    rfl
  have hslot : (storeSlots program t)[(innerCells s.frames).length + k]? =
      some t.globals[info.slot]? := by
    rw [storeSlots, hlength, List.getElem?_append_right (Nat.le_add_right ..),
      Nat.add_sub_cancel_left, List.getElem?_map, hinfo]
    rfl
  obtain ⟨slot, hslot', hin⟩ := howned.get hcell
  obtain rfl := Option.some_inj.mp (hslot.symm.trans hslot')
  generalize hglobal : t.globals[info.slot]? = value at hin hslot
  cases hin with
  | @array id _ hdata =>
    obtain ⟨arr, harr, hdata⟩ := Option.map_eq_some_iff.mp hdata
    exact ⟨id, arr, hcell, hslot, rfl, harr, hdata⟩

theorem getElem?_globalData {globals : List Int32} {info : GlobalInfo} {i : Nat}
    (hi : i < info.arraySize) : (globalData globals info)[i]? = globals[info.slot + i]? := by
  rw [globalData, List.getElem?_take, if_pos hi, List.getElem?_drop]

theorem exists_arrayInfo {slot size : Nat} (h : ArrayGlobal program slot size) :
    ∃ (k : Nat) (info : GlobalInfo), (arrayInfos program)[k]? = some info ∧ info.slot = slot ∧
      info.arraySize = size := by
  obtain ⟨info, hmem, harray, hslot, hsize⟩ := h
  obtain ⟨k, hk⟩ := List.mem_iff_getElem?.mp (mem_arrayInfos.mpr ⟨hmem, harray⟩)
  exact ⟨k, info, hk, hslot, hsize⟩

theorem gc_arrayLoad (harrays : ArraysFit program) : FollowsGc (Heaped program)
    (executeInstruction program storage .arrayLoad arg1 arg2)
    (GcVm.executeInstruction program .arrayLoad arg1 arg2) (ContinuesGc program) := by
  refine gc_require fun ⟨hslot, hsize, harray⟩ ↦ ?_
  obtain ⟨hpos, hlast⟩ := harrays _ _ harray
  refine .reads_right (fun s t h ↦ run_gcArrayRange h hslot hsize hpos hlast) ?_
  refine gc_popInt.bind fun i i' ↦ .assuming fun hi ↦ ?_
  rw [hi]
  refine (gc_arrayIndex i _ fun _ _ h ↦ h.1.view).bind fun j j' ↦ .assuming fun hj ↦
    .assuming fun hlt ↦ ?_
  rw [hj]
  rintro s t ⟨h, hfresh⟩
  obtain ⟨k, info, hinfo, hslot', hsize'⟩ := exists_arrayInfo harray
  obtain ⟨id, arr, -, -, hglobal, harr, hdata⟩ := h.exists_global hfresh hinfo
  rw [hslot'] at hglobal
  rcases readGlobal_cases (asUsize arg1 + j) s with ⟨s', hrun⟩ | ⟨value, hvalue, hrun⟩
  · exact EStateM.Result.matches_bind_of_free hrun rfl
  have helement : arr.data[j]? = some value.toInt := by
    rw [hdata, List.getElem?_map, getElem?_globalData (by rwa [hsize']), hslot', hvalue]
    rfl
  refine .bind_left hrun (.bind_right (GcVm.run_readGlobal hglobal) ?_)
  exact .bind_right (GcVm.run_loadElement harr helement) (gc_pushNext value s t h)

/-- An element of a global array changes. -/
theorem Heaped.setGlobalElement {k i : Nat} {info : GlobalInfo} {id : Nat} {arr : HeapArray}
    (h : Heaped program s t) (hapart : program.globals.values.Pairwise Apart)
    (hfresh : s.fresh = none) (hinfo : (arrayInfos program)[k]? = some info)
    (hi : i < info.arraySize) (harr : t.getArray id = some arr)
    (hslot : (storeSlots program t)[(innerCells s.frames).length + k]? = some (some (.arrayRef id)))
    (value : Int32) :
    Heaped program { s with globals := s.globals.set (info.slot + i) value }
      { t with heapArrays :=
          t.heapArrays.set id (some { arr with data := arr.data.set i value.toInt }) } := by
  obtain ⟨hstack, howned⟩ := h.operands_none hfresh
  obtain ⟨-, -, hcell, -⟩ := h.exists_global hfresh hinfo
  have hset := howned.setElement hcell hslot harr value (j := i)
  have hinfos : (arrayInfos program).Pairwise Apart := hapart.filter _
  obtain ⟨hk, hget⟩ := List.getElem?_eq_some_iff.mp hinfo
  obtain ⟨hmem, harray⟩ := mem_arrayInfos.mp (List.mem_of_getElem? hinfo)
  have hcells : (storeCells program s).set ((innerCells s.frames).length + k)
      (.array ((globalData s.globals info).set i value)) =
      storeCells program { s with globals := s.globals.set (info.slot + i) value } := by
    rw [storeCells, storeCells, List.set_append_right _ _ (Nat.le_add_right ..),
      Nat.add_sub_cancel_left]
    refine congrArg (innerCells s.frames ++ ·) (List.ext_getElem (by simp) fun j hj hj' ↦ ?_)
    rw [List.getElem_set, List.getElem_map, List.getElem_map]
    by_cases hkj : k = j
    · subst hkj
      rw [if_pos rfl, hget, globalData_set_inside hi]
    · have hj'' : j < (arrayInfos program).length := by rwa [List.length_map] at hj'
      have hinfo' := (mem_arrayInfos.mp (List.getElem_mem hj'')).2
      have happart : Apart info (arrayInfos program)[j] ∨ Apart (arrayInfos program)[j] info := by
        rcases Nat.lt_or_gt_of_ne hkj with hlt | hlt
        · exact .inl (hget ▸ List.pairwise_iff_getElem.mp hinfos k j hk hj'' hlt)
        · exact .inr (hget ▸ List.pairwise_iff_getElem.mp hinfos j k hj'' hk hlt)
      rw [Apart, Apart, Verifier.width, Verifier.width, if_pos harray, if_pos hinfo'] at happart
      rw [if_neg hkj, globalData_set_outside (by omega)]
  rw [hcells] at hset
  refine { h with
    globals_length := List.length_set.trans h.globals_length
    scalars := fun slot' value' hscalar hvalue' ↦ ?_
    operands := ?_
    tidy := ⟨h.tidy.tracked.overwrite ?_, h.tidy.nextArrayId.trans List.length_set.symm⟩ }
  · have houtside := hscalar.2 info hmem harray
    refine h.scalars slot' value' hscalar ?_
    rwa [List.getElem?_set_ne (by omega)] at hvalue'
  · dsimp only
    rw [hfresh]
    exact ⟨hstack, hset⟩
  · rw [SlotTable.mem_occupied]
    rw [GcVm.getArray] at harr
    rw [harr]
    rfl

theorem gc_arrayStore (harrays : ArraysFit program)
    (hapart : program.globals.values.Pairwise Apart) : FollowsGc (Heaped program)
    (executeInstruction program storage .arrayStore arg1 arg2)
    (GcVm.executeInstruction program .arrayStore arg1 arg2) (ContinuesGc program) := by
  refine gc_require fun ⟨hslot, hsize, harray⟩ ↦ ?_
  obtain ⟨hpos, hlast⟩ := harrays _ _ harray
  refine .reads_right (fun s t h ↦ run_gcArrayRange h hslot hsize hpos hlast) ?_
  refine gc_popInt.bind fun v w ↦ .assuming fun hw ↦ ?_
  refine gc_popIntAgain.bind fun i i' ↦ .assuming fun hi ↦ ?_
  rw [hi, hw]
  refine (gc_arrayIndex i _ fun _ _ h ↦ h.1.view).bind fun j j' ↦ .assuming fun hj ↦
    .assuming fun hlt ↦ ?_
  rw [hj]
  rintro s t ⟨h, hfresh⟩
  obtain ⟨k, info, hinfo, hslot', hsize'⟩ := exists_arrayInfo harray
  obtain ⟨id, arr, -, hreference, hglobal, harr, hdata⟩ := h.exists_global hfresh hinfo
  rw [← hsize'] at hlt hlast
  rw [← hslot'] at hlast ⊢
  have hinside : j < arr.data.length := by
    rw [hdata, List.length_map, globalData, List.length_take, List.length_drop, h.globals_length]
    omega
  refine .bind_left (EStateM.run_modify _ s) (.bind_right (GcVm.run_readGlobal hglobal) ?_)
  refine .bind_right (GcVm.run_storeElement harr hinside v.toInt) ?_
  exact ⟨rfl, h.setGlobalElement hapart hfresh hinfo hlt harr hreference v⟩

end ValueVm

end MiniLang
