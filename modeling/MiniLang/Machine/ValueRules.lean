import MiniLang.Machine.ValueVm
import MiniLang.Machine.VmRules

/-!
# Execution rules of the value machine

What an operand function of the machine does where it does not give up, and how the arithmetic of
32-bit integers relates to that of the source.

## Giving up

The value machine stops with a panic wherever a program leaves the discipline that it is for: an
operand that is an array, a variable of the wrong kind, a frame without operands. The machines of
the source go on there, and nothing is claimed of them. So each rule has two cases, `GivesUp` and
the one in which the function succeeds with everything it has found, and a comparison with another
machine looks at the second case only.
-/

namespace MiniLang

/-! ## Arithmetic -/

theorem asUsize_lt {arg : Int32} (h : 0 ≤ arg) : asUsize arg < 2 ^ 31 := by
  have hnonneg := Int32.le_iff_toInt_le.mp h
  have hlt := Int32.toInt_lt arg
  rw [Int32.toInt_zero] at hnonneg
  rw [asUsize]
  omega

namespace ValueVm

theorem toInt_flag {p q : Prop} [Decidable p] [Decidable q] (h : p ↔ q) :
    (flag p).toInt = MiniLang.flag q := by
  rw [flag, MiniLang.flag]
  by_cases hp : p
  · rw [if_pos hp, if_pos (h.mp hp)]
    rfl
  · rw [if_neg hp, if_neg (mt h.mpr hp)]
    rfl

theorem toInt_eq_zero {a : Int32} : a.toInt = 0 ↔ a = 0 := by
  rw [← Int32.toInt_inj, Int32.toInt_zero]

theorem toInt_add (a b : Int32) :
    (a + b).toInt = normalizeI32 (wrapI64 (a.toInt + b.toInt)) := by
  rw [normalizeI32_wrapI64, normalizeI32_eq_bmod, Int32.toInt_add]

theorem toInt_sub (a b : Int32) :
    (a - b).toInt = normalizeI32 (wrapI64 (a.toInt - b.toInt)) := by
  rw [normalizeI32_wrapI64, normalizeI32_eq_bmod, Int32.toInt_sub]

theorem toInt_mul (a b : Int32) :
    (a * b).toInt = normalizeI32 (wrapI64 (a.toInt * b.toInt)) := by
  rw [normalizeI32_wrapI64, normalizeI32_eq_bmod, Int32.toInt_mul]

theorem toInt_div (a b : Int32) : (a / b).toInt = normalizeI32 (a.toInt.tdiv b.toInt) := by
  rw [normalizeI32_eq_bmod, Int32.toInt_div]

theorem toInt_neg (a : Int32) : (-a).toInt = normalizeI32 (-a.toInt) := by
  rw [normalizeI32_eq_bmod, Int32.toInt_neg]

/-! ## Frames -/

/-- The variables of frames, outermost frame first. -/
def allCells (frames : List ValueFrame) : List LocalValue := frames.reverse.flatMap ValueFrame.cells

/-- The integer operands of frames, top first. -/
def allInts (frames : List ValueFrame) : List Int32 := frames.flatMap ValueFrame.operands

variable {frame : ValueFrame} {frames : List ValueFrame} {vm : ValueVm} {raw : Int32}

@[simp] theorem allCells_cons (frame : ValueFrame) (frames : List ValueFrame) :
    allCells (frame :: frames) = allCells frames ++ frame.cells := by
  simp [allCells]

@[simp] theorem allInts_cons (frame : ValueFrame) (frames : List ValueFrame) :
    allInts (frame :: frames) = frame.operands ++ allInts frames := List.flatMap_cons

theorem cells_eq (vm : ValueVm) : vm.cells = allCells vm.frames := rfl

theorem ints_eq (vm : ValueVm) : vm.ints = allInts vm.frames := rfl

/-- A variable of the innermost frame among all variables. -/
theorem getElem?_allCells {cell : LocalValue} {slot : Nat} (h : frame.cells[slot]? = some cell) :
    (allCells (frame :: frames))[(allCells frames).length + slot]? = some cell := by
  rw [allCells_cons, List.getElem?_append_right (Nat.le_add_right ..), Nat.add_sub_cancel_left]
  exact h

theorem set_allCells (frame : ValueFrame) (frames : List ValueFrame) (slot : Nat) (cell : LocalValue) :
    allCells ({ frame with cells := frame.cells.set slot cell } :: frames) =
      (allCells (frame :: frames)).set ((allCells frames).length + slot) cell := by
  rw [allCells_cons, allCells_cons, List.set_append_right _ _ (Nat.le_add_right ..),
    Nat.add_sub_cancel_left]

/-! ## Rules -/

theorem run_require_of_not {p : Prop} [Decidable p] (h : ¬p) (vm : ValueVm) :
    (require p).run vm = .error .panic vm := by
  rw [require, if_neg h]
  rfl

theorem run_require {p : Prop} [Decidable p] (h : p) (vm : ValueVm) :
    (require p).run vm = .ok () vm := by
  rw [require, if_pos h]
  rfl

/-- The machine gives up at `vm`. -/
def GivesUp {α : Type} (x : ValueVmM α) (vm : ValueVm) : Prop := ∃ vm', x.run vm = .error .panic vm'

theorem run_pop {value : Int32} {operands : List Int32} (hfresh : vm.fresh = none)
    (hframes : vm.frames = frame :: frames) (hoperands : frame.operands = value :: operands) :
    pop.run vm = .ok value { vm with frames := { frame with operands := operands } :: frames } := by
  simp only [pop, EStateM.run_bind, EStateM.run_get, run_require hfresh, hframes, hoperands]
  rfl

theorem pop_cases (vm : ValueVm) : GivesUp pop vm ∨ ∃ frame frames value operands,
    vm.fresh = none ∧ vm.frames = frame :: frames ∧ frame.operands = value :: operands ∧
      pop.run vm =
        .ok value { vm with frames := { frame with operands := operands } :: frames } := by
  by_cases hfresh : vm.fresh = none
  · cases hframes : vm.frames with
    | nil =>
      refine .inl ⟨vm, ?_⟩
      simp only [pop, EStateM.run_bind, EStateM.run_get, run_require hfresh, hframes]
      rfl
    | cons frame frames =>
      cases hoperands : frame.operands with
      | nil =>
        refine .inl ⟨vm, ?_⟩
        simp only [pop, EStateM.run_bind, EStateM.run_get, run_require hfresh, hframes, hoperands]
        rfl
      | cons value operands =>
        exact .inr ⟨frame, frames, value, operands, hfresh, rfl, hoperands,
          run_pop hfresh hframes hoperands⟩
  · refine .inl ⟨vm, ?_⟩
    rw [pop, EStateM.run_bind, EStateM.run_get]
    dsimp only
    rw [EStateM.run_bind, run_require_of_not hfresh]

theorem run_top {value : Int32} {operands : List Int32} (hfresh : vm.fresh = none)
    (hframes : vm.frames = frame :: frames) (hoperands : frame.operands = value :: operands) :
    top.run vm = .ok value vm := by
  simp only [top, EStateM.run_bind, EStateM.run_get, run_require hfresh, hframes, hoperands]
  rfl

theorem top_cases (vm : ValueVm) : GivesUp top vm ∨ ∃ frame frames value operands,
    vm.fresh = none ∧ vm.frames = frame :: frames ∧ frame.operands = value :: operands ∧
      top.run vm = .ok value vm := by
  by_cases hfresh : vm.fresh = none
  · cases hframes : vm.frames with
    | nil =>
      refine .inl ⟨vm, ?_⟩
      simp only [top, EStateM.run_bind, EStateM.run_get, run_require hfresh, hframes]
      rfl
    | cons frame frames =>
      cases hoperands : frame.operands with
      | nil =>
        refine .inl ⟨vm, ?_⟩
        simp only [top, EStateM.run_bind, EStateM.run_get, run_require hfresh, hframes, hoperands]
        rfl
      | cons value operands =>
        exact .inr ⟨frame, frames, value, operands, hfresh, rfl, hoperands,
          run_top hfresh hframes hoperands⟩
  · refine .inl ⟨vm, ?_⟩
    rw [top, EStateM.run_bind, EStateM.run_get]
    dsimp only
    rw [EStateM.run_bind, run_require_of_not hfresh]

theorem push_cases (value : Int32) (vm : ValueVm) : GivesUp (push value) vm ∨
    vm.fresh = none ∧ (maxOperandStack ≤ vm.operandCount ∧ (push value).run vm = .error
      (.trap .stackOverflow s!"Operand stack overflow (max {maxOperandStack} entries)") vm ∨
    vm.operandCount < maxOperandStack ∧ ∃ frame frames, vm.frames = frame :: frames ∧
      (push value).run vm = .ok () { vm with
        frames := { frame with operands := value :: frame.operands } :: frames }) := by
  by_cases hfresh : vm.fresh = none
  · rw [GivesUp, push, EStateM.run_bind, EStateM.run_get]
    dsimp only
    rw [EStateM.run_bind, run_require hfresh]
    dsimp only
    rw [EStateM.run_bind, EStateM.run_get]
    dsimp only
    by_cases hcount : vm.operandCount ≥ maxOperandStack
    · rw [if_pos hcount]
      exact .inr ⟨hfresh, .inl ⟨hcount, rfl⟩⟩
    · rw [if_neg hcount, EStateM.run_bind, EStateM.run_get]
      cases hframes : vm.frames with
      | nil => exact .inl ⟨vm, by simp only [hframes]; rfl⟩
      | cons frame frames =>
        refine .inr ⟨hfresh, .inr ⟨Nat.lt_of_not_le hcount, frame, frames, rfl, ?_⟩⟩
        simp only [hframes]
        rfl
  · refine .inl ⟨vm, ?_⟩
    rw [push, EStateM.run_bind, EStateM.run_get]
    dsimp only
    rw [EStateM.run_bind, run_require_of_not hfresh]

theorem readCell_cases (raw : Int32) (vm : ValueVm) : GivesUp (readCell raw) vm ∨
    ∃ frame frames cell, 0 ≤ raw ∧ vm.frames = frame :: frames ∧
      frame.cells[asUsize raw]? = some cell ∧ (readCell raw).run vm = .ok cell vm := by
  by_cases hraw : 0 ≤ raw
  · rw [GivesUp, readCell, EStateM.run_bind, run_require hraw]
    dsimp only
    rw [EStateM.run_bind, EStateM.run_get]
    cases hframes : vm.frames with
    | nil => exact .inl ⟨vm, by simp only [hframes]; rfl⟩
    | cons frame frames =>
      cases hcell : frame.cells[asUsize raw]? with
      | none => exact .inl ⟨vm, by simp only [hframes, hcell]; rfl⟩
      | some cell =>
        refine .inr ⟨frame, frames, cell, hraw, rfl, hcell, ?_⟩
        simp only [hframes, hcell]
        rfl
  · refine .inl ⟨vm, ?_⟩
    rw [readCell, EStateM.run_bind, run_require_of_not hraw]

theorem writeCell_cases (raw : Int32) (cell : LocalValue) (vm : ValueVm) :
    GivesUp (writeCell raw cell) vm ∨ ∃ frame frames, 0 ≤ raw ∧ vm.frames = frame :: frames ∧
      asUsize raw < frame.cells.length ∧ (writeCell raw cell).run vm = .ok () { vm with
        frames := { frame with cells := frame.cells.set (asUsize raw) cell } :: frames } := by
  by_cases hraw : 0 ≤ raw
  · rw [GivesUp, writeCell, EStateM.run_bind, run_require hraw]
    dsimp only
    rw [EStateM.run_bind, EStateM.run_get]
    cases hframes : vm.frames with
    | nil => exact .inl ⟨vm, by simp only [hframes]; rfl⟩
    | cons frame frames =>
      simp only [hframes, EStateM.run_bind]
      by_cases hslot : asUsize raw < frame.cells.length
      · rw [run_require hslot]
        exact .inr ⟨frame, frames, hraw, rfl, hslot, rfl⟩
      · rw [run_require_of_not hslot]
        exact .inl ⟨vm, rfl⟩
  · refine .inl ⟨vm, ?_⟩
    rw [writeCell, EStateM.run_bind, run_require_of_not hraw]

theorem readArray_cases (raw : Int32) (size : Nat) (vm : ValueVm) : GivesUp (readArray raw size) vm ∨
    ∃ frame frames data, 0 ≤ raw ∧ vm.frames = frame :: frames ∧
      frame.cells[asUsize raw]? = some (.array data) ∧ data.length = size ∧
        (readArray raw size).run vm = .ok data vm := by
  rw [GivesUp, readArray, EStateM.run_bind]
  rcases readCell_cases raw vm with ⟨vm', hrun⟩ | ⟨frame, frames, cell, hraw, hframes, hcell, hrun⟩
  · exact .inl ⟨vm', by rw [hrun]⟩
  · rw [hrun]
    cases cell with
    | undefined => exact .inl ⟨vm, rfl⟩
    | int value => exact .inl ⟨vm, rfl⟩
    | array data =>
      simp only [EStateM.run_bind]
      by_cases hsize : data.length = size
      · rw [run_require hsize]
        exact .inr ⟨frame, frames, data, hraw, hframes, hcell, hsize, rfl⟩
      · rw [run_require_of_not hsize]
        exact .inl ⟨vm, rfl⟩

/-- The arguments are the top operands, the last one on top. -/
theorem popArgs_cases (count : Nat) (args : List Int32) (hfresh : vm.fresh = none)
    (hframes : vm.frames = frame :: frames) : GivesUp (popArgs count args) vm ∨
      ∃ values operands, frame.operands = values ++ operands ∧ values.length = count ∧
        (popArgs count args).run vm = .ok (values.reverse ++ args)
          { vm with frames := { frame with operands := operands } :: frames } := by
  induction count generalizing args vm frame with
  | zero =>
    refine .inr ⟨[], frame.operands, rfl, rfl, ?_⟩
    rw [← hframes]
    rfl
  | succ count ih =>
    rw [GivesUp, popArgs, EStateM.run_bind]
    rcases pop_cases vm with ⟨vm', hrun⟩ | ⟨frame', frames', value, operands, -, hframes', hops, hrun⟩
    · exact .inl ⟨vm', by rw [hrun]⟩
    obtain ⟨rfl, rfl⟩ := List.cons.inj (hframes.symm.trans hframes')
    rw [hrun]
    rcases @ih { frame with operands := operands }
        { vm with frames := { frame with operands := operands } :: frames } (value :: args)
        hfresh rfl with hup | ⟨values, rest, hvalues, hcount, hrun'⟩
    · exact .inl hup
    · refine .inr ⟨value :: values, rest, ?_, congrArg (· + 1) hcount, ?_⟩
      · rw [hops, List.cons_append]
        exact congrArg _ hvalues
      · rw [List.reverse_cons, List.append_assoc]
        exact hrun'

theorem readGlobal_cases (slot : Nat) (vm : ValueVm) : GivesUp (readGlobal slot) vm ∨
    ∃ value, vm.globals[slot]? = some value ∧ (readGlobal slot).run vm = .ok value vm := by
  cases hvalue : vm.globals[slot]? with
  | none => exact .inl ⟨vm, by simp [readGlobal, hvalue]⟩
  | some value => exact .inr ⟨value, rfl, by simp [readGlobal, hvalue]⟩

theorem run_readGlobal {slot : Nat} {value : Int32} (h : vm.globals[slot]? = some value) :
    (readGlobal slot).run vm = .ok value vm := by
  simp [readGlobal, h]

end ValueVm

end MiniLang
