import MiniLang.Lib.StateExcept
import MiniLang.Machine.Shapes
import MiniLang.Machine.ShapedPrograms
import MiniLang.Machine.ValueRules

/-!
# What instructions do to shapes

In the middle of a run, the innermost frame has the shape of its program point, and the frames below
it have the shapes of their return addresses, but for the operand that the call is going to leave
there. The rules here say, for the operand functions of the value machine and then for its
instructions, that they do not give up in a state of the right shape, and which shape they lead to.

## Shapes and frames

A shape has the number of operands, the size of a fresh array on top of them, and the array
variables that are ready. A variable of an array type that is not ready may hold anything that
belongs there, nothing or an array of its size: the shape bounds what a frame holds from below, so
that it can be weakened where two paths meet (`FrameFits.mono`). The size of the array in a slot is
not a part of the shape but of the function, because it does not change along a path.

## The rules

`Sound P x Q` starts from a state within `P` and allows three outcomes: a value and a state within
`Q`, a trap with one of the `Expected` codes, and nothing else. In particular it excludes giving up,
which the simulations of the two machines allow. The operand rules compose by the bind rule of the
triples; the instruction rules after them end with `Next`, the same frame one instruction further.
-/

namespace MiniLang

open Verifier

variable {program : CompiledProgram} {table : Nat → Nat → Option Nat} {info : FunctionInfo}
  {sizes : Nat → Option Nat}
  {storage : Option Nat} {d pc returnPc : Nat} {R R' : Set Nat} {s s' : Shape}

namespace ValueVm

/-! ## Frames with shapes -/

/-- What the variable in a slot may hold. -/
def CellFits (sizes : Nat → Option Nat) (R : Set Nat) (slot : Nat) : LocalValue → Prop
  | .undefined => slot ∉ R
  | .int _ => sizes slot = none
  | .array data => sizes slot = some data.length

/-- The frame has the shape `s`, but for `missing` operands. -/
structure FrameFits (info : FunctionInfo) (sizes : Nat → Option Nat) (s : Shape) (missing : Nat)
    (frame : ValueFrame) : Prop where
  depth : frame.operands.length + missing = s.depth
  count : frame.cells.length = info.localCount
  cells : ∀ slot cell, frame.cells[slot]? = some cell → CellFits sizes s.ready slot cell

theorem CellFits.mono {slot : Nat} {cell : LocalValue} (h : CellFits sizes R' slot cell) (hR : R ⊆ R') :
    CellFits sizes R slot cell := by
  cases cell with
  | undefined => exact fun hslot ↦ h (hR hslot)
  | int value => exact h
  | array data => exact h

theorem FrameFits.mono {missing : Nat} {frame : ValueFrame} (h : FrameFits info sizes s' missing frame)
    (hs : s ≤ s') : FrameFits info sizes s missing frame where
  depth := h.depth.trans hs.1.symm
  count := h.count
  cells slot cell hcell := (h.cells slot cell hcell).mono hs.2.2

/-- The frames that wait for a call, the first of them to go on at an address. -/
def Waiting (program : CompiledProgram) (table : Nat → Nat → Option Nat) :
    Nat → List ValueFrame → Prop
  | _, [] => True
  | pc, frame :: frames => (∃ info stop shape,
      ShapedFunction program info stop (table info.id) shape ∧ frame.funcId = info.id ∧
      info.entryPc ≤ pc ∧ pc < stop ∧ (shape pc).fresh = none ∧
      FrameFits info (table info.id) (shape pc) 1 frame) ∧
    Waiting program table frame.returnPc frames

/-- The number of operands that an array on top of them makes. -/
def freshCount (fresh : Option Nat) : Nat := fresh.elim 0 fun _ ↦ 1

/-- The innermost frame has the shape `s` at `pc`, over the frames `rest`. -/
structure At (info : FunctionInfo) (sizes : Nat → Option Nat) (returnPc : Nat)
    (rest : List ValueFrame) (pc : Nat) (s : Shape) (vm : ValueVm) : Prop where
  frame : ∃ cells operands, vm.frames = ⟨returnPc, info.id, cells, operands⟩ :: rest ∧
    FrameFits info sizes s (freshCount s.fresh) ⟨returnPc, info.id, cells, operands⟩
  fresh : vm.fresh = s.fresh
  globals : vm.globals.length = maxGlobalSlots
  pc : vm.pc = pc

/-- The machine is in the middle of a well-shaped program. -/
def Running (program : CompiledProgram) (table : Nat → Nat → Option Nat) (vm : ValueVm) : Prop :=
  ∃ info stop shape returnPc rest, ShapedFunction program info stop (table info.id) shape ∧
    info.entryPc ≤ vm.pc ∧ vm.pc < stop ∧
    At info (table info.id) returnPc rest vm.pc (shape vm.pc) vm ∧
    Waiting program table returnPc rest

/-- The traps of instructions that are executed as they should be. -/
def Expected : Stop → Prop
  | .trap code _ => code ∈ [.undefinedLocal, .arrayOutOfBounds, .divideByZero, .stackOverflow]
  | .panic => False

/-- Started within `P`, `x` does not give up, and ends within `Q` if it is not trapped. -/
abbrev Sound {α : Type} (P : ValueVm → Prop) (x : ValueVmM α) (Q : α → ValueVm → Prop) : Prop :=
  EStateM.Triple P x Q fun stop _ ↦ Expected stop

/-! ## Operand rules -/

section

variable {rest : List ValueFrame} {α : Type} {P : ValueVm → Prop} {Q : α → ValueVm → Prop}

theorem sound_get_bind {f : ValueVm → ValueVmM α}
    (h : ∀ vm, P vm → ((f vm).run vm).Post Q fun stop _ ↦ Expected stop) :
    Sound P (get >>= f) Q := fun vm hvm ↦ h vm hvm

theorem sound_modify {g : ValueVm → ValueVm} {S : ValueVm → Prop} (h : ∀ vm, P vm → S (g vm)) :
    Sound P (modify g : ValueVmM PUnit) fun _ ↦ S := fun vm hvm ↦ h vm hvm

theorem sound_trap {code : TrapCode} {message : String} (h : Expected (.trap code message)) :
    Sound P (trap code message) Q := .throw fun _ _ ↦ h

theorem sound_require {p : Prop} [Decidable p] (h : ∀ vm, P vm → p) :
    Sound P (require p) fun _ ↦ P := by
  intro vm hvm
  rw [run_require (h vm hvm)]
  exact hvm

theorem sound_pop : Sound (At info sizes returnPc rest pc ⟨d + 1, none, R⟩) pop
    fun _ ↦ At info sizes returnPc rest pc ⟨d, none, R⟩ := by
  intro vm h
  obtain ⟨cells, operands, hframes, hfits⟩ := h.frame
  obtain ⟨value, operands, rfl⟩ := List.exists_cons_of_length_eq_add_one hfits.depth
  rw [run_pop h.fresh hframes rfl]
  refine ⟨⟨cells, operands, rfl, ?_, hfits.count, hfits.cells⟩, h.fresh, h.globals, h.pc⟩
  exact Nat.succ.inj hfits.depth

theorem sound_top : Sound (At info sizes returnPc rest pc ⟨d + 1, none, R⟩) top
    fun _ ↦ At info sizes returnPc rest pc ⟨d + 1, none, R⟩ := by
  intro vm h
  obtain ⟨cells, operands, hframes, hfits⟩ := h.frame
  obtain ⟨value, operands, rfl⟩ := List.exists_cons_of_length_eq_add_one hfits.depth
  rw [run_top h.fresh hframes rfl]
  exact h

theorem sound_push (value : Int32) : Sound (At info sizes returnPc rest pc ⟨d, none, R⟩) (push value)
    fun _ ↦ At info sizes returnPc rest pc ⟨d + 1, none, R⟩ := by
  intro vm h
  obtain ⟨cells, operands, hframes, hfits⟩ := h.frame
  have hfresh : vm.fresh = none := h.fresh
  by_cases hcount : vm.operandCount ≥ maxOperandStack
  · have hrun : (push value).run vm = .error
        (.trap .stackOverflow s!"Operand stack overflow (max {maxOperandStack} entries)") vm := by
      simp only [push, EStateM.run_bind, EStateM.run_get, run_require hfresh, if_pos hcount]
      rfl
    rw [hrun]
    exact List.mem_of_elem_eq_true rfl
  · have hrun : (push value).run vm = .ok () { vm with
        frames := ⟨returnPc, info.id, cells, value :: operands⟩ :: rest } := by
      simp only [push, EStateM.run_bind, EStateM.run_get, run_require hfresh, if_neg hcount, hframes]
      rfl
    rw [hrun]
    refine ⟨⟨cells, value :: operands, rfl, ?_, hfits.count, hfits.cells⟩, h.fresh, h.globals, h.pc⟩
    exact congrArg (· + 1) hfits.depth

/-- A variable of the function, which has the shape of its slot. -/
theorem sound_readCell {raw : Int32} (hraw : IsLocal (looseRange info) raw) :
    Sound (At info sizes returnPc rest pc s) (readCell raw)
      fun cell vm ↦ CellFits sizes s.ready (asUsize raw) cell ∧ At info sizes returnPc rest pc s vm := by
  intro vm h
  obtain ⟨cells, operands, hframes, hfits⟩ := h.frame
  have hlt : asUsize raw < cells.length := hraw.2.trans_eq hfits.count.symm
  have hcell : cells[asUsize raw]? = some cells[asUsize raw] := List.getElem?_eq_getElem hlt
  have hrun : (readCell raw).run vm = .ok cells[asUsize raw] vm := by
    simp [readCell, run_require, hraw.1, hframes, hcell]
  rw [hrun]
  exact ⟨hfits.cells _ _ hcell, h⟩

theorem sound_readArray {raw : Int32} {size : Nat} (hraw : IsLocal (looseRange info) raw)
    (hready : asUsize raw ∈ s.ready) (hsize : sizes (asUsize raw) = some size) :
    Sound (At info sizes returnPc rest pc s) (readArray raw size)
      fun data vm ↦ data.length = size ∧ At info sizes returnPc rest pc s vm := by
  refine .bind (sound_readCell hraw) fun cell ↦ ?_
  rintro vm ⟨hcell, h⟩
  cases cell with
  | undefined => exact absurd hready hcell
  | int value =>
    rw [show sizes (asUsize raw) = none from hcell] at hsize
    cases hsize
  | array data =>
    have hlength : data.length = size :=
      Option.some_inj.mp ((show sizes (asUsize raw) = some data.length from hcell).symm.trans hsize)
    simp only [EStateM.run_bind, run_require hlength]
    exact ⟨hlength, h⟩

/-- A new content of a variable, which may make it ready. -/
theorem sound_writeCell {raw : Int32} {cell : LocalValue} (hraw : IsLocal (looseRange info) raw)
    (hR : R ⊆ insert (asUsize raw) s.ready) (hcell : CellFits sizes R (asUsize raw) cell) :
    Sound (At info sizes returnPc rest pc s) (writeCell raw cell)
      fun _ ↦ At info sizes returnPc rest pc { s with ready := R } := by
  intro vm h
  obtain ⟨cells, operands, hframes, hfits⟩ := h.frame
  have hlt : asUsize raw < cells.length := hraw.2.trans_eq hfits.count.symm
  have hrun : (writeCell raw cell).run vm = .ok () { vm with
      frames := ⟨returnPc, info.id, cells.set (asUsize raw) cell, operands⟩ :: rest } := by
    simp only [writeCell, EStateM.run_bind, EStateM.run_get, run_require hraw.1, hframes,
      run_require hlt]
    rfl
  rw [hrun]
  refine ⟨⟨_, operands, rfl, hfits.depth, List.length_set.trans hfits.count, ?_⟩, h.fresh, h.globals,
    h.pc⟩
  intro slot cell' hcell'
  by_cases heq : asUsize raw = slot
  · subst heq
    rw [List.getElem?_set_self hlt] at hcell'
    exact Option.some_inj.mp hcell' ▸ hcell
  · rw [List.getElem?_set_ne heq] at hcell'
    have hbefore := hfits.cells slot cell' hcell'
    cases cell' with
    | undefined =>
      intro hslot
      exact hbefore ((Set.mem_insert_iff.mp (hR hslot)).resolve_left (Ne.symm heq))
    | int value => exact hbefore
    | array data => exact hbefore

theorem sound_readGlobal {slot : Nat} (hslot : slot < maxGlobalSlots) :
    Sound (At info sizes returnPc rest pc s) (readGlobal slot)
      fun _ ↦ At info sizes returnPc rest pc s := by
  intro vm h
  rw [run_readGlobal (List.getElem?_eq_getElem (hslot.trans_eq h.globals.symm))]
  exact h

theorem sound_writeGlobal (slot : Nat) (value : Int32) :
    Sound (At info sizes returnPc rest pc s) (writeGlobal slot value)
      fun _ ↦ At info sizes returnPc rest pc s :=
  sound_modify fun _ h ↦ ⟨h.frame, h.fresh, List.length_set.trans h.globals, h.pc⟩

theorem sound_arrayIndex (raw : Int32) (size : Nat) :
    Sound P (arrayIndex raw size) fun index vm ↦ index < size ∧ P vm := by
  rw [arrayIndex]
  split
  · exact sound_trap (List.mem_of_elem_eq_true rfl)
  · next hbound =>
    refine .pure fun vm hvm ↦ ⟨?_, hvm⟩
    rw [not_or] at hbound
    exact Nat.lt_of_not_le hbound.2

theorem sound_popArgs (count : Nat) (args : List Int32) :
    Sound (At info sizes returnPc rest pc ⟨d + count, none, R⟩) (popArgs count args)
      fun args' vm ↦ args'.length = count + args.length ∧
        At info sizes returnPc rest pc ⟨d, none, R⟩ vm := by
  induction count generalizing args with
  | zero => exact .pure fun vm hvm ↦ ⟨(Nat.zero_add _).symm, hvm⟩
  | succ count ih =>
    refine .bind sound_pop fun arg ↦ (ih (arg :: args)).consequence (fun _ ↦ id) ?_ fun _ _ ↦ id
    rintro args' vm ⟨hlength, hvm⟩
    rw [List.length_cons] at hlength
    exact ⟨by omega, hvm⟩

/-! ## Instructions -/

/-- The next instruction is reached with `d` operands. -/
def Next (info : FunctionInfo) (sizes : Nat → Option Nat) (returnPc : Nat) (rest : List ValueFrame)
    (pc : Nat) (s : Shape) (flow : Flow) (vm : ValueVm) : Prop :=
  flow = .next ∧ At info sizes returnPc rest pc s vm

theorem sound_next : Sound (At info sizes returnPc rest pc s) (return .next)
    (Next info sizes returnPc rest pc s) := .pure fun _ hvm ↦ ⟨rfl, hvm⟩

theorem sound_binary (f : Int32 → Int32 → Int32) :
    Sound (At info sizes returnPc rest pc ⟨d + 2, none, R⟩) (binary f)
      (Next info sizes returnPc rest pc ⟨d + 1, none, R⟩) :=
  .bind sound_pop fun _ ↦ .bind sound_pop fun _ ↦ .bind (sound_push _) fun _ ↦ sound_next

theorem sound_unary (f : Int32 → Int32) :
    Sound (At info sizes returnPc rest pc ⟨d + 1, none, R⟩) (unary f)
      (Next info sizes returnPc rest pc ⟨d + 1, none, R⟩) :=
  .bind sound_pop fun _ ↦ .bind (sound_push _) fun _ ↦ sound_next

theorem sound_alloc {raw : Int32} (hraw : 0 < raw) :
    Sound (At info sizes returnPc rest pc ⟨d, none, R⟩) (alloc raw)
      (Next info sizes returnPc rest pc ⟨d + 1, some (asUsize raw), R⟩) := by
  refine .bind (sound_require fun _ _ ↦ Int32.le_of_lt hraw) fun _ ↦ sound_get_bind fun vm h ↦ ?_
  obtain ⟨cells, operands, hframes, hfits⟩ := h.frame
  have hready : vm.fresh = none ∧ vm.frames ≠ [] := ⟨h.fresh, by rw [hframes]; exact List.cons_ne_nil _ _⟩
  simp only [EStateM.run_bind, EStateM.run_get, run_require hready]
  split
  · exact sound_trap (P := fun _ ↦ True) (List.mem_of_elem_eq_true rfl) vm trivial
  · exact ⟨rfl, ⟨cells, operands, hframes, congrArg (· + 1) hfits.depth, hfits.count, hfits.cells⟩,
      rfl, h.globals, h.pc⟩

/-- A value is stored in a scalar variable, a fresh array in one of its size. -/
theorem sound_storeLocal {raw : Int32} {fresh : Option Nat} (hraw : IsLocal (looseRange info) raw)
    (hsize : sizes (asUsize raw) = fresh) :
    Sound (At info sizes returnPc rest pc ⟨d + 1, fresh, R⟩) (storeLocal raw)
      (Next info sizes returnPc rest pc
        ⟨d, none, if fresh ≠ none then insert (asUsize raw) R else R⟩) := by
  refine sound_get_bind fun vm h ↦ ?_
  have hfresh : vm.fresh = fresh := h.fresh
  cases fresh with
  | none =>
    rw [hfresh]
    have hcell (value : Int32) : CellFits sizes R (asUsize raw) (.int value) := hsize
    exact EStateM.Triple.bind sound_pop (fun value ↦ .bind
      (sound_writeCell (s := ⟨d, none, R⟩) hraw (Set.subset_insert _ R) (hcell value))
      fun _ ↦ sound_next) vm h
  | some size =>
    rw [hfresh]
    have hcell : CellFits sizes (insert (asUsize raw) R) (asUsize raw)
        (.array (List.replicate size 0)) :=
      hsize.trans (congrArg some List.length_replicate.symm)
    refine EStateM.Triple.bind (sound_writeCell hraw subset_rfl hcell) (fun _ ↦ .bind
      (sound_modify (S := At info sizes returnPc rest pc ⟨d, none, insert (asUsize raw) R⟩)
        fun vm' h' ↦ ?_) fun _ ↦ sound_next) vm h
    obtain ⟨cells, operands, hframes, hfits⟩ := h'.frame
    exact ⟨⟨cells, operands, hframes, Nat.succ.inj hfits.depth, hfits.count, hfits.cells⟩, rfl,
      h'.globals, h'.pc⟩

/-- A variable that is no array is loaded; before its declaration the program is trapped. -/
theorem sound_loadLocal {raw arg2 : Int32} (hraw : IsLocal (looseRange info) raw)
    (hscalar : sizes (asUsize raw) = none) :
    Sound (At info sizes returnPc rest pc ⟨d, none, R⟩)
      (executeInstruction program storage .loadLocal raw arg2)
      (Next info sizes returnPc rest pc ⟨d + 1, none, R⟩) := by
  refine .bind (sound_readCell hraw) fun cell ↦ ?_
  cases cell with
  | undefined => exact sound_trap (List.mem_of_elem_eq_true rfl)
  | int value =>
    exact EStateM.Triple.consequence (.bind (sound_push value) fun _ ↦ sound_next) (fun _ h ↦ h.2)
      (fun _ _ ↦ id) fun _ _ ↦ id
  | array data =>
    rintro vm ⟨hcell, -⟩
    rw [CellFits, hscalar] at hcell
    cases hcell

theorem sound_loadGlobal {raw arg2 : Int32} (hraw : IsGlobal raw)
    (hscalar : ScalarGlobal program (asUsize raw)) :
    Sound (At info sizes returnPc rest pc ⟨d, none, R⟩)
      (executeInstruction program storage .loadGlobal raw arg2)
      (Next info sizes returnPc rest pc ⟨d + 1, none, R⟩) :=
  .bind (sound_require fun _ _ ↦ ⟨hraw.1, hscalar⟩) fun _ ↦ .bind (sound_readGlobal hraw.2)
    fun _ ↦ .bind (sound_push _) fun _ ↦ sound_next

theorem sound_storeGlobal {raw arg2 : Int32} (hraw : IsGlobal raw)
    (hscalar : ScalarGlobal program (asUsize raw)) :
    Sound (At info sizes returnPc rest pc ⟨d + 1, none, R⟩)
      (executeInstruction program storage .storeGlobal raw arg2)
      (Next info sizes returnPc rest pc ⟨d, none, R⟩) :=
  .bind (sound_require fun _ _ ↦ ⟨hraw.1, hscalar⟩) fun _ ↦ .bind sound_pop
    fun _ ↦ .bind (sound_writeGlobal _ _) fun _ ↦ sound_next

theorem sound_div {arg1 arg2 : Int32} :
    Sound (At info sizes returnPc rest pc ⟨d + 2, none, R⟩)
      (executeInstruction program storage .div arg1 arg2)
      (Next info sizes returnPc rest pc ⟨d + 1, none, R⟩) := by
  refine .bind sound_pop fun b ↦ .bind sound_pop fun a ↦ ?_
  split
  · exact sound_trap (List.mem_of_elem_eq_true rfl)
  · exact .bind (sound_push _) fun _ ↦ sound_next

/-! ### Elements of arrays -/

theorem sound_arrayLoad {raw size : Int32} (hraw : IsGlobalArray raw size)
    (harray : ArrayGlobal program (asUsize raw) (asUsize size)) :
    Sound (At info sizes returnPc rest pc ⟨d + 1, none, R⟩)
      (executeInstruction program storage .arrayLoad raw size)
      (Next info sizes returnPc rest pc ⟨d + 1, none, R⟩) := by
  obtain ⟨⟨hslot, -⟩, hsize, hle⟩ := hraw
  refine .bind (sound_require fun _ _ ↦ ⟨hslot, Int32.le_of_lt hsize, harray⟩) fun _ ↦
    .bind sound_pop fun _ ↦ .bind (sound_arrayIndex _ _) fun index ↦ ?_
  rintro vm ⟨hindex, h⟩
  have hslots : asUsize raw + asUsize size ≤ maxGlobalSlots := hle
  exact EStateM.Triple.bind (sound_readGlobal (by omega)) (fun _ ↦ .bind (sound_push _)
    fun _ ↦ sound_next) vm h

theorem sound_arrayStore {raw size : Int32} (hraw : IsGlobalArray raw size)
    (harray : ArrayGlobal program (asUsize raw) (asUsize size)) :
    Sound (At info sizes returnPc rest pc ⟨d + 2, none, R⟩)
      (executeInstruction program storage .arrayStore raw size)
      (Next info sizes returnPc rest pc ⟨d, none, R⟩) := by
  obtain ⟨⟨hslot, -⟩, hsize, -⟩ := hraw
  refine .bind (sound_require fun _ _ ↦ ⟨hslot, Int32.le_of_lt hsize, harray⟩) fun _ ↦
    .bind sound_pop fun _ ↦ .bind sound_pop fun _ ↦ .bind (sound_arrayIndex _ _) fun index ↦ ?_
  rintro vm ⟨-, h⟩
  exact EStateM.Triple.bind (sound_writeGlobal _ _) (fun _ ↦ sound_next) vm h

theorem sound_localArrayLoad {raw size : Int32} (hsize : 0 < size)
    (hraw : IsLocal (looseRange info) raw) (hready : asUsize raw ∈ R)
    (hsizes : sizes (asUsize raw) = some (asUsize size)) :
    Sound (At info sizes returnPc rest pc ⟨d + 1, none, R⟩)
      (executeInstruction program storage .localArrayLoad raw size)
      (Next info sizes returnPc rest pc ⟨d + 1, none, R⟩) := by
  refine .bind (sound_require fun _ _ ↦ Int32.le_of_lt hsize) fun _ ↦
    .bind (sound_readCell hraw) fun _ ↦ ?_
  rintro vm ⟨-, h⟩
  refine EStateM.Triple.bind sound_pop (fun _ ↦ .bind (sound_arrayIndex _ _) fun index ↦ ?_) vm h
  rintro vm ⟨-, h⟩
  refine EStateM.Triple.bind (sound_readArray (s := ⟨d, none, R⟩) hraw hready hsizes)
    (fun data ↦ ?_) vm h
  rintro vm ⟨-, h⟩
  exact EStateM.Triple.bind (sound_push _) (fun _ ↦ sound_next) vm h

theorem sound_localArrayStore {raw size : Int32} (hsize : 0 < size)
    (hraw : IsLocal (looseRange info) raw) (hready : asUsize raw ∈ R)
    (hsizes : sizes (asUsize raw) = some (asUsize size)) :
    Sound (At info sizes returnPc rest pc ⟨d + 2, none, R⟩)
      (executeInstruction program storage .localArrayStore raw size)
      (Next info sizes returnPc rest pc ⟨d, none, R⟩) := by
  refine .bind (sound_require fun _ _ ↦ Int32.le_of_lt hsize) fun _ ↦
    .bind (sound_readCell hraw) fun _ ↦ ?_
  rintro vm ⟨-, h⟩
  refine EStateM.Triple.bind sound_pop (fun _ ↦ .bind sound_pop fun _ ↦
    .bind (sound_arrayIndex _ _) fun index ↦ ?_) vm h
  rintro vm ⟨-, h⟩
  refine EStateM.Triple.bind (sound_readArray (s := ⟨d, none, R⟩) hraw hready hsizes)
    (fun data ↦ ?_) vm h
  rintro vm ⟨hdata, h⟩
  -- the array keeps its length, so the variable keeps its shape
  refine EStateM.Triple.bind (sound_writeCell hraw (Set.subset_insert _ R) ?_)
    (fun _ ↦ sound_next) vm h
  rw [CellFits, List.length_set, hdata]
  exact hsizes

/-! ### Jumps and calls -/

theorem sound_jump {target arg2 : Int32} :
    Sound (At info sizes returnPc rest pc s) (executeInstruction program storage .jump target arg2)
      fun flow vm ↦ flow = .jump ∧ At info sizes returnPc rest (asUsize target) s vm :=
  .bind (sound_modify (S := At info sizes returnPc rest (asUsize target) s)
    fun _ h ↦ ⟨h.frame, h.fresh, h.globals, rfl⟩) fun _ ↦ .pure fun _ h ↦ ⟨rfl, h⟩

/-- A conditional jump. -/
theorem sound_branch (jumpIf : Int32 → Bool) (target : Int32) :
    Sound (At info sizes returnPc rest pc ⟨d + 1, none, R⟩) (branch jumpIf target) fun flow vm ↦
      Next info sizes returnPc rest pc ⟨d, none, R⟩ flow vm ∨
        flow = .jump ∧ At info sizes returnPc rest (asUsize target) ⟨d, none, R⟩ vm := by
  refine .bind sound_pop fun cond ↦ ?_
  split
  · refine .bind (sound_modify fun vm h ↦ ?_) fun _ ↦ .pure fun vm h ↦ .inr ⟨rfl, h⟩
    exact ⟨h.frame, h.fresh, h.globals, rfl⟩
  · exact .pure fun _ hvm ↦ .inl ⟨rfl, hvm⟩

/-- A function is entered without operands; its caller waits for one. -/
theorem sound_call {id argc : Int32} (hshaped : WellShaped program table)
    (hcallee : IsCallee program id argc)
    (hwaiting : ∀ frame, FrameFits info sizes ⟨d + 1, none, R⟩ 1 frame → frame.returnPc = returnPc →
      frame.funcId = info.id → Waiting program table (pc + 1) (frame :: rest)) :
    Sound (At info sizes returnPc rest pc ⟨d + asUsize argc, none, R⟩) (call program storage id argc)
      fun flow vm ↦ flow = .jump ∧ Running program table vm := by
  obtain ⟨hid, hargc, callee, hlookup, hcount⟩ := hcallee
  obtain ⟨hcalleeId, stop, shape, hshape⟩ := hshaped _ _ hlookup
  rw [← hcalleeId] at hshape
  obtain ⟨hdepth, hfresh, hready⟩ := hshape.entry
  rw [call]
  refine .bind (sound_require fun _ _ ↦ ⟨hid, hargc⟩) fun _ ↦ ?_
  rw [hlookup]
  refine sound_get_bind fun vm h ↦ ?_
  have hcan : asUsize argc = callee.paramCount ∧ callee.paramCount ≤ callee.localCount ∧
      vm.fresh = none := ⟨hcount, hshape.paramCount_le, h.fresh⟩
  simp only [EStateM.run_bind, EStateM.run_get, run_require hcan]
  split
  · exact sound_trap (P := fun _ ↦ True) (List.mem_of_elem_eq_true rfl) vm trivial
  simp only [EStateM.run_bind, EStateM.run_get]
  split
  · exact sound_trap (P := fun _ ↦ True) (List.mem_of_elem_eq_true rfl) vm trivial
  rw [← hcount]
  refine EStateM.Triple.bind (sound_popArgs (asUsize argc) []) (fun args ↦ .bind
    (Q := fun _ ↦ Running program table) (sound_modify fun vm' h' ↦ ?_)
    fun _ ↦ .pure fun _ hvm ↦ ⟨rfl, hvm⟩) vm h
  obtain ⟨hlength, h'⟩ := h'
  obtain ⟨cells, operands, hframes, hfits⟩ := h'.frame
  rw [List.length_nil, Nat.add_zero] at hlength
  refine ⟨callee, stop, shape, vm'.pc + 1, vm'.frames, hshape, le_rfl, hshape.entry_lt,
    ⟨⟨_, [], by rw [hcalleeId], ?_⟩, h'.fresh.trans hfresh.symm, h'.globals, rfl⟩, ?_⟩
  · refine ⟨?_, ?_, fun slot cell hcell ↦ ?_⟩
    · rw [hfresh]
      exact hdepth.symm
    · have hle := hshape.paramCount_le
      simp only [List.length_append, List.length_map, List.length_replicate]
      omega
    · rcases Nat.lt_or_ge slot args.length with hlt | hge
      · rw [List.getElem?_append_left (by rwa [List.length_map]), List.getElem?_map,
          List.getElem?_eq_getElem hlt] at hcell
        obtain rfl := Option.some_inj.mp hcell
        exact hshape.params slot (by omega)
      · rw [List.getElem?_append_right (by rwa [List.length_map])] at hcell
        obtain rfl := List.eq_of_mem_replicate (List.mem_of_getElem? hcell)
        exact fun hslot ↦ Set.notMem_empty slot (hready hslot)
  · rw [hframes, h'.pc]
    exact hwaiting _ ⟨congrArg (· + 1) hfits.depth, hfits.count, hfits.cells⟩ rfl rfl

/-- The frame below goes on with the value. -/
theorem sound_ret (hwaiting : Waiting program table returnPc rest) :
    Sound (At info sizes returnPc rest pc ⟨1, none, R⟩) ret fun flow vm ↦
      (∃ value, flow = .exit value) ∨ flow = .jump ∧ Running program table vm := by
  refine .bind sound_pop fun value ↦ sound_get_bind fun vm h ↦ ?_
  obtain ⟨cells, operands, hframes, hfits⟩ := h.frame
  obtain rfl : operands = [] := List.length_eq_zero_iff.mp hfits.depth
  rw [hframes]
  simp only [EStateM.run_bind, run_require]
  by_cases hrest : rest = []
  · rw [if_pos hrest]
    exact .inl ⟨value, rfl⟩
  rw [if_neg hrest]
  obtain ⟨frame, rest, rfl⟩ := List.exists_cons_of_ne_nil hrest
  obtain ⟨⟨info', stop, shape, hshape, howner, hle, hlt, hfresh, hfits'⟩, hbelow⟩ := hwaiting
  have hdepth := hfits'.depth
  have hbefore : At info' (table info'.id) frame.returnPc rest vm.pc
      ⟨frame.operands.length, none, (shape returnPc).ready⟩ { vm with frames := frame :: rest } :=
    ⟨⟨frame.cells, frame.operands, by rw [← howner], rfl, hfits'.count, hfits'.cells⟩, h.fresh,
      h.globals, rfl⟩
  refine EStateM.Triple.bind (sound_push value) (fun _ ↦ .bind (Q := fun _ ↦ Running program table)
    (sound_modify fun vm' h' ↦ ?_) fun _ ↦ .pure fun _ hvm ↦ .inr ⟨rfl, hvm⟩) _ hbefore
  obtain ⟨cells, operands, hframes', hfits''⟩ := h'.frame
  refine ⟨info', stop, shape, frame.returnPc, rest, hshape, hle, hlt,
    ⟨⟨cells, operands, hframes', ?_, hfits''.count, hfits''.cells⟩, h'.fresh.trans hfresh.symm,
      h'.globals, rfl⟩, hbelow⟩
  rw [hfresh]
  exact hfits''.depth.trans hdepth

end

end ValueVm

end MiniLang
