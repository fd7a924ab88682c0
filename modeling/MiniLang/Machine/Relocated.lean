import MiniLang.Lib.Coupling
import MiniLang.Machine.ValueRules

/-!
# Code at other positions

Two states of the value machine that differ in positions only: the return positions of the frames
and the program counter, which correspond as the code of the two programs does, and the number of
cycles, of which the second state has no more.

Every instruction but a jump keeps such states alike. It reads positions only to put them into a new
frame and to return, and the functions it calls have to start at corresponding positions.

## Two relations

Return positions correspond by `M` and the program counters by `N`. They are the same between two
steps; within a step they differ, since the instruction is executed at a position of which nothing
is known but that the ones behind correspond. So the rules are stated for both, and which positions
correspond is up to the caller of this module.

## The argument

`FollowsAlike` compares two computations from alike states, with a panic of the first one as the
only excuse. There is a rule for each operand function and one for each way of leaving an
instruction, and the theorem about instructions goes through the opcodes with these.
-/

namespace MiniLang

open EStateM (Follows)

namespace ValueVm

variable {M N : Nat → Nat → Prop} {s t : ValueVm} {α β : Type} {program program' : CompiledProgram}
  {storage : Option Nat}

/-- Frames that differ in the return position. -/
structure FrameAlike (M : Nat → Nat → Prop) (frame frame' : ValueFrame) : Prop where
  returnPc : M frame.returnPc frame'.returnPc
  cells : frame.cells = frame'.cells
  operands : frame.operands = frame'.operands

/-- States that differ in positions and in the number of cycles. Return positions correspond by `M`,
the program counters by `N`. -/
structure Alike (M N : Nat → Nat → Prop) (s t : ValueVm) : Prop where
  frames : List.Forall₂ (FrameAlike M) s.frames t.frames
  fresh : s.fresh = t.fresh
  globals : s.globals = t.globals
  output : s.output = t.output
  maxCycles : s.maxCycles = t.maxCycles
  cycles : t.cycles ≤ s.cycles
  pc : N s.pc t.pc

/-- What remains alike where a run ends. -/
def SameOutput (s t : ValueVm) : Prop := s.output = t.output ∧ t.cycles ≤ s.cycles

/-- Two computations take alike states to alike states, with the same value or the same trap. -/
abbrev FollowsAlike (M N : Nat → Nat → Prop) (x y : ValueVmM α) : Prop :=
  Follows (· = .panic) SameOutput (Alike M N) x y fun a b s t ↦ a = b ∧ Alike M N s t

theorem Alike.sameOutput (h : Alike M N s t) : SameOutput s t := ⟨h.output, h.cycles⟩

/-- A frame of the one state is one of the other. -/
theorem Alike.exists_frame (h : Alike M N s t) {frame : ValueFrame} {frames : List ValueFrame}
    (hframes : s.frames = frame :: frames) : ∃ frame' frames', t.frames = frame' :: frames' ∧
      FrameAlike M frame frame' ∧ List.Forall₂ (FrameAlike M) frames frames' := by
  have hall := h.frames
  rw [hframes] at hall
  obtain ⟨frame', frames', hframe, hrest, heq⟩ := List.forall₂_cons_left_iff.mp hall
  exact ⟨frame', frames', heq, hframe, hrest⟩

/-- The current frame becomes another one, in both states. -/
theorem Alike.setFrame (h : Alike M N s t) {frame frame' : ValueFrame}
    {frames frames' : List ValueFrame} (hframe : FrameAlike M frame frame')
    (hrest : List.Forall₂ (FrameAlike M) frames frames') :
    Alike M N { s with frames := frame :: frames } { t with frames := frame' :: frames' } :=
  ⟨.cons hframe hrest, h.fresh, h.globals, h.output, h.maxCycles, h.cycles, h.pc⟩

theorem ints_eq_of_frames {frames frames' : List ValueFrame}
    (h : List.Forall₂ (FrameAlike M) frames frames') : allInts frames = allInts frames' := by
  induction h with
  | nil => rfl
  | cons hframe _ ih => rw [allInts_cons, allInts_cons, hframe.operands, ih]

theorem cells_eq_of_frames {frames frames' : List ValueFrame}
    (h : List.Forall₂ (FrameAlike M) frames frames') : allCells frames = allCells frames' := by
  induction h with
  | nil => rfl
  | cons hframe _ ih => rw [allCells_cons, allCells_cons, hframe.cells, ih]

theorem Alike.operandCount (h : Alike M N s t) : s.operandCount = t.operandCount := by
  rw [ValueVm.operandCount, ValueVm.operandCount, ints_eq, ints_eq, ints_eq_of_frames h.frames,
    h.fresh]

theorem Alike.cells (h : Alike M N s t) : s.cells = t.cells := cells_eq_of_frames h.frames

/-! ## Rules -/

theorem alike_pure (a : α) : FollowsAlike M N (pure a) (pure a) := .pure fun _ _ h ↦ ⟨rfl, h⟩

theorem alike_throw (stop : Stop) : FollowsAlike M N (throw stop : ValueVmM α) (throw stop) :=
  .stop fun _ _ h ↦ h.sameOutput

theorem alike_trap (code : TrapCode) (message : String) :
    FollowsAlike M N (trap code message : ValueVmM α) (trap code message) := alike_throw _

theorem alike_bind {x y : ValueVmM α} {f g : α → ValueVmM β} (hx : FollowsAlike M N x y)
    (hf : ∀ a, FollowsAlike M N (f a) (g a)) : FollowsAlike M N (x >>= f) (y >>= g) := by
  refine hx.bind fun a b ↦ ?_
  rintro s t ⟨rfl, h⟩
  exact hf a s t h

/-- What is read of the state is the same in alike states. -/
theorem alike_get {f g : ValueVm → ValueVmM α} (heq : ∀ s t, Alike M N s t → g t = g s)
    (hf : ∀ s, FollowsAlike M N (f s) (g s)) : FollowsAlike M N (get >>= f) (get >>= g) := by
  intro s t h
  have hrun := hf s s t
  rw [← heq s t h] at hrun
  exact hrun h

theorem alike_require (p : Prop) [Decidable p] : FollowsAlike M N (require p) (require p) := by
  rw [require]
  split
  · exact alike_pure ()
  · exact alike_throw .panic

theorem alike_modify {f g : ValueVm → ValueVm} (h : ∀ s t, Alike M N s t → Alike M N (f s) (g t)) :
    FollowsAlike M N (modify f : ValueVmM PUnit) (modify g) :=
  fun s t hst ↦ ⟨rfl, h s t hst⟩

/-- The first computation runs to its end, and so does the second one. -/
theorem alike_of_run {x y : ValueVmM α}
    (h : ∀ s t, Alike M N s t → GivesUp x s ∨ ∃ a s' t', x.run s = .ok a s' ∧ y.run t = .ok a t' ∧
      Alike M N s' t') : FollowsAlike M N x y := by
  intro s t hst
  rcases h s t hst with ⟨s', hrun⟩ | ⟨a, s', t', hrun, hrun', hst'⟩
  · rw [hrun]
    exact EStateM.Result.matches_of_free rfl
  · rw [hrun, hrun']
    exact ⟨rfl, hst'⟩

/-! ## Operands and variables -/

theorem alike_pop : FollowsAlike M N pop pop := by
  refine alike_of_run fun s t h ↦ ?_
  rcases pop_cases s with hup | ⟨frame, frames, value, operands, hfresh, hframes, hops, hrun⟩
  · exact .inl hup
  obtain ⟨frame', frames', hframes', hframe, hrest⟩ := h.exists_frame hframes
  refine .inr ⟨value, _, _, hrun,
    run_pop (h.fresh.symm.trans hfresh) hframes' (hframe.operands.symm.trans hops), ?_⟩
  exact h.setFrame ⟨hframe.returnPc, hframe.cells, rfl⟩ hrest

theorem alike_top : FollowsAlike M N top top := by
  refine alike_of_run fun s t h ↦ ?_
  rcases top_cases s with hup | ⟨frame, frames, value, operands, hfresh, hframes, hops, hrun⟩
  · exact .inl hup
  obtain ⟨frame', frames', hframes', hframe, hrest⟩ := h.exists_frame hframes
  exact .inr ⟨value, _, t, hrun,
    run_top (h.fresh.symm.trans hfresh) hframes' (hframe.operands.symm.trans hops), h⟩

theorem alike_push (value : Int32) : FollowsAlike M N (push value) (push value) := by
  rw [push]
  refine alike_get (fun s t h ↦ by rw [h.fresh]) fun _ ↦ alike_bind (alike_require _) fun _ ↦ ?_
  refine alike_get (fun s t h ↦ by rw [h.operandCount]) fun vm ↦ ?_
  split
  · exact alike_trap _ _
  refine .get_bind fun s t h ↦ ?_
  cases hframes : s.frames with
  | nil => exact .giveUp rfl
  | cons frame frames =>
    obtain ⟨frame', frames', hframes', hframe, hrest⟩ := h.exists_frame hframes
    rw [hframes']
    rintro _ _ ⟨rfl, rfl⟩
    exact ⟨rfl, h.setFrame
      ⟨hframe.returnPc, hframe.cells, congrArg (value :: ·) hframe.operands⟩ hrest⟩

theorem alike_readCell (raw : Int32) : FollowsAlike M N (readCell raw) (readCell raw) := by
  rw [readCell]
  refine alike_bind (alike_require _) fun _ ↦ .get_bind fun s t h ↦ ?_
  cases hframes : s.frames with
  | nil => exact .giveUp rfl
  | cons frame frames =>
    obtain ⟨frame', frames', hframes', hframe, -⟩ := h.exists_frame hframes
    rw [hframes']
    dsimp only
    rw [← hframe.cells]
    cases frame.cells[asUsize raw]? with
    | none => exact .giveUp rfl
    | some cell =>
      rintro _ _ ⟨rfl, rfl⟩
      exact ⟨rfl, h⟩

theorem alike_writeCell (raw : Int32) (cell : LocalValue) :
    FollowsAlike M N (writeCell raw cell) (writeCell raw cell) := by
  rw [writeCell]
  refine alike_bind (alike_require _) fun _ ↦ .get_bind fun s t h ↦ ?_
  cases hframes : s.frames with
  | nil => exact .giveUp rfl
  | cons frame frames =>
    obtain ⟨frame', frames', hframes', hframe, hrest⟩ := h.exists_frame hframes
    rw [hframes']
    dsimp only
    rw [← hframe.cells]
    by_cases hslot : asUsize raw < frame.cells.length
    · rintro _ _ ⟨rfl, rfl⟩
      rw [EStateM.run_bind, EStateM.run_bind, run_require hslot, run_require hslot]
      exact ⟨rfl, h.setFrame ⟨hframe.returnPc, rfl, hframe.operands⟩ hrest⟩
    · rintro _ _ ⟨rfl, rfl⟩
      rw [EStateM.run_bind, run_require_of_not hslot]
      exact EStateM.Result.matches_of_free rfl

theorem alike_readArray (raw : Int32) (size : Nat) :
    FollowsAlike M N (readArray raw size) (readArray raw size) := by
  refine alike_bind (alike_readCell raw) fun cell ↦ ?_
  cases cell with
  | array data => exact alike_bind (alike_require _) fun _ ↦ alike_pure data
  | undefined => exact alike_throw .panic
  | int value => exact alike_throw .panic

theorem alike_readGlobal (slot : Nat) : FollowsAlike M N (readGlobal slot) (readGlobal slot) := by
  rw [readGlobal]
  refine alike_get (fun s t h ↦ by rw [h.globals]) fun vm ↦ ?_
  cases vm.globals[slot]? with
  | none => exact alike_throw .panic
  | some value => exact alike_pure value

theorem alike_writeGlobal (slot : Nat) (value : Int32) :
    FollowsAlike M N (writeGlobal slot value) (writeGlobal slot value) :=
  alike_modify fun _ _ h ↦
    ⟨h.frames, h.fresh, congrArg (·.set slot value) h.globals, h.output, h.maxCycles, h.cycles, h.pc⟩

theorem alike_arrayIndex (index : Int32) (size : Nat) :
    FollowsAlike M N (arrayIndex index size) (arrayIndex index size) := by
  rw [arrayIndex]
  split
  · exact alike_trap _ _
  · exact alike_pure _

theorem alike_popArgs (count : Nat) (args : List Int32) :
    FollowsAlike M N (popArgs count args) (popArgs count args) := by
  induction count generalizing args with
  | zero => exact alike_pure args
  | succ count ih => exact alike_bind alike_pop fun arg ↦ ih (arg :: args)

/-! ## Instructions -/

/-- Control jumps, to corresponding positions, or the program ends. -/
def LeavesAlike (M : Nat → Nat → Prop) (flow flow' : Flow) (s t : ValueVm) : Prop :=
  flow = .jump ∧ flow' = .jump ∧ Alike M M s t ∨
    ∃ value, flow = .exit value ∧ flow' = .exit value ∧ SameOutput s t

/-- Control goes on, or it jumps, or the program ends. -/
def FlowAlike (M N : Nat → Nat → Prop) (flow flow' : Flow) (s t : ValueVm) : Prop :=
  flow = .next ∧ flow' = .next ∧ Alike M N s t ∨ LeavesAlike M flow flow' s t

/-- An instruction that does the same in both programs. -/
abbrev StepsAlike (M N : Nat → Nat → Prop) (x y : ValueVmM Flow) : Prop :=
  Follows (· = .panic) SameOutput (Alike M N) x y (FlowAlike M N)

theorem stepsAlike_next : StepsAlike M N (pure .next) (pure .next) :=
  .pure fun _ _ h ↦ .inl ⟨rfl, rfl, h⟩

theorem stepsAlike_trap (code : TrapCode) (message : String) :
    StepsAlike M N (trap code message) (trap code message) := .stop fun _ _ h ↦ h.sameOutput

theorem stepsAlike_bind {x y : ValueVmM α} {f g : α → ValueVmM Flow} (hx : FollowsAlike M N x y)
    (hf : ∀ a, StepsAlike M N (f a) (g a)) : StepsAlike M N (x >>= f) (y >>= g) := by
  refine hx.bind fun a b ↦ ?_
  rintro s t ⟨rfl, h⟩
  exact hf a s t h

theorem stepsAlike_get {f g : ValueVm → ValueVmM Flow} (heq : ∀ s t, Alike M N s t → g t = g s)
    (hf : ∀ s, StepsAlike M N (f s) (g s)) : StepsAlike M N (get >>= f) (get >>= g) := by
  intro s t h
  have hrun := hf s s t
  rw [← heq s t h] at hrun
  exact hrun h

theorem stepsAlike_push (value : Int32) : StepsAlike M N (do
    push value
    return .next) (do
    push value
    return .next) :=
  stepsAlike_bind (alike_push value) fun _ ↦ stepsAlike_next

theorem stepsAlike_binary (f : Int32 → Int32 → Int32) : StepsAlike M N (binary f) (binary f) :=
  stepsAlike_bind alike_pop fun b ↦ stepsAlike_bind alike_pop fun a ↦ stepsAlike_push (f a b)

theorem stepsAlike_unary (f : Int32 → Int32) : StepsAlike M N (unary f) (unary f) :=
  stepsAlike_bind alike_pop fun a ↦ stepsAlike_push (f a)

theorem require_congr {p q : Prop} [Decidable p] [Decidable q] (h : p ↔ q) :
    require p = require q := by
  rw [require, require]
  exact if_congr h rfl rfl

theorem Alike.frames_eq_nil (h : Alike M N s t) : t.frames = [] ↔ s.frames = [] := by
  rw [← List.length_eq_zero_iff, ← List.length_eq_zero_iff, h.frames.length_eq]

theorem stepsAlike_alloc (rawSize : Int32) : StepsAlike M N (alloc rawSize) (alloc rawSize) := by
  rw [alloc]
  refine stepsAlike_bind (alike_require _) fun _ ↦ ?_
  refine .get_bind fun s t h ↦ ?_
  refine .get_bind fun s' t' hst ↦ ?_
  obtain ⟨rfl, rfl⟩ := hst
  rw [require_congr (and_congr (by rw [h.fresh]) (not_congr h.frames_eq_nil) :
    (t'.fresh = none ∧ t'.frames ≠ []) ↔ s'.fresh = none ∧ s'.frames ≠ [])]
  refine Follows.weaken (P := Alike M N) ?_ ?_
  · refine stepsAlike_bind (alike_require _) fun _ ↦ ?_
    refine stepsAlike_get (fun s t h ↦ by rw [h.operandCount]) fun vm ↦ ?_
    split
    · exact stepsAlike_trap _ _
    · refine stepsAlike_bind (alike_modify fun s t h ↦ ?_) fun _ ↦ stepsAlike_next
      exact ⟨h.frames, rfl, h.globals, h.output, h.maxCycles, h.cycles, h.pc⟩
  · rintro _ _ ⟨rfl, rfl⟩
    exact h

theorem stepsAlike_storeLocal (raw : Int32) :
    StepsAlike M N (storeLocal raw) (storeLocal raw) := by
  rw [storeLocal]
  refine stepsAlike_get (fun s t h ↦ by rw [h.fresh]) fun vm ↦ ?_
  cases vm.fresh with
  | none =>
    exact stepsAlike_bind alike_pop fun value ↦
      stepsAlike_bind (alike_writeCell raw (.int value)) fun _ ↦ stepsAlike_next
  | some size =>
    refine stepsAlike_bind (alike_writeCell raw _) fun _ ↦
      stepsAlike_bind (alike_modify fun s t h ↦ ?_) fun _ ↦ stepsAlike_next
    exact ⟨h.frames, rfl, h.globals, h.output, h.maxCycles, h.cycles, h.pc⟩

/-- A call returns to the next instruction, and the called functions correspond. -/
theorem stepsAlike_call (hfunctions : program'.functions = program.functions)
    (hnext : ∀ pc pc', N pc pc' → M (pc + 1) (pc' + 1))
    (hentry : ∀ id func, program.functions.lookup id = some func → M func.entryPc func.entryPc)
    (arg1 arg2 : Int32) :
    StepsAlike M N (call program storage arg1 arg2) (call program' storage arg1 arg2) := by
  rw [call, call, hfunctions]
  refine stepsAlike_bind (alike_require _) fun _ ↦ ?_
  cases hfunc : program.functions.lookup (asUsize arg1) with
  | none => exact .giveUp rfl
  | some func =>
    refine stepsAlike_get (fun s t h ↦ by rw [h.fresh]) fun _ ↦
      stepsAlike_bind (alike_require _) fun _ ↦ ?_
    refine stepsAlike_get (fun s t h ↦ by rw [h.frames.length_eq]) fun vm ↦ ?_
    split
    · exact stepsAlike_trap _ _
    refine stepsAlike_get (fun s t h ↦ by rw [h.cells]) fun vm ↦ ?_
    dsimp only
    split
    · exact stepsAlike_trap _ _
    refine stepsAlike_bind (alike_popArgs func.paramCount []) fun args ↦ ?_
    intro s t h
    refine .inr (.inl ⟨rfl, rfl, ?_, h.fresh, h.globals, h.output, h.maxCycles, h.cycles, ?_⟩)
    · exact .cons ⟨hnext _ _ h.pc, rfl, rfl⟩ h.frames
    · exact hentry _ _ hfunc

/-- A return goes to where the frame says. -/
theorem leavesAlike_ret :
    Follows (· = .panic) SameOutput (Alike M N) ret ret (LeavesAlike M) := by
  rw [ret]
  refine alike_pop.bind fun value b ↦ Follows.assuming ?_
  rintro rfl
  refine .get_bind fun s t h ↦ ?_
  cases hframes : s.frames with
  | nil => exact .giveUp rfl
  | cons frame frames =>
    obtain ⟨frame', frames', hframes', hframe, hrest⟩ := h.exists_frame hframes
    rw [hframes']
    dsimp only
    rw [← hframe.operands]
    refine Follows.weaken (P := Alike M N) ?_ ?_
    · refine (alike_require _).bind fun _ _ ↦ .assuming fun _ ↦ ?_
      refine (alike_modify fun s t h ↦ ?_).bind fun _ _ ↦ .assuming fun _ ↦ ?_
      · exact ⟨hrest, h.fresh, h.globals, h.output, h.maxCycles, h.cycles, h.pc⟩
      have hnil : frames = [] ↔ frames' = [] := by
        rw [← List.length_eq_zero_iff, ← List.length_eq_zero_iff, hrest.length_eq]
      refine .ite hnil (fun _ ↦ .pure fun s t h ↦ .inr ⟨value, rfl, rfl, h.sameOutput⟩) fun _ ↦ ?_
      refine (alike_push value).bind fun _ _ ↦ .assuming fun _ ↦ ?_
      intro s t h
      exact .inl ⟨rfl, rfl, h.frames, h.fresh, h.globals, h.output, h.maxCycles, h.cycles,
        hframe.returnPc⟩
    · rintro _ _ ⟨rfl, rfl⟩
      exact h

/-- **An instruction does the same**, unless it is a jump. -/
theorem stepsAlike_executeInstruction (hfunctions : program'.functions = program.functions)
    (hglobals : program'.globals = program.globals)
    (hnext : ∀ pc pc', N pc pc' → M (pc + 1) (pc' + 1))
    (hentry : ∀ id func, program.functions.lookup id = some func → M func.entryPc func.entryPc)
    {opcode : Opcode} (hjump : opcode ∉ [.jump, .jumpIfFalse, .jumpIfTrue]) (arg1 arg2 : Int32) :
    StepsAlike M N (executeInstruction program storage opcode arg1 arg2)
      (executeInstruction program' storage opcode arg1 arg2) := by
  have hscalars (raw : Int32) : (0 ≤ raw ∧ ScalarGlobal program' (asUsize raw)) ↔
      0 ≤ raw ∧ ScalarGlobal program (asUsize raw) := by
    rw [ScalarGlobal, hglobals, ScalarGlobal]
  have harrays (raw raw' : Int32) :
      (0 ≤ raw ∧ 0 ≤ raw' ∧ ArrayGlobal program' (asUsize raw) (asUsize raw')) ↔
        0 ≤ raw ∧ 0 ≤ raw' ∧ ArrayGlobal program (asUsize raw) (asUsize raw') := by
    rw [ArrayGlobal, hglobals, ArrayGlobal]
  cases opcode with
  | loadConst => exact stepsAlike_push arg1
  | loadLocal =>
    refine stepsAlike_bind (alike_readCell arg1) fun cell ↦ ?_
    cases cell with
    | undefined => exact stepsAlike_trap _ _
    | int value => exact stepsAlike_push value
    | array data => exact .giveUp rfl
  | storeLocal => exact stepsAlike_storeLocal arg1
  | loadGlobal =>
    refine stepsAlike_bind ?_ fun _ ↦
      stepsAlike_bind (alike_readGlobal _) fun value ↦ stepsAlike_push value
    rw [require_congr (hscalars arg1)]
    exact alike_require _
  | storeGlobal =>
    refine stepsAlike_bind ?_ fun _ ↦ stepsAlike_bind alike_pop fun value ↦
      stepsAlike_bind (alike_writeGlobal _ value) fun _ ↦ stepsAlike_next
    rw [require_congr (hscalars arg1)]
    exact alike_require _
  | add | sub | mul | eq | ne | lt | gt | le | ge | and | or => exact stepsAlike_binary _
  | neg | not => exact stepsAlike_unary _
  | div =>
    refine stepsAlike_bind alike_pop fun b ↦ stepsAlike_bind alike_pop fun a ↦ ?_
    refine .ite Iff.rfl (fun _ ↦ stepsAlike_trap _ _) fun _ ↦ stepsAlike_push (a / b)
  | jump | jumpIfFalse | jumpIfTrue => simp at hjump
  | call => exact stepsAlike_call hfunctions hnext hentry arg1 arg2
  | «return» => exact leavesAlike_ret.consequence (fun _ _ ↦ id) fun _ _ _ _ ↦ .inr
  | arrayLoad =>
    refine stepsAlike_bind ?_ fun _ ↦ stepsAlike_bind alike_pop fun rawIndex ↦
      stepsAlike_bind (alike_arrayIndex rawIndex _) fun index ↦
        stepsAlike_bind (alike_readGlobal _) fun value ↦ stepsAlike_push value
    rw [require_congr (harrays arg1 arg2)]
    exact alike_require _
  | arrayStore =>
    refine stepsAlike_bind ?_ fun _ ↦ stepsAlike_bind alike_pop fun value ↦
      stepsAlike_bind alike_pop fun rawIndex ↦
        stepsAlike_bind (alike_arrayIndex rawIndex _) fun index ↦
          stepsAlike_bind (alike_writeGlobal _ value) fun _ ↦ stepsAlike_next
    rw [require_congr (harrays arg1 arg2)]
    exact alike_require _
  | localArrayLoad =>
    exact stepsAlike_bind (alike_require _) fun _ ↦ stepsAlike_bind (alike_readCell arg1) fun _ ↦
      stepsAlike_bind alike_pop fun rawIndex ↦
        stepsAlike_bind (alike_arrayIndex rawIndex _) fun index ↦
          stepsAlike_bind (alike_readArray arg1 _) fun data ↦ stepsAlike_push _
  | localArrayStore =>
    exact stepsAlike_bind (alike_require _) fun _ ↦ stepsAlike_bind (alike_readCell arg1) fun _ ↦
      stepsAlike_bind alike_pop fun value ↦ stepsAlike_bind alike_pop fun rawIndex ↦
        stepsAlike_bind (alike_arrayIndex rawIndex _) fun index ↦
          stepsAlike_bind (alike_readArray arg1 _) fun data ↦
            stepsAlike_bind (alike_writeCell arg1 _) fun _ ↦ stepsAlike_next
  | arrayNew | allocArray => exact stepsAlike_alloc arg1
  | print =>
    refine stepsAlike_bind alike_pop fun value ↦
      stepsAlike_bind (alike_modify fun s t h ↦ ?_) fun _ ↦ stepsAlike_next
    exact ⟨h.frames, h.fresh, h.globals, congrArg (· ++ [s!"OUTPUT: {value.toInt}"]) h.output,
      h.maxCycles, h.cycles, h.pc⟩
  | pop => exact stepsAlike_bind alike_pop fun _ ↦ stepsAlike_next
  | dup => exact stepsAlike_bind alike_top fun value ↦ stepsAlike_push value
  | halt => exact .giveUp rfl

end ValueVm

end MiniLang
