import MiniLang.Machine.BackendsAgree

/-!
# What the machines hold on compiled programs

Since both machines store the states of the value machine, and the value machine has the shape of
its program point, much is known of every state that a run of a compiled program gets to: which
operands are integers, where the variables of each frame lie, and that no two variables share an
array.

## The states behind

A state of the reference machine is a few vectors of integers. Whether one of these integers is a
number or the index of an array is not written in it. `exists_stored` and `exists_heaped` supply the
state of the value machine behind it, in lockstep from the start, and `Running` the shape that this
state has. Every result here is read off the two: the placement says where things lie, the shape
says what they are and how large they were declared.

## The fresh array

Between the allocation of a local array and the instruction that stores it, its index is an operand.
The shape of a program point has a fresh array exactly where the next instruction is that store
(`fresh_eq`), so the exception is stated by the program and the program counter alone: `StoresArray`
reads the instruction and the declared size of the slot it names.
-/

namespace MiniLang

open Verifier Compiler

namespace ValueVm

variable {maxCycles threshold : Nat} {source : List UInt8} {p : Program} {s : ValueVm} {t : Vm}
  {u u₀ : GcVm} {trace : Option (List TraceEvent)}

/-! ## The states behind -/

/-- A state of the reference machine stores one of the value machine. -/
theorem exists_stored (h : Accepted source p) (hagree : p.DeclsAgree) (hpos : 0 < maxCycles)
    (hle : maxCycles ≤ 2 ^ 32) (hreached : Vm.Reached (compile p) maxCycles trace t) :
    ∃ s, Stored (compile p) s t ∧ Running (compile p) (arraySizes p) s := by
  obtain ⟨t₀, hstart, hreaches⟩ := hreached
  rw [Vm.start] at hstart
  cases hvalidate : (compile p).validate with
  | error e =>
    rw [hvalidate] at hstart
    cases hstart
  | ok u =>
  have hpre := preflight_of_validate hvalidate
  have hshaped := h.wellShaped_of_validate hagree hvalidate
  obtain ⟨main, hmain, -⟩ := h.exists_main
  have hlookup := h.lookup_iff.mpr ⟨main, hmain, rfl⟩
  rw [hvalidate, hlookup] at hstart
  dsimp only at hstart
  rw [if_neg (Nat.not_lt.mpr (hpre.locals _ _ hlookup)), keyedById_compile h _ _ hlookup] at hstart
  obtain rfl := Sum.inl.inj hstart
  obtain ⟨s, hs, hstored⟩ := Stepping.Reaches.follows (fun s t hst ↦ step_follows hpre hst)
    (fun s r hs hend ↦ ne_panic_of_step hshaped (reaches_running hshaped hlookup hs) hend)
    (@stored_start _ _ trace _ hpre hlookup hpos hle) hreaches
  exact ⟨s, hstored, reaches_running hshaped hlookup hs⟩

/-- A state of the garbage-collected machine stores one of the value machine. -/
theorem exists_heaped (h : Accepted source p) (hagree : p.DeclsAgree)
    (hstart : GcVm.start (compile p) (gcInit maxCycles threshold trace) = .inl u₀)
    (hreaches : Stepping.Reaches (GcVm.step (compile p)) u₀ u) :
    ∃ s, Heaped (compile p) s u ∧ Running (compile p) (arraySizes p) s := by
  rw [GcVm.start] at hstart
  cases hvalidate : (compile p).validate with
  | error e =>
    rw [hvalidate] at hstart
    cases hstart
  | ok _ =>
  have hpre := preflight_of_validate hvalidate
  have hshaped := h.wellShaped_of_validate hagree hvalidate
  obtain ⟨main, hmain, -⟩ := h.exists_main
  have hlookup := h.lookup_iff.mpr ⟨main, hmain, rfl⟩
  obtain ⟨vm, hinit, hheaped⟩ := @exists_gcStart _
    ((globalEnv p).functionInfo main (compile p).mainFuncId (entryPc p (compile p).mainFuncId)) hpre
    h.apart_globals maxCycles threshold trace
  rw [hvalidate, hlookup] at hstart
  dsimp only at hstart
  rw [hinit] at hstart
  obtain rfl := Sum.inl.inj hstart
  obtain ⟨s, hs, hheaped⟩ := Stepping.Reaches.follows
    (fun s t hst ↦ gc_step hpre h.apart_globals hst)
    (fun s r hs hend ↦ ne_panic_of_step hshaped (reaches_running hshaped hlookup hs) hend)
    hheaped hreaches
  exact ⟨s, hheaped, reaches_running hshaped hlookup hs⟩

/-- An array is fresh exactly where the next instruction stores one of its size. -/
theorem Running.fresh_eq {program : CompiledProgram} {table : Nat → Nat → Option Nat}
    (h : Running program table s) : ∃ frame frames instr, s.frames = frame :: frames ∧
      program.instructions[s.pc]? = some instr ∧
      (instr.opcode = .storeLocal → s.fresh = table frame.funcId (asUsize instr.arg1)) ∧
      (instr.opcode ≠ .storeLocal → s.fresh = none) := by
  obtain ⟨info, stop, shape, returnPc, rest, hshape, hle, hlt, hat, -⟩ := h
  obtain ⟨cells, operands, hframes, -⟩ := hat.frame
  obtain ⟨instr, hfetch⟩ : ∃ instr, program.instructions[s.pc]? = some instr :=
    ⟨_, List.getElem?_eq_getElem (hlt.trans_le hshape.stop_le)⟩
  obtain ⟨-, -, hfits⟩ := hshape.fits s.pc instr hle hlt hfetch
  refine ⟨_, rest, instr, hframes, hfetch, fun hop ↦ ?_, fun hop ↦ ?_⟩
  · rw [hop] at hfits
    exact hat.fresh.trans hfits.symm
  · rw [hat.fresh]
    obtain ⟨opcode, arg1, arg2⟩ := instr
    cases opcode with
    | storeLocal => exact absurd rfl hop
    | arrayNew => exact hfits
    | allocArray => exact hfits
    | _ => exact hfits.1

/-! ## The operands of the reference machine -/

/-- The next instruction stores an array of `size` elements in the variable that is declared so. -/
def StoresArray (p : Program) (t : Vm) (size : Nat) : Prop :=
  ∃ frame callers instr, t.callStack = frame :: callers ∧
    (compile p).instructions[t.pc]? = some instr ∧ instr.opcode = .storeLocal ∧
    arraySizes p frame.funcId (asUsize instr.arg1) = some size

/-- A fresh array is one that is stored next. -/
theorem storesArray_iff (hstored : Stored (compile p) s t)
    (hrunning : Running (compile p) (arraySizes p) s) {size : Nat} :
    StoresArray p t size ↔ s.fresh = some size := by
  obtain ⟨frame, frames, instr, hframes, hfetch, hstores, hother⟩ := hrunning.fresh_eq
  have hframed := hstored.frames
  rw [hframes] at hframed
  obtain ⟨info, rest, hcallers, -⟩ := hframed.current
  rw [← hstored.pc] at hfetch
  constructor
  · rintro ⟨frame', callers, instr', hcallers', hfetch', hop, hsize⟩
    obtain ⟨rfl, -⟩ := List.cons_eq_cons.mp (hcallers.symm.trans hcallers')
    obtain rfl := Option.some_inj.mp (hfetch.symm.trans hfetch')
    exact (hstores hop).trans hsize
  · intro hfresh
    have hop : instr.opcode = .storeLocal := by
      by_contra hop
      rw [hother hop] at hfresh
      cases hfresh
    exact ⟨_, rest, instr, hcallers, hfetch, hop, (hstores hop).symm.trans hfresh⟩

/-- **The operands and the globals are 32-bit integers**, but for the index of an array that is
stored in its variable next. The array has the size that its variable is declared with, holds zeros,
and is what the vector of locals ends with. -/
theorem operands_are_integers (h : Accepted source p) (hagree : p.DeclsAgree) (hpos : 0 < maxCycles)
    (hle : maxCycles ≤ 2 ^ 32) (hreached : Vm.Reached (compile p) maxCycles trace t) :
    (∃ ints : List Int32, t.globals = ints.map Int32.toInt) ∧
      ((∀ size, ¬StoresArray p t size) → ∃ ints : List Int32, t.stack = ints.map Int32.toInt) ∧
      ∀ size, StoresArray p t size → 0 < size ∧ ∃ (base : Nat) (ints : List Int32),
        t.stack = (base : Int) :: ints.map Int32.toInt ∧ maxLocalSlots ≤ base ∧
        base + size = t.locals.length ∧ ∀ i < size, t.locals[base + i]? = some 0 := by
  obtain ⟨s, hstored, hrunning⟩ := exists_stored h hagree hpos hle hreached
  refine ⟨⟨_, hstored.globals⟩, fun hnone ↦ ?_, fun size hstores ↦ ?_⟩
  · refine ⟨_, hstored.operands_none (Option.eq_none_iff_forall_ne_some.mpr fun size hfresh ↦ ?_)⟩
    exact hnone size ((storesArray_iff hstored hrunning).mpr hfresh)
  · have hoperands := hstored.operands
    rw [(storesArray_iff hstored hrunning).mp hstores] at hoperands
    obtain ⟨base, hstack, hfresh⟩ := hoperands
    obtain ⟨_, _, _, -, -, -, hsize⟩ := hstores
    refine ⟨h.arraySizes_pos hagree hsize, base, _, hstack, hfresh.behind, hfresh.ends,
      fun i hi ↦ hfresh.block.get i 0 ?_⟩
    rw [List.getElem?_replicate, if_pos hi]

/-- In the callee, the array behind the caller's is about to be stored. -/
theorem operands_are_integers_heldArrays : ∃ t, Vm.Reached (compile heldArrays) 100 none t ∧
    StoresArray heldArrays t 2 ∧ ∃ (base : Nat) (ints : List Int32),
      t.stack = (base : Int) :: ints.map Int32.toInt ∧ maxLocalSlots ≤ base ∧
      base + 2 = t.locals.length ∧ ∀ i < 2, t.locals[base + i]? = some 0 := by
  have hafter : (((Vm.start (compile heldArrays) (Vm.init 100 none)).elim
      (Stepping.after (Vm.step (compile heldArrays)) 6) fun _ ↦ none).any
      fun t ↦ t.callStack.head? = some ⟨5, 1, 1⟩ ∧ t.pc = 9) = true := by decide +kernel
  obtain ⟨t₀, t, hstart, hreaches, hcheck⟩ := Stepping.exists_reaches_of_after hafter
  have hreached : Vm.Reached (compile heldArrays) 100 none t := ⟨t₀, hstart, hreaches⟩
  obtain ⟨hframe, hpc⟩ := of_decide_eq_true hcheck
  obtain ⟨callers, hcallers⟩ := List.head?_eq_some_iff.mp hframe
  have hstores : StoresArray heldArrays t 2 := by
    refine ⟨_, callers, ⟨.storeLocal, 1, 0⟩, hcallers, ?_, rfl, by decide⟩
    rw [hpc]
    rfl
  exact ⟨t, hreached, hstores, ((operands_are_integers heldArrays_accepted heldArrays_declsAgree
    (by decide) (by decide) hreached).2.2 2 hstores).2⟩

/-! ## The frames of the reference machine -/

/-- The variables of the frames follow one another, the last frame's up to `total`. -/
def FramesTile (program : CompiledProgram) : List CallFrame → Nat → Prop
  | [], total => total = 0
  | frame :: callers, total => ∃ info, program.functions.lookup frame.funcId = some info ∧
      frame.basePtr + info.localCount = total ∧ FramesTile program callers frame.basePtr

theorem Framed.tile {program : CompiledProgram} {frames : List ValueFrame} {callers : List CallFrame}
    (h : Framed program frames callers) : FramesTile program callers (allCells frames).length := by
  induction h with
  | @main frame info hlookup hcount _ =>
    refine ⟨info, hlookup, ?_, rfl⟩
    rw [allCells_cons, List.length_append, hcount]
    rfl
  | @call frame frames callers info _ hlookup hcount _ ih =>
    refine ⟨info, hlookup, ?_, ih⟩
    rw [allCells_cons, List.length_append, hcount]

/-- A variable of an active frame lies at `addr`; `size` is its size if it is declared as an
array. -/
def VariableAt (p : Program) (frames : List CallFrame) (addr : Nat) (size : Option Nat) : Prop :=
  ∃ frame ∈ frames, ∃ info slot, (compile p).functions.lookup frame.funcId = some info ∧
    slot < info.localCount ∧ addr = frame.basePtr + slot ∧ arraySizes p frame.funcId slot = size

/-- A variable declared with a size holds nothing or an array of it, any other nothing or an
integer. -/
def HoldsDeclared (size : Option Nat) : LocalValue → Prop
  | .undefined => True
  | .int _ => size = none
  | .array data => size = some data.length

/-- Every frame holds what its function declares. -/
theorem Waiting.holds {program : CompiledProgram} {table : Nat → Nat → Option Nat} {pc : Nat}
    {frames : List ValueFrame} (h : Waiting program table pc frames) : ∀ frame ∈ frames,
      ∀ slot cell, frame.cells[slot]? = some cell → HoldsDeclared (table frame.funcId slot) cell := by
  induction frames generalizing pc with
  | nil => exact fun _ hmem ↦ absurd hmem List.not_mem_nil
  | cons frame frames ih =>
    obtain ⟨⟨info, stop, shape, -, howner, -, -, -, hfits⟩, hrest⟩ := h
    refine List.forall_mem_cons.mpr ⟨fun slot cell hcell ↦ ?_, ih hrest⟩
    have hcell' := hfits.cells slot cell hcell
    rw [← howner] at hcell'
    cases cell with
    | undefined => trivial
    | int value => exact hcell'
    | array data => exact hcell'

theorem Running.holds {program : CompiledProgram} {table : Nat → Nat → Option Nat}
    (h : Running program table s) : ∀ frame ∈ s.frames, ∀ slot cell,
      frame.cells[slot]? = some cell → HoldsDeclared (table frame.funcId slot) cell := by
  obtain ⟨info, stop, shape, returnPc, rest, -, -, -, hat, hwaiting⟩ := h
  obtain ⟨cells, operands, hframes, hfits⟩ := hat.frame
  rw [hframes]
  refine List.forall_mem_cons.mpr ⟨fun slot cell hcell ↦ ?_, hwaiting.holds⟩
  have hcell' := hfits.cells slot cell hcell
  cases cell with
  | undefined => trivial
  | int value => exact hcell'
  | array data => exact hcell'

/-- What lies at the address of a variable. -/
theorem Framed.holds {frames : List ValueFrame} {callers : List CallFrame}
    (h : Framed (compile p) frames callers)
    (hholds : ∀ frame ∈ frames, ∀ slot cell, frame.cells[slot]? = some cell →
      HoldsDeclared (arraySizes p frame.funcId slot) cell) {addr : Nat} {size : Option Nat}
    (hvar : VariableAt p callers addr size) :
    ∃ cell, (allCells frames)[addr]? = some cell ∧ HoldsDeclared size cell := by
  obtain ⟨caller, hmem, info, slot, hlookup, hslot, rfl, rfl⟩ := hvar
  -- a variable of the innermost of some frames
  have hhere (frame : ValueFrame) (frames : List ValueFrame) {info' : FunctionInfo}
      (hlookup' : (compile p).functions.lookup frame.funcId = some info')
      (hcount : info'.localCount = frame.cells.length)
      (hlookup : (compile p).functions.lookup frame.funcId = some info)
      (hholds : ∀ slot cell, frame.cells[slot]? = some cell →
        HoldsDeclared (arraySizes p frame.funcId slot) cell) :
      ∃ cell, (allCells (frame :: frames))[(allCells frames).length + slot]? = some cell ∧
        HoldsDeclared (arraySizes p frame.funcId slot) cell := by
    obtain rfl := Option.some_inj.mp (hlookup'.symm.trans hlookup)
    have hcell := List.getElem?_eq_getElem (hslot.trans_eq hcount)
    exact ⟨_, getElem?_allCells hcell, hholds slot _ hcell⟩
  induction h with
  | @main frame info' hlookup' hcount _ =>
    obtain rfl := List.mem_singleton.mp hmem
    exact hhere frame [] hlookup' hcount hlookup (hholds frame List.mem_cons_self)
  | @call frame frames callers info' _ hlookup' hcount _ ih =>
    obtain ⟨hhead, htail⟩ := List.forall_mem_cons.mp hholds
    rcases List.mem_cons.mp hmem with rfl | hmem
    · exact hhere frame frames hlookup' hcount hlookup hhead
    · obtain ⟨cell, hcell, hdeclared⟩ := ih htail hmem
      refine ⟨cell, ?_, hdeclared⟩
      rw [allCells_cons, List.getElem?_append_left (List.getElem?_eq_some_iff.mp hcell).1]
      exact hcell

/-- The variables of the active frames and their arrays lie apart. -/
structure Isolated (p : Program) (t : Vm) : Prop where
  tiles : ∃ total ≤ maxLocalSlots, FramesTile (compile p) t.callStack total
  room : maxLocalSlots ≤ t.locals.length
  scalar : ∀ addr, VariableAt p t.callStack addr none →
    t.locals[addr]? = some i64Min ∨ ∃ n : Int32, t.locals[addr]? = some n.toInt
  /-- An array variable is unset, or has the index of as many elements as it is declared with. -/
  array : ∀ addr size, VariableAt p t.callStack addr (some size) →
    t.locals[addr]? = some i64Min ∨ ∃ (base : Nat) (data : List Int32),
      t.locals[addr]? = some (base : Int) ∧ maxLocalSlots ≤ base ∧ data.length = size ∧
      FlatMemory.Block t.locals base (data.map Int32.toInt)
  /-- No two arrays share a cell. -/
  apart : ∀ addr addr' size size' (base base' : Nat), addr ≠ addr' →
    VariableAt p t.callStack addr (some size) → VariableAt p t.callStack addr' (some size') →
    t.locals[addr]? = some (base : Int) → t.locals[addr']? = some (base' : Int) →
    FlatMemory.Apart base size base' size'
  /-- An array that is stored next lies behind all of them. -/
  last : ∀ addr size size' (base base' : Nat), StoresArray p t size → t.stack.head? = some (base : Int) →
    VariableAt p t.callStack addr (some size') → t.locals[addr]? = some (base' : Int) →
    base' + size' ≤ base

/-- **Frames are isolated.** The variables of the active frames follow one another in the first
`maxLocalSlots` cells. Each holds nothing or what it is declared as, an integer or the index of an
array of the declared size, and the arrays lie behind the variables, no two in a common cell, one that
is yet to be stored behind all others. -/
theorem frames_isolated (h : Accepted source p) (hagree : p.DeclsAgree) (hpos : 0 < maxCycles)
    (hle : maxCycles ≤ 2 ^ 32) (hreached : Vm.Reached (compile p) maxCycles trace t) :
    Isolated p t := by
  obtain ⟨s, hstored, hrunning⟩ := exists_stored h hagree hpos hle hreached
  have hplaced := hstored.placed
  have hcell {addr : Nat} {size : Option Nat} (hvar : VariableAt p t.callStack addr size) :=
    hstored.frames.holds hrunning.holds hvar
  -- an array variable that has an index holds an array
  have harray {addr size base : Nat} (hvar : VariableAt p t.callStack addr (some size))
      (hbase : t.locals[addr]? = some (base : Int)) :
      ∃ data : List Int32, (allCells s.frames)[addr]? = some (.array data) ∧ data.length = size := by
    obtain ⟨cell, hcell, hdeclared⟩ := hcell hvar
    cases cell with
    | undefined =>
      have hmarker := Option.some_inj.mp ((hplaced.cellAt _ _ hcell).symm.trans hbase)
      rw [i64Min] at hmarker
      omega
    | int value => cases hdeclared
    | array data => exact ⟨data, hcell, (Option.some_inj.mp hdeclared).symm⟩
  refine ⟨⟨_, hplaced.length_le, hstored.frames.tile⟩, hplaced.room, fun addr hvar ↦ ?_,
    fun addr size hvar ↦ ?_, fun addr addr' size size' base base' hne hvar hvar' hbase hbase' ↦ ?_,
    fun addr size size' base base' hstores hhead hvar hbase' ↦ ?_⟩
  · obtain ⟨cell, hcell, hdeclared⟩ := hcell hvar
    cases cell with
    | undefined => exact .inl (hplaced.cellAt _ _ hcell)
    | int value => exact .inr ⟨value, hplaced.cellAt _ _ hcell⟩
    | array data => cases hdeclared
  · obtain ⟨cell, hcell, hdeclared⟩ := hcell hvar
    cases cell with
    | undefined => exact .inl (hplaced.cellAt _ _ hcell)
    | int value => cases hdeclared
    | array data =>
      obtain ⟨base, hbase, hbehind, hblock⟩ := hplaced.cellAt _ _ hcell
      exact .inr ⟨base, data, hbase, hbehind, (Option.some_inj.mp hdeclared).symm, hblock⟩
  · obtain ⟨data, hcell, rfl⟩ := harray hvar hbase
    obtain ⟨data', hcell', rfl⟩ := harray hvar' hbase'
    exact hplaced.apart _ _ _ _ _ _ hne hcell hcell' hbase hbase'
  · obtain ⟨data, hcell, rfl⟩ := harray hvar hbase'
    have hoperands := hstored.operands
    rw [(storesArray_iff hstored hrunning).mp hstores] at hoperands
    obtain ⟨top, hstack, hfresh⟩ := hoperands
    rw [hstack, List.head?_cons, Option.some_inj] at hhead
    obtain rfl := Int.ofNat_inj.mp hhead
    exact hfresh.last addr data base' hcell hbase'

/-- In the callee, its array lies behind that of the caller. -/
theorem frames_isolated_heldArrays : ∃ t, Vm.Reached (compile heldArrays) 100 none t ∧
    Isolated heldArrays t ∧ t.locals[0]? = some 1024 ∧ t.locals[2]? = some 1027 ∧
    FlatMemory.Apart 1024 3 1027 2 := by
  have hafter : (((Vm.start (compile heldArrays) (Vm.init 100 none)).elim
      (Stepping.after (Vm.step (compile heldArrays)) 10) fun _ ↦ none).any
      fun t ↦ t.callStack = [⟨5, 1, 1⟩, ⟨usizeMax, 0, 0⟩] ∧ t.locals[0]? = some 1024 ∧
        t.locals[2]? = some 1027) = true := by decide +kernel
  obtain ⟨t₀, t, hstart, hreaches, hcheck⟩ := Stepping.exists_reaches_of_after hafter
  have hreached : Vm.Reached (compile heldArrays) 100 none t := ⟨t₀, hstart, hreaches⟩
  obtain ⟨hframes, hcaller, hcallee⟩ := of_decide_eq_true hcheck
  have hisolated := frames_isolated heldArrays_accepted heldArrays_declsAgree (by decide)
    (by decide) hreached
  refine ⟨t, hreached, hisolated, hcaller, hcallee, ?_⟩
  refine hisolated.apart 0 2 3 2 1024 1027 (by decide) ?_ ?_ hcaller hcallee
  · exact ⟨_, hframes ▸ List.mem_cons_of_mem _ List.mem_cons_self, _, 0, rfl, by decide, rfl, rfl⟩
  · exact ⟨_, hframes ▸ List.mem_cons_self, _, 1, rfl, by decide, rfl, rfl⟩

/-! ## The garbage-collected machine -/

/-- The values that may refer to arrays: operands, variables of the frames, and global arrays. -/
def holders (program : CompiledProgram) (vm : GcVm) : List (Option GcValue) :=
  vm.stack.map some ++ storeSlots program vm

/-- **Arrays are not shared.** No two operands, variables or global arrays refer to one array. -/
theorem arrays_unshared (h : Accepted source p) (hagree : p.DeclsAgree)
    (hstart : GcVm.start (compile p) (gcInit maxCycles threshold trace) = .inl u₀)
    (hreaches : Stepping.Reaches (GcVm.step (compile p)) u₀ u) :
    (holders (compile p) u).Pairwise Separate := by
  obtain ⟨s, hheaped, -⟩ := exists_heaped h hagree hstart hreaches
  have hints (slots : List (Option GcValue)) (hslots : slots.Pairwise Separate) :
      ((intOperands s.frames).map some ++ slots).Pairwise Separate := by
    have hnone {slot : Option GcValue} (hmem : slot ∈ (intOperands s.frames).map some) (id : Nat) :
        slot ≠ some (.arrayRef id) := by
      obtain ⟨value, hvalue, rfl⟩ := List.mem_map.mp hmem
      obtain ⟨n, -, rfl⟩ := List.mem_map.mp hvalue
      simp
    refine List.pairwise_append.mpr ⟨?_, hslots, fun slot hmem slot' _ id hid ↦ absurd hid (hnone hmem id)⟩
    exact List.pairwise_of_forall_mem_list fun slot hmem slot' _ id hid ↦ absurd hid (hnone hmem id)
  rw [holders]
  cases hfresh : s.fresh with
  | none =>
    obtain ⟨hstack, howned⟩ := hheaped.operands_none hfresh
    rw [hstack]
    exact hints _ howned.separate
  | some size =>
    have hoperands := hheaped.operands
    rw [hfresh] at hoperands
    obtain ⟨id, hstack, howned⟩ := hoperands
    obtain ⟨hhead, htail⟩ := List.pairwise_cons.mp howned.separate
    rw [hstack, List.map_cons, List.cons_append]
    refine List.pairwise_cons.mpr ⟨fun slot hmem ↦ ?_, hints _ htail⟩
    rcases List.mem_append.mp hmem with hmem | hmem
    · obtain ⟨value, hvalue, rfl⟩ := List.mem_map.mp hmem
      obtain ⟨n, -, rfl⟩ := List.mem_map.mp hvalue
      exact fun id' _ ↦ by simp
    · exact hhead slot hmem

/-- In the callee, its array, that of its caller and the global one are three. -/
theorem arrays_unshared_heldArrays : ∃ u₀ u,
    GcVm.start (compile heldArrays) (gcInit 100 0 none) = .inl u₀ ∧
    Stepping.Reaches (GcVm.step (compile heldArrays)) u₀ u ∧
    holders (compile heldArrays) u =
      [some (.int 0), some (.int 5), some (.arrayRef 2), some (.arrayRef 1), some (.arrayRef 0)] ∧
    (holders (compile heldArrays) u).Pairwise Separate := by
  have hafter : (((GcVm.start (compile heldArrays) (gcInit 100 0 none)).elim
      (Stepping.after (GcVm.step (compile heldArrays)) 7) fun _ ↦ none).any
      fun u ↦ holders (compile heldArrays) u = [some (.int 0), some (.int 5), some (.arrayRef 2),
        some (.arrayRef 1), some (.arrayRef 0)]) = true := by decide +kernel
  obtain ⟨u₀, u, hstart, hreaches, hcheck⟩ := Stepping.exists_reaches_of_after hafter
  exact ⟨u₀, u, hstart, hreaches, of_decide_eq_true hcheck,
    arrays_unshared heldArrays_accepted heldArrays_declsAgree hstart hreaches⟩

/-! ## How runs end -/

/-- **Compiled programs end well** on both machines, once they pass the preflight: they exit, or a
division, an index, a variable without a value, a stack or the cycles stop them. -/
theorem compiled_endsWell (h : Accepted source p) (hagree : p.DeclsAgree)
    (hvalidate : (compile p).validate = .ok ()) (fuel : Nat) :
    (∀ halt, 0 < maxCycles → maxCycles ≤ 2 ^ 32 →
      Vm.run (compile p) fuel (Vm.init maxCycles trace) = some halt → EndsWell halt) ∧
    ∀ halt, GcVm.run (compile p) fuel (gcInit maxCycles threshold trace) = some halt →
      EndsWell halt.observed := by
  obtain ⟨main, hmain, -⟩ := h.exists_main
  have hlookup : (compile p).functions.lookup (compile p).mainFuncId ≠ none := by
    rw [h.lookup_iff.mpr ⟨main, hmain, rfl⟩]
    exact Option.some_ne_none _
  have hshaped := h.wellShaped_of_validate hagree hvalidate
  refine ⟨fun halt hpos hle hrun ↦ ?_, fun halt hrun ↦ ?_⟩
  · rw [run_vm_compile h hagree hpos hle] at hrun
    exact run_endsWell hshaped hvalidate hlookup hrun
  · refine @run_endsWell _ _ none hshaped hvalidate hlookup fuel maxCycles _ ?_
    rw [← run_gc_compile h hagree maxCycles threshold trace fuel, hrun]
    rfl

theorem compiled_endsWell_sample :
    (∀ halt, 0 < 10 → 10 ≤ 2 ^ 32 →
      Vm.run (compile sampleProgram) 20 (Vm.init 10 none) = some halt → EndsWell halt) ∧
    ∀ halt, GcVm.run (compile sampleProgram) 20 (gcInit 10 0 none) = some halt →
      EndsWell halt.observed :=
  compiled_endsWell accepted_sample sample_declsAgree rfl 20

end ValueVm

end MiniLang
