import MiniLang.Lib.Stepping
import MiniLang.Machine.Preflight
import MiniLang.Machine.ShapeRules

/-!
# Well-shaped programs do not go wrong

The value machine gives up at an instruction that asks for something the state does not have. In a
well-shaped program this does not happen. The proof is one step lemma over all instructions, and the
invariant rule for runs.

## The step lemma

An instruction of a function leads to one of its successors there, with the shape that the typing of
the function gives them (`Stays`). There is one lemma for each opcode; it takes the rule of the
instruction for shapes and looks up, in the typing, which successor it leads to. Calls and returns
leave the function: a call starts the callee at its entry, with the caller waiting at the next
instruction, and a return goes on with the frame that waits there.

## Runs

`Running` holds at the start, after the preflight, and each step that goes on keeps it
(`reaches_running`). A step that ends the run was a trap of an instruction with good operands, the
limit of cycles, or the return from `main`, never the machine giving up, and these are the codes
that `EndsWell` lists, `none` among them only for a run that succeeds.
-/

namespace MiniLang

open Verifier Compiler

variable {program : CompiledProgram} {table : Nat → Nat → Option Nat} {info : FunctionInfo} {sizes : Nat → Option Nat}
  {storage : Option Nat} {returnPc : Nat} {rest : List ValueFrame} {s t : Shape}

namespace ValueVm

/-! ## The instructions that stay in a function -/

/-- The instruction leads to a successor of it in the function, with the shape after it. -/
def Stays (info : FunctionInfo) (sizes : Nat → Option Nat) (returnPc : Nat) (rest : List ValueFrame)
    (pc : Nat) (s : Shape) (instr : Instruction) (flow : Flow) (vm : ValueVm) : Prop :=
  (flow = .next ∧ pc + 1 ∈ successors pc instr ∧
      At info sizes returnPc rest pc (s.after instr) vm) ∨
    flow = .jump ∧ vm.pc ∈ successors pc instr ∧
      At info sizes returnPc rest vm.pc (s.after instr) vm

/-- An instruction that goes on with the next one. -/
theorem stays_of_next {pc : Nat} {instr : Instruction} {x : ValueVmM Flow}
    (hx : Sound (At info sizes returnPc rest pc s) x (Next info sizes returnPc rest pc t))
    (hsucc : successors pc instr = [pc + 1]) (hafter : s.after instr = t) :
    Sound (At info sizes returnPc rest pc s) x (Stays info sizes returnPc rest pc s instr) := by
  refine hx.consequence (fun _ ↦ id) ?_ fun _ _ ↦ id
  rintro flow vm ⟨rfl, h⟩
  exact .inl ⟨rfl, hsucc ▸ List.mem_singleton_self _, hafter ▸ h⟩

/-- A conditional jump. -/
theorem stays_of_branch {pc d : Nat} {R : Set Nat} {opcode : Opcode} {arg1 arg2 : Int32}
    (hop : opcode = .jumpIfFalse ∨ opcode = .jumpIfTrue) (jumpIf : Int32 → Bool) :
    Sound (At info sizes returnPc rest pc ⟨d + 1, none, R⟩) (branch jumpIf arg1)
      (Stays info sizes returnPc rest pc ⟨d + 1, none, R⟩ ⟨opcode, arg1, arg2⟩) := by
  have hsucc : successors pc ⟨opcode, arg1, arg2⟩ = [asUsize arg1, pc + 1] := by
    rcases hop with rfl | rfl <;> rfl
  have hafter : Shape.after ⟨opcode, arg1, arg2⟩ ⟨d + 1, none, R⟩ = ⟨d, none, R⟩ := by
    rcases hop with rfl | rfl <;> rfl
  refine (sound_branch jumpIf arg1).consequence (fun _ ↦ id) ?_ fun _ _ ↦ id
  rintro flow vm (⟨rfl, h⟩ | ⟨rfl, h⟩)
  · exact .inl ⟨rfl, hsucc ▸ List.mem_cons_of_mem _ List.mem_cons_self, hafter ▸ h⟩
  · rw [Stays, hsucc, hafter, h.pc]
    exact .inr ⟨rfl, List.mem_cons_self, h⟩

/-- Every other instruction stays in its function. -/
theorem sound_stays {pc : Nat} {opcode : Opcode} {arg1 arg2 : Int32}
    (hfits : Fits program info sizes ⟨opcode, arg1, arg2⟩ s) (hcall : opcode ≠ .call)
    (hreturn : opcode ≠ .return) :
    Sound (At info sizes returnPc rest pc s) (executeInstruction program storage opcode arg1 arg2)
      (Stays info sizes returnPc rest pc s ⟨opcode, arg1, arg2⟩) := by
  obtain ⟨hops, hdepth, hshape⟩ := hfits
  obtain ⟨depth, fresh, R⟩ := s
  -- the operands that the instruction takes, and `d` below them
  obtain ⟨d, rfl⟩ := Nat.exists_eq_add_of_le' hdepth
  cases opcode with
  | loadConst =>
    obtain ⟨rfl, -⟩ := hshape
    exact stays_of_next (.bind (sound_push arg1) fun _ ↦ sound_next) rfl rfl
  | loadLocal =>
    obtain ⟨rfl, hscalar⟩ := hshape
    exact stays_of_next (sound_loadLocal hops hscalar) rfl rfl
  | storeLocal => exact stays_of_next (sound_storeLocal hops hshape) rfl (by cases fresh <;> rfl)
  | loadGlobal =>
    obtain ⟨rfl, hscalar⟩ := hshape
    exact stays_of_next (sound_loadGlobal hops hscalar) rfl rfl
  | storeGlobal =>
    obtain ⟨rfl, hscalar⟩ := hshape
    exact stays_of_next (sound_storeGlobal hops hscalar) rfl rfl
  | add | sub | mul | eq | ne | lt | gt | le | ge | and | or =>
    obtain ⟨rfl, -⟩ := hshape
    exact stays_of_next (sound_binary _) rfl rfl
  | div =>
    obtain ⟨rfl, -⟩ := hshape
    exact stays_of_next sound_div rfl rfl
  | neg | not =>
    obtain ⟨rfl, -⟩ := hshape
    exact stays_of_next (sound_unary _) rfl rfl
  | jump =>
    obtain ⟨rfl, -⟩ := hshape
    refine sound_jump.consequence (fun _ ↦ id) ?_ fun _ _ ↦ id
    rintro flow vm ⟨rfl, h⟩
    rw [Stays, h.pc]
    exact .inr ⟨rfl, List.mem_singleton_self _, h⟩
  | jumpIfFalse =>
    obtain ⟨rfl, -⟩ := hshape
    exact stays_of_branch (.inl rfl) _
  | jumpIfTrue =>
    obtain ⟨rfl, -⟩ := hshape
    exact stays_of_branch (.inr rfl) _
  | call => exact absurd rfl hcall
  | «return» => exact absurd rfl hreturn
  | arrayLoad =>
    obtain ⟨rfl, harray⟩ := hshape
    exact stays_of_next (sound_arrayLoad hops harray) rfl rfl
  | arrayStore =>
    obtain ⟨rfl, harray⟩ := hshape
    exact stays_of_next (sound_arrayStore hops harray) rfl rfl
  | localArrayLoad =>
    obtain ⟨rfl, hready, hsizes⟩ := hshape
    exact stays_of_next (sound_localArrayLoad hops.1 hops.2 hready hsizes) rfl rfl
  | localArrayStore =>
    obtain ⟨rfl, hready, hsizes⟩ := hshape
    exact stays_of_next (sound_localArrayStore hops.1 hops.2 hready hsizes) rfl rfl
  | arrayNew | allocArray =>
    obtain rfl := hshape
    exact stays_of_next (sound_alloc hops) rfl rfl
  | print =>
    obtain ⟨rfl, -⟩ := hshape
    refine stays_of_next (t := ⟨d, none, R⟩) (.bind sound_pop fun _ ↦ .bind
      (sound_modify fun vm h ↦ ?_) fun _ ↦ sound_next) rfl rfl
    exact ⟨h.frame, h.fresh, h.globals, h.pc⟩
  | pop =>
    obtain ⟨rfl, -⟩ := hshape
    exact stays_of_next (.bind sound_pop fun _ ↦ sound_next) rfl rfl
  | dup =>
    obtain ⟨rfl, -⟩ := hshape
    exact stays_of_next (.bind sound_top fun _ ↦ .bind (sound_push _) fun _ ↦ sound_next) rfl rfl
  | halt => exact hshape.2.elim

/-! ## Steps and runs -/

/-- What an instruction leads to, where it does not give up. -/
def Proceeds (program : CompiledProgram) (table : Nat → Nat → Option Nat) : Flow → ValueVm → Prop
  | .next, vm => Running program table { vm with pc := vm.pc + 1 }
  | .jump, vm => Running program table vm
  | .exit _, _ => True

/-- **The step lemma.** -/
theorem sound_executeInstruction (hshaped : WellShaped program table) {instr : Instruction} {vm : ValueVm}
    (hrunning : Running program table vm) (hfetch : program.instructions[vm.pc]? = some instr) :
    ((executeInstruction program storage instr.opcode instr.arg1 instr.arg2).run vm).Post
      (Proceeds program table) fun stop _ ↦ Expected stop := by
  obtain ⟨info, stop, shape, returnPc, rest, hshape, hle, hlt, hat, hwaiting⟩ := hrunning
  have hfits := hshape.fits vm.pc instr hle hlt hfetch
  have hnext := hshape.next vm.pc instr hle hlt hfetch
  obtain ⟨opcode, arg1, arg2⟩ := instr
  by_cases hcall : opcode = .call
  · subst hcall
    obtain ⟨hops, hdepth, hfresh, -⟩ := hfits
    obtain ⟨hle', hlt', hafter⟩ := hnext _ (List.mem_singleton_self _)
    obtain ⟨d, hd⟩ := Nat.exists_eq_add_of_le' hdepth
    have hbefore : shape vm.pc = ⟨d + asUsize arg2, none, (shape vm.pc).ready⟩ := by
      rw [← hfresh]
      exact congrArg (Shape.mk · _ _) hd
    rw [hbefore] at hat hafter
    have hafter' : Shape.after ⟨.call, arg1, arg2⟩ ⟨d + asUsize arg2, none, (shape vm.pc).ready⟩ =
        ⟨d + 1, none, (shape vm.pc).ready⟩ := by
      rw [Shape.after]
      exact congrArg (Shape.mk · _ _) (congrArg (· + 1) (Nat.add_sub_cancel d (asUsize arg2)))
    rw [hafter'] at hafter
    refine EStateM.Result.Post.mono (sound_call hshaped hops (fun frame hframe hreturn howner ↦ ?_) vm hat) ?_
      fun _ _ ↦ id
    · refine ⟨⟨info, stop, shape, hshape, howner, hle', hlt', hafter.2.1, hframe.mono hafter⟩, ?_⟩
      rw [hreturn]
      exact hwaiting
    · rintro flow vm' ⟨rfl, hrunning⟩
      exact hrunning
  by_cases hreturn : opcode = .return
  · subst hreturn
    obtain ⟨-, -, hfresh, hdepth⟩ := hfits
    have hbefore : shape vm.pc = ⟨1, none, (shape vm.pc).ready⟩ := by
      rw [← hfresh, ← hdepth]
    rw [hbefore] at hat
    refine EStateM.Result.Post.mono (sound_ret hwaiting vm hat) ?_ fun _ _ ↦ id
    rintro flow vm' (⟨value, rfl⟩ | ⟨rfl, hrunning⟩)
    · exact trivial
    · exact hrunning
  refine EStateM.Result.Post.mono (sound_stays hfits hcall hreturn vm hat) ?_ fun _ _ ↦ id
  have hreach {t : Nat} {vm' : ValueVm} (ht : t ∈ successors vm.pc ⟨opcode, arg1, arg2⟩)
      (hat' : At info (table info.id) returnPc rest t ((shape vm.pc).after ⟨opcode, arg1, arg2⟩) vm') :
      Running program table vm' := by
    obtain ⟨hle', hlt', hafter⟩ := hnext t ht
    obtain ⟨cells, operands, hframes, hframe⟩ := hat'.frame
    obtain rfl := hat'.pc
    refine ⟨info, stop, shape, returnPc, rest, hshape, hle', hlt',
      ⟨⟨cells, operands, hframes, ?_⟩, hat'.fresh.trans hafter.2.1.symm, hat'.globals, rfl⟩, hwaiting⟩
    rw [hafter.2.1]
    exact hframe.mono hafter
  rintro flow vm' (⟨rfl, ht, hat'⟩ | ⟨rfl, ht, hat'⟩)
  · exact hreach ht ⟨hat'.frame, hat'.fresh, hat'.globals, congrArg (· + 1) hat'.pc⟩
  · exact hreach ht hat'

/-- How a run ends that does not go wrong: the code that it exits or traps with. -/
def EndsWell (halt : VmHalt) : Prop := ∃ result, halt = .result result ∧
  (result.success = true ∧ result.trapCode = .none ∨ result.success = false ∧ result.trapCode ∈
    [.cycleLimit, .undefinedLocal, .arrayOutOfBounds, .divideByZero, .stackOverflow])

/-- A step goes on in the program, or ends without giving up. -/
theorem step_running (hshaped : WellShaped program table) {vm : ValueVm} (h : Running program table vm) :
    (∃ vm', step program storage vm = .inl vm' ∧ Running program table vm') ∨
      ∃ halt, step program storage vm = .inr halt ∧ EndsWell halt := by
  rw [step]
  split
  · exact .inr ⟨_, rfl, _, rfl, .inr ⟨rfl, List.mem_of_elem_eq_true rfl⟩⟩
  obtain ⟨info, stop, shape, returnPc, rest, hshape, hle, hlt, hat, hwaiting⟩ := h
  obtain ⟨instr, hfetch⟩ : ∃ instr, program.instructions[vm.pc]? = some instr :=
    ⟨_, List.getElem?_eq_getElem (hlt.trans_le hshape.stop_le)⟩
  have hcounted : Running program table { vm with cycles := vm.cycles + 1 } :=
    ⟨info, stop, shape, returnPc, rest, hshape, hle, hlt,
      ⟨hat.frame, hat.fresh, hat.globals, rfl⟩, hwaiting⟩
  have hpost := @sound_executeInstruction _ _ storage hshaped instr _ hcounted hfetch
  rw [hfetch]
  dsimp only
  cases hrun : (executeInstruction program storage instr.opcode instr.arg1 instr.arg2).run
      { vm with cycles := vm.cycles + 1 } with
  | ok flow vm' =>
    rw [hrun] at hpost
    cases flow with
    | next => exact .inl ⟨_, rfl, hpost⟩
    | jump => exact .inl ⟨_, rfl, hpost⟩
    | exit value => exact .inr ⟨_, rfl, _, rfl, .inl ⟨rfl, rfl⟩⟩
  | error stop vm' =>
    rw [hrun] at hpost
    cases stop with
    | trap code message =>
      exact .inr ⟨_, rfl, _, rfl, .inr ⟨rfl, List.mem_cons_of_mem _ hpost⟩⟩
    | panic => exact hpost.elim

/-- The main function is entered. -/
theorem running_start (hshaped : WellShaped program table) {info : FunctionInfo}
    (hmain : program.functions.lookup program.mainFuncId = some info) (maxCycles : Nat) :
    Running program table { init maxCycles with
      pc := info.entryPc
      frames := [⟨usizeMax, program.mainFuncId, List.replicate info.localCount .undefined, []⟩] } := by
  obtain ⟨hid, stop, shape, hshape⟩ := hshaped _ _ hmain
  rw [← hid] at hshape
  obtain ⟨hdepth, hfresh, hready⟩ := hshape.entry
  refine ⟨info, stop, shape, usizeMax, [], hshape, le_rfl, hshape.entry_lt,
    ⟨⟨_, [], by rw [hid], ?_, List.length_replicate, fun slot cell hcell ↦ ?_⟩, hfresh.symm,
      List.length_replicate, rfl⟩, trivial⟩
  · rw [hfresh]
    exact hdepth.symm
  · obtain rfl := List.eq_of_mem_replicate (List.mem_of_getElem? hcell)
    exact fun hslot ↦ Set.notMem_empty slot (hready hslot)

/-- Every state of a run is in the middle of the program. -/
theorem reaches_running (hshaped : WellShaped program table) {info : FunctionInfo} {maxCycles : Nat}
    (hmain : program.functions.lookup program.mainFuncId = some info) {vm : ValueVm}
    (h : Stepping.Reaches (step program storage) { init maxCycles with
      pc := info.entryPc
      frames := [⟨usizeMax, program.mainFuncId, List.replicate info.localCount .undefined, []⟩] }
      vm) :
    Running program table vm := by
  refine h.invariant (fun s t hs hstep ↦ ?_) (running_start hshaped hmain maxCycles)
  rcases @step_running _ _ storage hshaped _ hs with ⟨t', ht', hrunning⟩ | ⟨halt, hend, -⟩
  · rw [hstep] at ht'
    exact Sum.inl.inj ht' ▸ hrunning
  · rw [hstep] at hend
    cases hend

/-- The last step of a run. -/
theorem endsWell_of_step (hshaped : WellShaped program table) {vm : ValueVm} (h : Running program table vm)
    {halt : VmHalt} (hend : step program storage vm = .inr halt) : EndsWell halt := by
  rcases @step_running _ _ storage hshaped _ h with ⟨vm', hnext, -⟩ | ⟨halt', hend', hwell⟩
  · rw [hend] at hnext
    cases hnext
  · rw [hend] at hend'
    exact Sum.inr.inj hend' ▸ hwell

theorem ne_panic_of_step (hshaped : WellShaped program table) {vm : ValueVm} (h : Running program table vm)
    {halt : VmHalt} (hend : step program storage vm = .inr halt) : ¬halt = .panic := by
  obtain ⟨result, rfl, -⟩ := endsWell_of_step hshaped h hend
  simp

/-- **Well-shaped programs do not go wrong.** Once the preflight has passed, a run ends well. -/
theorem run_endsWell (hshaped : WellShaped program table) (hvalidate : program.validate = .ok ())
    (hmain : program.functions.lookup program.mainFuncId ≠ none) {fuel maxCycles : Nat}
    {halt : VmHalt} (hrun : run program storage fuel (init maxCycles) = some halt) :
    EndsWell halt := by
  obtain ⟨info, hinfo⟩ := Option.ne_none_iff_exists'.mp hmain
  rw [run, start, hvalidate, hinfo] at hrun
  obtain ⟨vm, hreach, hend⟩ := Stepping.exists_reaches_of_run hrun
  exact endsWell_of_step hshaped (reaches_running hshaped hinfo hreach) hend

end ValueVm

end MiniLang
