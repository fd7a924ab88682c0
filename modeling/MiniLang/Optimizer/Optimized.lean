import MiniLang.Machine.BackendsAgree
import MiniLang.Optimizer.Compacted
import MiniLang.Optimizer.Rewritten

/-!
# Optimized programs

The optimizer preserves the meaning of a compiled program. The passes that change positions run on a
program with one function and no jumps; there every pass, dead code elimination included, rewrites the
code from its entry on. In any other program dead code elimination alone moves the reachable
instructions together.

The optimized program ends as the program does, after no more cycles, unless the program runs out of
cycles or of room.
-/

namespace MiniLang

open Verifier Compiler

namespace Optimizer

variable {program : CompiledProgram} {instructions : List Instruction}
  {functions : HashMap Nat FunctionInfo} {kept : List Nat} {pc : Nat} {instr : Instruction}

/-! ## Dead code of a single function -/

theorem successors_of_plain {instr : Instruction} (pc : Nat) (hleaves : ¬Leaves instr)
    (hjump : instr.opcode ∉ [.jump, .jumpIfFalse, .jumpIfTrue]) :
    successors pc instr = [pc + 1] := by
  obtain ⟨opcode, arg1, arg2⟩ := instr
  cases opcode with
  | jump | jumpIfFalse | jumpIfTrue => simp at hjump
  | «return» => exact absurd (.inl rfl) hleaves
  | halt => exact absurd (.inr rfl) hleaves
  | _ => rfl

theorem remap_of_not_jump {oldToNew : HashMap Nat Nat}
    (hjump : instr.opcode ∉ [.jump, .jumpIfFalse, .jumpIfTrue]) : remap oldToNew instr = instr := by
  obtain ⟨opcode, arg1, arg2⟩ := instr
  cases opcode with
  | jump | jumpIfFalse | jumpIfTrue => simp at hjump
  | _ => rfl

theorem count_of_all {n : Nat} (h : ∀ i < n, i ∈ kept) : Nat.count (· ∈ kept) n = n := by
  induction n with
  | zero => exact Nat.count_zero _
  | succ n ih =>
    rw [Nat.count_succ, ih fun i hi ↦ h i (Nat.lt_succ_of_lt hi), if_pos (h n (Nat.lt_succ_self n))]

/-- Up to the first instruction that control leaves, the new code is the old. -/
theorem rewrites_rebuild (hjumps : NoJumps instructions) (oldToNew : HashMap Nat Nat)
    (stats : OptimizationStats)
    (hnext : ∀ pc instr, pc ∈ kept → instructions[pc]? = some instr → ¬Leaves instr →
      pc + 1 < instructions.length → pc + 1 ∈ kept)
    (hkept : ∀ i ≤ pc, i < instructions.length → i ∈ kept) :
    Peephole.Rewrites Replaces Leaves (instructions.drop pc)
      ((rebuild kept oldToNew stats 0 instructions).1.drop pc) := by
  induction hn : instructions.length - pc generalizing pc with
  | zero =>
    have hlength := @length_rebuild kept oldToNew stats 0 instructions
    have hcount := @Nat.count_le (fun i ↦ 0 + i ∈ kept) _ instructions.length
    rw [List.drop_eq_nil_of_le (by omega), List.drop_eq_nil_of_le (by omega)]
    exact .nil
  | succ n ih =>
    have hlt : pc < instructions.length := by omega
    have hmem := hkept pc le_rfl hlt
    have hget := getElem?_rebuild (i := pc) oldToNew stats 0 instructions
      ((Nat.zero_add pc).symm ▸ hmem)
    simp only [Nat.zero_add] at hget
    rw [count_of_all fun i hi ↦ hkept i hi.le (hi.trans hlt), List.getElem?_eq_getElem hlt,
      Option.map_some, remap_of_not_jump (hjumps _ (List.getElem_mem hlt))] at hget
    obtain ⟨hlt', hget⟩ := List.getElem?_eq_some_iff.mp hget
    rw [List.drop_eq_getElem_cons hlt, List.drop_eq_getElem_cons hlt', hget]
    by_cases hleaves : Leaves instructions[pc]
    · exact .stop hleaves
    · refine .keep _ (ih (fun i hi hi' ↦ ?_) (by omega))
      rcases Nat.le_succ_iff.mp hi with hi | rfl
      · exact hkept i hi hi'
      · exact hnext pc _ hmem (List.getElem?_eq_getElem hlt) hleaves hi'

theorem length_deadCodeElimination (stats : OptimizationStats) (instructions : List Instruction)
    (functions : HashMap Nat FunctionInfo) :
    (deadCodeElimination stats instructions functions).1.1.length ≤ instructions.length := by
  rw [deadCodeElimination]
  split
  · exact le_rfl
  dsimp only
  split
  · exact le_rfl
  · rw [length_rebuild]
    exact Nat.count_le _

/-- **Dead code elimination rewrites a function without jumps**, and leaves its entry. -/
theorem rewrites_deadCodeElimination {id : Nat} {func : FunctionInfo} (hjumps : NoJumps instructions)
    (hfunctions : functions.entries = [⟨id, func⟩]) (hentry : func.entryPc = 0)
    (stats : OptimizationStats) :
    Peephole.Rewrites Replaces Leaves instructions
        (deadCodeElimination stats instructions functions).1.1 ∧
      (deadCodeElimination stats instructions functions).1.2 = functions := by
  rw [deadCodeElimination]
  split
  · exact ⟨.refl _, rfl⟩
  next hne =>
  dsimp only
  split
  · exact ⟨.refl _, rfl⟩
  have hpos := List.length_pos_iff.mpr hne
  have hlookup : functions.lookup id = some func :=
    AList.mem_lookup_iff.mpr (by rw [hfunctions]; exact List.mem_cons_self)
  have hzero : 0 ∈ reachable instructions functions :=
    mem_reachable.mpr ⟨hpos, id, func, hlookup, hentry ▸ .refl⟩
  constructor
  · refine @rewrites_rebuild instructions _ 0 hjumps _ stats ?_ ?_
    · intro pc instr hmem hinstr hleaves hlt
      obtain ⟨-, id', func', hfunc', hpath⟩ := mem_reachable.mp hmem
      refine mem_reachable.mpr ⟨hlt, id', func', hfunc', hpath.tail ⟨instr, hinstr, ?_⟩⟩
      rw [successors_of_plain pc hleaves (hjumps instr (List.mem_of_getElem? hinstr))]
      exact List.mem_singleton_self _
    · intro i hi _
      rw [Nat.le_zero.mp hi]
      exact hzero
  · have hnew := (numbered_spec (reachable instructions functions) instructions.length).2 0
    rw [if_pos ⟨hpos, hzero⟩, Nat.count_zero] at hnew
    have hsame : { func with entryPc := 0 } = func := by rw [← hentry]
    rw [hfunctions, updateEntries, hentry, hnew]
    refine AList.ext (Eq.trans ?_ hfunctions.symm)
    dsimp only
    rw [hsame]
    exact AList.entries_insert_of_notMem (AList.notMem_empty id)

/-! ## All passes -/

theorem Rewritten.length_le {instructions' : List Instruction}
    (h : Rewritten instructions instructions') : instructions'.length ≤ instructions.length := by
  induction h with
  | nil => exact le_rfl
  | keep _ _ ih => exact Nat.succ_le_succ ih
  | block hreplaces _ ih =>
    rw [List.length_append, List.length_append]
    exact Nat.add_le_add hreplaces.length_le ih
  | stop h => exact h.elim

end Optimizer

namespace ValueVm

open Optimizer

variable {program : CompiledProgram} {storage : Option Nat} {fuel maxCycles : Nat}

/-- A program that starts with its only function, and has no jumps. -/
structure SingleFunction (program : CompiledProgram) : Prop where
  validate : program.validate = .ok ()
  noJumps : NoJumps program.instructions
  entry : ∀ id func, program.functions.lookup id = some func → func.entryPc = 0

/-- Runs of the second program end as those of the first do. -/
def Refines (storage : Option Nat) (program program' : CompiledProgram) : Prop :=
  ∀ fuel maxCycles halt, run program storage fuel (init maxCycles) = some halt → Limited halt ∨
    ∃ halt', run program' storage fuel (init maxCycles) = some halt' ∧ HaltAlike halt halt'

theorem Limited.of_haltAlike {halt halt' : VmHalt} (h : HaltAlike halt halt')
    (hlimited : Limited halt') : Limited halt := by
  obtain ⟨result, result', rfl, rfl, hsame⟩ := h
  rcases hlimited with hpanic | ⟨result'', hresult, hcode⟩
  · cases hpanic
  · obtain rfl := VmHalt.result.inj hresult
    exact .inr ⟨result, rfl, hsame.trapCode ▸ hcode⟩

theorem Refines.trans {program' program'' : CompiledProgram} (h : Refines storage program program')
    (h' : Refines storage program' program'') : Refines storage program program'' := by
  intro fuel maxCycles halt hrun
  rcases h fuel maxCycles halt hrun with hlimited | ⟨halt', hrun', halike⟩
  · exact .inl hlimited
  rcases h' fuel maxCycles halt' hrun' with hlimited | ⟨halt'', hrun'', halike'⟩
  · exact .inl (hlimited.of_haltAlike halike)
  · obtain ⟨result, result', rfl, rfl, hsame⟩ := halike
    obtain ⟨_, result'', hresult, rfl, hsame'⟩ := halike'
    obtain rfl := VmHalt.result.inj hresult
    exact .inr ⟨_, hrun'', result, result'', rfl, rfl, hsame.trans hsame'⟩

/-- A pass on a single function. -/
theorem SingleFunction.rewritten (h : SingleFunction program) {instructions' : List Instruction}
    (hrewritten : Rewritten program.instructions instructions') :
    SingleFunction (withInstructions program instructions') ∧
      Refines storage program (withInstructions program instructions') := by
  refine ⟨⟨validate_withInstructions h.validate hrewritten.length_le,
    hrewritten.noJumps h.noJumps, h.entry⟩, ?_⟩
  intro fuel maxCycles halt hrun
  exact run_rewritten h.validate (hrewritten.mono fun _ ↦ False.elim) hrewritten.length_le h.noJumps
    h.entry hrun

/-- The three passes on a single function. -/
theorem SingleFunction.refines_sizeChangingPasses (h : SingleFunction program)
    (stats : OptimizationStats) :
    SingleFunction
        (withInstructions program (sizeChangingPasses stats program.instructions).1) ∧
      Refines storage program
        (withInstructions program (sizeChangingPasses stats program.instructions).1) := by
  obtain ⟨hfold, hruns⟩ := @SingleFunction.rewritten program storage h _
    (rewritten_constantFolding stats program.instructions)
  obtain ⟨hreduce, hruns'⟩ := @SingleFunction.rewritten _ storage hfold _
    (rewritten_strengthReduction (constantFolding stats program.instructions).2 _)
  obtain ⟨hpeephole, hruns''⟩ := @SingleFunction.rewritten _ storage hreduce _
    (rewritten_peepholeOptimization (strengthReduction
      (constantFolding stats program.instructions).2 _).2 hreduce.noJumps)
  exact ⟨hpeephole, (hruns.trans hruns').trans hruns''⟩

/-- **All passes on a single function.** -/
theorem SingleFunction.refines_optimize (h : SingleFunction program) (stats : OptimizationStats)
    (hpasses : canRunSizeChangingPasses program.instructions program.functions = true) :
    (optimize stats program).1.functions = program.functions ∧
      Refines storage program (optimize stats program).1 := by
  have hsingle : program.functions.entries.length = 1 := (of_decide_eq_true hpasses).1
  obtain ⟨⟨id, func⟩, hfunctions⟩ := List.length_eq_one_iff.mp hsingle
  have hlookup : program.functions.lookup id = some func :=
    AList.mem_lookup_iff.mpr (by rw [hfunctions]; exact List.mem_cons_self)
  have hpassed := @SingleFunction.refines_sizeChangingPasses program storage h
    { stats with instructionsBefore := program.instructions.length }
  rw [Optimizer.optimize]
  dsimp only
  rw [if_pos hpasses]
  generalize Optimizer.sizeChangingPasses
    { stats with instructionsBefore := program.instructions.length } program.instructions =
      passed at hpassed
  obtain ⟨instructions, stats⟩ := passed
  obtain ⟨hafter, hruns⟩ := hpassed
  have hjumps : NoJumps instructions := hafter.noJumps
  obtain ⟨hrewrites, hsame⟩ := rewrites_deadCodeElimination hjumps hfunctions
    (h.entry id func hlookup) stats
  have hcode : withCode program (deadCodeElimination stats instructions program.functions).1 =
      withInstructions program
        (deadCodeElimination stats instructions program.functions).1.1 := by
    rw [withCode, hsame]
    rfl
  dsimp only
  rw [hcode]
  refine ⟨rfl, hruns.trans fun fuel maxCycles halt hrun ↦ ?_⟩
  exact run_rewritten hafter.validate hrewrites (length_deadCodeElimination _ _ _) hafter.noJumps
    hafter.entry hrun

/-! ## Compiled programs -/

variable {source : List UInt8} {p : Program}

/-- The only function of a compiled program starts at its first instruction. -/
theorem entryPc_eq_zero (h : Accepted source p)
    (hsingle : (compile p).functions.entries.length = 1) {id : Nat} {info : FunctionInfo}
    (hinfo : (compile p).functions.lookup id = some info) : info.entryPc = 0 := by
  obtain ⟨func, hfunc, rfl⟩ := h.lookup_iff.mp hinfo
  obtain ⟨⟨id', info'⟩, hentries⟩ := List.length_eq_one_iff.mp hsingle
  have honly : ∀ n info, (compile p).functions.lookup n = some info → n = id' := by
    intro n info hn
    have hmem := AList.mem_lookup_iff.mp (Option.mem_def.mpr hn)
    rw [hentries] at hmem
    exact congrArg Sigma.fst (List.mem_singleton.mp hmem)
  have hpos : 0 < p.functions.length :=
    Nat.lt_of_le_of_lt (Nat.zero_le id) (List.getElem?_eq_some_iff.mp hfunc).1
  have hfirst := honly 0 _ (h.lookup_iff.mpr ⟨_, List.getElem?_eq_getElem hpos, rfl⟩)
  have hzero : id = 0 := (honly id _ hinfo).trans hfirst.symm
  subst hzero
  rfl

theorem singleFunction_compile (h : Accepted source p)
    (hvalidate : (compile p).validate = .ok ())
    (hpasses : canRunSizeChangingPasses (compile p).instructions (compile p).functions = true) :
    SingleFunction (compile p) where
  validate := hvalidate
  noJumps := (of_decide_eq_true hpasses).2
  entry _ _ hinfo := entryPc_eq_zero h (of_decide_eq_true hpasses).1 hinfo

/-- Where the passes that change positions run. -/
theorem optimize_single (h : Accepted source p) (hagree : p.DeclsAgree)
    (hvalidate : (compile p).validate = .ok ())
    (hpasses : canRunSizeChangingPasses (compile p).instructions (compile p).functions = true)
    (stats : OptimizationStats) (hpos : 0 < maxCycles) (hle : maxCycles ≤ 2 ^ 32)
    (trace : Option (List TraceEvent)) {result : VmResult}
    (hrun : Vm.run (compile p) fuel (Vm.init maxCycles trace) = some (.result result))
    (hlimit : result.trapCode ≠ .cycleLimit ∧ result.trapCode ≠ .stackOverflow) :
    ∃ result', Vm.run (optimize stats (compile p)).1 fuel (Vm.init maxCycles trace) =
      some (.result result') ∧ SameOutcome result result' := by
  obtain ⟨hfunctions, hrefines⟩ := @SingleFunction.refines_optimize (compile p)
    (some maxLocalSlots) (singleFunction_compile h hvalidate hpasses) stats hpasses
  rw [run_vm_compile h hagree hpos hle trace fuel] at hrun
  rcases hrefines fuel maxCycles _ hrun with hlimited | ⟨halt', hrun', halike⟩
  · rcases hlimited with hpanic | ⟨_, hresult, hcode⟩
    · cases hpanic
    · obtain rfl := VmHalt.result.inj hresult
      exact absurd hcode (not_or.mpr hlimit)
  · obtain ⟨_, result', hresult, rfl, hsame⟩ := halike
    obtain rfl := VmHalt.result.inj hresult
    have hkeys : Vm.KeyedById (optimize stats (compile p)).1 := by
      intro id info hinfo
      rw [hfunctions] at hinfo
      exact keyedById_compile h id info hinfo
    refine ⟨result', ?_, hsame⟩
    rcases run_vm_eq hkeys hpos hle trace fuel with hpanic | heq
    · cases hpanic.symm.trans hrun'
    · exact heq.trans hrun'

/-- Where dead code elimination runs alone. -/
theorem optimize_deadCode (hverified : Verified program (verify program).possibleTraps)
    (hpasses : canRunSizeChangingPasses program.instructions program.functions = false)
    (stats : OptimizationStats) (trace : Option (List TraceEvent)) {result : VmResult}
    (hrun : Vm.run program fuel (Vm.init maxCycles trace) = some (.result result)) :
    ∃ result', Vm.run (optimize stats program).1 fuel (Vm.init maxCycles trace) =
      some (.result result') ∧ SameOutcome result result' := by
  rw [optimize]
  dsimp only
  rw [hpasses, if_neg Bool.false_ne_true]
  obtain ⟨position, hcompacts⟩ := exists_compacts hverified
    { stats with instructionsBefore := program.instructions.length }
  rw [← Vm.run_init_none] at hrun ⊢
  have hmoved := Vm.run_compacted hverified hcompacts maxCycles fuel
  rw [hrun] at hmoved
  exact ⟨_, hmoved, rfl, rfl, rfl, rfl, le_rfl⟩

/-- **The optimizer preserves the meaning of compiled programs.** -/
theorem optimize_preserves (h : Accepted source p) (hagree : p.DeclsAgree)
    (hvalid : (verify (compile p)).valid = true) (stats : OptimizationStats)
    (hpos : 0 < maxCycles) (hle : maxCycles ≤ 2 ^ 32) (trace : Option (List TraceEvent))
    {result : VmResult}
    (hrun : Vm.run (compile p) fuel (Vm.init maxCycles trace) = some (.result result))
    (hlimit : result.trapCode ≠ .cycleLimit ∧ result.trapCode ≠ .stackOverflow) :
    ∃ result', Vm.run (optimize stats (compile p)).1 fuel (Vm.init maxCycles trace) =
      some (.result result') ∧ SameOutcome result result' := by
  have hverified := verified_of_valid hvalid
  cases hpasses : canRunSizeChangingPasses (compile p).instructions (compile p).functions with
  | true =>
    exact optimize_single h hagree (validate_of_verified hverified) hpasses stats hpos hle trace
      hrun hlimit
  | false => exact optimize_deadCode hverified hpasses stats trace hrun

/-! ## A product of constants -/

def productSource : List UInt8 := asciiBytes "func main() \x7b return 6 * 7; \x7d"

def productProgram : Program where
  globals := []
  functions := [{
    name := "main"
    params := []
    body := [.returnStmt (.binary .mul (.intLiteral 6 ⟨1, 22⟩) (.intLiteral 7 ⟨1, 26⟩) ⟨1, 22⟩)
      ⟨1, 15⟩]
    span := ⟨1, 1⟩ }]

theorem accepted_product : Accepted productSource productProgram := by
  have htokens : tokenize productSource = [⟨.kwFunc, ⟨1, 1⟩⟩, ⟨.identifier "main", ⟨1, 6⟩⟩,
      ⟨.lParen, ⟨1, 10⟩⟩, ⟨.rParen, ⟨1, 11⟩⟩, ⟨.lBrace, ⟨1, 13⟩⟩, ⟨.kwReturn, ⟨1, 15⟩⟩,
      ⟨.intLiteral 6, ⟨1, 22⟩⟩, ⟨.star, ⟨1, 24⟩⟩, ⟨.intLiteral 7, ⟨1, 26⟩⟩, ⟨.semicolon, ⟨1, 27⟩⟩,
      ⟨.rBrace, ⟨1, 29⟩⟩, ⟨.eof, ⟨1, 30⟩⟩] := by
    decide +kernel
  refine ⟨?_, by rfl⟩
  rw [Parsed, htokens]
  rfl

theorem product_declsAgree : productProgram.DeclsAgree := by
  intro f hf d hd
  obtain rfl := List.mem_singleton.mp hf
  cases hd

theorem valid_product : (verify (compile productProgram)).valid = true := by
  rw [verify, functionRanges_of_sorted (by decide +kernel)]
  decide +kernel

example : (optimize {} (compile productProgram)).1.instructions =
    [⟨.loadConst, 42, 0⟩, ⟨.return, 0, 0⟩] := by decide +kernel

/-- The result of the program. -/
def productResult : VmResult := ⟨true, 42, .none, "", 4, [], 3, 0, 0⟩

theorem optimize_preserves_product : ∃ result',
    Vm.run (optimize {} (compile productProgram)).1 20 (Vm.init 100 none) =
      some (.result result') ∧ SameOutcome productResult result' :=
  optimize_preserves accepted_product product_declsAgree valid_product {} (by decide) (by decide) none
    (by decide +kernel : Vm.run (compile productProgram) 20 (Vm.init 100 none) =
      some (.result productResult)) ⟨TrapCode.noConfusion, TrapCode.noConfusion⟩

end ValueVm

end MiniLang
