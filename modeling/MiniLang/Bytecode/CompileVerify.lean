import MiniLang.Bytecode.DepthCheck
import MiniLang.Bytecode.Linked

/-!
# Compiled programs pass the verifier

The bytecode of an accepted program, in which the declarations of a local name agree, is refused by
the verifier for its size only: the number of instructions, or the depth of an operand stack.

## From balance to the verifier's states

The code of a statement is balanced by a typing that assigns a depth to each address. For the
verifier this assignment is consistent: every instruction has the operands it takes, successors have
the depths it leaves, and its operands name slots, functions and addresses in range. A consistent
assignment keeps the worklist loop from reporting anything but depths beyond the limit, so nothing
has to be said about how the loop runs.

Locals count as initialised in the verifier's states where they are stored on every path. A load of
another local is no error but a possible trap, so nothing is needed of it here.

## Around the functions

The checks of the ranges and of the global metadata are discharged from the layout: functions are
contiguous, in increasing order and not empty; globals take consecutive slots within their limit.
Addresses are `i32` in the bytecode. A program whose code is longer than that range would jump
elsewhere, but it has been refused for its number of instructions before.
-/

namespace MiniLang

open Compiler Verifier StackCode

variable {source : List UInt8} {p : Program}

namespace Verifier

variable {program : CompiledProgram} {range : FunctionRange} {info : FunctionInfo}

/-! ## Function ranges -/

theorem functionErrors_eq (h : SlotsOk info) (errors : List VerificationError) :
    functionErrors info errors = errors := by
  rw [functionErrors, if_neg (Nat.not_lt.mpr h.1), if_neg (Nat.not_lt.mpr h.2)]

theorem functionEntries_snd {count : Nat} {functions : List (Nat × FunctionInfo)} {seen : List Nat}
    (errors : List VerificationError)
    (hok : ∀ f ∈ functions, SlotsOk f.2 ∧ f.2.entryPc < count ∧ f.2.entryPc ∉ seen)
    (hnodup : (functions.map fun f ↦ f.2.entryPc).Nodup) :
    (functionEntries count functions seen errors).2 = errors := by
  induction functions generalizing seen with
  | nil => rfl
  | cons f functions ih =>
    obtain ⟨⟨hslots, hcount, hseen⟩, hok⟩ := List.forall_mem_cons.mp hok
    obtain ⟨hnew, hnodup⟩ := List.nodup_cons.mp hnodup
    rw [functionEntries, functionErrors_eq hslots, if_neg (Nat.not_le.mpr hcount)]
    dsimp only
    rw [if_neg hseen]
    refine ih (fun g hg ↦ ?_) hnodup
    obtain ⟨hslots, hcount, hseen⟩ := hok g hg
    refine ⟨hslots, hcount, fun hmem ↦ ?_⟩
    rcases List.mem_cons.mp hmem with heq | hmem
    · exact hnew (List.mem_map.mpr ⟨g, hg, heq⟩)
    · exact hseen hmem

theorem functionRanges_snd (h : FunctionsOk program) (errors : List VerificationError) :
    (functionRanges program errors).2 = errors := by
  rw [functionRanges]
  refine functionEntries_snd errors (fun f hf ↦ ?_) h.nodup
  have hlookup : program.functions.lookup f.1 = some f.2 := mem_functionList.mp hf
  exact ⟨h.slots _ _ hlookup, h.entries _ _ hlookup, List.not_mem_nil⟩

/-- The end of a range: the next entry, or the end of the program. -/
theorem stop_of_mem_rangesOf {count : Nat} {entries : List (Nat × FunctionInfo)}
    (hsorted : entries.Pairwise fun f g ↦ f.2.entryPc < g.2.entryPc)
    (hcount : ∀ f ∈ entries, f.2.entryPc < count) (h : range ∈ rangesOf count entries) :
    (range.stop = count ∨ ∃ f ∈ entries, f.2.entryPc = range.stop) ∧
      ∀ f ∈ entries, range.start < f.2.entryPc → range.stop ≤ f.2.entryPc := by
  induction entries with
  | nil => cases h
  | cons f entries ih =>
    obtain ⟨hfirst, hrest⟩ := List.pairwise_cons.mp hsorted
    obtain ⟨-, hcount'⟩ := List.forall_mem_cons.mp hcount
    cases entries with
    | nil =>
      obtain rfl := List.mem_singleton.mp h
      refine ⟨.inl rfl, fun f' hf' hlt ↦ ?_⟩
      rw [List.mem_singleton.mp hf'] at hlt
      exact absurd hlt (Nat.lt_irrefl _)
    | cons g entries =>
      rcases List.mem_cons.mp h with rfl | hlater
      · refine ⟨.inr ⟨g, List.mem_cons_of_mem _ List.mem_cons_self, rfl⟩, fun f' hf' hlt ↦ ?_⟩
        rcases List.mem_cons.mp hf' with rfl | hf'
        · exact absurd hlt (Nat.lt_irrefl _)
        · rcases List.mem_cons.mp hf' with rfl | hf'
          · exact le_rfl
          · exact ((List.pairwise_cons.mp hrest).1 f' hf').le
      · obtain ⟨hstop, hleast⟩ := ih hrest hcount' hlater
        refine ⟨hstop.imp_right fun ⟨f', hf', heq⟩ ↦ ⟨f', List.mem_cons_of_mem _ hf', heq⟩, ?_⟩
        intro f' hf' hlt
        rcases List.mem_cons.mp hf' with rfl | hf'
        · obtain ⟨hmem, hstart, -⟩ := mem_rangesOf hrest hcount' hlater
          have hle := hfirst _ hmem
          dsimp only at hle
          omega
        · exact hleast f' hf' hlt

/-- The end of the range of a function. -/
theorem stop_of_mem_ranges (h : FunctionsOk program) (hrange : range ∈ ranges program) :
    (range.stop = program.instructions.length ∨
      ∃ id info, program.functions.lookup id = some info ∧ info.entryPc = range.stop) ∧
      ∀ id info, program.functions.lookup id = some info → range.start < info.entryPc →
        range.stop ≤ info.entryPc := by
  rw [ranges_eq h] at hrange
  obtain ⟨hstop, hleast⟩ := stop_of_mem_rangesOf (pairwise_sortedFunctions h.nodup)
    (fun f hf ↦ h.entries f.1 f.2 (mem_functionList.mp (mem_sortedFunctions.mp hf))) hrange
  refine ⟨hstop.imp_right fun ⟨f, hf, heq⟩ ↦
    ⟨f.1, f.2, mem_functionList.mp (mem_sortedFunctions.mp hf), heq⟩, fun id info hinfo ↦ ?_⟩
  exact hleast (id, info) (mem_sortedFunctions.mpr (mem_functionList.mpr hinfo))

/-! ## Balanced functions -/

theorem operandsOk_of_loose {instr : Instruction} {pc : Nat}
    (h : OperandsOk program (looseRange info) instr) (hinfo : range.info = info)
    (hnext : ∀ succ ∈ successors pc instr, pcInRange range succ = true) :
    OperandsOk program range instr := by
  obtain ⟨opcode, arg1, arg2⟩ := instr
  subst hinfo
  cases opcode with
  | jump => exact ⟨h.1, hnext _ List.mem_cons_self⟩
  | jumpIfFalse => exact ⟨h.1, hnext _ List.mem_cons_self⟩
  | jumpIfTrue => exact ⟨h.1, hnext _ List.mem_cons_self⟩
  | _ => exact h

/-- Balanced code that ends with a `return 0` has consistent depths. -/
theorem depthsOk_of_typed {code : List Instruction}
    (htyped : Typed program info (fun _ _ ↦ False) range.start code 0 0)
    (hinfo : range.info = info) (hstop : range.stop = range.start + (code.length + 2))
    (hcode : ∀ i < code.length + 2, program.instructions[range.start + i]? =
      (code ++ [⟨.loadConst, 0, 0⟩, .simple .return])[i]?) :
    ∃ depth, DepthsOk program range depth := by
  obtain ⟨depth, hentry, hexit, hdepth⟩ := htyped
  have hinside {pc : Nat} (h : pcInRange range pc = true) : ∃ i < code.length + 2,
      pc = range.start + i := by
    rw [pcInRange, Bool.and_eq_true, decide_eq_true_eq, decide_eq_true_eq] at h
    exact ⟨pc - range.start, by omega, by omega⟩
  have hrange {i : Nat} (h : i < code.length + 2) : pcInRange range (range.start + i) = true := by
    rw [pcInRange, Bool.and_eq_true, decide_eq_true_eq, decide_eq_true_eq]
    omega
  -- past the code there are two more instructions, at depths 0 and 1
  let depth' (pc : Nat) : Nat := if pc ≤ range.start + code.length then depth pc else 1
  have hlow {pc : Nat} (h : pc ≤ range.start + code.length) : depth' pc = depth pc := if_pos h
  have hhigh : depth' (range.start + (code.length + 1)) = 1 := if_neg (by omega)
  have hall : ∀ i < code.length + 2, ∀ instr,
      (code ++ [⟨.loadConst, 0, 0⟩, .simple .return])[i]? = some instr →
      OperandsOk program (looseRange info) instr ∧ pops instr ≤ depth' (range.start + i) ∧
      ∀ succ ∈ successors (range.start + i) instr, pcInRange range succ = true ∧
        depth' succ = depth' (range.start + i) - pops instr + pushes instr := by
    intro i hi instr hinstr
    rcases Nat.lt_trichotomy i code.length with hlt | rfl | hgt
    · rw [List.getElem?_append_left hlt] at hinstr
      rw [hlow (Nat.add_le_add_left hlt.le _)]
      refine ⟨hdepth.valid i instr hinstr, hdepth.pops_le i instr hinstr, fun succ hsucc ↦ ?_⟩
      obtain ⟨hle, hle', heq⟩ := (hdepth.next i instr hinstr succ hsucc).resolve_right id
      obtain ⟨j, rfl⟩ := Nat.exists_eq_add_of_le hle
      exact ⟨hrange (by omega), (hlow hle').trans heq⟩
    · rw [List.getElem?_append_right le_rfl, Nat.sub_self] at hinstr
      obtain rfl := Option.some_inj.mp hinstr
      refine ⟨trivial, Nat.zero_le _, fun succ hsucc ↦ ?_⟩
      obtain rfl := List.mem_singleton.mp hsucc
      have hlast : pcInRange range (range.start + (code.length + 1)) = true := hrange (by omega)
      refine ⟨hlast, hhigh.trans ?_⟩
      rw [hlow le_rfl, hexit]
      rfl
    · obtain rfl : i = code.length + 1 := by omega
      rw [List.getElem?_append_right (Nat.le_add_right ..), Nat.add_sub_cancel_left] at hinstr
      obtain rfl := Option.some_inj.mp hinstr
      exact ⟨trivial, hhigh.ge, fun succ hsucc ↦ absurd hsucc List.not_mem_nil⟩
  refine ⟨depth', by omega, (hlow (Nat.le_add_right ..)).trans hentry, ?_, ?_, ?_⟩
  · intro pc instr hpc hinstr
    obtain ⟨i, hi, rfl⟩ := hinside hpc
    obtain ⟨hok, -, hnext⟩ := hall i hi instr ((hcode i hi).symm.trans hinstr)
    exact operandsOk_of_loose hok hinfo fun succ hsucc ↦ (hnext succ hsucc).1
  · intro pc instr hpc hinstr
    obtain ⟨i, hi, rfl⟩ := hinside hpc
    exact (hall i hi instr ((hcode i hi).symm.trans hinstr)).2.1
  · intro pc instr hpc hinstr
    obtain ⟨i, hi, rfl⟩ := hinside hpc
    exact (hall i hi instr ((hcode i hi).symm.trans hinstr)).2.2

end Verifier

/-! ## Compiled programs -/

theorem Compiler.entryPc_lt {i j : Nat} (hij : i < j)
    (hj : j ≤ p.functions.length) : entryPc p i < entryPc p j := by
  induction j, hij using Nat.le_induction with
  | base =>
    rw [entryPc_succ (List.getElem?_eq_getElem hj)]
    exact Nat.lt_add_of_pos_right (Env.length_functionCode_pos ..)
  | succ j hij ih =>
    rw [entryPc_succ (List.getElem?_eq_getElem hj)]
    exact (ih (Nat.le_of_succ_le hj)).trans_le (Nat.le_add_right ..)

namespace Accepted

theorem functionsOk (h : Accepted source p) : FunctionsOk (compile p) := by
  refine ⟨fun id info hinfo ↦ ⟨?_, h.localCount_le hinfo⟩, fun id info hinfo ↦ ?_, ?_⟩
  · obtain ⟨func, -, rfl⟩ := h.lookup_iff.mp hinfo
    exact (globalEnv p).paramCount_le_localCount func
  · obtain ⟨func, hfunc, rfl⟩ := h.lookup_iff.mp hinfo
    rw [← entryPc_length h.nodup]
    exact entryPc_lt (List.getElem?_eq_some_iff.mp hfunc).1 le_rfl
  · refine List.Nodup.map_on (fun f hf f' hf' heq ↦ ?_) ?_
    · obtain ⟨func, hfunc, hinfo⟩ := h.lookup_iff.mp (mem_functionList.mp hf)
      obtain ⟨func', hfunc', hinfo'⟩ := h.lookup_iff.mp (mem_functionList.mp hf')
      rw [hinfo, hinfo'] at heq
      have heq : entryPc p f.1 = entryPc p f'.1 := heq
      have hlt := (List.getElem?_eq_some_iff.mp hfunc).1
      have hlt' := (List.getElem?_eq_some_iff.mp hfunc').1
      have hid : f.1 = f'.1 := by
        rcases Nat.lt_trichotomy f.1 f'.1 with hless | hid | hless
        · exact absurd heq (entryPc_lt hless hlt'.le).ne
        · exact hid
        · exact absurd heq (entryPc_lt hless hlt.le).ne'
      refine Prod.ext hid ?_
      rw [hid, hfunc'] at hfunc
      rw [hinfo, hinfo', hid, Option.some_inj.mp hfunc]
    · rw [functionList]
      refine List.Nodup.of_map Prod.fst ?_
      rw [List.map_map]
      exact (compile p).functions.nodupKeys

/-- The range of a function holds its code. -/
theorem range_eq (h : Accepted source p) {range : FunctionRange}
    (hrange : range ∈ ranges (compile p)) : ∃ func, p.functions[range.id]? = some func ∧
      range.info = (globalEnv p).functionInfo func range.id (entryPc p range.id) ∧
      range.start = entryPc p range.id ∧ range.stop = entryPc p (range.id + 1) := by
  obtain ⟨hlookup, hstart, hlt, hle⟩ := mem_ranges h.functionsOk hrange
  obtain ⟨func, hfunc, hinfo⟩ := h.lookup_iff.mp hlookup
  have hstart : range.start = entryPc p range.id := by
    rw [hstart, hinfo]
    rfl
  have hid := (List.getElem?_eq_some_iff.mp hfunc).1
  refine ⟨func, hfunc, hinfo, hstart, ?_⟩
  obtain ⟨hstop, hleast⟩ := stop_of_mem_ranges h.functionsOk hrange
  have hnext : entryPc p (range.id + 1) ≤ range.stop := by
    -- the range ends where some later function starts, or all of them end
    obtain ⟨j, hj, hstop⟩ : ∃ j ≤ p.functions.length, range.stop = entryPc p j := by
      rcases hstop with hstop | ⟨j, info, hlookup', hentry⟩
      · exact ⟨_, le_rfl, hstop.trans (entryPc_length h.nodup).symm⟩
      · obtain ⟨func', hfunc', rfl⟩ := h.lookup_iff.mp hlookup'
        exact ⟨j, (List.getElem?_eq_some_iff.mp hfunc').1.le, hentry.symm⟩
    rw [hstop, hstart] at hlt
    have hlater : range.id < j := by
      by_contra hge
      rcases (Nat.le_of_not_lt hge).lt_or_eq with hless | rfl
      · exact absurd hlt (entryPc_lt hless hid.le).asymm
      · exact Nat.lt_irrefl _ hlt
    rw [hstop]
    rcases Nat.lt_or_eq_of_le (Nat.succ_le_of_lt hlater) with hless | rfl
    · exact (entryPc_lt hless hj).le
    · exact le_rfl
  refine Nat.le_antisymm ?_ hnext
  rcases Nat.lt_or_eq_of_le (Nat.succ_le_of_lt hid) with hless | hlast
  · have hnextFunc := List.getElem?_eq_getElem hless
    refine hleast _ _ (h.lookup_iff.mpr ⟨_, hnextFunc, rfl⟩) ?_
    rw [hstart]
    exact entryPc_lt (Nat.lt_succ_self _) hless.le
  · rw [show range.id + 1 = p.functions.length from hlast, entryPc_length h.nodup]
    exact hle

/-- Every function has consistent depths. -/
theorem depthsOk (h : Accepted source p) (hagree : p.DeclsAgree)
    (hcount : (compile p).instructions.length < 2 ^ 31) {range : FunctionRange}
    (hrange : range ∈ ranges (compile p)) : ∃ depth, DepthsOk (compile p) range depth := by
  obtain ⟨func, hfunc, hinfo, hstart, hstop⟩ := h.range_eq hrange
  rw [entryPc_succ hfunc] at hstop
  obtain ⟨-, -, -, hle⟩ := mem_ranges h.functionsOk hrange
  obtain ⟨code, hcode, htyped⟩ := h.typed_function hagree hcount (List.mem_of_getElem? hfunc)
    range.id (entryPc p range.id) (by omega)
  obtain ⟨rest, hdrop⟩ := drop_compile h.nodup hfunc
  rw [hcode] at hstop hdrop
  rw [List.length_append] at hstop
  refine depthsOk_of_typed (hstart ▸ htyped) hinfo (hstart ▸ hstop) fun i hi ↦ ?_
  rw [hstart, ← List.getElem?_drop, hdrop]
  refine List.getElem?_append_left ?_
  rw [List.length_append]
  exact hi

/-! ## Global metadata -/

theorem globals_values (h : Accepted source p) :
    (compile p).globals.values = (globalInfos p.globals 0).reverse := by
  rw [HashMap.values, (compile_eq h.nodup).2.2.1, h.globals_eq, globalEntries, List.map_map]
  exact List.map_id _

theorem globalOk (h : Accepted source p) :
    ∀ info ∈ (compile p).globals.values, GlobalOk info := by
  intro info hinfo
  rw [h.globals_values, List.mem_reverse] at hinfo
  obtain ⟨glob, hglob, -, harray, hsize, -, hle⟩ := mem_globalInfos hinfo
  rw [Nat.zero_add] at hle
  have hlimit := hle.trans h.wellFormed.globalSlots
  rw [GlobalVar.slots] at hlimit
  rw [GlobalOk, width, harray, hsize]
  cases hn : glob.arraySize with
  | none =>
    rw [hn] at hlimit
    exact ⟨fun hfalse ↦ absurd hfalse Bool.false_ne_true, hlimit⟩
  | some n =>
    rw [hn] at hlimit
    have hpos := arrayUsize_lt n (h.wellFormed.sizes glob hglob n hn)
    exact ⟨fun _ ↦ hpos.1.ne', hlimit⟩

theorem apart_globals (h : Accepted source p) :
    (compile p).globals.values.Pairwise Apart := by
  rw [h.globals_values, List.pairwise_reverse]
  have hwidth (glob : GlobalVar) (slot : Nat) : width ⟨glob.name, slot, glob.arraySize.isSome,
      (glob.arraySize.map arrayUsize).getD 0⟩ = glob.slots := by
    rw [width, GlobalVar.slots]
    cases glob.arraySize <;> rfl
  generalize 0 = slot
  induction p.globals generalizing slot with
  | nil => exact .nil
  | cons glob globs ih =>
    refine List.pairwise_cons.mpr ⟨fun info hinfo ↦ .inr ?_, ih _⟩
    rw [hwidth]
    obtain ⟨-, -, -, -, -, hle, -⟩ := mem_globalInfos hinfo
    exact hle

theorem programErrors (h : Accepted source p) : ∀ e ∈ programErrors (compile p),
    e = ⟨none, instructionCountError (compile p).instructions.length⟩ := by
  have hmetadata : verifyGlobalMetadata (compile p).globals.values
      (List.replicate maxGlobalSlots false) [] = [] := by
    refine verifyGlobalMetadata_eq h.globalOk h.apart_globals fun _ _ i hi ↦ ?_
    rw [List.getElem?_replicate] at hi
    split at hi <;> cases hi
  obtain ⟨main, hmain, -⟩ := h.exists_main
  have hlookup := h.lookup_iff.mpr ⟨main, hmain, rfl⟩
  have hsome : ((compile p).functions.lookup (compile p).mainFuncId).isNone = false := by
    rw [hlookup]
    rfl
  have hentries : (compile p).functions.entries ≠ [] := by
    exact List.ne_nil_of_mem (AList.mem_lookup_iff.mp (Option.mem_def.mpr hlookup))
  intro e he
  rw [Verifier.programErrors, hmetadata, if_neg hentries, hsome, if_neg Bool.false_ne_true] at he
  split at he
  · exact List.mem_singleton.mp he
  · cases he

end Accepted

/-- Why the verifier may refuse a compiled program. -/
inductive SizeError (program : CompiledProgram) : VerificationError → Prop
  | instructionCount : SizeError program ⟨none, instructionCountError program.instructions.length⟩
  | stackDepth (pc : Option Nat) (depth : Nat) : SizeError program ⟨pc, stackDepthError depth⟩

/-- **Compiled programs pass the verifier** but for their size. -/
theorem verify_compile (h : Accepted source p) (hagree : p.DeclsAgree)
    (hcount : (compile p).instructions.length < 2 ^ 31) :
    ∀ e ∈ (verify (compile p)).errors, SizeError (compile p) e := by
  intro e he
  rw [errors_verify, functionRanges_snd h.functionsOk, List.mem_append] at he
  rcases he with he | he
  · rw [h.programErrors e he]
    exact .instructionCount
  · obtain ⟨range, hrange, he⟩ := List.mem_flatMap.mp he
    obtain ⟨depth, hdepth⟩ := h.depthsOk hagree hcount hrange
    obtain ⟨n, hmessage⟩ := hdepth.errors e he
    obtain ⟨pc, message⟩ := e
    obtain rfl : message = stackDepthError n := hmessage
    exact .stackDepth pc n

theorem sample_declsAgree : sampleProgram.DeclsAgree := by
  intro f hf d hd d' hd' _
  obtain rfl := List.mem_singleton.mp hf
  exact congrArg Prod.snd ((List.mem_singleton.mp hd).trans (List.mem_singleton.mp hd').symm)

theorem verify_compile_sample : Accepted sampleSource sampleProgram ∧
    ∀ e ∈ (verify (compile sampleProgram)).errors, SizeError (compile sampleProgram) e := by
  have haccepted : Accepted sampleSource sampleProgram := ⟨sample_parsed, sample_accepted⟩
  exact ⟨haccepted, verify_compile haccepted sample_declsAgree (by decide +kernel)⟩

end MiniLang
