import Mathlib.Data.Nat.Count
import MiniLang.Bytecode.Balance
import MiniLang.Bytecode.Verified
import MiniLang.Lib.Worklist

/-!
# Dead code elimination

The last pass of the optimizer removes the instructions that no function entry reaches and moves the
others together. Of a program that the verifier accepts it keeps exactly what can be reached, in
order, and every jump and every entry leads to the instruction it led to before.

## The pass

Reachability is found with a worklist from all entries. An index of the source's vector becomes a
number of reachable instructions before it, by which jump targets and entries are remapped. A target
that is not reachable would be left as it is, as in the source; a jump that is reachable has none.

## What it preserves

`Compacts` describes the result without the pass: the new code is the sequence of the reachable
instructions, each with its target moved (`Moves`), and `position` counts. Later modules use this
description and not the worklist. It is also true of a program that is reachable as a whole and its
own code (`compacts_self`), which is the case in which the pass returns the program unchanged.

That a jump leads to a reachable instruction needs the verifier, since a jump out of the code would
be followed by the worklist as far as its bounds check. The verifier has a state at each reachable
instruction, and with a state come successors within the range of the function.
-/

namespace MiniLang

open Verifier

/-- Optimization statistics. -/
structure OptimizationStats where
  constantsFolded : Nat := 0
  deadInstructionsRemoved : Nat := 0
  strengthReductions : Nat := 0
  peepholeOptimizations : Nat := 0
  instructionsBefore : Nat := 0
  instructionsAfter : Nat := 0
deriving DecidableEq

namespace Optimizer

/-! ## The pass -/

/-- What the worklist is extended by after the instruction at `pc`, last pushed first. -/
def followed (pc : Nat) (instr : Instruction) : List Nat :=
  match instr.opcode with
  | .jump => [asUsize instr.arg1]
  | .jumpIfFalse | .jumpIfTrue => [asUsize instr.arg1, pc + 1]
  | .return | .halt => []
  -- continue after the call returns
  | .call => [pc + 1]
  | _ => [pc + 1]

def nextPcs (instructions : List Instruction) (pc : Nat) : Option (List Nat) :=
  instructions[pc]?.map (followed pc)

/-- All reachable instructions, via control flow analysis from all function entry points. The
worklist is a stack with its top first. -/
def reachable (instructions : List Instruction) (functions : HashMap Nat FunctionInfo) : List Nat :=
  let worklist := (functions.values.map FunctionInfo.entryPc).reverse
  Worklist.sweep (nextPcs instructions)
    (worklist.length + 2 * instructions.length) worklist []

/-- The new positions of the reachable instructions among the first `count`, and their number. -/
def numbered (reachable : List Nat) : Nat → HashMap Nat Nat × Nat
  | 0 => (∅, 0)
  | oldPc + 1 =>
    let (oldToNew, newPc) := numbered reachable oldPc
    if oldPc ∈ reachable then (oldToNew.insert oldPc newPc, newPc + 1) else (oldToNew, newPc)

/-- Remap a jump target. -/
def remap (oldToNew : HashMap Nat Nat) (instr : Instruction) : Instruction :=
  match instr.opcode with
  | .jump | .jumpIfFalse | .jumpIfTrue =>
    let newTarget := (oldToNew.lookup (asUsize instr.arg1)).getD (asUsize instr.arg1)
    ⟨instr.opcode, Compiler.asI32 newTarget, instr.arg2⟩
  | _ => instr

/-- The new instructions for those from `oldPc` on. -/
def rebuild (reachable : List Nat) (oldToNew : HashMap Nat Nat) (stats : OptimizationStats) :
    Nat → List Instruction → List Instruction × OptimizationStats
  | _, [] => ([], stats)
  | oldPc, instr :: instructions =>
    let (newInstructions, stats) := rebuild reachable oldToNew stats (oldPc + 1) instructions
    if oldPc ∉ reachable then
      (newInstructions,
        { stats with deadInstructionsRemoved := stats.deadInstructionsRemoved + 1 })
    else (remap oldToNew instr :: newInstructions, stats)

/-- Update the entry points of the functions. -/
def updateEntries (oldToNew : HashMap Nat Nat) :
    List (Sigma fun _ : Nat ↦ FunctionInfo) → HashMap Nat FunctionInfo → HashMap Nat FunctionInfo
  | [], newFunctions => newFunctions
  | ⟨id, func⟩ :: functions, newFunctions =>
    match oldToNew.lookup func.entryPc with
    | some newEntry =>
      updateEntries oldToNew functions (newFunctions.insert id { func with entryPc := newEntry })
    | none => updateEntries oldToNew functions newFunctions

/-- Dead code elimination: remove unreachable instructions. -/
def deadCodeElimination (stats : OptimizationStats) (instructions : List Instruction)
    (functions : HashMap Nat FunctionInfo) :
    (List Instruction × HashMap Nat FunctionInfo) × OptimizationStats :=
  if instructions = [] then ((instructions, functions), stats)
  else
    let reachable := reachable instructions functions
    -- if all instructions are reachable, no changes needed
    if reachable.length = instructions.length then ((instructions, functions), stats)
    else
      let (oldToNew, _) := numbered reachable instructions.length
      let (newInstructions, stats) := rebuild reachable oldToNew stats 0 instructions
      ((newInstructions, updateEntries oldToNew functions.entries ∅), stats)

/-! ## What is reachable -/

variable {program : CompiledProgram} {instructions : List Instruction}
  {functions : HashMap Nat FunctionInfo} {pc pc' : Nat} {instr : Instruction}

/-- Control may go from `pc` to `pc'` within a function. -/
def FlowsTo (instructions : List Instruction) (pc pc' : Nat) : Prop :=
  ∃ instr, instructions[pc]? = some instr ∧ pc' ∈ successors pc instr

/-- There is an instruction at `pc`, and control may get there from the entry of a function. -/
def Reachable (instructions : List Instruction) (functions : HashMap Nat FunctionInfo) (pc : Nat) :
    Prop :=
  pc < instructions.length ∧ ∃ id func, functions.lookup id = some func ∧
    Relation.ReflTransGen (FlowsTo instructions) func.entryPc pc

theorem followed_eq (pc : Nat) (instr : Instruction) : followed pc instr = successors pc instr := by
  obtain ⟨opcode, arg1, arg2⟩ := instr
  cases opcode with
  | _ => rfl

theorem edge_nextPcs : Worklist.Edge (nextPcs instructions) = FlowsTo instructions := by
  funext pc pc'
  refine propext ⟨?_, ?_⟩
  · rintro ⟨pcs, hpcs, hmem⟩
    obtain ⟨instr, hinstr, rfl⟩ := Option.map_eq_some_iff.mp hpcs
    exact ⟨instr, hinstr, followed_eq pc instr ▸ hmem⟩
  · rintro ⟨instr, hinstr, hmem⟩
    exact ⟨_, Option.map_eq_some_iff.mpr ⟨instr, hinstr, rfl⟩, followed_eq pc instr ▸ hmem⟩

theorem isSome_nextPcs : (nextPcs instructions pc).isSome ↔ pc < instructions.length := by
  simp [nextPcs]

theorem mem_values {func : FunctionInfo} :
    func ∈ functions.values ↔ ∃ id, functions.lookup id = some func := by
  rw [HashMap.values, List.mem_map]
  constructor
  · rintro ⟨⟨id, func⟩, hmem, rfl⟩
    exact ⟨id, AList.mem_lookup_iff.mpr hmem⟩
  · rintro ⟨id, h⟩
    exact ⟨⟨id, func⟩, AList.mem_lookup_iff.mp h, rfl⟩

theorem length_followed_le (pc : Nat) (instr : Instruction) : (followed pc instr).length ≤ 2 := by
  rw [followed]
  split <;> simp

/-- The worklist finds what is reachable. -/
theorem mem_reachable : pc ∈ reachable instructions functions ↔
    Reachable instructions functions pc := by
  have hnodes : ∀ pc, (nextPcs instructions pc).isSome → pc ∈ Finset.range instructions.length :=
    fun pc hpc ↦ Finset.mem_range.mpr (isSome_nextPcs.mp hpc)
  have htwo : ∀ pc pcs, nextPcs instructions pc = some pcs → pcs.length ≤ 2 := by
    intro pc pcs hpcs
    obtain ⟨instr, -, rfl⟩ := Option.map_eq_some_iff.mp hpcs
    exact length_followed_le pc instr
  rw [reachable, Worklist.mem_sweep hnodes htwo (by rw [Finset.card_range]), Worklist.Found,
    edge_nextPcs, isSome_nextPcs, Reachable]
  simp only [List.mem_reverse, List.mem_map, mem_values]
  constructor
  · rintro ⟨hlt, _, ⟨func, ⟨id, hfunc⟩, rfl⟩, hpath⟩
    exact ⟨hlt, id, func, hfunc, hpath⟩
  · rintro ⟨hlt, id, func, hfunc, hpath⟩
    exact ⟨hlt, _, ⟨func, ⟨id, hfunc⟩, rfl⟩, hpath⟩

/-- The verifier finds a state wherever control may get to from the entry of a function. -/
theorem exists_stateAt {traps : List TrapCode} (hverified : Verified program traps) {id : Nat}
    {func : FunctionInfo} (hfunc : program.functions.lookup id = some func)
    (hpath : Relation.ReflTransGen (FlowsTo program.instructions) func.entryPc pc) :
    ∃ st, stateAt program id pc = some st := by
  obtain ⟨range, -, -, hstart, hcert⟩ := hverified.functions id func hfunc
  induction hpath with
  | refl =>
    obtain ⟨st, hst, -⟩ := hcert.entry
    exact ⟨st, hstart ▸ hst⟩
  | tail _ hflow ih =>
    obtain ⟨st, hst⟩ := ih
    obtain ⟨instr, hinstr, hmem⟩ := hflow
    obtain ⟨instr', hinstr', -, -, -, hsucc, -⟩ := hcert.step _ st hst
    obtain rfl := Option.some_inj.mp (hinstr.symm.trans hinstr')
    obtain ⟨st', hst', -⟩ := hsucc _ hmem
    exact ⟨st', hst'⟩

/-- In a program that the verifier accepts, control stays within the instructions. -/
theorem reachable_of_path {traps : List TrapCode} (hverified : Verified program traps) {id : Nat}
    {func : FunctionInfo} (hfunc : program.functions.lookup id = some func)
    (hpath : Relation.ReflTransGen (FlowsTo program.instructions) func.entryPc pc) :
    Reachable program.instructions program.functions pc := by
  obtain ⟨st, hst⟩ := exists_stateAt hverified hfunc hpath
  obtain ⟨range, -, -, -, hcert⟩ := hverified.functions id func hfunc
  obtain ⟨instr, hinstr, -⟩ := hcert.step pc st hst
  exact ⟨(List.getElem?_eq_some_iff.mp hinstr).1, id, func, hfunc, hpath⟩

theorem Reachable.flowsTo {traps : List TrapCode} (hverified : Verified program traps)
    (h : Reachable program.instructions program.functions pc)
    (hflow : FlowsTo program.instructions pc pc') :
    Reachable program.instructions program.functions pc' := by
  obtain ⟨-, id, func, hfunc, hpath⟩ := h
  exact reachable_of_path hverified hfunc (hpath.tail hflow)

/-! ## Positions -/

variable {kept : List Nat}

theorem numbered_spec (kept : List Nat) (count : Nat) :
    (numbered kept count).2 = Nat.count (· ∈ kept) count ∧
      ∀ pc, (numbered kept count).1.lookup pc =
        if pc < count ∧ pc ∈ kept then some (Nat.count (· ∈ kept) pc) else none := by
  induction count with
  | zero => exact ⟨rfl, fun pc ↦ by rw [if_neg fun h ↦ absurd h.1 (Nat.not_lt_zero pc)]; rfl⟩
  | succ count ih =>
    obtain ⟨hcount, hlookup⟩ := ih
    rw [numbered]
    dsimp only
    rw [Nat.count_succ]
    by_cases hmem : count ∈ kept
    · rw [if_pos hmem, if_pos hmem]
      refine ⟨congrArg (· + 1) hcount, fun pc ↦ ?_⟩
      by_cases heq : pc = count
      · subst heq
        rw [AList.lookup_insert, if_pos ⟨Nat.lt_succ_self pc, hmem⟩, hcount]
      · rw [AList.lookup_insert_ne heq, hlookup]
        exact if_congr (and_congr_left fun _ ↦ by omega) rfl rfl
    · rw [if_neg hmem, if_neg hmem]
      refine ⟨hcount, fun pc ↦ ?_⟩
      rw [hlookup]
      refine if_congr (and_congr_left fun hpc ↦ ?_) rfl rfl
      have hne : pc ≠ count := fun heq ↦ hmem (heq ▸ hpc)
      omega

theorem count_from (kept : List Nat) (oldPc i : Nat) :
    Nat.count (fun i ↦ oldPc + i ∈ kept) (i + 1) =
      Nat.count (fun i ↦ oldPc + 1 + i ∈ kept) i + if oldPc ∈ kept then 1 else 0 := by
  have hshift : (fun i ↦ oldPc + (i + 1) ∈ kept) = fun i ↦ oldPc + 1 + i ∈ kept := by
    funext i
    rw [Nat.add_assoc, Nat.add_comm 1 i]
  simp only [Nat.count_succ', hshift, Nat.add_zero]

theorem length_rebuild (oldToNew : HashMap Nat Nat) (stats : OptimizationStats) (oldPc : Nat)
    (instructions : List Instruction) : (rebuild kept oldToNew stats oldPc instructions).1.length =
      Nat.count (fun i ↦ oldPc + i ∈ kept) instructions.length := by
  induction instructions generalizing oldPc with
  | nil => rfl
  | cons instr instructions ih =>
    rw [rebuild, List.length_cons, count_from, ← ih (oldPc + 1)]
    dsimp only
    by_cases hmem : oldPc ∈ kept
    · rw [if_neg (not_not_intro hmem), if_pos hmem, List.length_cons]
    · rw [if_pos hmem, if_neg hmem]
      rfl

theorem getElem?_rebuild (oldToNew : HashMap Nat Nat) (stats : OptimizationStats) (oldPc : Nat)
    (instructions : List Instruction) {i : Nat} (hmem : oldPc + i ∈ kept) :
    (rebuild kept oldToNew stats oldPc instructions).1[Nat.count (fun i ↦ oldPc + i ∈ kept) i]? =
      instructions[i]?.map (remap oldToNew) := by
  induction instructions generalizing oldPc i with
  | nil => rfl
  | cons instr instructions ih =>
    rw [rebuild]
    dsimp only
    cases i with
    | zero =>
      rw [Nat.add_zero] at hmem
      rw [if_neg (not_not_intro hmem)]
      rfl
    | succ i =>
      have hmem' : oldPc + 1 + i ∈ kept := by rwa [Nat.add_assoc, Nat.add_comm 1 i]
      rw [count_from, List.getElem?_cons_succ, ← ih (oldPc + 1) hmem']
      by_cases hold : oldPc ∈ kept
      · rw [if_neg (not_not_intro hold), if_pos hold, List.getElem?_cons_succ]
      · rw [if_pos hold, if_neg hold]
        rfl

section Entries

variable {oldToNew : HashMap Nat Nat} {position : Nat → Nat}
  {entries : List (Sigma fun _ : Nat ↦ FunctionInfo)} {newFunctions : HashMap Nat FunctionInfo}
  {id : Nat} {func : FunctionInfo}

theorem lookup_updateEntries_of_notMem (h : id ∉ entries.keys) :
    (updateEntries oldToNew entries newFunctions).lookup id = newFunctions.lookup id := by
  induction entries generalizing newFunctions with
  | nil => rfl
  | cons entry entries ih =>
    rw [List.keys_cons] at h
    obtain ⟨hne, hrest⟩ := List.ne_and_not_mem_of_not_mem_cons h
    rw [updateEntries]
    split
    · rw [ih hrest, AList.lookup_insert_ne hne]
    · exact ih hrest

theorem lookup_updateEntries_of_mem (hnodup : entries.NodupKeys) (hmem : ⟨id, func⟩ ∈ entries)
    {newEntry : Nat} (hentry : oldToNew.lookup func.entryPc = some newEntry) :
    (updateEntries oldToNew entries newFunctions).lookup id =
      some { func with entryPc := newEntry } := by
  induction entries generalizing newFunctions with
  | nil => cases hmem
  | cons entry entries ih =>
    obtain ⟨hnew, hnodup⟩ := List.nodupKeys_cons.mp hnodup
    rw [updateEntries]
    rcases List.mem_cons.mp hmem with rfl | hmem
    · rw [hentry]
      exact (lookup_updateEntries_of_notMem hnew).trans (AList.lookup_insert _)
    · split
      · exact ih hnodup hmem
      · exact ih hnodup hmem

theorem lookup_updateEntries (h : ∀ id func, functions.lookup id = some func →
      oldToNew.lookup func.entryPc = some (position func.entryPc)) (id : Nat) :
    (updateEntries oldToNew functions.entries ∅).lookup id =
      (functions.lookup id).map fun func ↦ { func with entryPc := position func.entryPc } := by
  cases hfunc : functions.lookup id with
  | none =>
    have hkeys : id ∉ functions.entries.keys := AList.lookup_eq_none.mp hfunc
    exact lookup_updateEntries_of_notMem hkeys
  | some func =>
    have hmem : ⟨id, func⟩ ∈ functions.entries := AList.mem_lookup_iff.mp hfunc
    exact lookup_updateEntries_of_mem functions.nodupKeys hmem (h id func hfunc)

end Entries

/-! ## Compacted programs -/

/-- The instruction `instr'` is `instr`, with its target moved to a new position. -/
structure Moves (position : Nat → Nat) (instr instr' : Instruction) : Prop where
  opcode : instr'.opcode = instr.opcode
  arg2 : instr'.arg2 = instr.arg2
  arg1 : instr.opcode ∉ [.jump, .jumpIfFalse, .jumpIfTrue] → instr'.arg1 = instr.arg1
  target : instr.opcode ∈ [.jump, .jumpIfFalse, .jumpIfTrue] →
    0 ≤ instr'.arg1 ∧ asUsize instr'.arg1 = position (asUsize instr.arg1)

/-- The new instructions are the reachable ones of the program, in their order, and what led to an
instruction leads to its new position. -/
structure Compacts (program : CompiledProgram) (position : Nat → Nat)
    (newInstructions : List Instruction) (newFunctions : HashMap Nat FunctionInfo) : Prop where
  kept : ∀ pc instr, Reachable program.instructions program.functions pc →
    program.instructions[pc]? = some instr →
    ∃ instr', newInstructions[position pc]? = some instr' ∧ Moves position instr instr'
  only : ∀ newPc < newInstructions.length,
    ∃ pc, Reachable program.instructions program.functions pc ∧ position pc = newPc
  order : ∀ pc pc', Reachable program.instructions program.functions pc →
    Reachable program.instructions program.functions pc' → pc < pc' → position pc < position pc'
  entries : ∀ id, newFunctions.lookup id =
    (program.functions.lookup id).map fun func ↦ { func with entryPc := position func.entryPc }

/-- The program with other code. -/
def withCode (program : CompiledProgram) (code : List Instruction × HashMap Nat FunctionInfo) :
    CompiledProgram :=
  { program with instructions := code.1, functions := code.2 }

namespace Compacts

variable {position : Nat → Nat} {newInstructions : List Instruction}
  {newFunctions : HashMap Nat FunctionInfo}
  (h : Compacts program position newInstructions newFunctions)
include h

theorem position_lt (hpc : Reachable program.instructions program.functions pc) :
    position pc < newInstructions.length := by
  obtain ⟨instr', hinstr', -⟩ := h.kept pc _ hpc (List.getElem?_eq_getElem hpc.1)
  exact (List.getElem?_eq_some_iff.mp hinstr').1

/-- An instruction does not move up. -/
theorem position_le {pc : Nat} (hpc : Reachable program.instructions program.functions pc) :
    position pc ≤ pc := by
  induction hk : position pc generalizing pc with
  | zero => exact Nat.zero_le pc
  | succ k ih =>
    obtain ⟨pc', hpc', hk'⟩ := h.only k (by have := h.position_lt hpc; omega)
    have hlt : pc' < pc := by
      by_contra hnot
      rcases Nat.lt_or_eq_of_le (Nat.le_of_not_lt hnot) with hlt | rfl
      · have := h.order _ _ hpc hpc' hlt
        omega
      · omega
    exact Nat.lt_of_le_of_lt (ih hpc' hk') hlt

theorem length_le : newInstructions.length ≤ program.instructions.length := by
  by_contra hlt
  obtain ⟨pc, hpc, heq⟩ := h.only program.instructions.length (Nat.lt_of_not_le hlt)
  have hle := h.position_le hpc
  have hlt := hpc.1
  omega

/-- Neighbours stay neighbours. -/
theorem position_succ (hpc : Reachable program.instructions program.functions pc)
    (hnext : Reachable program.instructions program.functions (pc + 1)) :
    position (pc + 1) = position pc + 1 := by
  have hlt := h.order _ _ hpc hnext (Nat.lt_succ_self pc)
  by_contra hne
  obtain ⟨pc', hpc', hk⟩ := h.only (position pc + 1) (by have := h.position_lt hnext; omega)
  -- an instruction in between would have been in between before
  rcases Nat.lt_or_ge pc pc' with hafter | hbefore
  · rcases Nat.lt_or_eq_of_le (Nat.succ_le_of_lt hafter) with hlt' | heq
    · have := h.order _ _ hnext hpc' hlt'
      omega
    · rw [← heq] at hk
      exact hne hk
  · rcases Nat.lt_or_eq_of_le hbefore with hlt' | rfl
    · have := h.order _ _ hpc' hpc hlt'
      omega
    · omega

end Compacts

section

variable {traps : List TrapCode}

theorem Reachable.entry (hverified : Verified program traps) {id : Nat} {func : FunctionInfo}
    (hfunc : program.functions.lookup id = some func) :
    Reachable program.instructions program.functions func.entryPc :=
  reachable_of_path hverified hfunc .refl

/-- A jump that can be reached has a target, and it can be reached. -/
theorem Reachable.target (hverified : Verified program traps)
    (h : Reachable program.instructions program.functions pc)
    (hinstr : program.instructions[pc]? = some instr)
    (hop : instr.opcode ∈ [.jump, .jumpIfFalse, .jumpIfTrue]) :
    0 ≤ instr.arg1 ∧ Reachable program.instructions program.functions (asUsize instr.arg1) := by
  constructor
  · obtain ⟨-, id, func, hfunc, hpath⟩ := h
    obtain ⟨st, hst⟩ := exists_stateAt hverified hfunc hpath
    obtain ⟨range, -, -, -, hcert⟩ := hverified.functions id func hfunc
    obtain ⟨instr', hinstr', hops, -⟩ := hcert.step pc st hst
    obtain rfl := Option.some_inj.mp (hinstr.symm.trans hinstr')
    obtain ⟨opcode, arg1, arg2⟩ := instr
    cases opcode with
    | jump | jumpIfFalse | jumpIfTrue => exact hops.1
    | _ => simp at hop
  · refine h.flowsTo hverified ⟨instr, hinstr, ?_⟩
    obtain ⟨opcode, arg1, arg2⟩ := instr
    cases opcode with
    | jump | jumpIfFalse | jumpIfTrue => exact List.mem_cons_self
    | _ => simp at hop

/-- A program that is reachable as a whole is compact. -/
theorem compacts_self (hverified : Verified program traps)
    (h : ∀ pc < program.instructions.length,
      Reachable program.instructions program.functions pc) :
    Compacts program id program.instructions program.functions where
  kept _ instr hpc hinstr := ⟨instr, hinstr, rfl, rfl, fun _ ↦ rfl, fun hop ↦
    ⟨(hpc.target hverified hinstr hop).1, rfl⟩⟩
  only _ hpc := ⟨_, h _ hpc, rfl⟩
  order _ _ _ _ hlt := hlt
  entries _ := Option.map_id'.symm

theorem exists_count_eq (kept : List Nat) {n k : Nat} (h : k < Nat.count (· ∈ kept) n) :
    ∃ i ∈ kept, Nat.count (· ∈ kept) i = k := by
  induction n with
  | zero => exact absurd h (Nat.not_lt_zero k)
  | succ n ih =>
    rw [Nat.count_succ] at h
    split at h
    · next hn =>
      rcases Nat.lt_succ_iff_lt_or_eq.mp h with hlt | rfl
      · exact ih hlt
      · exact ⟨n, hn, rfl⟩
    · exact ih h

/-- As many reachable instructions as there are instructions: all are reachable. -/
theorem mem_of_length_eq {kept : List Nat} {n : Nat} (hnodup : kept.Nodup)
    (hlt : ∀ pc ∈ kept, pc < n) (hlength : kept.length = n) (hpc : pc < n) : pc ∈ kept := by
  have hsubset : kept.toFinset ⊆ Finset.range n :=
    fun pc hpc ↦ Finset.mem_range.mpr (hlt pc (List.mem_toFinset.mp hpc))
  have hcard : (Finset.range n).card ≤ kept.toFinset.card := by
    rw [Finset.card_range, List.toFinset_card_of_nodup hnodup, hlength]
  have heq := Finset.eq_of_subset_of_card_le hsubset hcard
  exact List.mem_toFinset.mp (heq ▸ Finset.mem_range.mpr hpc)

theorem moves_remap (hverified : Verified program traps)
    (hmem : ∀ pc, pc ∈ kept ↔ Reachable program.instructions program.functions pc)
    (hpc : Reachable program.instructions program.functions pc)
    (hinstr : program.instructions[pc]? = some instr) :
    Moves (Nat.count (· ∈ kept)) instr
      (remap (numbered kept program.instructions.length).1 instr) := by
  by_cases hop : instr.opcode ∈ [.jump, .jumpIfFalse, .jumpIfTrue]
  · obtain ⟨-, htarget⟩ := hpc.target hverified hinstr hop
    have hlookup := (numbered_spec kept program.instructions.length).2 (asUsize instr.arg1)
    rw [if_pos ⟨htarget.1, (hmem _).mpr htarget⟩] at hlookup
    have hremap : remap (numbered kept program.instructions.length).1 instr = ⟨instr.opcode,
        Compiler.asI32 (Nat.count (· ∈ kept) (asUsize instr.arg1)), instr.arg2⟩ := by
      obtain ⟨opcode, arg1, arg2⟩ := instr
      cases opcode with
      | jump | jumpIfFalse | jumpIfTrue => rw [remap, hlookup, Option.getD_some]
      | _ => simp at hop
    have hsmall : Nat.count (· ∈ kept) (asUsize instr.arg1) < 2 ^ 31 := by
      have hle := @Nat.count_le (· ∈ kept) _ (asUsize instr.arg1)
      have hlt := htarget.1
      have hcount := hverified.count
      have hlimit : maxInstructions < 2 ^ 31 := by decide
      omega
    rw [hremap]
    exact ⟨rfl, rfl, fun h ↦ absurd hop h,
      fun _ ↦ ⟨Compiler.asI32_nonneg hsmall, Compiler.asUsize_asI32 hsmall⟩⟩
  · have hremap : remap (numbered kept program.instructions.length).1 instr = instr := by
      obtain ⟨opcode, arg1, arg2⟩ := instr
      cases opcode with
      | jump | jumpIfFalse | jumpIfTrue => simp at hop
      | _ => rfl
    rw [hremap]
    exact ⟨rfl, rfl, fun _ ↦ rfl, fun h ↦ absurd h hop⟩

theorem compacts_rebuild (hverified : Verified program traps)
    (hmem : ∀ pc, pc ∈ kept ↔ Reachable program.instructions program.functions pc)
    (stats : OptimizationStats) :
    Compacts program (Nat.count (· ∈ kept))
      (rebuild kept (numbered kept program.instructions.length).1 stats 0 program.instructions).1
      (updateEntries (numbered kept program.instructions.length).1 program.functions.entries
        ∅) where
  kept pc instr hpc hinstr := by
    refine ⟨_, ?_, moves_remap hverified hmem hpc hinstr⟩
    have hget := getElem?_rebuild (numbered kept program.instructions.length).1 stats 0
      program.instructions (i := pc) ((Nat.zero_add pc).symm ▸ (hmem pc).mpr hpc)
    simp only [Nat.zero_add] at hget
    rw [hget, hinstr]
    rfl
  only newPc hnew := by
    rw [length_rebuild] at hnew
    simp only [Nat.zero_add] at hnew
    obtain ⟨pc, hpc, heq⟩ := exists_count_eq kept hnew
    exact ⟨pc, (hmem pc).mp hpc, heq⟩
  order pc pc' hpc _ hlt := Nat.count_strict_mono ((hmem pc).mpr hpc) hlt
  entries := by
    refine lookup_updateEntries fun id func hfunc ↦ ?_
    have hentry := Reachable.entry hverified hfunc
    rw [(numbered_spec kept program.instructions.length).2,
      if_pos ⟨hentry.1, (hmem _).mpr hentry⟩]

/-- **What remains is exactly what is reachable.** -/
theorem exists_compacts (hverified : Verified program traps) (stats : OptimizationStats) :
    ∃ position,
      Compacts program position
        (deadCodeElimination stats program.instructions program.functions).1.1
        (deadCodeElimination stats program.instructions program.functions).1.2 := by
  have hmem (pc : Nat) : pc ∈ reachable program.instructions program.functions ↔
    Reachable program.instructions program.functions pc := mem_reachable
  have hnodup : (reachable program.instructions program.functions).Nodup :=
    Worklist.nodup_sweep List.nodup_nil
  rw [deadCodeElimination]
  split
  · next hnil =>
    refine ⟨id, compacts_self hverified fun pc hpc ↦ ?_⟩
    rw [hnil] at hpc
    cases hpc
  dsimp only
  split
  · next hlength =>
    refine ⟨id, compacts_self hverified fun pc hpc ↦ (hmem pc).mp ?_⟩
    exact mem_of_length_eq hnodup (fun pc hpc ↦ ((hmem pc).mp hpc).1) hlength hpc
  · exact ⟨_, compacts_rebuild hverified hmem stats⟩

end

end Optimizer

end MiniLang
