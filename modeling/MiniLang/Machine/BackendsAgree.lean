import MiniLang.Machine.FlatRuns
import MiniLang.Machine.HeapRuns
import MiniLang.Machine.ShapedRuns

/-!
# The machines agree on compiled programs

Both machines compute the values of a program, wherever the value machine does not give up, and on a
compiled program it never does. So the reference machine and the garbage-collected machine come to
the same result on every compiled program, for every budget of cycles: the same value, output,
number of cycles and message of a trap. They differ in one place. The reference machine has room for
`maxLocalSlots` variables in all frames together, and traps where a call needs more.

The garbage-collected machine itself comes to one result whenever it collects.

## Room for variables

The value machine takes the limit of variables as a parameter. With the limit it is the reference
machine's abstraction, without it that of the collecting one. The two runs are the same up to the
first call that needs more room, where the one with the limit ends; this is the only end at which
the results may differ, and the message of the trap names it.
-/

namespace MiniLang

open EStateM (Follows)
open Verifier Compiler

namespace ValueVm

variable {program : CompiledProgram} {maxCycles fuel n : Nat} {source : List UInt8} {p : Program}
  {vm : ValueVm} {α : Type}

/-! ## Room for variables -/

/-- A call has no room for its variables. -/
def NoRoom (n : Nat) (stop : Stop) : Prop := ∃ required > n,
  stop = .trap .stackOverflow s!"Local storage overflow (need {required} slots, max {n})"

/-- The run ends at a call that has no room for its variables. -/
def EndsWithoutRoom (n : Nat) (halt : VmHalt) : Prop := ∃ result required, halt = .result result ∧
  required > n ∧ result.trapCode = .stackOverflow ∧
  result.trapMessage = s!"Local storage overflow (need {required} slots, max {n})"

theorem roomy_self (x : ValueVmM α) :
    Follows (NoRoom n) Eq Eq x x fun a b s t ↦ a = b ∧ s = t := by
  rintro s t rfl
  cases x.run s with
  | ok a s' => exact ⟨rfl, rfl⟩
  | error e s' => exact .inr ⟨rfl, rfl⟩

theorem roomy_bind {β : Type} (x : ValueVmM α) {f g : α → ValueVmM β}
    (h : ∀ a, Follows (NoRoom n) Eq Eq (f a) (g a) fun a b s t ↦ a = b ∧ s = t) :
    Follows (NoRoom n) Eq Eq (x >>= f) (x >>= g) fun a b s t ↦ a = b ∧ s = t := by
  refine (roomy_self x).bind fun a b ↦ ?_
  rintro s t ⟨rfl, rfl⟩
  exact h a s s rfl

/-- With bounded room, a call does the same or is trapped. -/
theorem roomy_call (arg1 arg2 : Int32) :
    Follows (NoRoom n) Eq Eq (call program (some n) arg1 arg2) (call program none arg1 arg2)
      fun a b s t ↦ a = b ∧ s = t := by
  rw [call, call]
  refine roomy_bind _ fun _ ↦ ?_
  cases program.functions.lookup (asUsize arg1) with
  | none => exact roomy_self _
  | some func =>
    refine roomy_bind _ fun vm ↦ roomy_bind _ fun _ ↦ roomy_bind _ fun vm ↦ ?_
    refine .ite Iff.rfl (fun _ ↦ roomy_self _) fun _ ↦ roomy_bind _ fun vm ↦ ?_
    simp only [Option.elim_some, Option.elim_none, Bool.false_eq_true, if_false, decide_eq_true_eq]
    split
    · next hroom => exact .giveUp ⟨_, hroom, rfl⟩
    · exact roomy_self _

theorem roomy_instruction (opcode : Opcode) (arg1 arg2 : Int32) :
    Follows (NoRoom n) Eq Eq (executeInstruction program (some n) opcode arg1 arg2)
      (executeInstruction program none opcode arg1 arg2) fun a b s t ↦ a = b ∧ s = t := by
  cases opcode with
  | call => exact roomy_call arg1 arg2
  | _ => exact roomy_self _

/-- A step with bounded room. -/
theorem step_room (vm : ValueVm) :
    (∃ vm', step program (some n) vm = .inl vm' ∧ step program none vm = .inl vm') ∨
      ∃ halt, step program (some n) vm = .inr halt ∧
        (EndsWithoutRoom n halt ∨ step program none vm = .inr halt) := by
  rw [step, step]
  split
  · exact .inr ⟨_, rfl, .inr rfl⟩
  cases program.instructions[vm.pc]? with
  | none => exact .inr ⟨_, rfl, .inr rfl⟩
  | some instr =>
    dsimp only
    have hfollows := @roomy_instruction program n instr.opcode instr.arg1 instr.arg2
      { vm with cycles := vm.cycles + 1 } _ rfl
    cases hrun : (executeInstruction program (some n) instr.opcode instr.arg1 instr.arg2).run
        { vm with cycles := vm.cycles + 1 } with
    | ok flow vm' =>
      rw [hrun] at hfollows
      obtain ⟨_, _, hrun', rfl, rfl⟩ := hfollows.ok_inv
      rw [hrun']
      cases flow with
      | next => exact .inl ⟨_, rfl, rfl⟩
      | jump => exact .inl ⟨_, rfl, rfl⟩
      | exit value => exact .inr ⟨_, rfl, .inr rfl⟩
    | error stop vm' =>
      rw [hrun] at hfollows
      by_cases hroom : NoRoom n stop
      · obtain ⟨required, hlt, rfl⟩ := hroom
        exact .inr ⟨_, rfl, .inl ⟨_, required, rfl, hlt, rfl, rfl⟩⟩
      · obtain ⟨_, hrun', rfl⟩ := hfollows.error_inv hroom
        rw [hrun']
        cases stop with
        | trap code message => exact .inr ⟨_, rfl, .inr rfl⟩
        | panic => exact .inr ⟨_, rfl, .inr rfl⟩

/-- With bounded room, a run goes the same way, or ends at a call that has no room. -/
theorem run_room (vm : ValueVm) :
    (∃ halt, run program (some n) fuel vm = some halt ∧ EndsWithoutRoom n halt) ∨
      run program (some n) fuel vm = run program none fuel vm := by
  rw [run, run]
  cases start program vm with
  | inr result => exact .inr rfl
  | inl vm =>
    dsimp only
    have hstep : ∀ s t : ValueVm, s = t →
        (∃ s' t', step program (some n) s = .inl s' ∧ step program none t = .inl t' ∧ s' = t') ∨
        ∃ r, step program (some n) s = .inr r ∧
          (EndsWithoutRoom n r ∨ ∃ w, step program none t = .inr w ∧ r = w) := by
      rintro s t rfl
      rcases @step_room program n s with ⟨vm', hs, ht⟩ | ⟨halt, hs, hroom | ht⟩
      · exact .inl ⟨vm', vm', hs, ht, rfl⟩
      · exact .inr ⟨halt, hs, .inl hroom⟩
      · exact .inr ⟨halt, hs, .inr ⟨halt, ht, rfl⟩⟩
    rcases Stepping.run_follows hstep rfl fuel with ⟨hs, ht⟩ | ⟨r, hs, hroom | ⟨w, ht, rfl⟩⟩
    · exact .inr (hs.trans ht.symm)
    · exact .inl ⟨r, hs, hroom⟩
    · exact .inr (hs.trans ht.symm)

/-! ## A program with arrays in every frame -/

def heldArraysSource : List UInt8 := asciiBytes
  ("int g[2];func main()\x7bint b[3];b[0]=f(5);\x7d" ++
    "func f(int n)\x7bint a[2];a[1]=n;return n;\x7d")

def heldArrays : Program where
  globals := [⟨.int, "g", none, some 2, ⟨1, 1⟩⟩]
  functions := [
    { name := "main"
      params := []
      body := [
        .varDecl .int "b" none (some 3) ⟨1, 22⟩,
        .assign "b" (some (.intLiteral 0 ⟨1, 33⟩)) (.call "f" [.intLiteral 5 ⟨1, 38⟩] ⟨1, 36⟩)
          ⟨1, 31⟩]
      span := ⟨1, 10⟩ },
    { name := "f"
      params := [⟨.int, "n", ⟨1, 49⟩⟩]
      body := [
        .varDecl .int "a" none (some 2) ⟨1, 56⟩,
        .assign "a" (some (.intLiteral 1 ⟨1, 67⟩)) (.identifier "n" ⟨1, 70⟩) ⟨1, 65⟩,
        .returnStmt (.identifier "n" ⟨1, 79⟩) ⟨1, 72⟩]
      span := ⟨1, 42⟩ }]

def heldArraysTokens : List Token := [⟨.kwInt, ⟨1, 1⟩⟩, ⟨.identifier "g", ⟨1, 5⟩⟩, ⟨.lBracket, ⟨1, 6⟩⟩, ⟨.intLiteral 2, ⟨1, 7⟩⟩,
  ⟨.rBracket, ⟨1, 8⟩⟩, ⟨.semicolon, ⟨1, 9⟩⟩, ⟨.kwFunc, ⟨1, 10⟩⟩, ⟨.identifier "main", ⟨1, 15⟩⟩,
  ⟨.lParen, ⟨1, 19⟩⟩, ⟨.rParen, ⟨1, 20⟩⟩, ⟨.lBrace, ⟨1, 21⟩⟩, ⟨.kwInt, ⟨1, 22⟩⟩,
  ⟨.identifier "b", ⟨1, 26⟩⟩, ⟨.lBracket, ⟨1, 27⟩⟩, ⟨.intLiteral 3, ⟨1, 28⟩⟩, ⟨.rBracket, ⟨1, 29⟩⟩,
  ⟨.semicolon, ⟨1, 30⟩⟩, ⟨.identifier "b", ⟨1, 31⟩⟩, ⟨.lBracket, ⟨1, 32⟩⟩, ⟨.intLiteral 0, ⟨1, 33⟩⟩,
  ⟨.rBracket, ⟨1, 34⟩⟩, ⟨.assign, ⟨1, 35⟩⟩, ⟨.identifier "f", ⟨1, 36⟩⟩, ⟨.lParen, ⟨1, 37⟩⟩,
  ⟨.intLiteral 5, ⟨1, 38⟩⟩, ⟨.rParen, ⟨1, 39⟩⟩, ⟨.semicolon, ⟨1, 40⟩⟩, ⟨.rBrace, ⟨1, 41⟩⟩,
  ⟨.kwFunc, ⟨1, 42⟩⟩, ⟨.identifier "f", ⟨1, 47⟩⟩, ⟨.lParen, ⟨1, 48⟩⟩, ⟨.kwInt, ⟨1, 49⟩⟩,
  ⟨.identifier "n", ⟨1, 53⟩⟩, ⟨.rParen, ⟨1, 54⟩⟩, ⟨.lBrace, ⟨1, 55⟩⟩, ⟨.kwInt, ⟨1, 56⟩⟩,
  ⟨.identifier "a", ⟨1, 60⟩⟩, ⟨.lBracket, ⟨1, 61⟩⟩, ⟨.intLiteral 2, ⟨1, 62⟩⟩, ⟨.rBracket, ⟨1, 63⟩⟩,
  ⟨.semicolon, ⟨1, 64⟩⟩, ⟨.identifier "a", ⟨1, 65⟩⟩, ⟨.lBracket, ⟨1, 66⟩⟩, ⟨.intLiteral 1, ⟨1, 67⟩⟩,
  ⟨.rBracket, ⟨1, 68⟩⟩, ⟨.assign, ⟨1, 69⟩⟩, ⟨.identifier "n", ⟨1, 70⟩⟩, ⟨.semicolon, ⟨1, 71⟩⟩,
  ⟨.kwReturn, ⟨1, 72⟩⟩, ⟨.identifier "n", ⟨1, 79⟩⟩, ⟨.semicolon, ⟨1, 80⟩⟩, ⟨.rBrace, ⟨1, 81⟩⟩,
  ⟨.eof, ⟨1, 82⟩⟩]

theorem heldArrays_accepted : Accepted heldArraysSource heldArrays := by
  have hruns : tokenize heldArraysSource = heldArraysTokens ∧
      SemanticAnalyzer.analyze heldArrays = .ok () := by decide +kernel
  refine ⟨?_, hruns.2⟩
  rw [Parsed, hruns.1]
  rfl

theorem heldArrays_declsAgree : heldArrays.DeclsAgree := by
  intro f hf d hd d' hd' _
  rcases List.mem_pair.mp hf with rfl | rfl
  · exact congrArg Prod.snd ((List.mem_singleton.mp hd).trans (List.mem_singleton.mp hd').symm)
  · exact congrArg Prod.snd ((List.mem_singleton.mp hd).trans (List.mem_singleton.mp hd').symm)

/-! ## Compiled programs -/

theorem keyedById_compile (h : Accepted source p) : Vm.KeyedById (compile p) := by
  intro id info hinfo
  obtain ⟨func, -, rfl⟩ := h.lookup_iff.mp hinfo
  rfl

/-- **A compiled program does not go wrong.** -/
theorem run_compile_ne_panic (h : Accepted source p) (hagree : p.DeclsAgree) (storage : Option Nat)
    (fuel maxCycles : Nat) : run (compile p) storage fuel (init maxCycles) ≠ some .panic := by
  intro hpanic
  cases hvalidate : (compile p).validate with
  | error e =>
    rw [run, start, hvalidate] at hpanic
    cases hpanic
  | ok u =>
    obtain ⟨main, hmain, -⟩ := h.exists_main
    have hlookup := h.lookup_iff.mpr ⟨main, hmain, rfl⟩
    obtain ⟨result, hresult, -⟩ := run_endsWell (h.wellShaped_of_validate hagree hvalidate) hvalidate
      (by rw [hlookup]; exact Option.some_ne_none _) hpanic
    cases hresult

/-- **The reference machine computes the values of a compiled program.** -/
theorem run_vm_compile (h : Accepted source p) (hagree : p.DeclsAgree) (hpos : 0 < maxCycles)
    (hle : maxCycles ≤ 2 ^ 32) (trace : Option (List TraceEvent)) (fuel : Nat) :
    Vm.run (compile p) fuel (Vm.init maxCycles trace) =
      run (compile p) (some maxLocalSlots) fuel (init maxCycles) :=
  (run_vm_eq (keyedById_compile h) hpos hle trace fuel).resolve_left
    (run_compile_ne_panic h hagree _ fuel maxCycles)

/-- **The garbage-collected machine computes the values of a compiled program**, whenever it
collects. -/
theorem run_gc_compile (h : Accepted source p) (hagree : p.DeclsAgree) (maxCycles threshold : Nat)
    (trace : Option (List TraceEvent)) (fuel : Nat) :
    (GcVm.run (compile p) fuel (gcInit maxCycles threshold trace)).map GcVmHalt.observed =
      run (compile p) none fuel (init maxCycles) :=
  (run_gc_eq h.apart_globals maxCycles threshold trace fuel).resolve_left
    (run_compile_ne_panic h hagree _ fuel maxCycles)

/-- **The machines agree**, unless the reference machine has no room for the variables of a call. -/
theorem backends_agree (h : Accepted source p) (hagree : p.DeclsAgree) (hpos : 0 < maxCycles)
    (hle : maxCycles ≤ 2 ^ 32) (threshold : Nat) (trace trace' : Option (List TraceEvent))
    (fuel : Nat) :
    (∃ halt, Vm.run (compile p) fuel (Vm.init maxCycles trace) = some halt ∧
      EndsWithoutRoom maxLocalSlots halt) ∨
    Vm.run (compile p) fuel (Vm.init maxCycles trace) =
      (GcVm.run (compile p) fuel (gcInit maxCycles threshold trace')).map GcVmHalt.observed := by
  rw [run_vm_compile h hagree hpos hle trace fuel, run_gc_compile h hagree maxCycles threshold trace' fuel]
  exact run_room (init maxCycles)

/-- Both machines return from the call and end after 15 instructions. -/
theorem backends_agree_heldArrays :
    Vm.run (compile heldArrays) 20 (Vm.init 100 none) =
      some (.result ⟨true, 0, .none, "", 15, [], 7, 0, 0⟩) ∧
    (GcVm.run (compile heldArrays) 20 (gcInit 100 0 none)).map GcVmHalt.observed =
      some (.result ⟨true, 0, .none, "", 15, [], 7, 0, 0⟩) := by
  have hrun : Vm.run (compile heldArrays) 20 (Vm.init 100 none) =
      some (.result ⟨true, 0, .none, "", 15, [], 7, 0, 0⟩) := by decide +kernel
  refine ⟨hrun, ?_⟩
  have hpos : 0 < 100 := by decide
  rcases backends_agree heldArrays_accepted heldArrays_declsAgree hpos (by decide) 0 none none 20 with
    ⟨halt, hroom, result, required, rfl, -, hcode, -⟩ | hagree
  · obtain rfl := VmHalt.result.inj (Option.some_inj.mp (hroom.symm.trans hrun))
    cases hcode
  · exact hagree.symm.trans hrun

theorem accepted_sample : Accepted sampleSource sampleProgram := ⟨sample_parsed, sample_accepted⟩

/-- **The collector cannot be observed**: not when it runs, and not by tracing. -/
theorem gc_unobservable (h : Accepted source p) (hagree : p.DeclsAgree)
    (maxCycles threshold threshold' : Nat) (trace trace' : Option (List TraceEvent)) (fuel : Nat) :
    (GcVm.run (compile p) fuel (gcInit maxCycles threshold trace)).map GcVmHalt.observed =
      (GcVm.run (compile p) fuel (gcInit maxCycles threshold' trace')).map GcVmHalt.observed :=
  (run_gc_compile h hagree maxCycles threshold trace fuel).trans
    (run_gc_compile h hagree maxCycles threshold' trace' fuel).symm

theorem gc_unobservable_sample :
    (GcVm.run (compile sampleProgram) 20 (gcInit 100 0 none)).map GcVmHalt.observed =
      (GcVm.run (compile sampleProgram) 20 (gcInit 100 1000 (some []))).map GcVmHalt.observed :=
  gc_unobservable accepted_sample sample_declsAgree 100 0 1000 none (some []) 20

end ValueVm

end MiniLang
