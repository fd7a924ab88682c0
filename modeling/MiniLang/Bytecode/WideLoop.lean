import MiniLang.Bytecode.CompileVerify
import MiniLang.Fuzz.EmitProgram

/-!
# Jumps over very long code

Addresses are stored in operands of 32 bits. A loop whose body has `2 ^ 31` instructions exits to an
address that is negative as an operand, which the verifier reports as such.

## A program that cannot be written down

The program is a source text of some gigabytes, so it is never evaluated. It is the text that the
printer makes of `wideLoop n`, whose body repeats one statement; printed programs parse back, and so
the text is that of a program with the same tree. That the program is accepted, and what code it
has, is an induction over the repeated statement.

## The report

It is enough to find one error. The verifier visits the entry of `main`, the constant there, and
then the conditional jump of the loop, whose operand is the negative address. The error stays in the
report whatever else is visited, and it is not the one that the report has for programs with too
many instructions.
-/

namespace MiniLang

open Compiler Verifier Fuzz

/-! ## A loop with a long body -/

/-- `while (true) { 1; 1; ... }` with `n` statements in the body. -/
def wideLoop (n : Nat) : Program where
  globals := []
  functions := [{
    name := "main"
    params := []
    body := [
      .whileStmt (.boolLiteral true .default)
        (List.replicate n (.exprStmt (.intLiteral 1 .default) .default)) .default,
      .returnStmt (.intLiteral 0 .default) .default]
    span := .default }]

/-- The statement `1;`. -/
def IsOne (stmt : Stmt) : Prop :=
  stmt.eraseSpans = .exprStmt (.intLiteral 1 .default) .default

/-- The tree of the loop, with its positions. -/
structure IsWideLoop (n : Nat) (p : Program) : Prop where
  exists_body : ∃ body span₁ span₂ span₃ span₄ span₅, p = ⟨[], [⟨"main", [],
    [.whileStmt (.boolLiteral true span₁) body span₂,
      .returnStmt (.intLiteral 0 span₃) span₄], span₅⟩]⟩ ∧
    body.length = n ∧ ∀ stmt ∈ body, IsOne stmt

theorem isName_main : IsName "main" := ⟨isWord_printed (by decide), by decide⟩

theorem printable_wideLoop (n : Nat) : PrintableProgram (wideLoop n) := by
  have hbody : PrintableStmts
      (List.replicate n (.exprStmt (.intLiteral 1 .default) .default)) := by
    induction n with
    | zero => trivial
    | succ n ih => exact ⟨by rw [PrintableStmt, PrintableExpr]; decide, ih⟩
  have hreturn : PrintableStmt (.returnStmt (.intLiteral 0 .default) .default) := by
    rw [PrintableStmt, PrintableExpr]
    decide
  refine ⟨fun g hg ↦ absurd hg List.not_mem_nil, fun f hf ↦ ?_⟩
  obtain rfl := List.mem_singleton.mp hf
  exact ⟨isName_main, fun param hparam ↦ absurd hparam List.not_mem_nil,
    ⟨trivial, hbody⟩, hreturn, trivial⟩

theorem eraseSpansStmts_replicate {body : List Stmt} {n : Nat} {stmt : Stmt}
    (h : eraseSpansStmts body = List.replicate n stmt) :
    body.length = n ∧ ∀ stmt' ∈ body, stmt'.eraseSpans = stmt := by
  induction body generalizing n with
  | nil =>
    cases n with
    | zero => exact ⟨rfl, fun stmt' hstmt' ↦ absurd hstmt' List.not_mem_nil⟩
    | succ n => cases h
  | cons stmt' body ih =>
    cases n with
    | zero => cases h
    | succ n =>
      obtain ⟨hstmt, hbody⟩ := List.cons.inj h
      obtain ⟨hlength, hall⟩ := ih hbody
      exact ⟨by rw [List.length_cons, hlength], List.forall_mem_cons.mpr ⟨hstmt, hall⟩⟩

theorem replicate_eraseSpans (n : Nat) (stmt : Stmt) :
    eraseSpansStmts (List.replicate n stmt) = List.replicate n stmt.eraseSpans := by
  induction n with
  | zero => rfl
  | succ n ih => exact congrArg (List.cons stmt.eraseSpans) ih

theorem isWideLoop_of_eraseSpans {n : Nat} {p : Program}
    (h : p.eraseSpans = (wideLoop n).eraseSpans) : IsWideLoop n p := by
  obtain ⟨globals, functions⟩ := p
  obtain ⟨hglobals, hfunctions⟩ := Program.mk.inj h
  obtain rfl := List.map_eq_nil_iff.mp hglobals
  obtain ⟨f, rfl, hf⟩ := List.map_eq_singleton_iff.mp hfunctions
  obtain ⟨name, params, body, span⟩ := f
  obtain ⟨hname, hparams, hbody, -⟩ := Function.mk.inj hf
  obtain rfl : name = "main" := hname
  obtain rfl := List.map_eq_nil_iff.mp hparams
  obtain ⟨loop, rest, rfl⟩ : ∃ loop rest, body = loop :: rest := by
    cases body with
    | nil => cases hbody
    | cons loop rest => exact ⟨loop, rest, rfl⟩
  obtain ⟨hloop, hrest⟩ := List.cons.inj hbody
  obtain ⟨last, rfl⟩ : ∃ last, rest = [last] := by
    cases rest with
    | nil => cases hrest
    | cons last rest =>
      cases rest with
      | nil => exact ⟨last, rfl⟩
      | cons => cases (List.cons.inj hrest).2
  obtain ⟨condition, ones, span₂, rfl, hcondition, hones⟩ := exists_whileStmt hloop
  obtain ⟨span₁, rfl⟩ := exists_boolLiteral hcondition
  obtain ⟨value, span₄, rfl, hvalue⟩ := exists_returnStmt (List.cons.inj hrest).1
  obtain ⟨span₃, rfl⟩ := exists_intLiteral hvalue
  obtain ⟨hlength, hall⟩ := eraseSpansStmts_replicate (hones.trans (replicate_eraseSpans n _))
  exact ⟨ones, span₁, span₂, span₃, span₄, span, rfl, hlength, hall⟩

/-! ## The loop is accepted -/

theorem stmtsOk_ones {Γ : Names} {body : List Stmt} (h : ∀ stmt ∈ body, IsOne stmt) :
    StmtsOk Γ body Γ ∧ localNamesList body = [] ∧ declsList body = [] := by
  induction body with
  | nil => exact ⟨.nil Γ, rfl, rfl⟩
  | cons stmt body ih =>
    obtain ⟨hstmt, hbody⟩ := List.forall_mem_cons.mp h
    obtain ⟨hok, hnames, hdecls⟩ := ih hbody
    obtain ⟨expr, span, rfl, hexpr⟩ := exists_exprStmt hstmt
    obtain ⟨span', rfl⟩ := exists_intLiteral hexpr
    exact ⟨.cons (.exprStmt (.intLiteral 1 span') span) hok, hnames, hdecls⟩

variable {n : Nat} {p : Program}

theorem IsWideLoop.accepted (h : IsWideLoop n p) {source : List UInt8} (hparsed : Parsed source p) :
    Accepted source p ∧ p.DeclsAgree := by
  obtain ⟨body, span₁, span₂, span₃, span₄, span₅, rfl, -, hall⟩ := h.exists_body
  obtain ⟨hok, hnames, hdecls⟩ := @stmtsOk_ones (Program.topLevel ⟨[], [⟨"main", [],
    [.whileStmt (.boolLiteral true span₁) body span₂, .returnStmt (.intLiteral 0 span₃) span₄],
    span₅⟩]⟩) body hall
  refine ⟨⟨hparsed, (analyze_parsed_iff hparsed).mpr ?_⟩, ?_⟩
  · refine ⟨List.nodup_singleton "main", ⟨_, List.mem_cons_self, rfl, rfl⟩,
      fun g hg ↦ absurd hg List.not_mem_nil, Nat.zero_le _,
      fun g hg ↦ absurd hg List.not_mem_nil, fun f hf ↦ ?_⟩
    obtain rfl := List.mem_singleton.mp hf
    refine ⟨⟨_, _, .nil _, .cons (.whileStmt ⟨.bool, .inr rfl, .boolLiteral true span₁⟩ hok span₂)
      (.cons (.returnStmt (.intLiteral 0 span₃) span₄) (.nil _))⟩, ?_⟩
    rw [Function.localSlots, localNamesList, Stmt.localNames, hnames]
    exact (show 0 + ([] : List String).dedup.length ≤ maxLocalSlots by decide)
  · intro f hf
    obtain rfl := List.mem_singleton.mp hf
    rw [Function.DeclsAgree, declsList, Stmt.decls, hdecls]
    exact fun d hd ↦ absurd (show d ∈ [] from hd) List.not_mem_nil

/-! ## Its code -/

theorem stmtsCode_ones (S : Env) {body : List Stmt} (h : ∀ stmt ∈ body, IsOne stmt) (base : Nat) :
    (S.stmtsCode body base).length = 2 * body.length := by
  induction body generalizing base with
  | nil => rfl
  | cons stmt body ih =>
    obtain ⟨hstmt, hbody⟩ := List.forall_mem_cons.mp h
    obtain ⟨expr, span, rfl, hexpr⟩ := exists_exprStmt hstmt
    obtain ⟨span', rfl⟩ := exists_intLiteral hexpr
    rw [Env.stmtsCode, List.length_append, Env.afterStmt, ih hbody, List.length_cons]
    simp [Env.stmtCode, Env.exprCode]
    omega

/-- The first two instructions, of the condition. -/
theorem IsWideLoop.code (h : IsWideLoop n p) (hnodup : (p.functions.map Function.name).Nodup) :
    p.functions.length = 1 ∧ ∃ rest, (compile p).instructions =
    ⟨.loadConst, 1, 0⟩ :: ⟨.jumpIfFalse, asI32 (2 * n + 3), 0⟩ :: rest := by
  obtain ⟨body, span₁, span₂, span₃, span₄, span₅, rfl, hlength, hall⟩ := h.exists_body
  refine ⟨rfl, ?_⟩
  rw [instructions_compile hnodup]
  simp only [Env.functionsCode, Env.functionCode, Env.globalInitsCode, Env.stmtsCode, Env.stmtCode,
    Env.exprCode, Env.whileCode, if_true, List.nil_append, List.cons_append, List.length_nil,
    Nat.add_zero, stmtsCode_ones _ hall, hlength]
  rw [List.length_singleton, show 0 + 1 + 2 * n + 2 = 2 * n + 3 by omega]
  exact ⟨_, rfl⟩

/-! ## The verifier's report -/

theorem negative_asI32 : asI32 (2 * 2 ^ 30 + 3) < 0 := by decide

/-- The load at the entry leads to the next instruction. -/
theorem visit_loadConst {program : CompiledProgram} {range : FunctionRange} {value : Int32}
    (hstart : pcInRange range range.start = true)
    (hnext : pcInRange range (range.start + 1) = true)
    (hinstr : program.instructions[range.start]? = some ⟨.loadConst, value, 0⟩) :
    ∃ st, (visit program range range.start { initialLoop range with worklist := [] }).states
        (range.start + 1) = some st ∧ st.stackDepth = 1 ∧
      (visit program range range.start { initialLoop range with worklist := [] }).worklist =
        [range.start + 1] := by
  have hunseen : (initialLoop range).states (range.start + 1) = none :=
    initialLoop_of_ne (Nat.succ_ne_self _)
  have hstep : (stepInstruction program range range.start ⟨.loadConst, value, 0⟩
      (entryState range.info)).run ⟨[], []⟩ =
      .ok (next range.start (push (entryState range.info))) ⟨[], []⟩ := rfl
  refine ⟨push (entryState range.info), ?_⟩
  rw [visit, if_pos hstart]
  simp only [initialLoop_start, hinstr]
  rw [show (initialLoop range).diagnostics = ⟨[], []⟩ from rfl, hstep]
  have hlimit : ((push (entryState range.info)).stackDepth > maxOperandStack) = False :=
    eq_false (show ¬1 > maxOperandStack by decide)
  simp only [finishStep, next, List.foldl_cons, List.foldl_nil, hlimit, if_false, propagate, hnext,
    if_true, hunseen, Function.update_self, true_and]
  exact ⟨rfl, rfl⟩

/-- The verifier stops at a jump to a negative address. -/
theorem visit_negative_jump {program : CompiledProgram} {range : FunctionRange} {s : LoopState}
    {pc : Nat} {st : AbstractState} {target : Int32} (hpc : pcInRange range pc = true)
    (hst : s.states pc = some st) (hdepth : st.stackDepth = 1)
    (hinstr : program.instructions[pc]? = some ⟨.jumpIfFalse, target, 0⟩) (htarget : target < 0) :
    ⟨some pc, s!"negative jump target {target.toInt}"⟩ ∈
        (visit program range pc s).diagnostics.errors ∧
      (visit program range pc s).worklist = s.worklist := by
  have hstep : (stepInstruction program range pc ⟨.jumpIfFalse, target, 0⟩ st).run s.diagnostics =
      .error () { s.diagnostics with
        errors := pushError s.diagnostics.errors (some pc)
          s!"negative jump target {target.toInt}" } := by
    rw [stepInstruction]
    dsimp only
    rw [popStack_eq pc hdepth.ge, pure_bind, jumpTarget, if_pos htarget]
    rfl
  rw [visit, if_pos hpc]
  simp only [hst, hinstr, hstep]
  exact ⟨List.mem_append_right _ List.mem_cons_self, trivial⟩

/-- A conditional jump to a negative address, right after the entry of a function. -/
theorem error_of_negative_jump {program : CompiledProgram} {range : FunctionRange}
    {value target : Int32} (hstart : pcInRange range range.start = true)
    (hnext : pcInRange range (range.start + 1) = true)
    (hfirst : program.instructions[range.start]? = some ⟨.loadConst, value, 0⟩)
    (hsecond : program.instructions[range.start + 1]? = some ⟨.jumpIfFalse, target, 0⟩)
    (htarget : target < 0) :
    ⟨some (range.start + 1), s!"negative jump target {target.toInt}"⟩ ∈
      (verifyFunction program range).diagnostics.errors := by
  obtain ⟨fuel, hfuel⟩ : ∃ fuel, loopFuel range = fuel + 2 := by
    simp only [pcInRange, Bool.and_eq_true, decide_eq_true_eq] at hnext
    have hsize : 2 * 2 ≤ (range.stop - range.start) * (range.info.localCount + 2) :=
      Nat.mul_le_mul (by omega) (by omega)
    exact ⟨loopFuel range - 2, by rw [loopFuel]; omega⟩
  obtain ⟨st, hst, hdepth, hqueue⟩ := visit_loadConst hstart hnext hfirst
  rw [verifyFunction, hfuel, loop, show (initialLoop range).worklist = [range.start] from rfl]
  dsimp only
  generalize visit program range range.start { initialLoop range with worklist := [] } = s
    at hst hqueue
  obtain ⟨herror, hqueue'⟩ := @visit_negative_jump program range { s with worklist := [] } _ _ _
    hnext hst hdepth hsecond htarget
  rw [loop, hqueue]
  dsimp only
  generalize visit program range (range.start + 1) { s with worklist := [] } = s'
    at herror hqueue'
  cases fuel with
  | zero => exact herror
  | succ fuel =>
    rw [loop, hqueue']
    exact herror

theorem head_append {a b : String} {c : Char} (h : a.toList.head? = some c) :
    (a ++ b).toList.head? = some c := by
  rw [String.toList_append, List.head?_append, h]
  rfl

theorem head_stackDepthError (depth : Nat) :
    (stackDepthError depth).toList.head? = some 'o' := by
  have hhead : (toString "operand stack depth ").toList.head? = some 'o' := by decide
  exact head_append (head_append (head_append hhead))

theorem head_negativeJump (target : Int) :
    (s!"negative jump target {target}").toList.head? = some 'n' := by
  have hhead : (toString "negative jump target ").toList.head? = some 'n' := by decide
  exact head_append hhead

theorem not_sizeError (program : CompiledProgram) (pc : Nat) (target : Int) :
    ¬SizeError program ⟨some pc, s!"negative jump target {target}"⟩ := by
  intro h
  have hhead := head_negativeJump target
  generalize (s!"negative jump target {target}" : String) = message at h hhead
  cases h with
  | stackDepth pc depth => cases (head_stackDepthError depth).symm.trans hhead

/-- **Addresses do not fit** from `2 ^ 31` instructions on. -/
theorem not_verify_compile : ¬∀ source p, Accepted source p → p.DeclsAgree →
    ∀ e ∈ (verify (compile p)).errors, SizeError (compile p) e := by
  intro h
  obtain ⟨p, hparsed, herase⟩ := parse_emitProgram (printable_wideLoop (2 ^ 30))
  have hloop := isWideLoop_of_eraseSpans herase
  obtain ⟨haccepted, hagree⟩ := hloop.accepted hparsed
  obtain ⟨hsingle, rest, hcode⟩ := hloop.code haccepted.nodup
  obtain ⟨main, hmain, -⟩ := haccepted.exists_main
  obtain ⟨range, hrange, -⟩ :=
    exists_rangeOf haccepted.functionsOk (haccepted.lookup_iff.mpr ⟨main, hmain, rfl⟩)
  obtain ⟨func, hfunc, -, hstart, hstop⟩ := haccepted.range_eq hrange
  have hid : range.id = 0 := by
    have hlt := (List.getElem?_eq_some_iff.mp hfunc).1
    omega
  rw [hid] at hstart hstop
  have hstart : range.start = 0 := hstart
  rw [show 0 + 1 = p.functions.length from hsingle.symm, entryPc_length haccepted.nodup, hcode,
    List.length_cons, List.length_cons] at hstop
  have hinside (pc : Nat) (hpc : pc < 2) : pcInRange range pc = true := by
    rw [pcInRange, Bool.and_eq_true, decide_eq_true_eq, decide_eq_true_eq]
    omega
  have herror : ⟨some (range.start + 1),
      s!"negative jump target {(asI32 (2 * 2 ^ 30 + 3)).toInt}"⟩ ∈ (verify (compile p)).errors := by
    rw [errors_verify]
    refine List.mem_append_right _ (List.mem_flatMap.mpr ⟨range, hrange, ?_⟩)
    refine @error_of_negative_jump _ _ 1 _ (hinside _ ?_) (hinside _ ?_) ?_ ?_ negative_asI32
    · rw [hstart]
      decide
    · rw [hstart]
      decide
    · rw [hstart, hcode]
      rfl
    · rw [hstart, hcode]
      rfl
  exact not_sizeError _ _ _ (h _ p haccepted hagree _ herror)

end MiniLang
