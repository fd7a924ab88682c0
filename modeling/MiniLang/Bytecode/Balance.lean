import MiniLang.Bytecode.Effects
import MiniLang.Bytecode.FrontEnd
import MiniLang.Lib.StackCode

/-!
# Compiled code is balanced

The code of a well-typed expression leaves one operand more, the code of a statement leaves none,
and every operand of an instruction is in range: local and global slots, array sizes, called
functions and argument counts. Jumps stay in the code of their statement.

## Stack code

The typing of code by depths, with labels for jumps, is that of the library; here the instructions
become an instance of it, `isa`. A piece of code is typed from a depth to a depth at any address, so
that pieces can be put together before it is known where they stand. `looseRange` has room for every
jump: that a jump stays in the range of its function follows at the end, from the code being in it.

## Operands

Slots, sizes and counts are `usize` in the compiler and `i32` in an instruction. `asUsize_asI32`
returns them unharmed below `2 ^ 31`, and every number that the compiler emits for an accepted
program is below one of the limits that the analyzer checks. Only addresses have no such limit,
which is why the typing leaves them out.
-/

namespace MiniLang

open Compiler Verifier StackCode

/-! ## Operands -/

namespace Compiler

theorem toInt_asI32 {n : Nat} (h : n < 2 ^ 31) : (asI32 n).toInt = n := by
  exact Int32.toInt_ofNat_of_lt h

theorem asUsize_asI32 {n : Nat} (h : n < 2 ^ 31) : asUsize (asI32 n) = n := by
  rw [asUsize, toInt_asI32 h]
  omega

theorem asI32_nonneg {n : Nat} (h : n < 2 ^ 31) : 0 ≤ asI32 n := by
  rw [Int32.le_iff_toInt_le, toInt_asI32 h, Int32.toInt_zero]
  omega

theorem asI32_pos {n : Nat} (hpos : 0 < n) (h : n < 2 ^ 31) : 0 < asI32 n := by
  rw [Int32.lt_iff_toInt_lt, toInt_asI32 h, Int32.toInt_zero]
  omega

theorem arrayUsize_lt (size : Int32) (h : 0 < size) :
    0 < arrayUsize size ∧ arrayUsize size < 2 ^ 31 := by
  rw [Int32.lt_iff_toInt_lt, Int32.toInt_zero] at h
  have hlt := size.toInt_lt
  rw [arrayUsize, asUsize]
  omega

end Compiler

/-- The instructions as stack code. -/
def isa : Isa Instruction := ⟨pops, pushes, successors⟩

/-- A range with room for every jump. -/
def looseRange (info : FunctionInfo) : FunctionRange := ⟨info.id, info, 0, 2 ^ 31⟩

variable {program : CompiledProgram} {info : FunctionInfo} {ext : Labels} {base h h' : Nat}
  {instr : Instruction} {S : Env} {Γ : Names}

/-- Balanced code whose operands are in range, but for the bounds of jumps. -/
abbrev Typed (program : CompiledProgram) (info : FunctionInfo) (ext : Labels) (base : Nat)
    (code : List Instruction) (h h' : Nat) : Prop :=
  isa.Balanced (OperandsOk program (looseRange info)) ext base code h h'

/-- An instruction that leads to the next one. -/
theorem typed_plain (hnext : successors base instr = [base + 1])
    (hok : OperandsOk program (looseRange info) instr) (hpops : pops instr ≤ h)
    (hafter : h' = h - pops instr + pushes instr) : Typed program info ext base [instr] h h' := by
  refine .single hok hpops fun t ht ↦ .inl ⟨?_, hafter⟩
  rw [show isa.successors base instr = [base + 1] from hnext] at ht
  exact List.mem_singleton.mp ht

theorem isTarget_loose {n : Nat} (hn : n < 2 ^ 31) : IsTarget (looseRange info) (asI32 n) := by
  refine ⟨asI32_nonneg hn, ?_⟩
  rw [asUsize_asI32 hn, pcInRange, looseRange]
  simpa using hn

/-- A jump to a label. -/
theorem typed_jump {target : Nat} (htarget : target < 2 ^ 31) (hext : ext target h) (h' : Nat) :
    Typed program info ext base [⟨.jump, asI32 target, 0⟩] h h' := by
  refine .single (isTarget_loose htarget) (Nat.zero_le h) fun t ht ↦ .inr ?_
  rw [List.mem_singleton.mp (show t ∈ [asUsize (asI32 target)] from ht), asUsize_asI32 htarget]
  exact hext

/-- A conditional jump to a label. -/
theorem typed_branch {opcode : Opcode} (hop : opcode = .jumpIfFalse ∨ opcode = .jumpIfTrue)
    {target : Nat} (htarget : target < 2 ^ 31) (hext : ext target h) :
    Typed program info ext base [⟨opcode, asI32 target, 0⟩] (h + 1) h := by
  have hok : OperandsOk program (looseRange info) ⟨opcode, asI32 target, 0⟩ := by
    rcases hop with rfl | rfl <;> exact isTarget_loose htarget
  have hpops : pops ⟨opcode, asI32 target, 0⟩ = 1 := by rcases hop with rfl | rfl <;> rfl
  have hpushes : pushes ⟨opcode, asI32 target, 0⟩ = 0 := by rcases hop with rfl | rfl <;> rfl
  have hafter : isa.after ⟨opcode, asI32 target, 0⟩ (h + 1) = h := by
    rw [Isa.after, show isa.pops _ = 1 from hpops, show isa.pushes _ = 0 from hpushes]
    rfl
  have hnext : successors base ⟨opcode, asI32 target, 0⟩ = [asUsize (asI32 target), base + 1] := by
    rcases hop with rfl | rfl <;> rfl
  refine .single hok (hpops.trans_le (Nat.le_add_left 1 h)) fun t ht ↦ ?_
  rw [show isa.successors base _ = _ from hnext, asUsize_asI32 htarget] at ht
  rw [hafter]
  rcases List.mem_cons.mp ht with rfl | ht
  · exact .inr hext
  · exact .inl ⟨List.mem_singleton.mp ht, rfl⟩

/-! ## Expressions -/

/-- The visible names have slots, or identifiers, that instructions may name. -/
structure Resolves (program : CompiledProgram) (info : FunctionInfo) (Γ : Names) (S : Env) :
    Prop where
  localCount_le : info.localCount ≤ maxLocalSlots
  scalar : ∀ name t, Γ name = some (.scalar t) →
    (∃ loc, S.locals.lookup name = some loc ∧ loc.slot < info.localCount) ∨
    S.locals.lookup name = none ∧ ∃ glob, S.globals.lookup name = some glob ∧
      glob.slot < maxGlobalSlots
  array : ∀ name t, Γ name = some (.array t) →
    (∃ loc, S.locals.lookup name = some loc ∧ loc.slot < info.localCount ∧
      0 < loc.arraySize ∧ loc.arraySize < 2 ^ 31) ∨
    S.locals.lookup name = none ∧ ∃ glob, S.globals.lookup name = some glob ∧
      0 < glob.arraySize ∧ glob.slot + glob.arraySize ≤ maxGlobalSlots
  function : ∀ name params, Γ name = some (.function params) →
    IsCallee program (asI32 ((S.funcNameToId.lookup name).getD 0)) (asI32 params.length) ∧
      params.length < 2 ^ 31

namespace Resolves

theorem isLocal (hS : Resolves program info Γ S) {slot : Nat} (hslot : slot < info.localCount) :
    IsLocal (looseRange info) (asI32 slot) := by
  have hle := hS.localCount_le
  have hlimit : maxLocalSlots = 1024 := rfl
  refine ⟨asI32_nonneg (by omega), ?_⟩
  rw [asUsize_asI32 (by omega)]
  exact hslot

theorem isGlobal {slot : Nat} (hslot : slot < maxGlobalSlots) : IsGlobal (asI32 slot) := by
  have hlimit : maxGlobalSlots = 256 := rfl
  refine ⟨asI32_nonneg (by omega), ?_⟩
  rw [asUsize_asI32 (by omega)]
  exact hslot

/-- An access to a scalar. -/
theorem typed_scalar (hS : Resolves program info Γ S) {name : String} {t : Ty}
    (hname : Γ name = some (.scalar t)) {localOp globalOp : Opcode}
    (hlocal : ∀ slot, slot < info.localCount →
      Typed program info ext base [⟨localOp, asI32 slot, 0⟩] h h')
    (hglobal : ∀ slot, slot < maxGlobalSlots →
      Typed program info ext base [⟨globalOp, asI32 slot, 0⟩] h h') :
    Typed program info ext base (S.accessCode name localOp globalOp false) h h' := by
  rw [Env.accessCode]
  rcases hS.scalar name t hname with ⟨loc, hloc, hslot⟩ | ⟨hnone, glob, hglob, hslot⟩
  · rw [hloc]
    exact hlocal _ hslot
  · rw [hnone, hglob]
    exact hglobal _ hslot

/-- An access to an array. -/
theorem typed_array (hS : Resolves program info Γ S) {name : String} {t : Ty}
    (hname : Γ name = some (.array t)) {localOp globalOp : Opcode}
    (hlocal : ∀ slot size, slot < info.localCount → 0 < asI32 size →
      Typed program info ext base [⟨localOp, asI32 slot, asI32 size⟩] h h')
    (hglobal : ∀ slot size, IsGlobalArray (asI32 slot) (asI32 size) →
      Typed program info ext base [⟨globalOp, asI32 slot, asI32 size⟩] h h') :
    Typed program info ext base (S.accessCode name localOp globalOp true) h h' := by
  rw [Env.accessCode]
  rcases hS.array name t hname with ⟨loc, hloc, hslot, hpos, hlt⟩ | ⟨hnone, glob, hglob, hpos, hle⟩
  · rw [hloc]
    exact hlocal _ _ hslot (asI32_pos hpos hlt)
  · have hlimit : maxGlobalSlots = 256 := rfl
    rw [hnone, hglob]
    refine hglobal _ _ ⟨isGlobal (by omega), asI32_pos hpos (by omega), ?_⟩
    rw [asUsize_asI32 (by omega), asUsize_asI32 (by omega)]
    exact hle

end Resolves

/-- The code of `&&` and `||`. -/
theorem typed_shortCircuit {op : Opcode} (hop : op = .jumpIfFalse ∨ op = .jumpIfTrue)
    (value : Int32) {left right : List Instruction}
    (hleft : Typed program info ext base left h (h + 1))
    (hright : Typed program info ext (base + left.length + 1) right h (h + 1))
    (hbound : base + left.length + right.length + 5 < 2 ^ 31) :
    Typed program info ext base (Env.shortCircuit op value base left right) h (h + 1) := by
  -- two labels: the instruction that loads `value`, and the end
  have hsplit : Env.shortCircuit op value base left right =
      (left ++ ([⟨op, asI32 (base + left.length + right.length + 4), 0⟩] ++ (right ++
        ([⟨.loadConst, 0, 0⟩] ++ ([.simple .ne] ++
          [⟨.jump, asI32 (base + left.length + right.length + 5), 0⟩]))))) ++
        [⟨.loadConst, value, 0⟩] := by
    simp [Env.shortCircuit]
  have hlast (ext : Labels) (base h : Nat) (value : Int32) :
      Typed program info ext base [⟨.loadConst, value, 0⟩] h (h + 1) :=
    typed_plain rfl trivial (Nat.zero_le _) rfl
  have hne (ext : Labels) (base h : Nat) :
      Typed program info ext base [.simple .ne] (h + 2) (h + 1) :=
    typed_plain rfl trivial (Nat.le_add_left 2 h) rfl
  rw [hsplit]
  refine Isa.Balanced.close (fun t d ↦
    ext t d ∨ t = base + left.length + right.length + 5 ∧ d = h + 1) (.appendAt
      (Isa.Balanced.close (fun t d ↦
        (ext t d ∨ t = base + left.length + right.length + 5 ∧ d = h + 1) ∨
          t = base + left.length + right.length + 4 ∧ d = h)
        (.appendAt (hleft.mono fun _ _ h ↦ .inl (.inl h)) (.appendAt
          (typed_branch hop (by omega) (.inr ⟨rfl, rfl⟩)) (.appendAt
            (hright.mono fun _ _ h ↦ .inl (.inl h)) (.appendAt (hlast _ _ (h + 1) 0) (.appendAt
              (hne _ _ h) (typed_jump hbound (.inl (.inr ⟨rfl, rfl⟩)) h) rfl) rfl) rfl) rfl) rfl)
        ?_) (hlast _ _ h value) rfl) ?_
  · rintro t d (hext | ⟨rfl, rfl⟩)
    · exact .inl hext
    · refine .inr (.inr ⟨?_, rfl⟩)
      simp only [List.length_append, List.length_singleton]
      omega
  · rintro t d (hext | ⟨rfl, rfl⟩)
    · exact .inl hext
    · refine .inr (.inr ⟨?_, rfl⟩)
      simp only [List.length_append, List.length_singleton]
      omega

/-- The code of a strict operator. -/
theorem typed_binaryOpcode {op : BinaryOp} (hand : op ≠ .and) (hor : op ≠ .or) (base h : Nat) :
    Typed program info ext base [.simple (binaryOpcode op)] (h + 2) (h + 1) := by
  cases op with
  | and => exact absurd rfl hand
  | or => exact absurd rfl hor
  | _ => exact typed_plain rfl trivial (Nat.le_add_left 2 h) rfl

theorem typed_unaryOpcode (op : UnaryOp) (base h : Nat) :
    Typed program info ext base [.simple (unaryOpcode op)] (h + 1) (h + 1) := by
  cases op <;> exact typed_plain rfl trivial (Nat.le_add_left 1 h) rfl

theorem typed_call {id argc : Int32} {n : Nat} (hcallee : IsCallee program id argc)
    (hargc : asUsize argc = n) (base h : Nat) :
    Typed program info ext base [⟨.call, id, argc⟩] (h + n) (h + 1) := by
  have hpops : pops ⟨.call, id, argc⟩ = n := hargc
  refine typed_plain rfl hcallee (hpops.trans_le (Nat.le_add_left n h)) ?_
  rw [hpops, Nat.add_sub_cancel]
  rfl

theorem length_shortCircuit (op : Opcode) (value : Int32) (base : Nat)
    (left right : List Instruction) :
    (Env.shortCircuit op value base left right).length = left.length + right.length + 5 := by
  simp only [Env.shortCircuit, List.length_append, List.length_cons, List.length_nil]
  omega

mutual

/-- The code of an expression leaves one operand. -/
theorem typed_expr (hS : Resolves program info Γ S) {t : Ty} (base h : Nat) : (e : Expr) →
    HasType Γ e t → base + (S.exprCode e base).length < 2 ^ 31 →
    Typed program info ext base (S.exprCode e base) h (h + 1)
  | .intLiteral _ _, _, _ => typed_plain rfl trivial (Nat.zero_le _) rfl
  | .boolLiteral _ _, _, _ => typed_plain rfl trivial (Nat.zero_le _) rfl
  | .identifier name _, htype, _ => by
    cases htype with
    | identifier hname =>
      exact hS.typed_scalar hname
        (fun _ hslot ↦ typed_plain rfl (hS.isLocal hslot) (Nat.zero_le _) rfl)
        (fun _ hslot ↦ typed_plain rfl (Resolves.isGlobal hslot) (Nat.zero_le _) rfl)
  | .binary op left right _, htype, hbound => by
    cases htype with
    | binary hl hr hop =>
      have hcode (op' : Opcode) (value : Int32)
          (hop' : op' = .jumpIfFalse ∨ op' = .jumpIfTrue) (hbound : base +
            (Env.shortCircuit op' value base (S.exprCode left base)
              (S.exprCode right (base + (S.exprCode left base).length + 1))).length < 2 ^ 31) :
          Typed program info ext base (Env.shortCircuit op' value base (S.exprCode left base)
              (S.exprCode right (base + (S.exprCode left base).length + 1))) h (h + 1) := by
        rw [length_shortCircuit] at hbound
        exact typed_shortCircuit hop' value (typed_expr hS base h left hl (by omega))
          (typed_expr hS _ h right hr (by omega)) (by omega)
      by_cases hand : op = .and
      · subst hand
        exact hcode .jumpIfFalse 0 (.inl rfl) hbound
      by_cases hor : op = .or
      · subst hor
        exact hcode .jumpIfTrue 1 (.inr rfl) hbound
      rw [Env.exprCode_strict hand hor] at hbound ⊢
      rw [List.length_append, List.length_append] at hbound
      exact .append (.append (typed_expr hS base h left hl (by omega))
        (typed_expr hS _ (h + 1) right hr (by omega))) (typed_binaryOpcode hand hor _ h)
  | .unary op operand _, htype, hbound => by
    cases htype with
    | unary ht _ =>
      rw [Env.exprCode, List.length_append] at hbound
      exact .append (typed_expr hS base h operand ht (by omega)) (typed_unaryOpcode op _ h)
  | .call name args _, htype, hbound => by
    cases htype with
    | call hname hargs =>
      obtain ⟨hcallee, hcount⟩ := hS.function name _ hname
      rw [Env.exprCode, List.length_append] at hbound
      rw [← hargs.length_eq] at hcallee hcount
      exact .append (typed_args hS base h args hargs (by omega))
        (typed_call hcallee (asUsize_asI32 hcount) _ h)
  | .arrayIndex name index _, htype, hbound => by
    cases htype with
    | arrayIndex hname hindex =>
      rw [Env.exprCode, List.length_append] at hbound
      refine .append (typed_expr hS base h index hindex (by omega)) (hS.typed_array hname
        (fun _ _ hslot hsize ↦ ?_) (fun _ _ harray ↦ ?_))
      · exact typed_plain rfl ⟨hsize, hS.isLocal hslot⟩ (Nat.le_add_left 1 h) rfl
      · exact typed_plain rfl harray (Nat.le_add_left 1 h) rfl
termination_by structural e => e

theorem typed_args (hS : Resolves program info Γ S) {ts : List Ty} (base h : Nat) :
    (args : List Expr) → HaveTypes Γ args ts → base + (S.argsCode args base).length < 2 ^ 31 →
    Typed program info ext base (S.argsCode args base) h (h + args.length)
  | [], _, _ => .nil h
  | arg :: args, htypes, hbound => by
    cases htypes with
    | cons htype htypes =>
      rw [Env.argsCode, List.length_append] at hbound
      rw [Env.argsCode, List.length_cons, Nat.add_comm args.length, ← Nat.add_assoc]
      exact .append (typed_expr hS base h arg htype (by omega))
        (typed_args hS _ (h + 1) args htypes (by omega))
termination_by structural args => args

end

/-! ## Statements -/

theorem typed_ifCode {condition thenBody : List Instruction}
    (hcondition : Typed program info ext base condition 0 1)
    (hthen : Typed program info ext (base + condition.length + 1) thenBody 0 0)
    (hbound : base + (Env.ifCode base condition thenBody).length < 2 ^ 31) :
    Typed program info ext base (Env.ifCode base condition thenBody) 0 0 := by
  have hsplit : Env.ifCode base condition thenBody = condition ++
      ([⟨.jumpIfFalse, asI32 (base + condition.length + thenBody.length + 1), 0⟩] ++ thenBody) := rfl
  rw [hsplit] at hbound ⊢
  simp only [List.length_append, List.length_singleton] at hbound
  refine Isa.Balanced.close (fun t d ↦
    ext t d ∨ t = base + condition.length + thenBody.length + 1 ∧ d = 0) (.append
      (hcondition.mono fun _ _ ↦ .inl) (.append (typed_branch (.inl rfl) (by omega)
        (.inr ⟨rfl, rfl⟩)) (hthen.mono fun _ _ ↦ .inl))) ?_
  rintro t d (hext | ⟨rfl, rfl⟩)
  · exact .inl hext
  · refine .inr (.inr ⟨?_, rfl⟩)
    simp only [List.length_append, List.length_singleton]
    omega

theorem typed_ifElseCode {condition thenBody elseBody : List Instruction}
    (hcondition : Typed program info ext base condition 0 1)
    (hthen : Typed program info ext (base + condition.length + 1) thenBody 0 0)
    (helse : Typed program info ext (base + condition.length + thenBody.length + 2) elseBody 0 0)
    (hbound : base + (Env.ifElseCode base condition thenBody elseBody).length < 2 ^ 31) :
    Typed program info ext base (Env.ifElseCode base condition thenBody elseBody) 0 0 := by
  have hsplit : Env.ifElseCode base condition thenBody elseBody = (condition ++
      ([⟨.jumpIfFalse, asI32 (base + condition.length + thenBody.length + 2), 0⟩] ++ (thenBody ++
        [⟨.jump, asI32 (base + condition.length + thenBody.length + 2 + elseBody.length), 0⟩]))) ++
          elseBody := by
    simp [Env.ifElseCode]
  rw [hsplit] at hbound ⊢
  simp only [List.length_append, List.length_singleton] at hbound
  refine Isa.Balanced.close (fun t d ↦ ext t d ∨
    t = base + condition.length + thenBody.length + 2 + elseBody.length ∧ d = 0) (.appendAt
      (Isa.Balanced.close (fun t d ↦ (ext t d ∨
        t = base + condition.length + thenBody.length + 2 + elseBody.length ∧ d = 0) ∨
          t = base + condition.length + thenBody.length + 2 ∧ d = 0)
        (.append (hcondition.mono fun _ _ h ↦ .inl (.inl h)) (.append
          (typed_branch (.inl rfl) (by omega) (.inr ⟨rfl, rfl⟩)) (.append
            (hthen.mono fun _ _ h ↦ .inl (.inl h))
            (typed_jump (by omega) (.inl (.inr ⟨rfl, rfl⟩)) 0)))) ?_)
      (helse.mono fun _ _ ↦ .inl) ?_) ?_
  · rintro t d (hext | ⟨rfl, rfl⟩)
    · exact .inl hext
    · refine .inr (.inr ⟨?_, rfl⟩)
      simp only [List.length_append, List.length_singleton]
      omega
  · simp only [List.length_append, List.length_singleton]
    omega
  · rintro t d (hext | ⟨rfl, rfl⟩)
    · exact .inl hext
    · refine .inr (.inr ⟨?_, rfl⟩)
      simp only [List.length_append, List.length_singleton]
      omega

theorem typed_whileCode {condition body : List Instruction}
    (hcondition : Typed program info ext base condition 0 1)
    (hbody : Typed program info ext (base + condition.length + 1) body 0 0)
    (hbound : base + (Env.whileCode base condition body).length < 2 ^ 31) :
    Typed program info ext base (Env.whileCode base condition body) 0 0 := by
  have hsplit : Env.whileCode base condition body = condition ++
      ([⟨.jumpIfFalse, asI32 (base + condition.length + body.length + 2), 0⟩] ++ (body ++
        [⟨.jump, asI32 base, 0⟩])) := by
    simp [Env.whileCode]
  rw [hsplit] at hbound ⊢
  simp only [List.length_append, List.length_singleton] at hbound
  refine Isa.Balanced.close (fun t d ↦ ext t d ∨ t = base ∧ d = 0 ∨
    t = base + condition.length + body.length + 2 ∧ d = 0) (.append
      (hcondition.mono fun _ _ ↦ .inl) (.append (typed_branch (.inl rfl) (by omega)
        (.inr (.inr ⟨rfl, rfl⟩))) (.append (hbody.mono fun _ _ ↦ .inl)
          (typed_jump (by omega) (.inr (.inl ⟨rfl, rfl⟩)) 0)))) ?_
  rintro t d (hext | ⟨rfl, rfl⟩ | ⟨rfl, rfl⟩)
  · exact .inl hext
  · exact .inr (.inl ⟨rfl, rfl⟩)
  · refine .inr (.inr ⟨?_, rfl⟩)
    simp only [List.length_append, List.length_singleton]
    omega

end MiniLang
