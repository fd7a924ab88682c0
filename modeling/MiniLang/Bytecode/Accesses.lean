import MiniLang.Bytecode.Rebuilding

/-!
# Accesses to names

Where the compiler meets a name it looks the name up and emits one instruction for it: a load or a
store of a local slot or of a global one. `exprAccesses`, `stmtAccesses` and `globalInitsAccesses`
list these accesses. Each has the recursion of the function of the compiler it is named after, on
the compiler that this function has reached there, so that an access has the address at which the
compiler emits it.

`Env.Carries T base accesses code` says that the code at `base` has the local slots of these
accesses by the table `T`: every access to a name of `T` is the instruction with the slot that `T`
has for the name, and nothing else in the code names a local slot. The code of a well-formed
statement carries its accesses by the finished table, although it is emitted under the table being
rebuilt.
-/

namespace MiniLang

namespace Compiler

/-- An access to a name: its address, and the opcode it has when the name is local. -/
structure Access where
  pc : Nat
  name : String
  opcode : Opcode
  /-- The second operand is the size of the array. -/
  sized : Bool
deriving DecidableEq

/-- The instruction of an access to a local variable. -/
def Access.instruction (access : Access) (loc : LocalVar) : Instruction :=
  ⟨access.opcode, asI32 loc.slot, if access.sized then asI32 loc.arraySize else 0⟩

/-! ## The accesses that are compiled -/

mutual

def exprAccesses (c : Compiler) : Expr → List Access
  | .intLiteral .. => []
  | .boolLiteral .. => []
  | .identifier name _ => [⟨c.currentPc, name, .loadLocal, false⟩]
  | .binary op left right _ =>
    c.exprAccesses left ++
      match op with
      | .and => ((c.compileExpr left).emit .jumpIfFalse 0 0).exprAccesses right
      | .or => ((c.compileExpr left).emit .jumpIfTrue 0 0).exprAccesses right
      | _ => (c.compileExpr left).exprAccesses right
  | .unary _ operand _ => c.exprAccesses operand
  | .call _ args _ => c.argsAccesses args
  | .arrayIndex arrayName index _ =>
    c.exprAccesses index ++ [⟨(c.compileExpr index).currentPc, arrayName, .localArrayLoad, true⟩]
termination_by structural expr => expr

def argsAccesses (c : Compiler) : List Expr → List Access
  | [] => []
  | arg :: args => c.exprAccesses arg ++ (c.compileExpr arg).argsAccesses args
termination_by structural args => args

end

def assignAccesses (c : Compiler) (target : String) (indexExpr : Option Expr) (value : Expr) :
    List Access :=
  if target ∈ c.currentLocals ∨ target ∈ c.globals then
    match indexExpr with
    | some idxExpr =>
      let index := c.compileExpr idxExpr
      c.exprAccesses idxExpr ++ index.exprAccesses value ++
        [⟨(index.compileExpr value).currentPc, target, .localArrayStore, true⟩]
    | none =>
      c.exprAccesses value ++ [⟨(c.compileExpr value).currentPc, target, .storeLocal, false⟩]
  else []

/-- A declared array is stored in its slot once it is allocated. -/
def varDeclAccesses (c : Compiler) (name : String) (initExpr : Option Expr)
    (arraySize : Option Int32) : List Access :=
  let c := c.declareLocal name arraySize
  match c.currentLocals.lookup name with
  | none => []
  | some loc =>
    if loc.isArray then
      [⟨(c.emit .allocArray (asI32 loc.arraySize) 0).currentPc, name, .storeLocal, false⟩]
    else match initExpr with
      | some init =>
        c.exprAccesses init ++ [⟨(c.compileExpr init).currentPc, name, .storeLocal, false⟩]
      | none => []

mutual

def stmtAccesses (c : Compiler) : Stmt → List Access
  | .varDecl _ name initExpr arraySize _ => c.varDeclAccesses name initExpr arraySize
  | .assign target indexExpr value _ => c.assignAccesses target indexExpr value
  | .ifStmt condition thenBody none _ =>
    let branch := (c.compileExpr condition).emit .jumpIfFalse 0 0
    c.exprAccesses condition ++ branch.stmtsAccesses thenBody
  | .ifStmt condition thenBody (some elseBody) _ =>
    let cond := c.compileExpr condition
    let branch := cond.emit .jumpIfFalse 0 0
    let jump := (branch.compileStmts thenBody).emit .jump 0 0
    let elseStart := jump.patch cond.currentPc (asI32 jump.currentPc)
    c.exprAccesses condition ++ branch.stmtsAccesses thenBody ++ elseStart.stmtsAccesses elseBody
  | .whileStmt condition body _ =>
    let loopBody := (c.compileExpr condition).emit .jumpIfFalse 0 0
    c.exprAccesses condition ++ loopBody.stmtsAccesses body
  | .returnStmt value _ => c.exprAccesses value
  | .print value _ => c.exprAccesses value
  | .exprStmt expr _ => c.exprAccesses expr
termination_by structural stmt => stmt

def stmtsAccesses (c : Compiler) : List Stmt → List Access
  | [] => []
  | stmt :: stmts => c.stmtAccesses stmt ++ (c.compileStmt stmt).stmtsAccesses stmts
termination_by structural stmts => stmts

end

def globalInitsAccesses (c : Compiler) : List GlobalVar → List Access
  | [] => []
  | glob :: globs =>
    match glob.initExpr with
    | some init =>
      let slot := ((c.globals.lookup glob.name).map GlobalInfo.slot).getD 0
      let stored := (c.compileExpr init).emit .storeGlobal (asI32 slot) 0
      c.exprAccesses init ++ stored.globalInitsAccesses globs
    | none => c.globalInitsAccesses globs

/-! ## Where the compiler is -/

section

variable (c : Compiler)

@[simp] theorem env_patch (pc : Nat) (arg1 : Int32) : (c.patch pc arg1).env = c.env := rfl

@[simp] theorem env_compileExpr (e : Expr) : (c.compileExpr e).env = c.env := by
  rw [compileExpr_eq, env_append]

@[simp] theorem env_compileStmt (stmt : Stmt) : (c.compileStmt stmt).env = c.env.afterStmt stmt := by
  rw [compileStmt_eq, env_afterStmt]

@[simp] theorem env_compileStmts (stmts : List Stmt) :
    (c.compileStmts stmts).env = c.env.afterStmts stmts := by
  rw [compileStmts_eq, env_afterStmts]

@[simp] theorem env_declareLocal (name : String) (arraySize : Option Int32) :
    (c.declareLocal name arraySize).env = c.env.declareLocal name arraySize := by
  rw [declareLocal_eq]
  exact env_withLocals (c.env.globals_declareLocal name arraySize)
    (c.env.funcNameToId_declareLocal name arraySize)

@[simp] theorem currentPc_compileExpr (e : Expr) : (c.compileExpr e).currentPc =
    c.currentPc + (c.env.exprCode e c.currentPc).length := by
  rw [compileExpr_eq, currentPc_append]

/-- Behind a condition and its jump. -/
theorem env_branch (e : Expr) (op : Opcode) : ((c.compileExpr e).emit op 0 0).env = c.env := by
  rw [env_emit, env_compileExpr]

theorem currentPc_branch (e : Expr) (op : Opcode) : ((c.compileExpr e).emit op 0 0).currentPc =
    c.currentPc + (c.env.exprCode e c.currentPc).length + 1 := by
  rw [currentPc_emit, currentPc_compileExpr]

@[simp] theorem currentPc_compileStmt (stmt : Stmt) : (c.compileStmt stmt).currentPc =
    c.currentPc + (c.env.stmtCode stmt c.currentPc).length := by
  rw [compileStmt_eq, currentPc_withLocals, currentPc_append]

@[simp] theorem currentPc_compileStmts (stmts : List Stmt) : (c.compileStmts stmts).currentPc =
    c.currentPc + (c.env.stmtsCode stmts c.currentPc).length := by
  rw [compileStmts_eq, currentPc_withLocals, currentPc_append]

@[simp] theorem currentPc_declareLocal (name : String) (arraySize : Option Int32) :
    (c.declareLocal name arraySize).currentPc = c.currentPc := by
  rw [declareLocal_eq, currentPc_withLocals]

end

namespace Env

/-! ## Code that carries accesses -/

/-- The opcodes whose first operand is a local slot. -/
def localOpcodes : List Opcode := [.loadLocal, .storeLocal, .localArrayLoad, .localArrayStore]

/-- The local slots in `code` at `base` are those of `accesses` by the table `T`. -/
structure Carries (T : Env) (base : Nat) (accesses : List Access) (code : List Instruction) :
    Prop where
  slots : ∀ access ∈ accesses, ∀ loc, T.locals.lookup access.name = some loc →
    ∃ i, access.pc = base + i ∧ code[i]? = some (access.instruction loc)
  named : ∀ i instr, code[i]? = some instr → instr.opcode ∈ localOpcodes →
    ∃ access ∈ accesses, access.pc = base + i ∧ access.name ∈ T.locals

/-- An instruction whose opcode takes no local slot. -/
theorem slotless_single {opcode : Opcode} {arg1 arg2 : Int32} (h : opcode ∉ localOpcodes) :
    ∀ instr ∈ [(⟨opcode, arg1, arg2⟩ : Instruction)], instr.opcode ∉ localOpcodes :=
  List.forall_mem_singleton.mpr h

namespace Carries

variable {T : Env} {base : Nat} {accesses accesses' : List Access} {code code' : List Instruction}

/-- Code without local slots. -/
theorem slotless (T : Env) (base : Nat) (h : ∀ instr ∈ code, instr.opcode ∉ localOpcodes) :
    T.Carries base [] code :=
  ⟨fun _ hmem ↦ absurd hmem List.not_mem_nil,
    fun _ instr hinstr hop ↦ absurd hop (h instr (List.mem_of_getElem? hinstr))⟩

theorem append (h : T.Carries base accesses code)
    (h' : T.Carries (base + code.length) accesses' code') :
    T.Carries base (accesses ++ accesses') (code ++ code') := by
  refine ⟨fun access hmem loc hloc ↦ ?_, fun i instr hinstr hop ↦ ?_⟩
  · rcases List.mem_append.mp hmem with hmem | hmem
    · obtain ⟨i, hpc, hi⟩ := h.slots access hmem loc hloc
      exact ⟨i, hpc, (List.getElem?_append_left (List.getElem?_eq_some_iff.mp hi).1).trans hi⟩
    · obtain ⟨i, hpc, hi⟩ := h'.slots access hmem loc hloc
      refine ⟨code.length + i, by rw [hpc, Nat.add_assoc], ?_⟩
      rw [List.getElem?_append_right (Nat.le_add_right ..), Nat.add_sub_cancel_left]
      exact hi
  · rcases Nat.lt_or_ge i code.length with hlt | hge
    · rw [List.getElem?_append_left hlt] at hinstr
      obtain ⟨access, hmem, hpc, hname⟩ := h.named i instr hinstr hop
      exact ⟨access, List.mem_append_left _ hmem, hpc, hname⟩
    · rw [List.getElem?_append_right hge] at hinstr
      obtain ⟨access, hmem, hpc, hname⟩ := h'.named _ instr hinstr hop
      exact ⟨access, List.mem_append_right _ hmem, by omega, hname⟩

/-- Every local slot that the code names is one of the table. -/
theorem exists_slot (h : T.Carries base accesses code) {instr : Instruction} (hmem : instr ∈ code)
    (hop : instr.opcode ∈ localOpcodes) :
    ∃ name loc, T.locals.lookup name = some loc ∧ instr.arg1 = asI32 loc.slot := by
  obtain ⟨i, hi⟩ := List.mem_iff_getElem?.mp hmem
  obtain ⟨access, haccess, hpc, hname⟩ := h.named i instr hi hop
  obtain ⟨loc, hloc⟩ := Option.isSome_iff_exists.mp (AList.lookup_isSome.mpr hname)
  obtain ⟨j, hpc', hj⟩ := h.slots access haccess loc hloc
  obtain rfl : i = j := Nat.add_left_cancel (hpc.symm.trans hpc')
  obtain rfl := Option.some_inj.mp (hi.symm.trans hj)
  exact ⟨access.name, loc, hloc, rfl⟩

/-- Code followed by code without local slots. -/
theorem append_slotless (h : T.Carries base accesses code)
    (h' : ∀ instr ∈ code', instr.opcode ∉ localOpcodes) :
    T.Carries base accesses (code ++ code') := by
  have hboth := h.append (slotless T _ h')
  rwa [List.append_nil] at hboth

/-- An instruction without a local slot before the code. -/
theorem cons {opcode : Opcode} {arg1 arg2 : Int32} (hop : opcode ∉ localOpcodes)
    (h : T.Carries (base + 1) accesses code) :
    T.Carries base accesses (⟨opcode, arg1, arg2⟩ :: code) :=
  (slotless T base (slotless_single hop)).append h

/-- An access to a local variable. -/
theorem single (access : Access) {loc : LocalVar} (hloc : T.locals.lookup access.name = some loc) :
    T.Carries access.pc [access] [access.instruction loc] := by
  refine ⟨fun access' hmem loc' hloc' ↦ ?_, fun i instr hinstr _ ↦ ?_⟩
  · obtain rfl := List.mem_singleton.mp hmem
    rw [hloc] at hloc'
    cases hloc'
    exact ⟨0, rfl, rfl⟩
  · obtain ⟨hi, -⟩ := List.getElem?_eq_some_iff.mp hinstr
    refine ⟨access, List.mem_singleton_self _, ?_, AList.lookup_isSome.mp (hloc ▸ rfl)⟩
    rw [List.length_singleton] at hi
    omega

/-- The code of an access, local or global. -/
theorem accessCode (T : Env) (pc : Nat) (name : String) (localOp : Opcode) {globalOp : Opcode}
    (hglobal : globalOp ∉ localOpcodes) (sized : Bool) :
    T.Carries pc [⟨pc, name, localOp, sized⟩] (T.accessCode name localOp globalOp sized) := by
  rw [Env.accessCode]
  cases hloc : T.locals.lookup name with
  | some loc => exact single ⟨pc, name, localOp, sized⟩ hloc
  | none =>
    refine ⟨fun access hmem loc hloc' ↦ ?_, fun i instr hinstr hop ↦ ?_⟩
    · obtain rfl := List.mem_singleton.mp hmem
      exact absurd (hloc.symm.trans hloc') (Option.some_ne_none loc).symm
    · cases hglob : T.globals.lookup name with
      | some glob =>
        rw [hglob] at hinstr
        obtain rfl := List.mem_singleton.mp (List.mem_of_getElem? hinstr)
        exact absurd hop hglobal
      | none =>
        rw [hglob] at hinstr
        cases hinstr

end Carries

theorem unaryOpcode_notMem (op : UnaryOp) : unaryOpcode op ∉ localOpcodes := by
  cases op <;> decide

/-! ## What is emitted carries its accesses by the finished table -/

variable {T : Env} {Γ Γ' : Names}

theorem Rebuilds.carries_access {S : Env} (h : Rebuilds T S Γ) {name : String}
    (hname : Γ name ≠ none) (pc : Nat) (localOp globalOp : Opcode)
    (hglobal : globalOp ∉ localOpcodes) (sized : Bool) :
    T.Carries pc [⟨pc, name, localOp, sized⟩] (S.accessCode name localOp globalOp sized) := by
  rw [h.accessCode hname]
  exact .accessCode T pc name localOp hglobal sized

/-- The code of `&&` and `||`, by the code of the operands. -/
theorem Carries.shortCircuit {base : Nat} {accesses accesses' : List Access}
    {left right : List Instruction} {op : Opcode} (hop : op ∉ localOpcodes) (value : Int32)
    (hl : T.Carries base accesses left)
    (hr : T.Carries (base + left.length + 1) accesses' right) :
    T.Carries base (accesses ++ accesses') (Env.shortCircuit op value base left right) := by
  refine (hl.append (hr.cons hop)).append_slotless fun instr hinstr ↦ ?_
  simp only [List.mem_cons, List.not_mem_nil, or_false] at hinstr
  rcases hinstr with rfl | rfl | rfl | rfl <;> exact of_decide_eq_true rfl

mutual

theorem Rebuilds.carries_expr {T : Env} {Γ : Names} {c : Compiler} (h : Rebuilds T c.env Γ) :
    (e : Expr) → {t : Ty} → HasType Γ e t →
    T.Carries c.currentPc (c.exprAccesses e) (c.env.exprCode e c.currentPc)
  | .intLiteral .., _, _ => .slotless T _ (slotless_single (by decide))
  | .boolLiteral .., _, _ => .slotless T _ (slotless_single (by decide))
  | .identifier .., _, .identifier hname _ =>
    h.carries_access (ne_none_of_eq_some hname) _ _ _ (by decide) _
  | .binary op left right span, _, .binary hl hr _ _ => by
    have hleft := Rebuilds.carries_expr h left hl
    have hjump (op : Opcode) := Rebuilds.carries_expr
      (c := (c.compileExpr left).emit op 0 0) (by rwa [env_branch]) right hr
    simp only [currentPc_branch, env_branch] at hjump
    have hright := Rebuilds.carries_expr (c := c.compileExpr left) (by rwa [env_compileExpr]) right hr
    simp only [currentPc_compileExpr, env_compileExpr] at hright
    cases op with
    | and => exact hleft.shortCircuit (by decide) 0 (hjump .jumpIfFalse)
    | or => exact hleft.shortCircuit (by decide) 1 (hjump .jumpIfTrue)
    | _ =>
      exact (hleft.append hright).append_slotless (slotless_single (by decide))
  | .unary op operand _, _, .unary ht _ _ =>
    (Rebuilds.carries_expr h operand ht).append_slotless (slotless_single (unaryOpcode_notMem op))
  | .call _ args _, _, .call _ hargs _ =>
    (Rebuilds.carries_args h args hargs).append_slotless (slotless_single (by decide))
  | .arrayIndex name index _, _, .arrayIndex hname hindex _ => by
    have hload := h.carries_access (ne_none_of_eq_some hname) (c.compileExpr index).currentPc
      .localArrayLoad .arrayLoad (by decide) true
    rw [currentPc_compileExpr] at hload
    rw [exprAccesses, currentPc_compileExpr]
    exact (Rebuilds.carries_expr h index hindex).append hload
termination_by structural e => e

theorem Rebuilds.carries_args {T : Env} {Γ : Names} {c : Compiler} (h : Rebuilds T c.env Γ) :
    (args : List Expr) → {ts : List Ty} → HaveTypes Γ args ts →
    T.Carries c.currentPc (c.argsAccesses args) (c.env.argsCode args c.currentPc)
  | [], _, _ => .slotless T _ fun _ hmem ↦ absurd hmem List.not_mem_nil
  | arg :: args, _, .cons harg hargs => by
    have hrest := Rebuilds.carries_args (c := c.compileExpr arg) (by rwa [env_compileExpr]) args hargs
    rw [currentPc_compileExpr, env_compileExpr] at hrest
    exact (Rebuilds.carries_expr h arg harg).append hrest
termination_by structural args => args

end

theorem Rebuilds.carries_assign {c : Compiler} (h : Rebuilds T c.env Γ) {target : String}
    {indexExpr : Option Expr} {value : Expr} {span : Span}
    (hok : StmtOk Γ (.assign target indexExpr value span) Γ') :
    T.Carries c.currentPc (c.assignAccesses target indexExpr value)
      (c.env.assignCode target indexExpr value c.currentPc) := by
  by_cases hdeclared : target ∈ c.currentLocals ∨ target ∈ c.globals
  · have henv : target ∈ c.env.locals ∨ target ∈ c.env.globals := hdeclared
    cases hok with
    | assignScalar hname hv _ =>
      have hstore := h.carries_access (ne_none_of_eq_some hname) (c.compileExpr value).currentPc
        .storeLocal .storeGlobal (by decide) false
      rw [assignAccesses, if_pos hdeclared, Env.assignCode, if_pos henv]
      rw [currentPc_compileExpr] at hstore ⊢
      exact (h.carries_expr value hv).append hstore
    | @assignElement _ _ index _ _ hname hi hv _ =>
      have hvalue := Rebuilds.carries_expr (c := c.compileExpr index) (by rwa [env_compileExpr]) value hv
      have hstore := h.carries_access (ne_none_of_eq_some hname)
        ((c.compileExpr index).compileExpr value).currentPc .localArrayStore .arrayStore
        (by decide) true
      rw [assignAccesses, if_pos hdeclared, Env.assignCode, if_pos henv]
      dsimp only
      rw [currentPc_compileExpr _ value] at hstore ⊢
      rw [currentPc_compileExpr, env_compileExpr] at hvalue hstore ⊢
      refine ((h.carries_expr index hi).append hvalue).append ?_
      rwa [List.length_append, ← Nat.add_assoc]
  · have henv : ¬(target ∈ c.env.locals ∨ target ∈ c.env.globals) := hdeclared
    rw [assignAccesses.eq_def, if_neg hdeclared, Env.assignCode.eq_def, if_neg henv]
    exact .slotless T _ fun _ hmem ↦ absurd hmem List.not_mem_nil

/-- A declaration stores its value in the slot that it has given the name. -/
theorem Rebuilds.carries_varDecl {c : Compiler} {type : Ty} {name : String}
    {initExpr : Option Expr} {arraySize : Option Int32}
    (h : Rebuilds T (c.declareLocal name arraySize).env Γ) (hinit : InitOk Γ type initExpr) :
    T.Carries c.currentPc (c.varDeclAccesses name initExpr arraySize)
      ((c.env.declareLocal name arraySize).varDeclCode name initExpr c.currentPc) := by
  have hpc := c.currentPc_declareLocal name arraySize
  have henv := c.env_declareLocal name arraySize
  set c' := c.declareLocal name arraySize with hc'
  obtain ⟨loc, hloc⟩ := Option.isSome_iff_exists.mp
    (AList.lookup_isSome.mpr (c.env.mem_declareLocal name arraySize))
  have hfinal : T.locals.lookup name = some loc := h.grows.slots name loc (henv ▸ hloc)
  have hhere : c'.currentLocals.lookup name = some loc :=
    (congrArg (fun S : Env ↦ S.locals.lookup name) henv).trans hloc
  rw [varDeclAccesses.eq_def, ← hc', Env.varDeclCode.eq_def, hloc]
  dsimp only
  rw [hhere]
  dsimp only
  cases loc.isArray with
  | true =>
    rw [if_pos rfl, if_pos rfl, currentPc_emit, hpc]
    have hstore := Carries.single (T := T) ⟨c.currentPc + 1, name, .storeLocal, false⟩ hfinal
    exact hstore.cons (by decide)
  | false =>
    rw [if_neg Bool.false_ne_true, if_neg Bool.false_ne_true]
    cases initExpr with
    | none => exact .slotless T _ fun _ hmem ↦ absurd hmem List.not_mem_nil
    | some init =>
      have hvalue := h.carries_expr init (hinit init rfl)
      have hstore := Carries.single (T := T)
        ⟨(c'.compileExpr init).currentPc, name, .storeLocal, false⟩ hfinal
      dsimp only
      rw [currentPc_compileExpr] at hstore ⊢
      rw [hpc, henv] at hvalue hstore ⊢
      exact hvalue.append hstore

mutual

/-- **The code of a statement carries its accesses by the finished table.** -/
theorem Rebuilds.carries_stmt {T : Env} {Γ Γ' : Names} {c : Compiler} (h : Rebuilds T c.env Γ) :
    (stmt : Stmt) → StmtOk Γ stmt Γ' → (c.env.afterStmt stmt).Grows T →
    T.Carries c.currentPc (c.stmtAccesses stmt) (c.env.stmtCode stmt c.currentPc)
  | .varDecl type name initExpr arraySize _, .varDecl _ _ hinit _, hT => by
    have hafter := h.declare hT (varEntity type arraySize)
    rw [← env_declareLocal] at hafter
    exact hafter.carries_varDecl hinit
  | .assign .., .assignScalar hname hv span, _ =>
    h.carries_assign (.assignScalar hname hv span)
  | .assign .., .assignElement hname hi hv span, _ =>
    h.carries_assign (.assignElement hname hi hv span)
  | .ifStmt condition thenBody none _, .ifThen ⟨_, _, hc⟩ hthen _, hT => by
    have hbody := Rebuilds.carries_stmts (c := (c.compileExpr condition).emit .jumpIfFalse 0 0)
      (by rwa [env_branch]) thenBody hthen (by rw [env_branch]; exact hT)
    rw [currentPc_branch, env_branch] at hbody
    exact (h.carries_expr condition hc).append (hbody.cons (by decide))
  | .ifStmt condition thenBody (some elseBody) _, .ifElse ⟨_, _, hc⟩ hthen helse _, hT => by
    have hbetween := ((c.env.afterStmts thenBody).grows_afterStmts elseBody).trans hT
    have hrest := h.of_grows (c.env.grows_afterStmts thenBody) hbetween
    have hbody := Rebuilds.carries_stmts (c := (c.compileExpr condition).emit .jumpIfFalse 0 0)
      (by rwa [env_branch]) thenBody hthen (by rwa [env_branch])
    rw [currentPc_branch, env_branch] at hbody
    obtain ⟨elseStart, hstart⟩ : ∃ elseStart, elseStart =
        ((((c.compileExpr condition).emit .jumpIfFalse 0 0).compileStmts thenBody).emit .jump 0
          0).patch (c.compileExpr condition).currentPc
          (asI32 ((((c.compileExpr condition).emit .jumpIfFalse 0 0).compileStmts thenBody).emit
            .jump 0 0).currentPc) := ⟨_, rfl⟩
    have henv : elseStart.env = c.env.afterStmts thenBody := by
      rw [hstart, env_patch, env_emit, env_compileStmts, env_branch]
    set condition' := c.env.exprCode condition c.currentPc with hcondition
    set thenBody' := c.env.stmtsCode thenBody (c.currentPc + condition'.length + 1) with hthenBody
    have hpc : elseStart.currentPc = c.currentPc + condition'.length + thenBody'.length + 2 := by
      rw [hstart, currentPc_patch, currentPc_emit, currentPc_compileStmts, env_branch,
        currentPc_branch, ← hcondition, ← hthenBody]
      omega
    have helseBody := Rebuilds.carries_stmts (c := elseStart) (by rwa [henv]) elseBody helse
      (by rw [henv]; exact hT)
    rw [hpc, henv, hstart] at helseBody
    refine ((h.carries_expr condition hc).append (hbody.cons (by decide))).append
      (.cons (by decide) ?_)
    have hbase : c.currentPc + (condition' ++ (⟨.jumpIfFalse, asI32 (c.currentPc +
        condition'.length + thenBody'.length + 2), 0⟩ : Instruction) :: thenBody').length + 1 =
        c.currentPc + condition'.length + thenBody'.length + 2 := by
      rw [List.length_append, List.length_cons]
      omega
    rw [hbase]
    exact helseBody
  | .whileStmt condition body _, .whileStmt ⟨_, _, hc⟩ hbody _, hT => by
    have hloop := Rebuilds.carries_stmts (c := (c.compileExpr condition).emit .jumpIfFalse 0 0)
      (by rwa [env_branch]) body hbody (by rw [env_branch]; exact hT)
    rw [currentPc_branch, env_branch] at hloop
    exact ((h.carries_expr condition hc).append (hloop.cons (by decide))).append_slotless
      (slotless_single (by decide))
  | .returnStmt value _, .returnStmt hv _, _ =>
    (h.carries_expr value hv).append_slotless (slotless_single (by decide))
  | .print value _, .print hv _, _ =>
    (h.carries_expr value hv).append_slotless (slotless_single (by decide))
  | .exprStmt expr _, .exprStmt he _, _ =>
    (h.carries_expr expr he).append_slotless (slotless_single (by decide))
termination_by structural stmt => stmt

theorem Rebuilds.carries_stmts {T : Env} {Γ Γ' : Names} {c : Compiler} (h : Rebuilds T c.env Γ) :
    (stmts : List Stmt) → StmtsOk Γ stmts Γ' → (c.env.afterStmts stmts).Grows T →
    T.Carries c.currentPc (c.stmtsAccesses stmts) (c.env.stmtsCode stmts c.currentPc)
  | [], .nil _, _ => .slotless T _ fun _ hmem ↦ absurd hmem List.not_mem_nil
  | stmt :: stmts, .cons hok hs, hT => by
    have hbetween := ((c.env.afterStmt stmt).grows_afterStmts stmts).trans hT
    have hafter := (Rebuilds.stmtCode h stmt hok hbetween).2
    have hrest := Rebuilds.carries_stmts (c := c.compileStmt stmt) (by rwa [env_compileStmt]) stmts
      hs (by rwa [env_compileStmt])
    rw [currentPc_compileStmt, env_compileStmt] at hrest
    exact (Rebuilds.carries_stmt h stmt hok hbetween).append hrest
termination_by structural stmts => stmts

end

theorem Rebuilds.carries_globalInits {c : Compiler} (h : Rebuilds T c.env Γ) :
    (globs : List GlobalVar) → (∀ g ∈ globs, InitOk Γ g.varType g.initExpr) →
    T.Carries c.currentPc (c.globalInitsAccesses globs) (c.env.globalInitsCode globs c.currentPc)
  | [], _ => .slotless T _ fun _ hmem ↦ absurd hmem List.not_mem_nil
  | glob :: globs, hinits => by
    have hglobs := fun g hg ↦ hinits g (List.mem_cons_of_mem _ hg)
    rw [Env.globalInitsCode, globalInitsAccesses]
    cases hinit : glob.initExpr with
    | none => exact h.carries_globalInits globs hglobs
    | some init =>
      have hvalue := h.carries_expr init (hinits glob List.mem_cons_self init hinit)
      dsimp only
      set stored := (c.compileExpr init).emit .storeGlobal
        (asI32 (((c.globals.lookup glob.name).map GlobalInfo.slot).getD 0)) 0 with hstored
      have henv : stored.env = c.env := by rw [hstored, env_emit, env_compileExpr]
      have hrest := Rebuilds.carries_globalInits (c := stored) (by rwa [henv]) globs hglobs
      rw [henv, hstored, currentPc_emit, currentPc_compileExpr] at hrest
      refine (hvalue.append_slotless (slotless_single (by decide))).append ?_
      rwa [List.length_append, List.length_singleton, ← Nat.add_assoc]

end Env

end Compiler

end MiniLang
