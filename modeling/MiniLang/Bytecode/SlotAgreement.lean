import MiniLang.Bytecode.Accesses

/-!
# Agreement on local slots

Three traversals number the locals of a function: the analyzer counts them against its limit, the
first pass of the compiler assigns them, and the second pass starts again from the parameters and
rebuilds the table while it emits code. `PassesAgree` says how the passes of the compiler agree.
Every access to a name that the first pass has given a slot is the instruction with this slot, at
the address where the second pass emits it, and no other instruction names a local slot.

The second pass keeps the invariant of `Env.Rebuilds` from the parameters on, since the language
rules admit the body there, and by it the whole code of the function carries its accesses by the
table of the first pass (`Env.Carries`). The count of the analyzer is compared with the compiler's
through the count of the language rules, `Function.localSlots`.
-/

namespace MiniLang

namespace Compiler

/-! ## The two passes -/

/-- The first pass over a function. -/
def firstPass (c : Compiler) (func : Function) : Compiler :=
  (({ c with currentLocals := ∅, nextLocalSlot := 0 } : Compiler).allocateParams
    func.params).collectLocalDecls func.body

/-- The reset between the passes: only the parameters keep their slots. -/
def keepParams (c : Compiler) (func : Function) : Compiler :=
  { c with
    nextLocalSlot := func.params.length
    currentLocals := retainBelow c.currentLocals func.params.length }

/-- What is compiled before the body of a function. -/
def enterBody (c : Compiler) (func : Function) (program : Program) : Compiler :=
  if func.name = "main" then c.compileGlobalInits program.globals else c

/-- The second pass over a function. -/
def secondPass (c : Compiler) (func : Function) (program : Program) : Compiler :=
  (c.enterBody func program).compileStmts func.body

/-- The accesses of the second pass, in the order of their addresses. -/
def accesses (c : Compiler) (func : Function) (program : Program) : List Access :=
  (if func.name = "main" then c.globalInitsAccesses program.globals else []) ++
    (c.enterBody func program).stmtsAccesses func.body

/-- `CompilesAt c stmts c' stmt`: while `stmts` are compiled from `c` on, `compileStmt` is called on
`stmt` with the compiler `c'`. -/
inductive CompilesAt : Compiler → List Stmt → Compiler → Stmt → Prop
  | head (c : Compiler) (stmt : Stmt) (stmts : List Stmt) : CompilesAt c (stmt :: stmts) c stmt
  | tail {c c' : Compiler} {stmt stmt' : Stmt} {stmts : List Stmt}
      (h : CompilesAt (c.compileStmt stmt) stmts c' stmt') : CompilesAt c (stmt :: stmts) c' stmt'
  | thenBody {c c' : Compiler} {condition : Expr} {thenBody stmts : List Stmt}
      {elseBody : Option (List Stmt)} {span : Span} {stmt' : Stmt}
      (h : CompilesAt ((c.compileExpr condition).emit .jumpIfFalse 0 0) thenBody c' stmt') :
      CompilesAt c (.ifStmt condition thenBody elseBody span :: stmts) c' stmt'
  | elseBody {c c' : Compiler} {condition : Expr} {thenBody elseBody stmts : List Stmt}
      {span : Span} {stmt' : Stmt}
      (h : let cond := c.compileExpr condition
        let jump := (((cond.emit .jumpIfFalse 0 0).compileStmts thenBody).emit .jump 0 0)
        CompilesAt (jump.patch cond.currentPc (asI32 jump.currentPc)) elseBody c' stmt') :
      CompilesAt c (.ifStmt condition thenBody (some elseBody) span :: stmts) c' stmt'
  | whileBody {c c' : Compiler} {condition : Expr} {body stmts : List Stmt} {span : Span}
      {stmt' : Stmt}
      (h : CompilesAt ((c.compileExpr condition).emit .jumpIfFalse 0 0) body c' stmt') :
      CompilesAt c (.whileStmt condition body span :: stmts) c' stmt'

section

variable {c c' : Compiler} {stmts : List Stmt} {stmt : Stmt}

/-- Where the finished table is at hand, it stays. -/
theorem CompilesAt.env_eq (h : CompilesAt c stmts c' stmt)
    (hnames : ∀ name ∈ localNamesList stmts, name ∈ c.env.locals) : c'.env = c.env := by
  induction h with
  | head => rfl
  | tail _ ih =>
    have hfirst := Env.afterStmt_of_mem _ fun name hname ↦
      hnames name (List.mem_append_left _ hname)
    rw [env_compileStmt, hfirst] at ih
    exact ih fun name hname ↦ hnames name (List.mem_append_right _ hname)
  | @thenBody _ _ _ _ _ elseBody _ _ _ ih =>
    rw [env_emit, env_compileExpr] at ih
    refine ih fun name hname ↦ hnames name (List.mem_append_left _ ?_)
    cases elseBody with
    | none => exact hname
    | some _ => exact List.mem_append_left _ hname
  | elseBody _ ih =>
    have hthen := Env.afterStmts_of_mem _ fun name hname ↦
      hnames name (List.mem_append_left _ (List.mem_append_left _ hname))
    rw [env_patch, env_emit, env_compileStmts, env_emit, env_compileExpr, hthen] at ih
    exact ih fun name hname ↦ hnames name (List.mem_append_left _ (List.mem_append_right _ hname))
  | whileBody _ ih =>
    rw [env_emit, env_compileExpr] at ih
    exact ih fun name hname ↦ hnames name (List.mem_append_left _ hname)

/-- Every statement is compiled where the visible names have the entries of the finished table, and
what it declares is in the finished table. -/
theorem CompilesAt.rebuilds {T : Env} {Γ Γ' : Names} (h : CompilesAt c stmts c' stmt)
    (hr : Env.Rebuilds T c.env Γ) (hok : StmtsOk Γ stmts Γ')
    (hT : (c.env.afterStmts stmts).Grows T) :
    ∃ Γ₁ Γ₂, StmtOk Γ₁ stmt Γ₂ ∧ Env.Rebuilds T c'.env Γ₁ ∧ (c'.env.afterStmt stmt).Grows T := by
  induction h generalizing Γ Γ' with
  | head c stmt stmts =>
    cases hok with
    | cons hstmt _ =>
      have hgrows := ((c.env.afterStmt stmt).grows_afterStmts stmts).trans hT
      exact ⟨_, _, hstmt, hr, hgrows⟩
  | tail _ ih =>
    cases hok with
    | cons hstmt hs =>
      have hafter := hr.stmtCode _ hstmt ((Env.grows_afterStmts _ _).trans hT)
      rw [← env_compileStmt] at hafter
      refine ih hafter.2 hs ?_
      rw [env_compileStmt]
      exact hT
  | @thenBody c _ _ thenBody rest elseBody _ _ _ ih =>
    rw [env_emit, env_compileExpr] at ih
    cases hok with
    | cons hstmt _ =>
      cases hstmt with
      | ifThen _ hthen _ => exact ih hr hthen ((Env.grows_afterStmts _ rest).trans hT)
      | @ifElse _ _ _ _ _ elseBody _ hthen _ _ =>
        refine ih hr hthen (((Env.grows_afterStmts _ elseBody).trans ?_).trans hT)
        exact Env.grows_afterStmts _ rest
  | @elseBody c _ _ thenBody elseBody rest _ _ _ ih =>
    rw [env_patch, env_emit, env_compileStmts, env_emit, env_compileExpr] at ih
    cases hok with
    | cons hstmt _ =>
      cases hstmt with
      | ifElse _ _ helse _ =>
        have hT' := (Env.grows_afterStmts _ rest).trans hT
        exact ih (hr.of_grows (Env.grows_afterStmts _ thenBody)
          ((Env.grows_afterStmts _ elseBody).trans hT')) helse hT'
  | @whileBody c _ _ body rest _ _ _ ih =>
    rw [env_emit, env_compileExpr] at ih
    cases hok with
    | cons hstmt _ =>
      cases hstmt with
      | whileStmt _ hbody _ => exact ih hr hbody ((Env.grows_afterStmts _ rest).trans hT)

end

/-! ### The passes and their tables -/

variable {func : Function} {Γ Γ₁ Γ₂ : Names}

theorem globals_ofFunction (S : Env) (func : Function) : (S.ofFunction func).globals = S.globals :=
  Env.globals_withParams _ _

theorem funcNameToId_ofFunction (S : Env) (func : Function) :
    (S.ofFunction func).funcNameToId = S.funcNameToId := Env.funcNameToId_withParams _ _

theorem firstPass_eq (c : Compiler) (func : Function) :
    c.firstPass func = c.withLocals ((c.env.ofFunction func).afterStmts func.body) := by
  have hparams : ({ c with currentLocals := ∅, nextLocalSlot := 0 } : Compiler).allocateParams
      func.params = c.withLocals (c.env.ofFunction func) := by
    rw [allocateParams_eq]
    rfl
  rw [firstPass, hparams, collectLocalDecls_eq,
    env_withLocals (globals_ofFunction _ func) (funcNameToId_ofFunction _ func)]
  rfl

theorem keepParams_firstPass (c : Compiler) (func : Function) :
    (c.firstPass func).keepParams func = c.withLocals (c.env.ofFunction func) := by
  have hnext : (c.env.ofFunction func).nextLocalSlot = func.params.length := by
    rw [Env.ofFunction, Env.withParams_nextLocalSlot, Nat.zero_add]
  rw [firstPass_eq, keepParams, ← hnext]
  dsimp only [withLocals]
  rw [Env.retainBelow_afterStmts (.ofFunction c.env func)]

/-- The table of the first pass. -/
theorem env_firstPass (c : Compiler) (func : Function) :
    (c.firstPass func).env = (c.env.ofFunction func).afterStmts func.body := by
  rw [firstPass_eq, env_withLocals]
  · rw [Env.globals_afterStmts, globals_ofFunction]
    rfl
  · rw [Env.funcNameToId_afterStmts, funcNameToId_ofFunction]
    rfl

theorem env_keepParams_firstPass (c : Compiler) (func : Function) :
    ((c.firstPass func).keepParams func).env = c.env.ofFunction func := by
  rw [keepParams_firstPass,
    env_withLocals (globals_ofFunction _ func) (funcNameToId_ofFunction _ func)]

@[simp] theorem env_enterBody (c : Compiler) (func : Function) (program : Program) :
    (c.enterBody func program).env = c.env := by
  rw [enterBody]
  split
  · rw [compileGlobalInits_eq, env_append]
  · rfl

theorem env_secondPass (c : Compiler) (func : Function) (program : Program) :
    (c.secondPass func program).env = c.env.afterStmts func.body := by
  rw [secondPass, env_compileStmts, env_enterBody]

/-- What the second pass emits before the body. -/
def initsCode (S : Env) (func : Function) (program : Program) (base : Nat) : List Instruction :=
  if func.name = "main" then S.globalInitsCode program.globals base else []

theorem enterBody_eq (c : Compiler) (func : Function) (program : Program) :
    c.enterBody func program = c.append (initsCode c.env func program c.currentPc) := by
  rw [enterBody, initsCode]
  split
  · exact compileGlobalInits_eq c program.globals
  · exact (append_nil c).symm

theorem instructions_secondPass (c : Compiler) (func : Function) (program : Program) :
    let inits := initsCode c.env func program c.currentPc
    (c.secondPass func program).instructions = c.instructions ++
      (inits ++ c.env.stmtsCode func.body (c.currentPc + inits.length)) := by
  rw [secondPass, enterBody_eq, compileStmts_eq, env_append, currentPc_append, append_append]
  rfl

/-- The table of the first pass serves the second pass from its start on. -/
theorem Env.Rebuilds.ofFunction (S : Env) (hs : StmtsOk Γ₁ func.body Γ₂) :
    Rebuilds ((S.ofFunction func).afterStmts func.body) (S.ofFunction func) Γ₁ := by
  refine ⟨Env.grows_afterStmts _ _, fun name hname ↦ ?_⟩
  cases hloc : (S.ofFunction func).locals.lookup name with
  | some loc => exact (Env.lookup_afterStmts hloc func.body).symm
  | none =>
    have hkeys := ((S.ofFunction func).declares_afterStmts func.body).keys
    symm
    refine AList.lookup_eq_none.mpr fun hmem ↦ ?_
    have hmem' := List.mem_toFinset.mpr (AList.mem_keys.mp hmem)
    rw [hkeys] at hmem'
    rcases Finset.mem_union.mp hmem' with hmem | hmem
    · exact AList.lookup_eq_none.mp hloc (List.mem_toFinset.mp hmem)
    · exact hname (hs.fresh name (List.mem_toFinset.mp hmem))

/-- The slots of a well-formed function are those that the language rules count. -/
theorem Env.localCount_eq (S : Env) (hp : ParamsOk Γ func.params Γ₁)
    (hs : StmtsOk Γ₁ func.body Γ₂) : S.localCount func = func.localSlots := by
  have hdisjoint : Disjoint (localNamesList func.body).toFinset
      (S.ofFunction func).locals.keys.toFinset := by
    rw [Finset.disjoint_left]
    intro name hname hmem
    have hfresh := hs.fresh name (List.mem_toFinset.mp hname)
    have hnone : (S.ofFunction func).locals.lookup name = none :=
      lookup_withParams_of_notMem (hp.eq_none_of_eq_none hfresh).2
    exact AList.lookup_eq_none.mp hnone (List.mem_toFinset.mp hmem)
  rw [localCount, (declares_afterStmts _ func.body).slots,
    Finset.sdiff_eq_self_of_disjoint hdisjoint, Env.ofFunction, withParams_nextLocalSlot,
    Nat.zero_add, List.card_toFinset, Function.localSlots]

end Compiler

theorem functions_eq_take_append {p : Program} {n : Nat} {func : Function}
    (h : p.functions[n]? = some func) :
    p.functions = p.functions.take n ++ func :: p.functions.drop (n + 1) := by
  obtain ⟨hlt, rfl⟩ := List.getElem?_eq_some_iff.mp h
  rw [← List.drop_eq_getElem_cons hlt, List.take_append_drop]

/-! ## The analyzer's count -/

namespace SemanticAnalyzer

theorem exec_analyzeFunctions_append (fs gs : List Function) (a : SemanticAnalyzer) :
    exec (analyzeFunctions (fs ++ gs)) a =
      exec (analyzeFunctions gs) (exec (analyzeFunctions fs) a) := by
  induction fs generalizing a with
  | nil => rfl
  | cons f fs ih =>
    rw [List.cons_append, analyzeFunctions, exec_seq, ih]
    rfl

theorem represents_analyzeFunctions {Γ : Names} (hΓ : Γ.Simple) (fs : List Function)
    (hparams : ∀ f ∈ fs, ∀ param ∈ f.params, param.paramType.IsScalar)
    (hbodies : ∀ f ∈ fs, sourceFormList f.body) {a : SemanticAnalyzer} (ha : a.Represents Γ) :
    (exec (analyzeFunctions fs) a).Represents Γ := by
  induction fs generalizing a with
  | nil => exact ha
  | cons f fs ih =>
    have hf := (analyzeFunction_spec hΓ ha (hparams f List.mem_cons_self)
      (hbodies f List.mem_cons_self)).1
    exact ih (fun g hg ↦ hparams g (List.mem_cons_of_mem _ hg))
      (fun g hg ↦ hbodies g (List.mem_cons_of_mem _ hg)) hf

/-- The analyzer of a program when it comes to the `n`-th function. -/
def beforeFunction (p : Program) (n : Nat) : SemanticAnalyzer :=
  exec (analyzeFunctions (p.functions.take n))
    (exec checkMain (exec (checkGlobalInits p.globals) (collected p)))

/-- A function of a program without errors has been counted when it has been analyzed. -/
theorem slots_beforeFunction {p : Program} (hp : p.SourceForm)
    (he : (exec (analyzeProgram p) new).errors = []) {n : Nat} {f : Function}
    (hf : p.functions[n]? = some f) :
    (exec (analyzeFunction f) (beforeFunction p n)).currentLocalSlots = f.localSlots := by
  have hmem := List.mem_of_getElem? hf
  set top := exec checkMain (exec (checkGlobalInits p.globals) (collected p)) with htop
  have hsplit : exec (analyzeProgram p) new = exec (analyzeFunctions (p.functions.drop (n + 1)))
      (exec (analyzeFunction f) (beforeFunction p n)) := by
    have hfuncs := congrArg (fun fs ↦ exec (analyzeFunctions fs) top) (functions_eq_take_append hf)
    exact (exec_analyzeProgram p).trans (hfuncs.trans (exec_analyzeFunctions_append _ _ top))
  have hfe : (exec (analyzeFunction f) (beforeFunction p n)).errors = [] := by
    have hmono := errors_mono_analyzeFunctions (p.functions.drop (n + 1))
      (exec (analyzeFunction f) (beforeFunction p n))
    rw [← hsplit, he] at hmono
    exact List.prefix_nil.mp hmono
  have hte : top.errors = [] := by
    have hmono := (errors_mono_analyzeFunctions (p.functions.take n) top).trans
      (errors_mono_analyzeFunction (beforeFunction p n) f)
    rw [hfe] at hmono
    exact List.prefix_nil.mp hmono
  have hce := (Extending.of_onlyReports (checkGlobalInits_onlyReports _) _).errors_eq_nil
    ((Extending.of_onlyReports checkMain_onlyReports _).errors_eq_nil hte)
  obtain ⟨hd, hr⟩ := collected_sound hce
  have hΓ := topLevel_simple hp (List.nodup_append.mp hd.distinct).2.1
  obtain ⟨es, hr₁, -⟩ := checkGlobalInits_spec hΓ p.globals hr
  obtain ⟨es', hr₂, -⟩ := checkMain_spec (hr.report es)
  have hrep : top.Represents p.topLevel := by
    rw [htop, hr₁.exec_eq, hr₂.exec_eq]
    exact (hr.report es).report es'
  have hbefore := represents_analyzeFunctions hΓ (p.functions.take n)
    (fun f hmem ↦ hp.params f (List.mem_of_mem_take hmem))
    (fun f hmem ↦ hp.bodies f (List.mem_of_mem_take hmem)) hrep
  exact (analyzeFunction_spec hΓ hbefore (hp.params f hmem) (hp.bodies f hmem)).2.2 hfe

end SemanticAnalyzer

/-! ## Agreement -/

namespace Compiler

variable {p : Program} {func : Function}

theorem compileFunctions_append (c : Compiler) (program : Program) (funcs funcs' : List Function) :
    c.compileFunctions program (funcs ++ funcs') =
      (c.compileFunctions program funcs).compileFunctions program funcs' := by
  induction funcs generalizing c with
  | nil => rfl
  | cons func funcs ih => exact ih _

/-- What has been emitted stays. -/
theorem instructions_compileFunctions (c : Compiler) (program : Program) (funcs : List Function) :
    c.instructions <+: (c.compileFunctions program funcs).instructions := by
  induction funcs generalizing c with
  | nil => exact List.prefix_rfl
  | cons func funcs ih =>
    obtain ⟨hcode, -⟩ := compileFunction_eq (c := c) (S := c.env) rfl rfl func program
    exact (hcode ▸ List.prefix_append _ _).trans (ih _)

/-- The compiler of a program when it comes to the `n`-th function. -/
def beforeFunction (p : Program) (n : Nat) : Compiler :=
  ((new.collectGlobals p.globals).registerFunctions p.functions).compileFunctions p
    (p.functions.take n)

theorem compileFunctions_split (c : Compiler) {n : Nat} (hfunc : p.functions[n]? = some func) :
    c.compileFunctions p p.functions =
      ((c.compileFunctions p (p.functions.take n)).compileFunction func p).compileFunctions p
        (p.functions.drop (n + 1)) := by
  have hsplit := congrArg (c.compileFunctions p) (functions_eq_take_append hfunc)
  exact hsplit.trans (compileFunctions_append c p _ _)

/-- What is emitted for a function is part of the program. -/
theorem instructions_beforeFunction {n : Nat} (hfunc : p.functions[n]? = some func) :
    ((beforeFunction p n).compileFunction func p).instructions <+: (compile p).instructions := by
  rw [compile]
  dsimp only
  rw [compileFunctions_split _ hfunc]
  exact instructions_compileFunctions _ p _

/-- How the passes of the compiler agree on the locals of a function that is compiled from `c` on.
The table of the first pass is that of `c.firstPass func`. -/
structure PassesAgree (c : Compiler) (func : Function) (program : Program) : Prop where
  /-- Every access of the second pass to a name that the first pass has given a slot is the
  instruction with this slot. -/
  slots : ∀ access ∈ ((c.firstPass func).keepParams func).accesses func program, ∀ loc,
    (c.firstPass func).currentLocals.lookup access.name = some loc →
    (c.compileFunction func program).instructions[access.pc]? = some (access.instruction loc)
  /-- No other instruction of the function names a local slot. -/
  named : ∀ pc instr, c.currentPc ≤ pc →
    (c.compileFunction func program).instructions[pc]? = some instr →
    instr.opcode ∈ Env.localOpcodes →
    ∃ access ∈ ((c.firstPass func).keepParams func).accesses func program, access.pc = pc ∧
      access.name ∈ (c.firstPass func).currentLocals
  /-- The second pass emits what it emits when it is handed the finished table. -/
  code : (((c.firstPass func).keepParams func).secondPass func program).instructions =
    ((c.firstPass func).secondPass func program).instructions
  /-- The finished table stays as it is when the second pass is handed it. -/
  fixed : ∀ c' stmt, CompilesAt ((c.firstPass func).enterBody func program) func.body c' stmt →
    c'.currentLocals = (c.firstPass func).currentLocals
  /-- At each statement, the visible names have the entries of the finished table, and those that
  the statement declares get them. -/
  visible : ∀ c' stmt,
    CompilesAt (((c.firstPass func).keepParams func).enterBody func program) func.body c' stmt →
    (∃ Γ Γ', StmtOk Γ stmt Γ' ∧ ∀ name, Γ name ≠ none →
      c'.currentLocals.lookup name = (c.firstPass func).currentLocals.lookup name) ∧
    ∀ name loc, (c'.compileStmt stmt).currentLocals.lookup name = some loc →
      (c.firstPass func).currentLocals.lookup name = some loc
  rebuilt : (((c.firstPass func).keepParams func).secondPass func program).currentLocals =
    (c.firstPass func).currentLocals
  apart : ∀ name name' loc loc', (c.firstPass func).currentLocals.lookup name = some loc →
    (c.firstPass func).currentLocals.lookup name' = some loc' → loc.slot = loc'.slot → name = name'
  params : ∀ i param, func.params[i]? = some param →
    (c.firstPass func).currentLocals.lookup param.name = some ⟨i, false, 0⟩
  bounded : ∀ instr ∈ (c.compileFunction func program).instructions.drop c.instructions.length,
    instr.opcode ∈ Env.localOpcodes →
      0 ≤ instr.arg1 ∧ asUsize instr.arg1 < (c.firstPass func).nextLocalSlot

/-- The second pass emits the code of the function but for the final `return 0`. -/
theorem instructions_compileFunction (c : Compiler) (func : Function) (program : Program) :
    (c.compileFunction func program).instructions =
      (((c.firstPass func).keepParams func).secondPass func program).instructions ++
        [⟨.loadConst, 0, 0⟩, .simple .return] :=
  List.append_assoc ..

/-- What the second pass emits carries its accesses by the finished table. -/
theorem Env.Rebuilds.carries_secondPass {T : Env} {c : Compiler} (hr : Rebuilds T c.env Γ₁)
    (htop : Rebuilds T c.env Γ) (hs : StmtsOk Γ₁ func.body Γ₂)
    (hT : (c.env.afterStmts func.body).Grows T)
    (hinits : ∀ g ∈ p.globals, InitOk Γ g.varType g.initExpr) :
    let inits := initsCode c.env func p c.currentPc
    T.Carries c.currentPc (c.accesses func p)
      (inits ++ c.env.stmtsCode func.body (c.currentPc + inits.length)) := by
  have henter : (c.enterBody func p).env = c.env := env_enterBody c func p
  have hbody := Rebuilds.carries_stmts (c := c.enterBody func p) (by rwa [henter]) func.body hs
    (by rwa [henter])
  rw [henter, enterBody_eq, currentPc_append, ← enterBody_eq] at hbody
  refine .append ?_ hbody
  rw [initsCode]
  split
  · exact htop.carries_globalInits p.globals hinits
  · exact .slotless T _ fun _ hmem ↦ absurd hmem List.not_mem_nil

theorem PassesAgree.of_ok (c : Compiler) {Γ Γ₁ Γ₂ : Names} (hp : ParamsOk Γ func.params Γ₁)
    (hs : StmtsOk Γ₁ func.body Γ₂) (hlimit : func.localSlots ≤ maxLocalSlots)
    (hinits : ∀ g ∈ p.globals, InitOk Γ g.varType g.initExpr) : PassesAgree c func p := by
  set S := c.env.ofFunction func with hS
  set T := S.afterStmts func.body with hT
  have hr : Env.Rebuilds T S Γ₁ := .ofFunction c.env hs
  have htop : Env.Rebuilds T S Γ :=
    ⟨hr.grows, fun name hname ↦ hr.visible name fun hnone ↦
      hname (hp.eq_none_of_eq_none hnone).1⟩
  obtain ⟨hbody, -⟩ := hr.stmtsCode func.body hs (.refl T)
  have hinitsCode (base : Nat) : initsCode S func p base = initsCode T func p base := by
    rw [initsCode, initsCode, htop.globalInitsCode p.globals hinits]
  have hnames : ∀ name ∈ localNamesList func.body, name ∈ T.locals :=
    fun _ hname ↦ S.mem_afterStmts hname
  have hfirst : (c.firstPass func).env = T := env_firstPass c func
  have hkept : ((c.firstPass func).keepParams func).env = S := env_keepParams_firstPass c func
  have happart : T.SlotsApart := (Env.SlotsApart.ofFunction c.env func).afterStmts func.body
  have hlocals : (c.firstPass func).currentLocals = T.locals := congrArg Env.locals hfirst
  have hcode := instructions_compileFunction c func p
  rw [instructions_secondPass, List.append_assoc] at hcode
  have hcarries := Env.Rebuilds.carries_secondPass (c := (c.firstPass func).keepParams func)
    (hkept ▸ hr) (hkept ▸ htop) hs (hkept ▸ Env.Grows.refl T) hinits
  -- the final `return 0` names no local
  have hreturn : ∀ instr ∈ [(⟨.loadConst, 0, 0⟩ : Instruction), .simple .return],
      instr.opcode ∉ Env.localOpcodes := by decide
  have hfull := hcarries.append_slotless hreturn
  have hpc : ((c.firstPass func).keepParams func).currentPc = c.currentPc := by
    rw [keepParams_firstPass, currentPc_withLocals]
  refine ⟨fun access hmem loc hloc ↦ ?_, fun pc instr hpc' hinstr hop ↦ ?_, ?_, fun c' stmt hat ↦ ?_,
    fun c' stmt hat ↦ ?_, ?_, ?_, fun i param hparam ↦ ?_, fun instr hinstr hop ↦ ?_⟩
  -- each access by a name has an instruction with the slot of the first pass
  · obtain ⟨i, hi, hinstr⟩ := hfull.slots access hmem loc (hlocals ▸ hloc)
    rw [hcode, hi, currentPc, List.getElem?_append_right (Nat.le_add_right ..),
      Nat.add_sub_cancel_left]
    exact hinstr
  -- and each instruction with a local operand is that of an access
  · rw [← hpc] at hpc'
    rw [hcode, List.getElem?_append_right hpc'] at hinstr
    obtain ⟨access, hmem, hat, hname⟩ := hfull.named _ instr hinstr hop
    exact ⟨access, hmem, hat.trans (Nat.add_sub_of_le hpc'), hlocals ▸ hname⟩
  · rw [instructions_secondPass, instructions_secondPass]
    simp only [hfirst, hkept, hinitsCode, hbody]
    rfl
  -- the table of the first pass is complete before the body and stays as it is
  · have henv : ((c.firstPass func).enterBody func p).env = T :=
      (env_enterBody _ func p).trans hfirst
    have hsame := hat.env_eq fun name hname ↦ henv ▸ hnames name hname
    exact congrArg Env.locals (hsame.trans (henv.trans hfirst.symm))
  -- in the second pass a visible name has been declared again, with its old slot
  · have henv : (((c.firstPass func).keepParams func).enterBody func p).env = S :=
      (env_enterBody _ func p).trans hkept
    obtain ⟨Γ', Γ'', hstmt, hr', hgrows⟩ :=
      hat.rebuilds (T := T) (henv ▸ hr) hs (henv ▸ Env.Grows.refl T)
    refine ⟨⟨Γ', Γ'', hstmt, fun name hname ↦ ?_⟩, fun name loc hloc ↦ ?_⟩
    · rw [hlocals]
      exact hr'.visible name hname
    · rw [hlocals]
      refine hgrows.slots name loc ?_
      rw [← env_compileStmt]
      exact hloc
  · exact congrArg Env.locals ((env_secondPass _ func p).trans
      ((congrArg (Env.afterStmts · func.body) hkept).trans hfirst.symm))
  · rw [hlocals]
    exact happart.apart
  · have hloc := Env.lookup_withParams (S := { c.env with locals := ∅, nextLocalSlot := 0 })
      hp.nodup hparam
    have hfinal := Env.lookup_afterStmts (S := S) hloc func.body
    rw [Nat.zero_add] at hfinal
    exact (congrArg (fun S : Env ↦ S.locals.lookup param.name) hfirst).trans hfinal
  · have hcount : T.nextLocalSlot = func.localSlots := Env.localCount_eq c.env hp hs
    have hnext : (c.firstPass func).nextLocalSlot = T.nextLocalSlot :=
      congrArg Env.nextLocalSlot hfirst
    have hmax : maxLocalSlots = 1024 := rfl
    rw [← currentPc, ← hpc, hcode, currentPc, List.drop_left] at hinstr
    obtain ⟨name, loc, hloc, harg⟩ := hfull.exists_slot hinstr hop
    have hlt : loc.slot < T.nextLocalSlot := happart.below.lt hloc
    rw [harg, asUsize_asI32 (by omega), hnext]
    exact ⟨asI32_nonneg (by omega), hlt⟩

/-- **Agreement on local slots.** For every function of an accepted program, the second pass of the
compiler uses the slots that the first pass assigned, distinct names have distinct slots, the
parameters the first ones in order, and every emitted slot is below the function's count of slots,
which is the count that the analyzer checked against its limit. -/
theorem slots_agree {source : List UInt8} (h : Accepted source p) {n : Nat}
    (hfunc : p.functions[n]? = some func) : PassesAgree (beforeFunction p n) func p ∧
      ((beforeFunction p n).compileFunction func p).instructions <+: (compile p).instructions ∧
      ∃ info, (compile p).functions.lookup n = some info ∧ info.name = func.name ∧
        info.paramCount = func.params.length ∧
        info.localCount = ((beforeFunction p n).firstPass func).nextLocalSlot ∧
        (SemanticAnalyzer.exec (SemanticAnalyzer.analyzeFunction func)
          (SemanticAnalyzer.beforeFunction p n)).currentLocalSlots = info.localCount ∧
        info.localCount ≤ maxLocalSlots := by
  have hmem := List.mem_of_getElem? hfunc
  obtain ⟨⟨Γ₁, Γ₂, hp, hs⟩, hlimit⟩ := h.wellFormed.functions func hmem
  have hcount (S : Env) : S.localCount func = func.localSlots := S.localCount_eq hp hs
  have hfirst : ((beforeFunction p n).firstPass func).nextLocalSlot = func.localSlots :=
    (congrArg Env.nextLocalSlot (env_firstPass _ func)).trans (hcount _)
  have hinfo := h.lookup_iff.mpr ⟨func, hfunc, rfl⟩
  have herrors : (SemanticAnalyzer.exec (SemanticAnalyzer.analyzeProgram p)
      SemanticAnalyzer.new).errors = [] :=
    (SemanticAnalyzer.errors_analyzeProgram_eq_nil_iff h.parsed.sourceForm).mpr h.wellFormed
  have hslots := SemanticAnalyzer.slots_beforeFunction h.parsed.sourceForm herrors hfunc
  have hlocal : ((globalEnv p).functionInfo func n (entryPc p n)).localCount = func.localSlots :=
    hcount (globalEnv p)
  refine ⟨.of_ok _ hp hs hlimit h.wellFormed.inits, instructions_beforeFunction hfunc, _, hinfo,
    rfl, rfl, ?_, ?_, ?_⟩
  · rw [hlocal, hfirst]
  · rw [hlocal, hslots]
  · rw [hlocal]
    exact hlimit

/-! ### A function with a name in two blocks -/

/-- `x` is declared in both branches, and in the second one behind an array. -/
def siblingsSource : List UInt8 :=
  asciiBytes "func f(int n)\x7bif(n)\x7bint x=n;\x7delse\x7bint a[2];int x=1;a[x]=n;\x7d\x7dfunc main()\x7b\x7d"

def siblingsFunction : Function where
  name := "f"
  params := [⟨.int, "n", ⟨1, 8⟩⟩]
  body := [
    .ifStmt (.identifier "n" ⟨1, 18⟩)
      [.varDecl .int "x" (some (.identifier "n" ⟨1, 27⟩)) none ⟨1, 21⟩]
      (some [
        .varDecl .int "a" none (some 2) ⟨1, 35⟩,
        .varDecl .int "x" (some (.intLiteral 1 ⟨1, 50⟩)) none ⟨1, 44⟩,
        .assign "a" (some (.identifier "x" ⟨1, 54⟩)) (.identifier "n" ⟨1, 57⟩) ⟨1, 52⟩])
      ⟨1, 15⟩]
  span := ⟨1, 1⟩

def siblings : Program where
  globals := []
  functions := [siblingsFunction, { name := "main", params := [], body := [], span := ⟨1, 61⟩ }]

def siblingsTokens : List Token := [⟨.kwFunc, ⟨1, 1⟩⟩, ⟨.identifier "f", ⟨1, 6⟩⟩, ⟨.lParen, ⟨1, 7⟩⟩, ⟨.kwInt, ⟨1, 8⟩⟩,
  ⟨.identifier "n", ⟨1, 12⟩⟩, ⟨.rParen, ⟨1, 13⟩⟩, ⟨.lBrace, ⟨1, 14⟩⟩, ⟨.kwIf, ⟨1, 15⟩⟩,
  ⟨.lParen, ⟨1, 17⟩⟩, ⟨.identifier "n", ⟨1, 18⟩⟩, ⟨.rParen, ⟨1, 19⟩⟩, ⟨.lBrace, ⟨1, 20⟩⟩,
  ⟨.kwInt, ⟨1, 21⟩⟩, ⟨.identifier "x", ⟨1, 25⟩⟩, ⟨.assign, ⟨1, 26⟩⟩, ⟨.identifier "n", ⟨1, 27⟩⟩,
  ⟨.semicolon, ⟨1, 28⟩⟩, ⟨.rBrace, ⟨1, 29⟩⟩, ⟨.kwElse, ⟨1, 30⟩⟩, ⟨.lBrace, ⟨1, 34⟩⟩,
  ⟨.kwInt, ⟨1, 35⟩⟩, ⟨.identifier "a", ⟨1, 39⟩⟩, ⟨.lBracket, ⟨1, 40⟩⟩, ⟨.intLiteral 2, ⟨1, 41⟩⟩,
  ⟨.rBracket, ⟨1, 42⟩⟩, ⟨.semicolon, ⟨1, 43⟩⟩, ⟨.kwInt, ⟨1, 44⟩⟩, ⟨.identifier "x", ⟨1, 48⟩⟩,
  ⟨.assign, ⟨1, 49⟩⟩, ⟨.intLiteral 1, ⟨1, 50⟩⟩, ⟨.semicolon, ⟨1, 51⟩⟩, ⟨.identifier "a", ⟨1, 52⟩⟩,
  ⟨.lBracket, ⟨1, 53⟩⟩, ⟨.identifier "x", ⟨1, 54⟩⟩, ⟨.rBracket, ⟨1, 55⟩⟩, ⟨.assign, ⟨1, 56⟩⟩,
  ⟨.identifier "n", ⟨1, 57⟩⟩, ⟨.semicolon, ⟨1, 58⟩⟩, ⟨.rBrace, ⟨1, 59⟩⟩, ⟨.rBrace, ⟨1, 60⟩⟩,
  ⟨.kwFunc, ⟨1, 61⟩⟩, ⟨.identifier "main", ⟨1, 66⟩⟩, ⟨.lParen, ⟨1, 70⟩⟩, ⟨.rParen, ⟨1, 71⟩⟩,
  ⟨.lBrace, ⟨1, 72⟩⟩, ⟨.rBrace, ⟨1, 73⟩⟩, ⟨.eof, ⟨1, 74⟩⟩]

theorem siblings_accepted : Accepted siblingsSource siblings := by
  have hruns : tokenize siblingsSource = siblingsTokens ∧
      SemanticAnalyzer.analyze siblings = .ok () := by decide +kernel
  refine ⟨?_, hruns.2⟩
  rw [Parsed, hruns.1]
  rfl

/-- The second `x` is stored in the slot of the first one, the array in the slot behind it. -/
theorem slots_agree_siblings :
    PassesAgree (beforeFunction siblings 0) siblingsFunction siblings ∧
    (compile siblings).instructions[8]? = some ⟨.storeLocal, 1, 0⟩ ∧
    (compile siblings).instructions[11]? = some ⟨.localArrayStore, 2, 2⟩ ∧
    ∃ info, (compile siblings).functions.lookup 0 = some info ∧ info.localCount = 3 := by
  obtain ⟨hpasses, hcode, info, hinfo, -, -, hcount, -⟩ := slots_agree siblings_accepted
    (show siblings.functions[0]? = some siblingsFunction from rfl)
  have hfinal {pc : Nat} {instr : Instruction} (h : ((beforeFunction siblings 0).compileFunction
      siblingsFunction siblings).instructions[pc]? = some instr) :
      (compile siblings).instructions[pc]? = some instr := by
    obtain ⟨hpc, rfl⟩ := List.getElem?_eq_some_iff.mp h
    exact List.prefix_iff_getElem?.mp hcode pc hpc
  have hstored := hpasses.slots ⟨8, "x", .storeLocal, false⟩ (by decide) ⟨1, false, 0⟩ rfl
  have hassigned := hpasses.slots ⟨11, "a", .localArrayStore, true⟩ (by decide) ⟨2, true, 2⟩ rfl
  exact ⟨hpasses, hfinal hstored, hfinal hassigned, info, hinfo, hcount.trans rfl⟩

end Compiler

end MiniLang
