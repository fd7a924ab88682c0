import MiniLang.Bytecode.Layout

/-!
# Layout of compiled programs

The functions of a program are laid out one after the other, in source order, and numbered in this
order. Each has its parameters in the first local slots and ends with a `return 0` of its own.

## Slots

The compiler goes over a function twice. The first pass declares every local of the body and counts
them, and then the locals beyond the parameters are forgotten; the second pass declares them again,
where their statements are, and gives each name the slot that it had in the first pass. With
`SlotsApart` distinct names have distinct slots, and `Extends` says that a declaration leaves the
slots before it as they are, so that any two environments within a function agree about a name that
both have.

## Tables

Function numbers are assigned before any code is emitted, so that calls may go to functions that
come later; entries are filled in as the functions are compiled. `compile_eq` puts the parts
together: the code is that of the functions in order, and the table has, for each function, where
its code begins. The code of the global initializers is the beginning of the code of `main`, in
whose frame the machine runs it.
-/

namespace MiniLang

namespace Compiler

namespace Env

/-! ## Functions -/

/-- The environment where the parameters have their slots. -/
def withParams (S : Env) : List Param → Env
  | [] => S
  | param :: params =>
    withParams { S with
      locals := S.locals.insert param.name ⟨S.nextLocalSlot, false, 0⟩
      nextLocalSlot := S.nextLocalSlot + 1 } params

/-- The environment in which a function is compiled. -/
def ofFunction (S : Env) (func : Function) : Env :=
  ({ S with locals := ∅, nextLocalSlot := 0 } : Env).withParams func.params

/-- The local slots of a function. -/
def localCount (S : Env) (func : Function) : Nat :=
  ((S.ofFunction func).afterStmts func.body).nextLocalSlot

/-- The code of the global initializers. -/
def globalInitsCode (S : Env) : List GlobalVar → Nat → List Instruction
  | [], _ => []
  | glob :: globs, base =>
    match glob.initExpr with
    | some init =>
      let code := S.exprCode init base ++
        [⟨.storeGlobal, asI32 (((S.globals.lookup glob.name).map GlobalInfo.slot).getD 0), 0⟩]
      code ++ S.globalInitsCode globs (base + code.length)
    | none => S.globalInitsCode globs base

/-- The code of a function at an address. -/
def functionCode (S : Env) (globals : List GlobalVar) (func : Function) (base : Nat) :
    List Instruction :=
  let inits := if func.name = "main" then (S.ofFunction func).globalInitsCode globals base else []
  inits ++ (S.ofFunction func).stmtsCode func.body (base + inits.length) ++
    [⟨.loadConst, 0, 0⟩, .simple .return]

def functionInfo (S : Env) (func : Function) (id base : Nat) : FunctionInfo :=
  ⟨func.name, id, base, func.params.length, S.localCount func⟩

/-- The code of functions laid out one after the other. -/
def functionsCode (S : Env) (globals : List GlobalVar) : List Function → Nat → List Instruction
  | [], _ => []
  | func :: funcs, base =>
    let code := S.functionCode globals func base
    code ++ S.functionsCode globals funcs (base + code.length)

/-- The functions laid out from `base` on and numbered from `id` on. -/
def functionInfos (S : Env) (globals : List GlobalVar) :
    List Function → Nat → Nat → List FunctionInfo
  | [], _, _ => []
  | func :: funcs, id, base =>
    S.functionInfo func id base ::
      S.functionInfos globals funcs (id + 1) (base + (S.functionCode globals func base).length)

/-! ### Parameters and locals -/

variable {S : Env}

/-- Every local has one of the slots handed out so far. -/
def SlotsBelow (S : Env) : Prop := ∀ entry ∈ S.locals.entries, entry.snd.slot < S.nextLocalSlot

theorem withParams_nextLocalSlot (S : Env) (params : List Param) :
    (S.withParams params).nextLocalSlot = S.nextLocalSlot + params.length := by
  induction params generalizing S with
  | nil => rfl
  | cons param params ih =>
    rw [withParams, ih, List.length_cons]
    exact Nat.add_right_comm ..

theorem globals_withParams (S : Env) (params : List Param) :
    (S.withParams params).globals = S.globals := by
  induction params generalizing S with
  | nil => rfl
  | cons param params ih => exact ih _

theorem funcNameToId_withParams (S : Env) (params : List Param) :
    (S.withParams params).funcNameToId = S.funcNameToId := by
  induction params generalizing S with
  | nil => rfl
  | cons param params ih => exact ih _

theorem SlotsBelow.insert (h : S.SlotsBelow) (name : String) (isArray : Bool) (size : Nat) :
    SlotsBelow { S with
      locals := S.locals.insert name ⟨S.nextLocalSlot, isArray, size⟩
      nextLocalSlot := S.nextLocalSlot + 1 } := by
  intro entry hentry
  rw [AList.entries_insert] at hentry
  rcases List.mem_cons.mp hentry with rfl | hentry
  · exact Nat.lt_succ_self _
  · exact Nat.lt_succ_of_lt (h entry (List.mem_of_mem_eraseP hentry))

theorem SlotsBelow.withParams (h : S.SlotsBelow) (params : List Param) :
    (S.withParams params).SlotsBelow := by
  induction params generalizing S with
  | nil => exact h
  | cons param params ih => exact ih (h.insert param.name false 0)

theorem SlotsBelow.ofFunction (S : Env) (func : Function) : (S.ofFunction func).SlotsBelow :=
  SlotsBelow.withParams (fun _ hentry ↦ absurd hentry List.not_mem_nil) _

/-- Declarations leave the slots handed out before them. -/
structure Extends (S S' : Env) : Prop where
  slot_le : S.nextLocalSlot ≤ S'.nextLocalSlot
  below : ∀ n ≤ S.nextLocalSlot, S'.locals.entries.filter (fun entry ↦ entry.snd.slot < n) =
    S.locals.entries.filter fun entry ↦ entry.snd.slot < n

theorem Extends.refl (S : Env) : S.Extends S := ⟨le_rfl, fun _ _ ↦ rfl⟩

theorem Extends.trans {S' S'' : Env} (h : S.Extends S') (h' : S'.Extends S'') : S.Extends S'' :=
  ⟨Nat.le_trans h.slot_le h'.slot_le, fun n hn ↦
    (h'.below n (Nat.le_trans hn h.slot_le)).trans (h.below n hn)⟩

theorem extends_declareLocal (S : Env) (name : String) (arraySize : Option Int32) :
    S.Extends (S.declareLocal name arraySize) := by
  rw [declareLocal]
  split
  · exact .refl S
  · next hnew =>
    refine ⟨Nat.le_succ _, fun n hn ↦ ?_⟩
    rw [AList.entries_insert_of_notMem hnew, List.filter_cons_of_neg]
    rw [decide_eq_true_eq]
    exact Nat.not_lt.mpr hn

mutual

theorem extends_afterStmt (S : Env) : (stmt : Stmt) → S.Extends (S.afterStmt stmt)
  | .varDecl _ name _ arraySize _ => S.extends_declareLocal name arraySize
  | .ifStmt _ thenBody none _ => S.extends_afterStmts thenBody
  | .ifStmt _ thenBody (some elseBody) _ =>
    (S.extends_afterStmts thenBody).trans (extends_afterStmts _ elseBody)
  | .whileStmt _ body _ => S.extends_afterStmts body
  | .assign .. => .refl S
  | .returnStmt .. => .refl S
  | .print .. => .refl S
  | .exprStmt .. => .refl S
termination_by structural stmt => stmt

theorem extends_afterStmts (S : Env) : (stmts : List Stmt) → S.Extends (S.afterStmts stmts)
  | [] => .refl S
  | stmt :: stmts => (S.extends_afterStmt stmt).trans (extends_afterStmts _ stmts)
termination_by structural stmts => stmts

end

theorem lookup_declareLocal {name name' : String} {loc : LocalVar} (arraySize : Option Int32)
    (h : S.locals.lookup name = some loc) :
    (S.declareLocal name' arraySize).locals.lookup name = some loc := by
  rw [declareLocal]
  split
  · exact h
  · next hnew =>
    have hne : name ≠ name' := by
      rintro rfl
      exact hnew (AList.lookup_isSome.mp (by rw [h]; rfl))
    exact (AList.lookup_insert_ne hne).trans h

mutual

/-- A name keeps its slot. -/
theorem lookup_afterStmt {S : Env} {name : String} {loc : LocalVar}
    (h : S.locals.lookup name = some loc) : (stmt : Stmt) →
    (S.afterStmt stmt).locals.lookup name = some loc
  | .varDecl _ _ _ arraySize _ => lookup_declareLocal arraySize h
  | .ifStmt _ thenBody none _ => lookup_afterStmts h thenBody
  | .ifStmt _ thenBody (some elseBody) _ =>
    lookup_afterStmts (lookup_afterStmts h thenBody) elseBody
  | .whileStmt _ body _ => lookup_afterStmts h body
  | .assign .. => h
  | .returnStmt .. => h
  | .print .. => h
  | .exprStmt .. => h
termination_by structural stmt => stmt

theorem lookup_afterStmts {S : Env} {name : String} {loc : LocalVar}
    (h : S.locals.lookup name = some loc) : (stmts : List Stmt) →
    (S.afterStmts stmts).locals.lookup name = some loc
  | [] => h
  | stmt :: stmts => lookup_afterStmts (lookup_afterStmt h stmt) stmts
termination_by structural stmts => stmts

end

/-- Distinct names have distinct slots. -/
structure SlotsApart (S : Env) : Prop where
  below : S.SlotsBelow
  apart : ∀ name name' loc loc', S.locals.lookup name = some loc →
    S.locals.lookup name' = some loc' → loc.slot = loc'.slot → name = name'

theorem SlotsBelow.lt (h : S.SlotsBelow) {name : String} {loc : LocalVar}
    (hloc : S.locals.lookup name = some loc) : loc.slot < S.nextLocalSlot :=
  h _ (AList.mem_lookup_iff.mp hloc)

theorem SlotsApart.empty (S : Env) : SlotsApart { S with locals := ∅, nextLocalSlot := 0 } where
  below := fun _ hentry ↦ absurd hentry List.not_mem_nil
  apart name name' loc loc' hloc := by
    rw [AList.lookup_empty] at hloc
    cases hloc

theorem SlotsApart.insert (h : S.SlotsApart) (name : String) (isArray : Bool) (size : Nat) :
    SlotsApart { S with
      locals := S.locals.insert name ⟨S.nextLocalSlot, isArray, size⟩
      nextLocalSlot := S.nextLocalSlot + 1 } where
  below := h.below.insert name isArray size
  apart name₁ name₂ loc₁ loc₂ hloc₁ hloc₂ hslot := by
    by_cases h₁ : name₁ = name <;> by_cases h₂ : name₂ = name
    · rw [h₁, h₂]
    · subst h₁
      rw [AList.lookup_insert] at hloc₁
      rw [AList.lookup_insert_ne h₂] at hloc₂
      have hlt := h.below.lt hloc₂
      rw [← hslot, ← Option.some_inj.mp hloc₁] at hlt
      exact absurd hlt (Nat.lt_irrefl _)
    · subst h₂
      rw [AList.lookup_insert_ne h₁] at hloc₁
      rw [AList.lookup_insert] at hloc₂
      have hlt := h.below.lt hloc₁
      rw [hslot, ← Option.some_inj.mp hloc₂] at hlt
      exact absurd hlt (Nat.lt_irrefl _)
    · rw [AList.lookup_insert_ne h₁] at hloc₁
      rw [AList.lookup_insert_ne h₂] at hloc₂
      exact h.apart name₁ name₂ loc₁ loc₂ hloc₁ hloc₂ hslot

theorem SlotsApart.withParams (h : S.SlotsApart) (params : List Param) :
    (S.withParams params).SlotsApart := by
  induction params generalizing S with
  | nil => exact h
  | cons param params ih => exact ih (h.insert param.name false 0)

theorem SlotsApart.declareLocal (h : S.SlotsApart) (name : String) (arraySize : Option Int32) :
    (S.declareLocal name arraySize).SlotsApart := by
  rw [Env.declareLocal]
  split
  · exact h
  · exact h.insert name _ _

mutual

theorem SlotsApart.afterStmt {S : Env} (h : S.SlotsApart) :
    (stmt : Stmt) → (S.afterStmt stmt).SlotsApart
  | .varDecl _ name _ arraySize _ => h.declareLocal name arraySize
  | .ifStmt _ thenBody none _ => SlotsApart.afterStmts h thenBody
  | .ifStmt _ thenBody (some elseBody) _ =>
    SlotsApart.afterStmts (SlotsApart.afterStmts h thenBody) elseBody
  | .whileStmt _ body _ => SlotsApart.afterStmts h body
  | .assign .. => h
  | .returnStmt .. => h
  | .print .. => h
  | .exprStmt .. => h
termination_by structural stmt => stmt

theorem SlotsApart.afterStmts {S : Env} (h : S.SlotsApart) :
    (stmts : List Stmt) → (S.afterStmts stmts).SlotsApart
  | [] => h
  | stmt :: stmts => SlotsApart.afterStmts (SlotsApart.afterStmt h stmt) stmts
termination_by structural stmts => stmts

end

theorem SlotsApart.ofFunction (S : Env) (func : Function) : (S.ofFunction func).SlotsApart :=
  (SlotsApart.empty S).withParams func.params

/-- A slot of the environment before is that of a name of it. -/
theorem Extends.lookup_of_lt {S' : Env} (h : S.Extends S') {name : String} {loc : LocalVar}
    (hloc : S'.locals.lookup name = some loc) (hlt : loc.slot < S.nextLocalSlot) :
    S.locals.lookup name = some loc := by
  have hmem : (⟨name, loc⟩ : Sigma fun _ : String ↦ LocalVar) ∈
      S'.locals.entries.filter fun entry ↦ entry.snd.slot < S.nextLocalSlot :=
    List.mem_filter.mpr ⟨AList.mem_lookup_iff.mp hloc, decide_eq_true hlt⟩
  rw [h.below _ le_rfl] at hmem
  exact AList.mem_lookup_iff.mpr (List.mem_of_mem_filter hmem)

theorem lookup_withParams_of_notMem {params : List Param} {name : String}
    (h : name ∉ params.map Param.name) :
    (S.withParams params).locals.lookup name = S.locals.lookup name := by
  induction params generalizing S with
  | nil => rfl
  | cons param params ih =>
    obtain ⟨hne, hrest⟩ := List.ne_and_not_mem_of_not_mem_cons (List.map_cons ▸ h)
    exact (ih hrest).trans (AList.lookup_insert_ne hne)

/-- The parameters have the first slots. -/
theorem lookup_withParams {params : List Param} (hnodup : (params.map Param.name).Nodup) {i : Nat}
    {param : Param} (hparam : params[i]? = some param) :
    (S.withParams params).locals.lookup param.name = some ⟨S.nextLocalSlot + i, false, 0⟩ := by
  induction params generalizing S i with
  | nil => cases hparam
  | cons param' params ih =>
    obtain ⟨hnew, hnodup⟩ := List.nodup_cons.mp (List.map_cons ▸ hnodup)
    cases i with
    | zero =>
      obtain rfl := Option.some_inj.mp hparam
      rw [withParams, lookup_withParams_of_notMem hnew]
      exact AList.lookup_insert _
    | succ i =>
      have h := @ih { S with
        locals := S.locals.insert param'.name ⟨S.nextLocalSlot, false, 0⟩
        nextLocalSlot := S.nextLocalSlot + 1 } hnodup i hparam
      rw [Nat.add_assoc, Nat.add_comm 1 i] at h
      exact h

/-- What the first pass leaves of the locals is what the parameters are. -/
theorem retainBelow_afterStmts (h : S.SlotsBelow) (stmts : List Stmt) :
    retainBelow (S.afterStmts stmts).locals S.nextLocalSlot = S.locals := by
  refine AList.ext (((S.extends_afterStmts stmts).below _ le_rfl).trans ?_)
  exact List.filter_eq_self.mpr fun entry hentry ↦ decide_eq_true (h entry hentry)

end Env

/-! ## The compiler emits this code -/

variable {c : Compiler}

theorem allocateParams_eq (c : Compiler) (params : List Param) :
    c.allocateParams params = c.withLocals (c.env.withParams params) := by
  induction params generalizing c with
  | nil => rfl
  | cons param params ih => exact ih _

theorem compileGlobalInits_eq (c : Compiler) (globs : List GlobalVar) :
    c.compileGlobalInits globs = c.append (c.env.globalInitsCode globs c.currentPc) := by
  induction globs generalizing c with
  | nil => exact (append_nil c).symm
  | cons glob globs ih =>
    rw [compileGlobalInits, Env.globalInitsCode]
    cases glob.initExpr with
    | none => exact ih c
    | some init =>
      dsimp only
      rw [compileExpr_eq, emit_eq, append_append, ih, append_append, currentPc_append]
      rfl

/-- The compiler emits the code of a function. -/
theorem compileFunction_eq {S : Env} (hglobals : c.globals = S.globals)
    (hfuncs : c.funcNameToId = S.funcNameToId) (func : Function) (program : Program) :
    let c' := c.compileFunction func program
    c'.instructions = c.instructions ++ S.functionCode program.globals func c.currentPc ∧
      c'.functions = c.functions.insert (c.funcId func.name)
        (S.functionInfo func (c.funcId func.name) c.currentPc) ∧
      c'.globals = S.globals ∧ c'.funcNameToId = S.funcNameToId ∧
      c'.mainFuncId = c.mainFuncId := by
  have hparams : ({ c with currentLocals := ∅, nextLocalSlot := 0 } : Compiler).allocateParams
      func.params = c.withLocals (S.ofFunction func) := by
    have hstart : ({ c with currentLocals := ∅, nextLocalSlot := 0 } : Compiler).env =
        { S with locals := ∅, nextLocalSlot := 0 } := by
      rw [← hglobals, ← hfuncs]
      rfl
    rw [allocateParams_eq, hstart]
    rfl
  have henv : (c.withLocals (S.ofFunction func)).env = S.ofFunction func :=
    env_withLocals ((Env.globals_withParams _ _).trans hglobals.symm)
      ((Env.funcNameToId_withParams _ _).trans hfuncs.symm)
  have hdecls : (c.withLocals (S.ofFunction func)).collectLocalDecls func.body =
      c.withLocals ((S.ofFunction func).afterStmts func.body) := by
    rw [collectLocalDecls_eq, henv]
    rfl
  have hslots : (S.ofFunction func).nextLocalSlot = func.params.length := by
    rw [Env.ofFunction, Env.withParams_nextLocalSlot, Nat.zero_add]
  -- what is left of the first pass are the parameters
  have hretain : ({ c.withLocals ((S.ofFunction func).afterStmts func.body) with
      nextLocalSlot := func.params.length
      currentLocals := retainBelow ((S.ofFunction func).afterStmts func.body).locals
        func.params.length } : Compiler) = c.withLocals (S.ofFunction func) := by
    rw [← hslots, Env.retainBelow_afterStmts (.ofFunction S func)]
    rfl
  have hbody (inits : List Instruction) : (((c.withLocals (S.ofFunction func)).append
      inits).compileStmts func.body) = (c.append (inits ++ (S.ofFunction func).stmtsCode func.body
        (c.currentPc + inits.length))).withLocals ((S.ofFunction func).afterStmts func.body) := by
    rw [compileStmts_eq, env_append, henv, append_append, currentPc_append,
      currentPc_withLocals]
    rfl
  have hinits : (if func.name = "main" then
      (c.withLocals (S.ofFunction func)).compileGlobalInits program.globals
      else c.withLocals (S.ofFunction func)) = (c.withLocals (S.ofFunction func)).append
        (if func.name = "main" then
          (S.ofFunction func).globalInitsCode program.globals c.currentPc else []) := by
    split
    · rw [compileGlobalInits_eq, henv]
      rfl
    · exact (append_nil _).symm
  -- the five steps above, one after the other
  intro c'
  have hc' : c' = { (c.append (S.functionCode program.globals func c.currentPc)).withLocals
      ((S.ofFunction func).afterStmts func.body) with
        functions := c.functions.insert (c.funcId func.name)
          (S.functionInfo func (c.funcId func.name) c.currentPc) } := by
    have hcode := List.append_assoc
      (if func.name = "main" then (S.ofFunction func).globalInitsCode program.globals c.currentPc
        else []) ((S.ofFunction func).stmtsCode func.body (c.currentPc + (if func.name = "main" then
          (S.ofFunction func).globalInitsCode program.globals c.currentPc else []).length))
      [⟨.loadConst, 0, 0⟩, .simple .return]
    simp only [c', compileFunction]
    rw [hparams, hdecls, show ({ c.withLocals ((S.ofFunction func).afterStmts func.body) with
      nextLocalSlot := func.params.length
      currentLocals := retainBelow (c.withLocals
        ((S.ofFunction func).afterStmts func.body)).currentLocals func.params.length } : Compiler) =
      c.withLocals (S.ofFunction func) from hretain, hinits, hbody, Env.functionCode, hcode,
      emit_eq, emitSimple_eq, append_append, append_withLocals, append_append, List.append_assoc]
    rfl
  rw [hc']
  exact ⟨rfl, rfl, hglobals, hfuncs, rfl⟩

/-! ## Tables -/

/-- The entries of a table of functions. -/
def functionEntries (infos : List FunctionInfo) : List (Sigma fun _ : Nat ↦ FunctionInfo) :=
  infos.reverse.map fun info ↦ ⟨info.id, info⟩

theorem Env.getElem?_functionInfos (S : Env) (globals : List GlobalVar)
    (funcs : List Function) (id base i : Nat) :
    (S.functionInfos globals funcs id base)[i]? = (funcs[i]?).map fun func ↦ S.functionInfo func
      (id + i) (base + (S.functionsCode globals (funcs.take i) base).length) := by
  induction funcs generalizing id base i with
  | nil => rfl
  | cons func funcs ih =>
    cases i with
    | zero => rfl
    | succ i =>
      rw [functionInfos, List.getElem?_cons_succ, ih, List.getElem?_cons_succ, List.take_succ_cons,
        functionsCode, List.length_append, Nat.add_assoc, Nat.add_comm 1 i, Nat.add_assoc]

theorem Env.functionsCode_append (S : Env) (globals : List GlobalVar)
    (funcs funcs' : List Function) (base : Nat) : S.functionsCode globals (funcs ++ funcs') base =
      S.functionsCode globals funcs base ++
        S.functionsCode globals funcs' (base + (S.functionsCode globals funcs base).length) := by
  induction funcs generalizing base with
  | nil => rfl
  | cons func funcs ih =>
    rw [List.cons_append, functionsCode, ih, functionsCode, List.length_append, List.append_assoc,
      Nat.add_assoc]

/-- The code of the functions from the `i`-th on. -/
theorem Env.drop_functionsCode (S : Env) (globals : List GlobalVar) (funcs : List Function)
    (base i : Nat) : (S.functionsCode globals funcs base).drop
        (S.functionsCode globals (funcs.take i) base).length =
      S.functionsCode globals (funcs.drop i)
        (base + (S.functionsCode globals (funcs.take i) base).length) := by
  induction funcs generalizing base i with
  | nil => rw [List.take_nil, List.drop_nil]; rfl
  | cons func funcs ih =>
    cases i with
    | zero => rfl
    | succ i =>
      rw [List.take_succ_cons, functionsCode, functionsCode, List.length_append, List.drop_append,
        List.drop_eq_nil_of_le (Nat.le_add_right ..), Nat.add_sub_cancel_left, ih,
        List.drop_succ_cons, Nat.add_assoc, List.nil_append]

theorem registerFunctions_eq (c : Compiler) (funcs : List Function) :
    let c' := c.registerFunctions funcs
    c'.instructions = c.instructions ∧ c'.functions = c.functions ∧ c'.globals = c.globals := by
  induction funcs generalizing c with
  | nil => exact ⟨rfl, rfl, rfl⟩
  | cons func funcs ih => exact ih _

theorem collectGlobals_eq (c : Compiler) (globs : List GlobalVar) :
    let c' := c.collectGlobals globs
    c'.instructions = c.instructions ∧ c'.functions = c.functions ∧
      c'.funcNameToId = c.funcNameToId ∧ c'.nextFuncId = c.nextFuncId := by
  induction globs generalizing c with
  | nil => exact ⟨rfl, rfl, rfl, rfl⟩
  | cons glob globs ih => exact ih _

/-- Names that are registered later do not matter. -/
theorem lookup_registerFunctions_of_notMem {name : String} (funcs : List Function)
    (h : name ∉ funcs.map Function.name) : (c.registerFunctions funcs).funcNameToId.lookup name =
      c.funcNameToId.lookup name := by
  induction funcs generalizing c with
  | nil => rfl
  | cons func funcs ih =>
    obtain ⟨hne, hrest⟩ := List.ne_and_not_mem_of_not_mem_cons (List.map_cons ▸ h)
    exact (ih hrest).trans (AList.lookup_insert_ne hne)

theorem mainFuncId_registerFunctions_of_notMem (funcs : List Function)
    (h : "main" ∉ funcs.map Function.name) :
    (c.registerFunctions funcs).mainFuncId = c.mainFuncId := by
  induction funcs generalizing c with
  | nil => rfl
  | cons func funcs ih =>
    obtain ⟨hne, hrest⟩ := List.ne_and_not_mem_of_not_mem_cons (List.map_cons ▸ h)
    exact (ih hrest).trans (if_neg (Ne.symm hne))

/-- Functions are numbered in source order. -/
theorem lookup_registerFunctions {funcs : List Function} {func : Function} {i : Nat}
    (hnodup : (funcs.map Function.name).Nodup) (hfunc : funcs[i]? = some func) :
    (c.registerFunctions funcs).funcNameToId.lookup func.name = some (c.nextFuncId + i) ∧
      (func.name = "main" → (c.registerFunctions funcs).mainFuncId = some (c.nextFuncId + i)) := by
  induction funcs generalizing c i with
  | nil => cases hfunc
  | cons func' funcs ih =>
    obtain ⟨hnew, hnodup⟩ := List.nodup_cons.mp (List.map_cons ▸ hnodup)
    cases i with
    | zero =>
      obtain rfl := Option.some_inj.mp hfunc
      refine ⟨(lookup_registerFunctions_of_notMem funcs hnew).trans (AList.lookup_insert _), ?_⟩
      intro hmain
      refine (mainFuncId_registerFunctions_of_notMem funcs (hmain ▸ hnew)).trans ?_
      exact if_pos hmain
    | succ i =>
      have h := @ih { c with
        nextFuncId := c.nextFuncId + 1
        funcNameToId := c.funcNameToId.insert func'.name c.nextFuncId
        mainFuncId := if func'.name = "main" then some c.nextFuncId else c.mainFuncId } i hnodup hfunc
      rw [Nat.add_assoc, Nat.add_comm 1 i] at h
      exact h

/-- The compiler emits the code of the functions and enters them in the table. -/
theorem compileFunctions_eq {S : Env} (program : Program) {funcs : List Function} {id : Nat}
    (hglobals : c.globals = S.globals) (hfuncs : c.funcNameToId = S.funcNameToId)
    (hids : ∀ i func, funcs[i]? = some func → S.funcNameToId.lookup func.name = some (id + i))
    (hnew : ∀ n, id ≤ n → n ∉ c.functions) :
    let c' := c.compileFunctions program funcs
    c'.instructions = c.instructions ++ S.functionsCode program.globals funcs c.currentPc ∧
      c'.functions.entries = functionEntries
        (S.functionInfos program.globals funcs id c.currentPc) ++ c.functions.entries ∧
      c'.globals = S.globals ∧ c'.mainFuncId = c.mainFuncId := by
  induction funcs generalizing c id with
  | nil => exact ⟨(List.append_nil _).symm, rfl, hglobals, rfl⟩
  | cons func funcs ih =>
    obtain ⟨hinstrs, hfunctions, hglobals', hfuncs', hmain⟩ :=
      c.compileFunction_eq hglobals hfuncs func program
    have hid : c.funcId func.name = id := by
      rw [funcId, hfuncs, hids 0 func rfl]
      rfl
    rw [hid] at hfunctions
    have hentries : (c.compileFunction func program).functions.entries =
        ⟨id, S.functionInfo func id c.currentPc⟩ :: c.functions.entries := by
      rw [hfunctions, AList.entries_insert_of_notMem (hnew id le_rfl)]
    have hpc : (c.compileFunction func program).currentPc =
        c.currentPc + (S.functionCode program.globals func c.currentPc).length := by
      rw [currentPc, hinstrs, List.length_append, currentPc]
    obtain ⟨hinstrs', hentries', hglobals', hmain'⟩ := @ih (c.compileFunction func program) (id + 1)
      hglobals' hfuncs'
      (fun i func' hfunc ↦ by rw [hids (i + 1) func' hfunc, Nat.add_assoc, Nat.add_comm 1 i])
      (fun n hn ↦ by
        rw [hfunctions, AList.mem_insert, not_or]
        exact ⟨Nat.ne_of_gt hn, hnew n (Nat.le_of_succ_le hn)⟩)
    refine ⟨?_, ?_, hglobals', hmain'.trans hmain⟩
    · refine hinstrs'.trans ?_
      rw [hinstrs, hpc, Env.functionsCode, List.append_assoc]
    · refine hentries'.trans ?_
      rw [hentries, hpc, Env.functionInfos, functionEntries, functionEntries, List.reverse_cons,
        List.map_append, List.append_assoc]
      rfl

/-! ## Compiled programs -/

variable {program : Program}

/-- The environment outside of functions. -/
def globalEnv (program : Program) : Env :=
  ((new.collectGlobals program.globals).registerFunctions program.functions).env

/-- Where the `i`-th function is. -/
def entryPc (program : Program) (i : Nat) : Nat :=
  ((globalEnv program).functionsCode program.globals (program.functions.take i) 0).length

/-- **The layout of a compiled program.** -/
theorem compile_eq (hnodup : (program.functions.map Function.name).Nodup) :
    (compile program).instructions =
        (globalEnv program).functionsCode program.globals program.functions 0 ∧
      (compile program).functions.entries = functionEntries
        ((globalEnv program).functionInfos program.globals program.functions 0 0) ∧
      (compile program).globals = (globalEnv program).globals ∧
      (compile program).mainFuncId = ((new.collectGlobals program.globals).registerFunctions
        program.functions).mainFuncId.getD 0 := by
  obtain ⟨hinstrs, hfunctions, -⟩ :=
    (new.collectGlobals program.globals).registerFunctions_eq program.functions
  obtain ⟨hinstrs', hfunctions', -, hnext⟩ := new.collectGlobals_eq program.globals
  have hids (i : Nat) (func : Function) (hfunc : program.functions[i]? = some func) :
      (globalEnv program).funcNameToId.lookup func.name = some (0 + i) := by
    have h := (@lookup_registerFunctions (new.collectGlobals program.globals) _ _ _ hnodup hfunc).1
    rwa [hnext] at h
  have hnew (n : Nat) (_ : 0 ≤ n) : n ∉
      ((new.collectGlobals program.globals).registerFunctions program.functions).functions := by
    rw [hfunctions, hfunctions']
    exact AList.notMem_empty n
  obtain ⟨hcode, hentries, hglobals, hmain⟩ := compileFunctions_eq program rfl rfl hids hnew
  have hpc : ((new.collectGlobals program.globals).registerFunctions program.functions).currentPc =
      0 := by
    rw [currentPc, hinstrs, hinstrs']
    rfl
  rw [hpc] at hcode hentries
  rw [hinstrs, hinstrs'] at hcode
  rw [hfunctions, hfunctions'] at hentries
  exact ⟨hcode, hentries.trans (List.append_nil _), hglobals, congrArg (Option.getD · 0) hmain⟩

theorem instructions_compile (hnodup : (program.functions.map Function.name).Nodup) :
    (compile program).instructions =
      (globalEnv program).functionsCode program.globals program.functions 0 :=
  (compile_eq hnodup).1

/-- The table of a compiled program. -/
theorem lookup_compile_iff (hnodup : (program.functions.map Function.name).Nodup) {n : Nat}
    {info : FunctionInfo} : (compile program).functions.lookup n = some info ↔
      ∃ func, program.functions[n]? = some func ∧
        info = (globalEnv program).functionInfo func n (entryPc program n) := by
  have hentries := (compile_eq hnodup).2.1
  rw [← Option.mem_def, AList.mem_lookup_iff, hentries, functionEntries, List.mem_map]
  constructor
  · rintro ⟨info', hinfo, heq⟩
    obtain ⟨rfl, hinfo'⟩ := Sigma.mk.inj heq
    obtain rfl := eq_of_heq hinfo'
    obtain ⟨i, hi⟩ := List.mem_iff_getElem?.mp (List.mem_reverse.mp hinfo)
    rw [Env.getElem?_functionInfos, Nat.zero_add, Nat.zero_add] at hi
    obtain ⟨func, hfunc, rfl⟩ := Option.map_eq_some_iff.mp hi
    exact ⟨func, hfunc, rfl⟩
  · rintro ⟨func, hfunc, rfl⟩
    refine ⟨(globalEnv program).functionInfo func n (entryPc program n),
      List.mem_reverse.mpr (List.mem_of_getElem? (i := n) ?_), rfl⟩
    rw [Env.getElem?_functionInfos, hfunc, Nat.zero_add, Nat.zero_add]
    rfl

/-- The code of a function of a compiled program. -/
theorem drop_compile (hnodup : (program.functions.map Function.name).Nodup) {n : Nat}
    {func : Function} (hfunc : program.functions[n]? = some func) :
    ∃ rest, (compile program).instructions.drop (entryPc program n) =
      (globalEnv program).functionCode program.globals func (entryPc program n) ++ rest := by
  obtain ⟨hlt, rfl⟩ := List.getElem?_eq_some_iff.mp hfunc
  rw [instructions_compile hnodup, entryPc, Env.drop_functionsCode, List.drop_eq_getElem_cons hlt,
    Nat.zero_add]
  exact ⟨_, rfl⟩

/-- The functions follow each other without gaps. -/
theorem entryPc_succ {n : Nat} {func : Function} (hfunc : program.functions[n]? = some func) :
    entryPc program (n + 1) = entryPc program n +
      ((globalEnv program).functionCode program.globals func (entryPc program n)).length := by
  obtain ⟨hlt, rfl⟩ := List.getElem?_eq_some_iff.mp hfunc
  rw [entryPc, List.take_add_one, List.getElem?_eq_getElem hlt, Env.functionsCode_append,
    List.length_append, ← entryPc, Nat.zero_add, Option.toList_some, Env.functionsCode,
    List.length_append]
  rfl

theorem entryPc_length (hnodup : (program.functions.map Function.name).Nodup) :
    entryPc program program.functions.length = (compile program).instructions.length := by
  rw [entryPc, List.take_length, instructions_compile hnodup]

theorem mainFuncId_compile (hnodup : (program.functions.map Function.name).Nodup) {n : Nat}
    {func : Function} (hfunc : program.functions[n]? = some func) (hmain : func.name = "main") :
    (compile program).mainFuncId = n := by
  have h := (@lookup_registerFunctions (new.collectGlobals program.globals) _ _ _ hnodup hfunc).2
    hmain
  rw [(new.collectGlobals_eq program.globals).2.2.2] at h
  rw [(compile_eq hnodup).2.2.2, h]
  exact Nat.zero_add n

end Compiler

end MiniLang
