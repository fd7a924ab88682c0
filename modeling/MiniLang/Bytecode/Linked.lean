import MiniLang.Bytecode.GlobalLayout
import MiniLang.Bytecode.Tracking

/-!
# Compiled programs are balanced

In the compiled program of an accepted one, the names that are visible throughout have their slots
and identifiers, and the code of every function is balanced.

## Names

`Resolves` connects the names of the static rules with the tables of the compiler: a global has its
slot and size, a function its identifier and an entry in the program, with as many parameters as the
rules say. For the names at the top level this follows from the passes that collect them, since an
accepted program declares no name twice.

## Functions

The body of a function is compiled under these tables and those of its parameters, and `main` begins
with the initial values of the globals, in which no local is visible. Balanced code leaves the
operand stack as deep as it found it, plus the value of an expression, on every path; for a whole
function this is what lets the verifier find one depth at each of its instructions.
-/

namespace MiniLang

open Compiler Verifier StackCode

variable {source : List UInt8} {p : Program}

namespace Compiler

theorem Env.length_functionCode_pos (S : Env) (globals : List GlobalVar) (func : Function)
    (base : Nat) : 0 < (S.functionCode globals func base).length := by
  rw [Env.functionCode, List.length_append]
  exact Nat.lt_of_lt_of_le (by decide) (Nat.le_add_left 2 _)

theorem Env.length_le_functionsCode (S : Env) (globals : List GlobalVar) (funcs : List Function)
    (base : Nat) : funcs.length ≤ (S.functionsCode globals funcs base).length := by
  induction funcs generalizing base with
  | nil => exact le_rfl
  | cons func funcs ih =>
    have hpos := S.length_functionCode_pos globals func base
    have hrest := ih (base + (S.functionCode globals func base).length)
    rw [Env.functionsCode, List.length_append, List.length_cons]
    omega

end Compiler

namespace Accepted

theorem nodup_globals (h : Accepted source p) : (p.globals.map GlobalVar.name).Nodup :=
  (List.nodup_append.mp h.wellFormed.distinct).1

theorem globals_eq (h : Accepted source p) :
    (globalEnv p).globals.entries = globalEntries (globalInfos p.globals 0) := by
  have hentries := @entries_collectGlobals new p.globals h.nodup_globals
    fun _ _ ↦ AList.notMem_empty _
  rw [show new.globals.entries = [] from rfl, List.append_nil] at hentries
  exact (congrArg AList.entries (registerFunctions_eq _ p.functions).2.2).trans hentries

/-- The slots of a global. -/
theorem exists_global (h : Accepted source p) {glob : GlobalVar} (hglob : glob ∈ p.globals) :
    ∃ info, (globalEnv p).globals.lookup glob.name = some info ∧
      info.arraySize = (glob.arraySize.map arrayUsize).getD 0 ∧
      info.slot + glob.slots ≤ maxGlobalSlots := by
  obtain ⟨info, hmem, hname⟩ := exists_mem_globalInfos hglob 0
  obtain ⟨glob', hglob', hname', -, hsize, -, hle⟩ := mem_globalInfos hmem
  have heq : glob' = glob := by
    refine List.inj_on_of_nodup_map h.nodup_globals hglob' hglob ?_
    rw [← hname', hname]
  subst heq
  refine ⟨info, ?_, hsize, ?_⟩
  · rw [← Option.mem_def, AList.mem_lookup_iff, h.globals_eq, globalEntries]
    exact List.mem_map.mpr ⟨info, List.mem_reverse.mpr hmem, by rw [hname]⟩
  · rw [Nat.zero_add] at hle
    exact hle.trans h.wellFormed.globalSlots

/-- The identifier of a function. -/
theorem lookup_funcNameToId (h : Accepted source p) {i : Nat} {func : Function}
    (hfunc : p.functions[i]? = some func) :
    (globalEnv p).funcNameToId.lookup func.name = some i := by
  have hlookup := (@lookup_registerFunctions (new.collectGlobals p.globals) _ _ _ h.nodup hfunc).1
  rw [(new.collectGlobals_eq p.globals).2.2.2, show new.nextFuncId = 0 from rfl, Nat.zero_add]
    at hlookup
  exact hlookup

end Accepted

/-- What a name that is visible throughout stands for. -/
theorem topLevel_cases {name : String} {entity : Entity} (h : p.topLevel name = some entity) :
    (∃ glob ∈ p.globals, glob.name = name ∧ entity = varEntity glob.varType glob.arraySize) ∨
    ∃ func ∈ p.functions, func.name = name ∧
      entity = .function (func.params.map Param.paramType) := by
  have h : ((p.globals.find? (·.name = name)).map (fun g ↦ varEntity g.varType g.arraySize) <|>
    (p.functions.find? (·.name = name)).map
      fun f ↦ Entity.function (f.params.map Param.paramType)) = some entity := h
  cases hglobal : p.globals.find? (·.name = name) with
  | some glob =>
    rw [hglobal] at h
    refine .inl ⟨glob, List.mem_of_find?_eq_some hglobal, by simpa using List.find?_some hglobal, ?_⟩
    exact (Option.some_inj.mp h).symm
  | none =>
    rw [hglobal] at h
    cases hfunc : p.functions.find? (·.name = name) with
    | none =>
      rw [hfunc] at h
      cases h
    | some func =>
      rw [hfunc] at h
      refine .inr ⟨func, List.mem_of_find?_eq_some hfunc, by simpa using List.find?_some hfunc, ?_⟩
      exact (Option.some_inj.mp h).symm

namespace Accepted

/-- Every function can be called by its identifier. -/
theorem isCallee (h : Accepted source p) (hcount : (compile p).instructions.length < 2 ^ 31)
    {func : Function} (hfunc : func ∈ p.functions) :
    IsCallee (compile p) (asI32 (((globalEnv p).funcNameToId.lookup func.name).getD 0))
      (asI32 func.params.length) ∧ func.params.length < 2 ^ 31 := by
  obtain ⟨i, hi⟩ := List.mem_iff_getElem?.mp hfunc
  have hlt := (List.getElem?_eq_some_iff.mp hi).1
  have hids : i < 2 ^ 31 := by
    have hlength := (globalEnv p).length_le_functionsCode p.globals p.functions 0
    rw [instructions_compile h.nodup] at hcount
    omega
  have hargs : func.params.length < 2 ^ 31 := by
    have hslots := (h.wellFormed.functions func hfunc).slots
    have hlimit : maxLocalSlots = 1024 := rfl
    rw [Function.localSlots] at hslots
    omega
  rw [h.lookup_funcNameToId hi, Option.getD_some]
  refine ⟨⟨asI32_nonneg hids, asI32_nonneg hargs,
    (globalEnv p).functionInfo func i (entryPc p i), ?_, asUsize_asI32 hargs⟩, hargs⟩
  rw [asUsize_asI32 hids]
  exact h.lookup_iff.mpr ⟨func, hi, rfl⟩

theorem topResolves (h : Accepted source p) (hcount : (compile p).instructions.length < 2 ^ 31) :
    TopResolves (compile p) p.topLevel (globalEnv p) := by
  constructor
  · intro name t hname
    rcases topLevel_cases hname with ⟨glob, hglob, rfl, hentity⟩ | ⟨func, -, -, hentity⟩
    · obtain ⟨info, hinfo, -, hle⟩ := h.exists_global hglob
      refine ⟨info, hinfo, ?_⟩
      rw [GlobalVar.slots] at hle
      cases hsize : glob.arraySize with
      | none =>
        rw [hsize] at hle
        exact hle
      | some n =>
        rw [hsize] at hentity
        cases hentity
    · cases hentity
  · intro name t hname
    rcases topLevel_cases hname with ⟨glob, hglob, rfl, hentity⟩ | ⟨func, -, -, hentity⟩
    · obtain ⟨info, hinfo, hsize', hle⟩ := h.exists_global hglob
      rw [GlobalVar.slots] at hle
      cases hsize : glob.arraySize with
      | none =>
        rw [hsize] at hentity
        cases hentity
      | some n =>
        rw [hsize] at hle hsize'
        have hn := arrayUsize_lt n (h.wellFormed.sizes glob hglob n hsize)
        have hsize' : info.arraySize = arrayUsize n := hsize'
        have hle : info.slot + arrayUsize n ≤ maxGlobalSlots := hle
        rw [← hsize'] at hn hle
        exact ⟨info, hinfo, hn.1, hle⟩
    · cases hentity
  · intro name params hname
    rcases topLevel_cases hname with ⟨glob, -, -, hentity⟩ | ⟨func, hfunc, rfl, hentity⟩
    · rw [varEntity] at hentity
      split at hentity <;> cases hentity
    · obtain rfl := Entity.function.inj hentity
      have hcallee := h.isCallee hcount hfunc
      rw [List.length_map]
      exact hcallee

end Accepted

/-! ## Functions -/

variable {program : CompiledProgram} {info : FunctionInfo} {ext : Labels} {base : Nat} {S : Env}
  {T Γ Γ' : Names} {size : String → Option Int32}

/-- The parameters have their slots. -/
theorem Tracks.withParams {params : List Param} (hS : Tracks T size Γ S)
    (hvisible : ∀ name ∈ S.locals, Γ name ≠ none) (hparams : ParamsOk Γ params Γ')
    (hsize : ∀ param ∈ params, size param.name = none) : Tracks T size Γ' (S.withParams params) := by
  induction params generalizing Γ S with
  | nil =>
    cases hparams
    exact hS
  | cons param params ih =>
    cases hparams with
    | cons hfresh hparams =>
      obtain ⟨hnone, hsize⟩ := List.forall_mem_cons.mp hsize
      have hnew : param.name ∉ S.locals := fun hmem ↦ hvisible _ hmem hfresh
      have hdeclare := @Tracks.declareLocal _ _ _ _ hS _ param.paramType none hfresh hnone.symm
        fun _ hn ↦ nomatch hn
      rw [Env.declareLocal, if_neg hnew] at hdeclare
      refine ih hdeclare (fun name hmem ↦ ?_) hparams hsize
      have hmem : name ∈ S.locals.insert param.name _ := hmem
      rw [Names.declare]
      by_cases heq : name = param.name
      · subst heq
        rw [Function.update_self]
        exact Option.some_ne_none _
      · rw [Function.update_of_ne heq]
        exact hvisible name ((AList.mem_insert _).mp hmem |>.resolve_left heq)

/-- Nothing but the top level is visible where no local has a slot. -/
theorem Tracks.empty (T : Names) (size : String → Option Int32) (S : Env) :
    Tracks T size T { S with locals := ∅, nextLocalSlot := 0 } where
  slots := fun _ hentry ↦ absurd hentry List.not_mem_nil
  declared := fun name _ hlookup ↦ by
    rw [AList.lookup_empty] at hlookup
    cases hlookup
  visible := fun _ _ hname ↦ .inl hname
  topLevel := fun _ _ hname ↦ hname

mutual

theorem Stmt.map_decls : (stmt : Stmt) → stmt.decls.map Prod.fst = stmt.localNames
  | .varDecl .. => rfl
  | .ifStmt _ thenBody none _ => map_declsList thenBody
  | .ifStmt _ thenBody (some elseBody) _ => by
    rw [Stmt.decls, List.map_append, map_declsList thenBody, map_declsList elseBody, Stmt.localNames]
  | .whileStmt _ body _ => map_declsList body
  | .assign .. => rfl
  | .returnStmt .. => rfl
  | .print .. => rfl
  | .exprStmt .. => rfl
termination_by structural stmt => stmt

theorem map_declsList : (stmts : List Stmt) → (declsList stmts).map Prod.fst = localNamesList stmts
  | [] => rfl
  | stmt :: stmts => by
    rw [declsList, List.map_append, stmt.map_decls, map_declsList stmts, localNamesList]
termination_by structural stmts => stmts

end

/-- The global initializers leave no operand. -/
theorem typed_globalInits {globs : List GlobalVar} (hS : Resolves program info Γ S)
    (hglobs : ∀ glob ∈ globs, InitOk Γ glob.varType glob.initExpr ∧
      ∃ entry, S.globals.lookup glob.name = some entry ∧ entry.slot < maxGlobalSlots)
    (hbound : base + (S.globalInitsCode globs base).length < 2 ^ 31) :
    Typed program info ext base (S.globalInitsCode globs base) 0 0 := by
  induction globs generalizing base with
  | nil => exact .nil 0
  | cons glob globs ih =>
    obtain ⟨⟨hinit, entry, hentry, hslot⟩, hglobs⟩ := List.forall_mem_cons.mp hglobs
    rw [Env.globalInitsCode] at hbound ⊢
    cases hexpr : glob.initExpr with
    | none =>
      rw [hexpr] at hbound
      exact ih hglobs hbound
    | some init =>
      rw [hexpr] at hbound
      dsimp only at hbound ⊢
      simp only [List.length_append, List.length_singleton] at hbound
      rw [hentry]
      refine .append (.append (typed_expr hS base 0 init (hinit init hexpr) (by omega))
        (typed_plain rfl (Resolves.isGlobal hslot) le_rfl rfl)) (ih hglobs ?_)
      simp only [List.length_append, List.length_singleton]
      omega

namespace Accepted

/-- What is visible in a function has its slots. -/
theorem tracks (h : Accepted source p) {func : Function} (hfunc : func ∈ p.functions) :
    ∃ Γ Γ', StmtsOk Γ func.body Γ' ∧
      Tracks p.topLevel (declaredSize (declsList func.body)) Γ ((globalEnv p).ofFunction func) := by
  obtain ⟨Γ, Γ', hparams, hbody⟩ := (h.wellFormed.functions func hfunc).body
  refine ⟨Γ, Γ', hbody, (Tracks.empty _ _ _).withParams ?_ hparams ?_⟩
  · exact fun name hmem ↦ absurd hmem (AList.notMem_empty name)
  · intro param hparam
    have hnone : (declsList func.body).find? (·.1 = param.name) = none := by
      rw [List.find?_eq_none]
      intro d hd hname
      have hlocal : d.1 ∈ localNamesList func.body := by
        rw [← map_declsList]
        exact List.mem_map_of_mem hd
      refine (hparams.eq_none_of_eq_none (hbody.fresh _ hlocal)).2 ?_
      rw [of_decide_eq_true hname]
      exact List.mem_map_of_mem hparam
    rw [declaredSize, hnone]
    rfl

theorem eq_of_name_eq (h : Accepted source p) {func func' : Function} (hfunc : func ∈ p.functions)
    (hfunc' : func' ∈ p.functions) (hname : func.name = func'.name) : func = func' :=
  List.inj_on_of_nodup_map h.nodup hfunc hfunc' hname

theorem ready (h : Accepted source p) (hcount : (compile p).instructions.length < 2 ^ 31)
    {func : Function} (hfunc : func ∈ p.functions) {Γ : Names} (id base : Nat)
    (htracks : Tracks p.topLevel size Γ ((globalEnv p).ofFunction func)) :
    Ready (compile p) ((globalEnv p).functionInfo func id base) p.topLevel size Γ
      ((globalEnv p).ofFunction func) where
  localCount_le := ((globalEnv p).localCount_le_localSlots func).trans
    (h.wellFormed.functions func hfunc).slots
  top := (h.topResolves hcount).congr (Env.globals_withParams _ func.params)
    (Env.funcNameToId_withParams _ func.params)
  tracks := htracks

/-- **The code of a function is balanced.** -/
theorem typed_function (h : Accepted source p) (hagree : p.DeclsAgree)
    (hcount : (compile p).instructions.length < 2 ^ 31) {func : Function}
    (hfunc : func ∈ p.functions) (id base : Nat)
    (hbound : base + ((globalEnv p).functionCode p.globals func base).length < 2 ^ 31) :
    ∃ code, (globalEnv p).functionCode p.globals func base =
        code ++ [⟨.loadConst, 0, 0⟩, .simple .return] ∧
      Typed (compile p) ((globalEnv p).functionInfo func id base) (fun _ _ ↦ False) base code 0 0 := by
  obtain ⟨Γ, Γ', hbody, htracks⟩ := h.tracks hfunc
  have hready := h.ready hcount hfunc id base htracks
  refine ⟨_, rfl, ?_⟩
  rw [Env.functionCode] at hbound
  rw [List.length_append, List.length_append, List.length_cons, List.length_singleton] at hbound
  have hslots : ((globalEnv p).ofFunction func).nextLocalSlot ≤ (globalEnv p).localCount func :=
    (((globalEnv p).ofFunction func).extends_afterStmts func.body).slot_le
  refine .append (m := 0) ?_ ?_
  · split
    · next hmain =>
      obtain ⟨main, hmem, hname, hparams⟩ := h.wellFormed.main
      obtain rfl := h.eq_of_name_eq hfunc hmem (hmain.trans hname.symm)
      have henv : (globalEnv p).ofFunction func =
          { globalEnv p with locals := ∅, nextLocalSlot := 0 } := by
        rw [Env.ofFunction, hparams]
        rfl
      rw [if_pos hmain] at hbound
      have htop : Tracks p.topLevel (fun _ ↦ none) p.topLevel ((globalEnv p).ofFunction func) := by
        rw [henv]
        exact .empty _ _ _
      refine typed_globalInits ((h.ready hcount hfunc id base htop).resolves hslots) ?_ (by omega)
      intro glob hglob
      obtain ⟨entry, hentry, -, hle⟩ := h.exists_global hglob
      refine ⟨h.wellFormed.inits glob hglob, entry, ?_, ?_⟩
      · rw [henv]
        exact hentry
      · rw [GlobalVar.slots] at hle
        split at hle
        · next n hn =>
          have hpos := arrayUsize_lt n (h.wellFormed.sizes glob hglob n hn)
          rw [arrayUsize] at hpos
          omega
        · omega
    · exact .nil 0
  · refine (typed_stmts hready _ func.body hbody (fun d hd ↦ ?_) le_rfl (by omega)).1
    exact declaredSize_eq (hagree func hfunc) hd

end Accepted

end MiniLang
