import MiniLang.Bytecode.Balance
import MiniLang.Bytecode.FrontEnd

/-!
# The table of slots that is rebuilt

The compiler goes over the body of a function twice. The first pass gives every declared name its
slot; the second starts again from the parameters and declares the names once more while it emits
code. Throughout the second pass there are thus two tables, the one being rebuilt and the finished
one.

The invariant that relates them is `Env.Rebuilds T S Γ`: the table `S` being rebuilt grows into the
finished table `T`, and where the names `Γ` of the language rules are visible it has the entries of
`T` already. Growing alone would not do, since a name that `S` lacks might be global in `S` and
local in `T`; the rules exclude this, as no local name may be declared where it is visible. A
well-formed statement keeps the invariant, with what is visible after it, and under the invariant
its code is the code that the finished table gives.
-/

namespace MiniLang

namespace Compiler

namespace Env

/-! ## Tables that grow -/

/-- `T` has every local of `S`, at the same slot. -/
structure Grows (S T : Env) : Prop where
  globals : T.globals = S.globals
  funcs : T.funcNameToId = S.funcNameToId
  slots : ∀ name loc, S.locals.lookup name = some loc → T.locals.lookup name = some loc

variable {S S' T : Env}

theorem Grows.refl (S : Env) : S.Grows S := ⟨rfl, rfl, fun _ _ h ↦ h⟩

theorem Grows.trans (h : S.Grows S') (h' : S'.Grows T) : S.Grows T :=
  ⟨h'.globals.trans h.globals, h'.funcs.trans h.funcs,
    fun name loc hloc ↦ h'.slots name loc (h.slots name loc hloc)⟩

theorem grows_declareLocal (S : Env) (name : String) (arraySize : Option Int32) :
    S.Grows (S.declareLocal name arraySize) :=
  ⟨S.globals_declareLocal name arraySize, S.funcNameToId_declareLocal name arraySize,
    fun _ _ h ↦ lookup_declareLocal arraySize h⟩

theorem grows_afterStmts (S : Env) (stmts : List Stmt) : S.Grows (S.afterStmts stmts) :=
  ⟨S.globals_afterStmts stmts, S.funcNameToId_afterStmts stmts,
    fun _ _ h ↦ lookup_afterStmts h stmts⟩

theorem Grows.lookup_eq_none (h : S.Grows T) {name : String}
    (hnone : T.locals.lookup name = none) : S.locals.lookup name = none := by
  rw [Option.eq_none_iff_forall_ne_some]
  intro loc hloc
  rw [h.slots name loc hloc] at hnone
  cases hnone

theorem Grows.mem (h : S.Grows T) {name : String} (hname : name ∈ S.locals) :
    name ∈ T.locals := by
  obtain ⟨loc, hloc⟩ := Option.isSome_iff_exists.mp (AList.lookup_isSome.mpr hname)
  exact AList.lookup_isSome.mp (by rw [h.slots name loc hloc]; rfl)

theorem mem_declareLocal (S : Env) (name : String) (arraySize : Option Int32) :
    name ∈ (S.declareLocal name arraySize).locals := by
  rw [declareLocal]
  split
  · next hmem => exact hmem
  · exact AList.mem_insert _ |>.mpr (.inl rfl)

theorem declareLocal_of_mem {name : String} (h : name ∈ S.locals) (arraySize : Option Int32) :
    S.declareLocal name arraySize = S := if_pos h

/-! ## Tables that declare nothing more -/

mutual

/-- Declarations of names that have their slots change nothing. -/
theorem afterStmt_of_mem {T : Env} : (stmt : Stmt) → (∀ name ∈ stmt.localNames, name ∈ T.locals) →
    T.afterStmt stmt = T
  | .varDecl _ name _ arraySize _, h => declareLocal_of_mem (h name List.mem_cons_self) arraySize
  | .ifStmt _ thenBody none _, h => afterStmts_of_mem thenBody h
  | .ifStmt _ thenBody (some elseBody) _, h => by
    have hthen := afterStmts_of_mem thenBody fun name hname ↦ h name (List.mem_append_left _ hname)
    rw [afterStmt, hthen]
    exact afterStmts_of_mem elseBody fun name hname ↦ h name (List.mem_append_right _ hname)
  | .whileStmt _ body _, h => afterStmts_of_mem body h
  | .assign .., _ => rfl
  | .returnStmt .., _ => rfl
  | .print .., _ => rfl
  | .exprStmt .., _ => rfl
termination_by structural stmt => stmt

theorem afterStmts_of_mem {T : Env} : (stmts : List Stmt) →
    (∀ name ∈ localNamesList stmts, name ∈ T.locals) → T.afterStmts stmts = T
  | [], _ => rfl
  | stmt :: stmts, h => by
    rw [afterStmts, afterStmt_of_mem stmt fun name hname ↦ h name (List.mem_append_left _ hname)]
    exact afterStmts_of_mem stmts fun name hname ↦ h name (List.mem_append_right _ hname)
termination_by structural stmts => stmts

end

theorem mem_afterStmts (S : Env) {stmts : List Stmt} {name : String}
    (h : name ∈ localNamesList stmts) : name ∈ (S.afterStmts stmts).locals := by
  have hkeys := (S.declares_afterStmts stmts).keys
  refine List.mem_toFinset.mp (hkeys ▸ ?_)
  exact Finset.mem_union_right _ (List.mem_toFinset.mpr h)

/-! ## The finished table serves the one being rebuilt -/

/-- Where `Γ` is visible, the table `S` being rebuilt has the entries of the finished table `T`. -/
structure Rebuilds (T S : Env) (Γ : Names) : Prop where
  grows : S.Grows T
  visible : ∀ name, Γ name ≠ none → S.locals.lookup name = T.locals.lookup name

variable {Γ Γ' : Names}

theorem Rebuilds.of_grows (h : Rebuilds T S Γ) (hS : S.Grows S') (hT : S'.Grows T) :
    Rebuilds T S' Γ := by
  refine ⟨hT, fun name hname ↦ ?_⟩
  have hvisible := h.visible name hname
  cases hloc : T.locals.lookup name with
  | none => exact hT.lookup_eq_none hloc
  | some loc => exact hS.slots name loc (hvisible.trans hloc)

theorem Rebuilds.declare (h : Rebuilds T S Γ) {name : String} {arraySize : Option Int32}
    (hT : (S.declareLocal name arraySize).Grows T) (entity : Entity) :
    Rebuilds T (S.declareLocal name arraySize) (Γ.declare name entity) := by
  refine ⟨hT, fun name' hname ↦ ?_⟩
  by_cases heq : name' = name
  · subst heq
    obtain ⟨loc, hloc⟩ := Option.isSome_iff_exists.mp
      (AList.lookup_isSome.mpr (S.mem_declareLocal name' arraySize))
    rw [hloc, hT.slots name' loc hloc]
  · rw [Names.declare, Function.update_of_ne heq] at hname
    exact (h.of_grows (S.grows_declareLocal name arraySize) hT).visible name' hname

theorem Rebuilds.accessCode (h : Rebuilds T S Γ) {name : String} (hname : Γ name ≠ none)
    (localOp globalOp : Opcode) (sized : Bool) :
    S.accessCode name localOp globalOp sized = T.accessCode name localOp globalOp sized := by
  rw [Env.accessCode, Env.accessCode, h.visible name hname, h.grows.globals]

theorem ne_none_of_eq_some {name : String} {entity : Entity} (h : Γ name = some entity) :
    Γ name ≠ none := by
  rw [h]
  exact Option.some_ne_none _

mutual

/-- A typed expression names nothing but what is visible. -/
theorem Rebuilds.exprCode {T S : Env} {Γ : Names} (h : Rebuilds T S Γ) : (e : Expr) → {t : Ty} →
    HasType Γ e t → (base : Nat) → S.exprCode e base = T.exprCode e base
  | .intLiteral .., _, _, _ => rfl
  | .boolLiteral .., _, _, _ => rfl
  | .identifier .., _, .identifier hname _, _ => h.accessCode (ne_none_of_eq_some hname) ..
  | .binary op left right _, _, .binary hl hr _ _, base => by
    have hleft := Rebuilds.exprCode h left hl
    have hright := Rebuilds.exprCode h right hr
    cases op with
    | and => rw [Env.exprCode, Env.exprCode, hleft, hright]
    | or => rw [Env.exprCode, Env.exprCode, hleft, hright]
    | _ =>
      rw [exprCode_strict (by decide) (by decide), exprCode_strict (by decide) (by decide), hleft,
        hright]
  | .unary op operand _, _, .unary ht _ _, base => by
    rw [Env.exprCode, Env.exprCode, Rebuilds.exprCode h operand ht]
  | .call name args _, _, .call _ hargs _, base => by
    rw [Env.exprCode, Env.exprCode, Rebuilds.argsCode h args hargs, h.grows.funcs]
  | .arrayIndex name index _, _, .arrayIndex hname hindex _, base => by
    rw [Env.exprCode, Env.exprCode, Rebuilds.exprCode h index hindex,
      h.accessCode (ne_none_of_eq_some hname)]
termination_by structural e => e

theorem Rebuilds.argsCode {T S : Env} {Γ : Names} (h : Rebuilds T S Γ) : (args : List Expr) →
    {ts : List Ty} → HaveTypes Γ args ts → (base : Nat) →
    S.argsCode args base = T.argsCode args base
  | [], _, _, _ => rfl
  | arg :: args, _, .cons harg hargs, base => by
    rw [Env.argsCode, Env.argsCode, Rebuilds.exprCode h arg harg, Rebuilds.argsCode h args hargs]
termination_by structural args => args

end

theorem Rebuilds.assignCode (h : Rebuilds T S Γ) {target : String} {indexExpr : Option Expr}
    {value : Expr} {span : Span} (hok : StmtOk Γ (.assign target indexExpr value span) Γ')
    (base : Nat) : S.assignCode target indexExpr value base =
      T.assignCode target indexExpr value base := by
  have htarget : Γ target ≠ none := by
    cases hok with
    | assignScalar hname _ _ => exact ne_none_of_eq_some hname
    | assignElement hname _ _ _ => exact ne_none_of_eq_some hname
  have hmem : target ∈ S.locals ↔ target ∈ T.locals := by
    rw [← AList.lookup_isSome, ← AList.lookup_isSome, h.visible target htarget]
  cases hok with
  | assignScalar _ hv _ =>
    simp only [Env.assignCode, hmem, h.grows.globals, h.exprCode value hv, h.accessCode htarget]
  | assignElement _ hi hv _ =>
    simp only [Env.assignCode, hmem, h.grows.globals, h.exprCode _ hi, h.exprCode value hv,
      h.accessCode htarget]

theorem Rebuilds.varDeclCode (h : Rebuilds T S Γ) {type : Ty} {name : String}
    {initExpr : Option Expr} (hname : name ∈ S.locals) (hinit : InitOk Γ type initExpr)
    (base : Nat) : S.varDeclCode name initExpr base = T.varDeclCode name initExpr base := by
  obtain ⟨loc, hloc⟩ := Option.isSome_iff_exists.mp (AList.lookup_isSome.mpr hname)
  rw [Env.varDeclCode, Env.varDeclCode, hloc, h.grows.slots name loc hloc]
  cases initExpr with
  | none => rfl
  | some init => simp only [h.exprCode init (hinit init rfl)]

mutual

/-- **A statement is compiled as the finished table compiles it**, and what is visible after it is
rebuilt. -/
theorem Rebuilds.stmtCode {T S : Env} {Γ Γ' : Names} (h : Rebuilds T S Γ) : (stmt : Stmt) →
    StmtOk Γ stmt Γ' → (S.afterStmt stmt).Grows T →
    (∀ base, S.stmtCode stmt base = T.stmtCode stmt base) ∧ Rebuilds T (S.afterStmt stmt) Γ'
  | .varDecl type name initExpr arraySize _, .varDecl _ _ hinit _, hT => by
    have hmem := S.mem_declareLocal name arraySize
    have hafter := h.declare hT (varEntity type arraySize)
    refine ⟨fun base ↦ ?_, hafter⟩
    rw [Env.stmtCode, Env.stmtCode, declareLocal_of_mem (hT.mem hmem)]
    exact hafter.varDeclCode hmem hinit base
  | .assign .., .assignScalar hname hv span, _ =>
    ⟨h.assignCode (.assignScalar hname hv span), h⟩
  | .assign .., .assignElement hname hi hv span, _ =>
    ⟨h.assignCode (.assignElement hname hi hv span), h⟩
  | .ifStmt condition thenBody none _, .ifThen ⟨_, _, hc⟩ hthen _, hT => by
    obtain ⟨hcode, -⟩ := Rebuilds.stmtsCode h thenBody hthen hT
    refine ⟨fun base ↦ ?_, h.of_grows (S.grows_afterStmts thenBody) hT⟩
    simp only [Env.stmtCode, h.exprCode condition hc, hcode]
  | .ifStmt condition thenBody (some elseBody) _, .ifElse ⟨_, _, hc⟩ hthen helse _, hT => by
    have hbetween := ((S.afterStmts thenBody).grows_afterStmts elseBody).trans hT
    have hrest := h.of_grows (S.grows_afterStmts thenBody) hbetween
    obtain ⟨hcode, -⟩ := Rebuilds.stmtsCode h thenBody hthen hbetween
    obtain ⟨hcode', -⟩ := Rebuilds.stmtsCode hrest elseBody helse hT
    have hfixed : T.afterStmts thenBody = T :=
      afterStmts_of_mem thenBody fun name hname ↦ hbetween.mem (S.mem_afterStmts hname)
    refine ⟨fun base ↦ ?_, hrest.of_grows ((S.afterStmts thenBody).grows_afterStmts elseBody) hT⟩
    simp only [Env.stmtCode, h.exprCode condition hc, hcode, hcode', hfixed]
  | .whileStmt condition body _, .whileStmt ⟨_, _, hc⟩ hbody _, hT => by
    obtain ⟨hcode, -⟩ := Rebuilds.stmtsCode h body hbody hT
    refine ⟨fun base ↦ ?_, h.of_grows (S.grows_afterStmts body) hT⟩
    simp only [Env.stmtCode, h.exprCode condition hc, hcode]
  | .returnStmt value _, .returnStmt hv _, _ =>
    ⟨fun base ↦ by rw [Env.stmtCode, Env.stmtCode, h.exprCode value hv], h⟩
  | .print value _, .print hv _, _ =>
    ⟨fun base ↦ by rw [Env.stmtCode, Env.stmtCode, h.exprCode value hv], h⟩
  | .exprStmt expr _, .exprStmt he _, _ =>
    ⟨fun base ↦ by rw [Env.stmtCode, Env.stmtCode, h.exprCode expr he], h⟩
termination_by structural stmt => stmt

theorem Rebuilds.stmtsCode {T S : Env} {Γ Γ' : Names} (h : Rebuilds T S Γ) :
    (stmts : List Stmt) → StmtsOk Γ stmts Γ' → (S.afterStmts stmts).Grows T →
    (∀ base, S.stmtsCode stmts base = T.stmtsCode stmts base) ∧
      Rebuilds T (S.afterStmts stmts) Γ'
  | [], .nil _, _ => ⟨fun _ ↦ rfl, h⟩
  | stmt :: stmts, .cons hok hs, hT => by
    have hbetween := ((S.afterStmt stmt).grows_afterStmts stmts).trans hT
    obtain ⟨hcode, hafter⟩ := Rebuilds.stmtCode h stmt hok hbetween
    obtain ⟨hcode', hafter'⟩ := Rebuilds.stmtsCode hafter stmts hs hT
    have hnames : ∀ name ∈ stmt.localNames, name ∈ T.locals := fun name hname ↦
      hbetween.mem (@mem_afterStmts S [stmt] name (List.mem_append_left _ hname))
    refine ⟨fun base ↦ ?_, hafter'⟩
    rw [Env.stmtsCode, Env.stmtsCode, hcode, hcode', afterStmt_of_mem stmt hnames]
termination_by structural stmts => stmts

end

/-- The global initializers name nothing but what is visible at the top level. -/
theorem Rebuilds.globalInitsCode (h : Rebuilds T S Γ) : (globs : List GlobalVar) →
    (∀ g ∈ globs, InitOk Γ g.varType g.initExpr) → (base : Nat) →
    S.globalInitsCode globs base = T.globalInitsCode globs base
  | [], _, _ => rfl
  | glob :: globs, hinits, base => by
    have ih := h.globalInitsCode globs fun g hg ↦ hinits g (List.mem_cons_of_mem _ hg)
    rw [Env.globalInitsCode, Env.globalInitsCode]
    cases hinit : glob.initExpr with
    | none => exact ih base
    | some init =>
      dsimp only
      rw [h.exprCode init (hinits glob List.mem_cons_self init hinit), ih, h.grows.globals]

end Env

end Compiler

end MiniLang
