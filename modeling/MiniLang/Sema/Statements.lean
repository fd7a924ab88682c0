import MiniLang.Sema.Expressions
import Mathlib.Data.Finset.Dedup
import Mathlib.Data.Finset.Card

/-!
# The analyzer on statements

Every part of the analyzer extends the state it starts from: errors are only appended, the scopes
around the current one and the function table stay. On such states the analysis of a statement list
leaves the errors empty exactly when the list is well-formed and the local slots suffice.

## Specifications

`Spec x J` relates a computation of the analyzer to a judgement on the visible names before and
after: started without errors on a state that represents the names, it ends without errors exactly
when the judgement holds and the slots suffice, and then the state represents the names after. There
is a rule for sequences and one for blocks; every statement is an instance of them and of the
specifications of the single checks.

## Errors already there

A specification says nothing of runs that start with errors. That is enough because of `Extending`:
a part that leaves an error cannot be followed by one that removes it. The judgement is
deterministic (`StmtOk.unique`), so the names after the first part of a sequence are those that the
second part is analyzed with.

## Slots

Local slots are counted by distinct names within a function, not by declarations, so a name that is
declared in two blocks takes one slot. The count is a part of the state and of `Spec`; the limit is
checked at each new name.
-/

namespace MiniLang

/-! ## Determinism of the judgement -/

mutual

theorem StmtOk.unique {Γ Γ₁ Γ₂ : Names} : ∀ {stmt : Stmt}, StmtOk Γ stmt Γ₁ →
    StmtOk Γ stmt Γ₂ → Γ₁ = Γ₂
  | .varDecl .., .varDecl .., .varDecl .. => rfl
  | .assign .., .assignScalar .., .assignScalar .. => rfl
  | .assign .., .assignElement .., .assignElement .. => rfl
  | .ifStmt .., .ifThen .., .ifThen .. => rfl
  | .ifStmt .., .ifElse .., .ifElse .. => rfl
  | .whileStmt .., .whileStmt .., .whileStmt .. => rfl
  | .returnStmt .., .returnStmt .., .returnStmt .. => rfl
  | .print .., .print .., .print .. => rfl
  | .exprStmt .., .exprStmt .., .exprStmt .. => rfl

end

namespace SemanticAnalyzer

/-- The state after a computation. -/
def exec {α : Type} (x : SemaM α) (a : SemanticAnalyzer) : SemanticAnalyzer := (x.run a).2

section Exec

variable {α β : Type} (a : SemanticAnalyzer)

@[simp] theorem exec_pure (v : α) : exec (pure v) a = a := rfl

theorem exec_bind (x : SemaM α) (f : α → SemaM β) :
    exec (x >>= f) a = exec (f (x.run a).1) (exec x a) := rfl

@[simp] theorem exec_seq (x : SemaM Unit) (y : SemaM β) :
    exec (do x; y) a = exec y (exec x a) := rfl

@[simp] theorem exec_get_bind (f : SemanticAnalyzer → SemaM β) :
    exec (get >>= f) a = exec (f a) a := rfl

@[simp] theorem exec_lookup_bind (name : String) (f : Option Symbol → SemaM β) :
    exec (lookup name >>= f) a = exec (f (a.scope.lookup name)) a := rfl

@[simp] theorem exec_set (b : SemanticAnalyzer) : exec (set b) a = b := rfl

@[simp] theorem exec_modify (f : SemanticAnalyzer → SemanticAnalyzer) :
    exec (modify f) a = f a := rfl

theorem Reports.exec_eq {x : SemaM α} {v : α} {es : List SemanticError} {a : SemanticAnalyzer}
    (h : Reports x a v es) : exec x a = a.report es := by
  rw [exec, h]

theorem Reports.exec_bind_eq {x : SemaM α} {f : α → SemaM β} {v : α} {es : List SemanticError}
    {a : SemanticAnalyzer} (h : Reports x a v es) :
    exec (x >>= f) a = exec (f v) (a.report es) := by
  rw [exec_bind, h.exec_eq, h]

end Exec

/-! ## Expressions only report -/

/-- From every state, `x` changes nothing but the list of errors. -/
def OnlyReports {α : Type} (x : SemaM α) : Prop := ∀ a, ∃ v es, Reports x a v es

namespace OnlyReports

variable {α β : Type}

theorem pure (v : α) : OnlyReports (Pure.pure v) := fun _ ↦ ⟨v, [], .pure v⟩

theorem bind {x : SemaM α} {f : α → SemaM β} (hx : OnlyReports x) (hf : ∀ v, OnlyReports (f v)) :
    OnlyReports (x >>= f) := by
  intro a
  obtain ⟨v, es, hr⟩ := hx a
  obtain ⟨w, es', hr'⟩ := hf v (a.report es)
  exact ⟨w, _, hr.bind hr'⟩

theorem error {message : String} {span : Span} :
    OnlyReports (SemanticAnalyzer.error message span) := fun _ ↦ ⟨_, _, .error ..⟩

theorem errorIf {p : Prop} [Decidable p] {message : String} {span : Span} :
    OnlyReports (SemanticAnalyzer.errorIf p message span) := fun _ ↦ ⟨_, _, .errorIf ..⟩

theorem get : OnlyReports (MonadState.get : SemaM SemanticAnalyzer) :=
  fun a ↦ ⟨a, [], by rw [Reports, report_nil]; rfl⟩

theorem lookup (name : String) : OnlyReports (SemanticAnalyzer.lookup name) :=
  fun a ↦ ⟨a.scope.lookup name, [], by rw [Reports, report_nil]; rfl⟩

theorem error_then {message : String} {span : Span} {v : α} :
    OnlyReports (do SemanticAnalyzer.error message span; return v) :=
  bind error fun _ ↦ pure v

end OnlyReports

theorem analyzeIdentifier_onlyReports (name : String) (span : Span) :
    OnlyReports (analyzeIdentifier name span) := by
  refine .bind (.lookup name) fun sym ↦ ?_
  cases sym with
  | none => exact .error_then
  | some sym =>
    show OnlyReports (if sym.isFunction then _ else if sym.isArray then _ else _)
    split
    · exact .error_then
    · split
      · exact .error_then
      · exact .pure _

theorem analyzeBinaryOp_onlyReports (op : BinaryOp) (t u : Ty) (span : Span) :
    OnlyReports (analyzeBinaryOp op t u span) := by
  intro a
  obtain ⟨v, es, h, -⟩ := analyzeBinaryOp_spec a op t u span
  exact ⟨v, es, h⟩

theorem analyzeUnaryOp_onlyReports (op : UnaryOp) (t : Ty) (span : Span) :
    OnlyReports (analyzeUnaryOp op t span) := by
  intro a
  obtain ⟨v, es, h, -⟩ := analyzeUnaryOp_spec a op t span
  exact ⟨v, es, h⟩

mutual

theorem analyzeExpr_onlyReports : ∀ e : Expr, OnlyReports (analyzeExpr e)
  | .intLiteral .. => .pure _
  | .boolLiteral .. => .pure _
  | .identifier name span => analyzeIdentifier_onlyReports name span
  | .binary op left right span =>
    .bind (analyzeExpr_onlyReports left) fun t ↦
      .bind (analyzeExpr_onlyReports right) fun u ↦ analyzeBinaryOp_onlyReports op t u span
  | .unary op operand span =>
    .bind (analyzeExpr_onlyReports operand) fun t ↦ analyzeUnaryOp_onlyReports op t span
  | .call name args span => by
    unfold analyzeExpr
    refine .bind .get fun a ↦ ?_
    split
    · exact .error_then
    · split
      · exact .error_then
      · exact .bind (analyzeArgs_onlyReports _ args _ span) fun _ ↦ .pure _
  | .arrayIndex name index span => by
    unfold analyzeExpr
    refine .bind (.lookup name) fun sym ↦ ?_
    split
    · exact .error_then
    · split
      · exact .error_then
      · exact .bind (analyzeExpr_onlyReports index) fun _ ↦ .bind .errorIf fun _ ↦ .pure _

theorem analyzeArgs_onlyReports (i : Nat) : ∀ (args : List Expr) (ts : List Ty) (span : Span),
    OnlyReports (analyzeArgs i args ts span)
  | [], _, _ => .pure _
  | _ :: _, [], _ => .pure _
  | arg :: args, _ :: ts, span =>
    .bind (analyzeExpr_onlyReports arg) fun _ ↦ .bind .errorIf fun _ ↦
      analyzeArgs_onlyReports (i + 1) args ts span

end

/-! ## Statements extend the state -/

/-- `b` comes after `a` in the analysis of one function body. -/
structure Extends (a b : SemanticAnalyzer) : Prop where
  errors : a.errors <+: b.errors
  parents : b.scope.parents = a.scope.parents
  functions : b.functions = a.functions

theorem Extends.refl (a : SemanticAnalyzer) : Extends a a := ⟨List.prefix_rfl, rfl, rfl⟩

theorem Extends.trans {a b c : SemanticAnalyzer} (h : Extends a b) (h' : Extends b c) :
    Extends a c :=
  ⟨h.errors.trans h'.errors, h'.parents.trans h.parents, h'.functions.trans h.functions⟩

theorem Extends.errors_eq_nil {a b : SemanticAnalyzer} (h : Extends a b) (hb : b.errors = []) :
    a.errors = [] := by
  have := h.errors
  rwa [hb, List.prefix_nil] at this

def Extending {α : Type} (x : SemaM α) : Prop := ∀ a, Extends a (exec x a)

namespace Extending

variable {α β : Type}

theorem bind {x : SemaM α} {f : α → SemaM β} (hx : Extending x) (hf : ∀ v, Extending (f v)) :
    Extending (x >>= f) :=
  fun a ↦ (hx a).trans (hf _ _)

theorem of_onlyReports {x : SemaM α} (h : OnlyReports x) : Extending x := by
  intro a
  obtain ⟨v, es, hr⟩ := h a
  rw [hr.exec_eq]
  exact ⟨List.prefix_append _ _, rfl, rfl⟩

/-- The names a block declares are gone after it. -/
theorem block_scope {x : SemaM Unit} (h : Extending x) (a : SemanticAnalyzer) :
    (exec (SemanticAnalyzer.block x) a).scope = a.scope := by
  have hp := (h { a with scope := a.scope.push }).parents
  show (exec x { a with scope := a.scope.push }).scope.pop = a.scope
  rw [Scope.pop, hp]
  rfl

theorem block {x : SemaM Unit} (h : Extending x) : Extending (SemanticAnalyzer.block x) := by
  intro a
  have hx := h { a with scope := a.scope.push }
  exact ⟨hx.errors, by rw [block_scope h], hx.functions⟩

end Extending

theorem define_extending {sym : Symbol} {message : String} {span : Span} :
    Extending (define sym message span) := by
  intro a
  unfold define
  rw [exec_get_bind]
  split
  · exact Extending.of_onlyReports .error a
  · exact ⟨List.prefix_rfl, rfl, rfl⟩

theorem validateArraySize_onlyReports {name : String} {arraySize : Option Int32} {span : Span} :
    OnlyReports (validateArraySize name arraySize span) := by
  unfold validateArraySize
  split
  · exact .pure _
  · split
    · exact .pure _
    · exact .error_then

theorem checkLocalSlotLimit_onlyReports {span : Span} :
    OnlyReports (checkLocalSlotLimit span) :=
  .bind .get fun _ ↦ .errorIf

theorem addLocalSlot_extending {name : String} {span : Span} :
    Extending (addLocalSlot name span) := by
  intro a
  unfold addLocalSlot
  rw [exec_get_bind]
  split
  · exact .refl a
  · rw [exec_seq, exec_set]
    have h := Extending.of_onlyReports (@checkLocalSlotLimit_onlyReports span)
      { a with
        currentLocalNames := insert name a.currentLocalNames
        currentLocalSlots := min (a.currentLocalSlots + 1) usizeMax }
    exact ⟨h.errors, h.parents, h.functions⟩

theorem analyzeValue_onlyReports {value : Expr} {declared : Ty} {span : Span} :
    OnlyReports (analyzeValue value declared span) :=
  .bind (analyzeExpr_onlyReports value) fun _ ↦ .errorIf

theorem analyzeInit_onlyReports {init : Option Expr} {declared : Ty} {span : Span} :
    OnlyReports (analyzeInit init declared span) := by
  cases init with
  | none => exact .pure _
  | some init => exact analyzeValue_onlyReports

theorem analyzeInt_onlyReports {e : Expr} {message : String} {span : Span} :
    OnlyReports (analyzeInt e message span) :=
  .bind (analyzeExpr_onlyReports e) fun _ ↦ .errorIf

theorem analyzeCondition_onlyReports {condition : Expr} {span : Span} :
    OnlyReports (analyzeCondition condition span) :=
  .bind (analyzeExpr_onlyReports condition) fun _ ↦ .errorIf

theorem analyzeAssign_onlyReports {target : String} {indexExpr : Option Expr} {value : Expr}
    {span : Span} : OnlyReports (analyzeAssign target indexExpr value span) := by
  refine .bind (.lookup target) fun sym ↦ ?_
  split
  · exact .error
  · split
    · exact .error
    · split
      · exact .bind analyzeInt_onlyReports fun _ ↦ .bind .errorIf fun _ ↦
          analyzeValue_onlyReports
      · split
        · exact .error
        · exact analyzeValue_onlyReports

theorem analyzeVarDecl_extending {varType : Ty} {name : String} {initExpr : Option Expr}
    {arraySize : Option Int32} {span : Span} :
    Extending (analyzeVarDecl varType name initExpr arraySize span) := by
  refine .bind (.of_onlyReports (.lookup name)) fun sym ↦ ?_
  split
  · exact .of_onlyReports .error
  · exact .bind (.of_onlyReports validateArraySize_onlyReports) fun _ ↦
      .bind addLocalSlot_extending fun _ ↦ .bind define_extending fun _ ↦
        .of_onlyReports analyzeInit_onlyReports

mutual

theorem analyzeStmt_extending : ∀ stmt : Stmt, Extending (analyzeStmt stmt)
  | .varDecl .. => analyzeVarDecl_extending
  | .assign .. => .of_onlyReports analyzeAssign_onlyReports
  | .ifStmt _ thenBody none _ =>
    .bind (.of_onlyReports analyzeCondition_onlyReports) fun _ ↦
      .block (analyzeStmts_extending thenBody)
  | .ifStmt _ thenBody (some elseBody) _ =>
    .bind (.of_onlyReports analyzeCondition_onlyReports) fun _ ↦
      .bind (.block (analyzeStmts_extending thenBody)) fun _ ↦
        .block (analyzeStmts_extending elseBody)
  | .whileStmt _ body _ =>
    .bind (.of_onlyReports analyzeCondition_onlyReports) fun _ ↦
      .block (analyzeStmts_extending body)
  | .returnStmt .. => .of_onlyReports analyzeInt_onlyReports
  | .print value _ => .of_onlyReports (.bind (analyzeExpr_onlyReports value) fun _ ↦ .pure _)
  | .exprStmt expr _ => .of_onlyReports (.bind (analyzeExpr_onlyReports expr) fun _ ↦ .pure _)

theorem analyzeStmts_extending : ∀ stmts : List Stmt, Extending (analyzeStmts stmts)
  | [] => .of_onlyReports (.pure _)
  | stmt :: stmts =>
    .bind (analyzeStmt_extending stmt) fun _ ↦ analyzeStmts_extending stmts

end

/-! ## Declarations -/

/-- The local slots are counted by the distinct names and within the limit. -/
structure Within (a : SemanticAnalyzer) : Prop where
  slots : a.currentLocalSlots = a.currentLocalNames.card
  limit : a.currentLocalNames.card ≤ maxLocalSlots

theorem validateArraySize_reports (a : SemanticAnalyzer) (name : String)
    (arraySize : Option Int32) (span : Span) :
    ∃ v es, Reports (validateArraySize name arraySize span) a v es ∧
      (es = [] ↔ ∀ n ∈ arraySize, 0 < n) := by
  cases arraySize with
  | none => exact ⟨none, [], .pure _, by simp⟩
  | some size =>
    by_cases hsize : 0 < size
    · exact ⟨_, [], by rw [validateArraySize]; simp only [hsize, if_true]; exact .pure _,
        by simpa using hsize⟩
    · exact ⟨_, _, by rw [validateArraySize]; simp only [hsize, if_false]; exact .error_then ..,
        by simpa using hsize⟩

theorem checkLocalSlotLimit_reports (a : SemanticAnalyzer) (span : Span) :
    ∃ es, Reports (checkLocalSlotLimit span) a () es ∧
      (es = [] ↔ a.currentLocalSlots ≤ maxLocalSlots) :=
  ⟨_, .get_bind (.errorIf ..), by rw [ite_singleton_eq_nil, Nat.not_lt]⟩

/-- `a` with `name` counted among the local names. -/
def countLocal (a : SemanticAnalyzer) (name : String) : SemanticAnalyzer :=
  { a with
    currentLocalNames := insert name a.currentLocalNames
    currentLocalSlots := (insert name a.currentLocalNames).card }

/-- A local name gets a slot, and an error is due exactly when the slots run out. -/
theorem addLocalSlot_spec {a : SemanticAnalyzer} (ha : a.Within) (name : String) (span : Span) :
    ∃ es, exec (addLocalSlot name span) a = (a.countLocal name).report es ∧
      (es = [] ↔ (insert name a.currentLocalNames).card ≤ maxLocalSlots) := by
  by_cases hname : name ∈ a.currentLocalNames
  · refine ⟨[], ?_, ?_⟩
    · simp [addLocalSlot, countLocal, hname, ← ha.slots]
    · simpa [Finset.insert_eq_of_mem hname] using ha.limit
  · have hcard : min (a.currentLocalSlots + 1) usizeMax = (insert name a.currentLocalNames).card := by
      have hslots := ha.slots
      have hlimit := ha.limit
      rw [Finset.card_insert_of_notMem hname]
      simp only [maxLocalSlots, usizeMax] at *
      omega
    obtain ⟨es, hr, hiff⟩ := checkLocalSlotLimit_reports (a.countLocal name) span
    refine ⟨es, ?_, hiff⟩
    rw [addLocalSlot, exec_get_bind, if_neg hname, exec_seq, exec_set, hcard]
    exact hr.exec_eq

theorem lookup_insert (scope : Scope) (sym : Symbol) (name : String) :
    (scope.insert sym).lookup name = if name = sym.name then some sym else scope.lookup name := by
  unfold Scope.lookup Scope.insert Scope.lookupChain
  split
  · subst name
    rw [AList.lookup_insert]
    rfl
  · rw [AList.lookup_insert_ne (by assumption)]

theorem exec_define {a : SemanticAnalyzer} {s : Symbol} (h : a.scope.lookup s.name = none)
    (message : String) (span : Span) :
    exec (define s message span) a = { a with scope := a.scope.insert s } := by
  have hmem : s.name ∉ a.scope.symbols := by
    rw [← AList.lookup_eq_none]
    unfold Scope.lookup Scope.lookupChain at h
    cases hl : a.scope.symbols.lookup s.name with
    | none => rfl
    | some _ => simp [hl] at h
  rw [define, exec_get_bind, if_neg hmem, exec_set]

/-- Defining a new name that is not a function makes it visible. -/
theorem Represents.insert {a b : SemanticAnalyzer} {Γ : Names} (ha : a.Represents Γ) {s : Symbol}
    (hsym : ¬s.isFunction) (hnew : Γ s.name = none)
    (hscope : b.scope = a.scope.insert s) (hfunctions : b.functions = a.functions) :
    b.Represents (Γ.declare s.name s.entity) where
  scope name := by
    rw [hscope, lookup_insert, Names.declare, Function.update_apply]
    split
    · rfl
    · exact ha.scope name
  functions name params := by
    rw [hfunctions, ha.functions, Names.declare, Function.update_apply]
    split
    · subst name
      have hkind : s.entity ≠ .function params := by
        rw [Symbol.entity, if_neg hsym]
        split <;> simp
      simpa [hnew] using hkind
    · rfl
  kinds name s' h := by
    rw [hscope, lookup_insert] at h
    split at h
    · obtain rfl := Option.mem_some_iff.mp h
      exact fun hk ↦ hsym hk.1
    · exact ha.kinds name s' h

/-! ## Specifications of single checks -/

theorem analyzeValue_spec {Γ : Names} (hΓ : Γ.Simple) {a : SemanticAnalyzer} (ha : a.Represents Γ)
    (value : Expr) (declared : Ty) (span : Span) :
    ∃ es, Reports (analyzeValue value declared span) a () es ∧
      (es = [] ↔ HasType Γ value declared) := by
  obtain ⟨t, es, hr, hs, hc⟩ := analyzeExpr_spec hΓ value ha
  refine ⟨_, hr.bind (.errorIf ..), fun h ↦ ?_, fun h ↦ ?_⟩
  · simp only [List.append_eq_nil_iff, ite_singleton_eq_nil, not_and, not_not] at h
    obtain ⟨rfl, hmismatch⟩ := h
    have htd : t = declared := by
      by_contra hne
      exact ((hs rfl).isScalar hΓ).ne_error (hmismatch hne)
    exact htd ▸ hs rfl
  · obtain rfl := hc _ h
    cases h.unique (hs rfl)
    simp

theorem analyzeInit_spec {Γ : Names} (hΓ : Γ.Simple) {a : SemanticAnalyzer} (ha : a.Represents Γ)
    (init : Option Expr) (declared : Ty) (span : Span) :
    ∃ es, Reports (analyzeInit init declared span) a () es ∧
      (es = [] ↔ InitOk Γ declared init) := by
  cases init with
  | none => exact ⟨[], .pure (), by simp [InitOk]⟩
  | some init =>
    obtain ⟨es, hr, hiff⟩ := analyzeValue_spec hΓ ha init declared span
    exact ⟨es, hr, hiff.trans (by simp [InitOk])⟩

/-- An expression that is required to be an `int`, with the message for one that is not. -/
theorem analyzeInt_spec {Γ : Names} (hΓ : Γ.Simple) {a : SemanticAnalyzer} (ha : a.Represents Γ)
    (e : Expr) (message : String) (span : Span) :
    ∃ es, Reports (analyzeInt e message span) a () es ∧
      (es = [] ↔ HasType Γ e .int) := by
  obtain ⟨t, es, hr, hs, hc⟩ := analyzeExpr_spec hΓ e ha
  refine ⟨_, hr.bind (.errorIf ..), fun h ↦ ?_, fun h ↦ ?_⟩
  · simp only [List.append_eq_nil_iff, ite_singleton_eq_nil] at h
    obtain ⟨rfl, hint⟩ := h
    exact (not_notInt ((hs rfl).isScalar hΓ).ne_error).mp hint ▸ hs rfl
  · obtain rfl := hc _ h
    cases h.unique (hs rfl)
    simp [notInt]

theorem analyzeCondition_spec {Γ : Names} (hΓ : Γ.Simple) {a : SemanticAnalyzer}
    (ha : a.Represents Γ) (condition : Expr) (span : Span) :
    ∃ es, Reports (analyzeCondition condition span) a () es ∧
      (es = [] ↔ IsCondition Γ condition) := by
  obtain ⟨t, es, hr, hs, hc⟩ := analyzeExpr_spec hΓ condition ha
  refine ⟨_, hr.bind (.errorIf ..), fun h ↦ ?_, fun ⟨u, hu, h⟩ ↦ ?_⟩
  · obtain ⟨rfl, -⟩ := by simpa only [List.append_eq_nil_iff] using h
    exact ⟨t, (hs rfl).isScalar hΓ, hs rfl⟩
  · obtain rfl := hc _ h
    cases h.unique (hs rfl)
    simp [not_notCondition hu]

theorem analyzeAnyType_spec {Γ : Names} (hΓ : Γ.Simple) {a : SemanticAnalyzer}
    (ha : a.Represents Γ) (e : Expr) :
    ∃ es, Reports (do let _ ← analyzeExpr e; return ()) a () es ∧ (es = [] ↔ ∃ t, HasType Γ e t) := by
  obtain ⟨t, es, hr, hs, hc⟩ := analyzeExpr_spec hΓ e ha
  refine ⟨es ++ [], hr.bind (.pure _), fun h ↦ ⟨t, hs ?_⟩, fun ⟨u, hu⟩ ↦ ?_⟩
  · simpa using h
  · simpa using hc u hu

/-- The judgement for an assignment, which leaves the visible names alone. -/
theorem analyzeAssign_spec {Γ : Names} (hΓ : Γ.Simple) {a : SemanticAnalyzer}
    (ha : a.Represents Γ) (target : String) (indexExpr : Option Expr) (value : Expr)
    (span : Span) :
    ∃ es, Reports (analyzeAssign target indexExpr value span) a () es ∧
      (es = [] ↔ StmtOk Γ (.assign target indexExpr value span) Γ) := by
  cases hn : a.scope.lookup target with
  | none =>
    have hΓn : Γ target = none := by rw [← ha.scope, hn]; rfl
    refine ⟨_, .lookup_bind (by rw [hn]; exact .error ..), by simp, fun h ↦ ?_⟩
    cases h <;> simp_all
  | some sym =>
    have hΓn := ha.eq_entity hn
    unfold Symbol.entity at hΓn
    by_cases hf : sym.isFunction
    · refine ⟨_, .lookup_bind (by rw [hn]; simp only [hf, if_true]; exact .error ..), by simp,
        fun h ↦ ?_⟩
      cases h <;> simp_all
    simp only [hf] at hΓn
    cases indexExpr with
    | some idx =>
      obtain ⟨es, hr, hiff⟩ := analyzeInt_spec hΓ ha idx "Array index must be an integer" span
      obtain ⟨es', hr', hiff'⟩ := analyzeValue_spec hΓ ((ha.report es).report _) value sym.symType span
      refine ⟨_, .lookup_bind (by
        rw [hn]
        simp only [hf]
        exact .bind hr (.bind (.errorIf ..) hr')), fun h ↦ ?_, fun h ↦ ?_⟩
      · simp only [List.append_eq_nil_iff, ite_singleton_eq_nil, not_not] at h
        obtain ⟨hes, harr, hes'⟩ := h
        simp only [harr] at hΓn
        exact .assignElement hΓn (hiff.mp hes) (hiff'.mp hes') span
      · cases h with
        | assignElement h hi hv =>
          rw [hΓn] at h
          by_cases harr : sym.isArray
          · simp only [harr] at h
            cases h
            rw [hiff.mpr hi, hiff'.mpr hv]
            simp [harr]
          · simp [harr] at h
    | none =>
      by_cases harr : sym.isArray
      · refine ⟨_, .lookup_bind (by rw [hn]; simp only [hf, harr, if_true]; exact .error ..),
          by simp, fun h ↦ ?_⟩
        cases h
        simp_all
      · obtain ⟨es, hr, hiff⟩ := analyzeValue_spec hΓ ha value sym.symType span
        refine ⟨es, .lookup_bind (by rw [hn]; simp only [hf, harr]; exact hr), hiff.trans ?_⟩
        simp only [harr] at hΓn
        refine ⟨fun h ↦ .assignScalar hΓn h span, fun h ↦ ?_⟩
        cases h with
        | assignScalar h hv =>
          rw [hΓn] at h
          cases h
          exact hv

/-! ## Specifications of statements -/

/-- Where `Γ` is visible, `x` checks the judgement `J` on the names visible afterwards: started
without errors it ends without errors exactly when `J` holds and the local slots suffice for the
names `names` it declares. -/
structure Spec (Γ : Names) (x : SemaM Unit) (names : List String) (J : Names → Prop) : Prop where
  extending : Extending x
  sound : ∀ a, a.Represents Γ → a.Within → (exec x a).errors = [] →
    ∃ Γ', J Γ' ∧ (exec x a).Represents Γ' ∧ (exec x a).Within ∧
      (exec x a).currentLocalNames = a.currentLocalNames ∪ names.toFinset
  complete : ∀ a, a.Represents Γ → a.Within → a.errors = [] → ∀ Γ', J Γ' →
    (a.currentLocalNames ∪ names.toFinset).card ≤ maxLocalSlots → (exec x a).errors = []

namespace Spec

variable {Γ : Names} {x y : SemaM Unit} {ns ns' : List String} {J J' : Names → Prop}

theorem congr (h : Spec Γ x ns J) (hJ : ∀ Γ', J Γ' ↔ J' Γ') : Spec Γ x ns J' := by
  obtain rfl : J = J' := funext fun Γ' ↦ propext (hJ Γ')
  exact h

/-- A computation that only reports, and checks `P`. -/
theorem of_reports {P : Prop} (hx : OnlyReports x)
    (h : ∀ a, a.Represents Γ → ∃ es, Reports x a () es ∧ (es = [] ↔ P)) :
    Spec Γ x [] (fun Γ' ↦ Γ' = Γ ∧ P) where
  extending := .of_onlyReports hx
  sound a ha hw he := by
    obtain ⟨es, hr, hiff⟩ := h a ha
    rw [hr.exec_eq, report_errors, List.append_eq_nil_iff] at he
    rw [hr.exec_eq]
    exact ⟨Γ, ⟨rfl, hiff.mp he.2⟩, ha.report es, ⟨hw.slots, hw.limit⟩,
      by rw [List.toFinset_nil, Finset.union_empty]; rfl⟩
  complete a ha hw he Γ' hJ _ := by
    obtain ⟨es, hr, hiff⟩ := h a ha
    rw [hr.exec_eq, report_errors, he, hiff.mpr hJ.2]
    rfl

/-- **Sequencing.** The second computation starts with the names the first one leaves. -/
theorem seq {K : Names → Names → Prop} (hx : Spec Γ x ns J)
    (hy : ∀ Γ', J Γ' → Spec Γ' y ns' (K Γ')) (hext : Extending y)
    (hJ : ∀ Γ₁ Γ₂, J Γ₁ → J Γ₂ → Γ₁ = Γ₂) :
    Spec Γ (do x; y) (ns ++ ns') (fun Γ'' ↦ ∃ Γ', J Γ' ∧ K Γ' Γ'') where
  extending := hx.extending.bind fun _ ↦ hext
  sound a ha hw he := by
    rw [exec_seq] at he ⊢
    obtain ⟨Γ', hJ', ha', hw', hn⟩ := hx.sound a ha hw ((hext _).errors_eq_nil he)
    obtain ⟨Γ'', hK, ha'', hw'', hn'⟩ := (hy Γ' hJ').sound _ ha' hw' he
    refine ⟨Γ'', ⟨Γ', hJ', hK⟩, ha'', hw'', ?_⟩
    rw [hn', hn, List.toFinset_append, Finset.union_assoc]
  complete a ha hw he Γ'' hJK hcard := by
    obtain ⟨Γ', hJ', hK⟩ := hJK
    rw [List.toFinset_append, ← Finset.union_assoc] at hcard
    have hx' := hx.complete a ha hw he Γ' hJ'
      ((Finset.card_le_card Finset.subset_union_left).trans hcard)
    obtain ⟨Γ₁, hJ₁, ha', hw', hn⟩ := hx.sound a ha hw hx'
    obtain rfl := hJ _ _ hJ' hJ₁
    rw [exec_seq]
    exact (hy Γ' hJ').complete _ ha' hw' hx' Γ'' hK (by rwa [hn])

theorem pushed_represents {a : SemanticAnalyzer} (ha : a.Represents Γ) :
    ({ a with scope := a.scope.push } : SemanticAnalyzer).Represents Γ where
  scope name := by
    rw [← ha.scope]
    simp [Scope.lookup, Scope.push, Scope.lookupChain]
  functions := ha.functions
  kinds name := by
    have h := ha.kinds name
    simpa [Scope.lookup, Scope.push, Scope.lookupChain] using h

/-- **Blocks.** The names a block declares are not visible after it. -/
theorem block (hx : Spec Γ x ns J) :
    Spec Γ (SemanticAnalyzer.block x) ns (fun Γ' ↦ Γ' = Γ ∧ ∃ Γ₁, J Γ₁) where
  extending := hx.extending.block
  sound a ha hw he := by
    have hscope := hx.extending.block_scope a
    have hfunctions := (hx.extending.block a).functions
    obtain ⟨Γ₁, hJ, -, hw', hn⟩ := hx.sound _ (pushed_represents ha) ⟨hw.slots, hw.limit⟩ he
    refine ⟨Γ, ⟨rfl, Γ₁, hJ⟩, ⟨?_, ?_, ?_⟩, ⟨hw'.slots, hw'.limit⟩, hn⟩
    · rw [hscope]
      exact ha.scope
    · rw [hfunctions]
      exact ha.functions
    · rw [hscope]
      exact ha.kinds
  complete a ha hw he Γ' hJ hcard := by
    obtain ⟨-, Γ₁, hJ₁⟩ := hJ
    exact hx.complete { a with scope := a.scope.push } (pushed_represents ha)
      ⟨hw.slots, hw.limit⟩ he Γ₁ hJ₁ hcard

end Spec

theorem declare_simple {Γ : Names} (hΓ : Γ.Simple) {t : Ty} (ht : t.IsScalar) (name : String)
    (size : Option Int32) : (Γ.declare name (varEntity t size)).Simple := by
  constructor
  all_goals
    intro n
    rw [Names.declare, Function.update_apply]
    split
    · unfold varEntity
      split <;> simp [ht]
  · exact hΓ.scalar n
  · exact hΓ.array n
  · exact hΓ.function n

/-- A declaration of a new name: the slot, the symbol and the initializer, each with its check. -/
theorem exec_analyzeVarDecl {Γ : Names} (hΓ : Γ.Simple) {a : SemanticAnalyzer}
    (ha : a.Represents Γ) (hw : a.Within) {varType : Ty} (ht : varType.IsScalar) {name : String}
    (hn : a.scope.lookup name = none) (initExpr : Option Expr) (arraySize : Option Int32)
    (span : Span) :
    ∃ (b : SemanticAnalyzer) (es : List SemanticError),
      exec (analyzeVarDecl varType name initExpr arraySize span) a = b.report es ∧
      b.errors = a.errors ∧ b.currentLocalNames = insert name a.currentLocalNames ∧
      b.currentLocalSlots = b.currentLocalNames.card ∧
      b.Represents (Γ.declare name (varEntity varType arraySize)) ∧
      (es = [] ↔ (∀ n ∈ arraySize, 0 < n) ∧ b.currentLocalNames.card ≤ maxLocalSlots ∧
        InitOk (Γ.declare name (varEntity varType arraySize)) varType initExpr) := by
  have hΓn : Γ name = none := by rw [← ha.scope, hn]; rfl
  obtain ⟨v, es₁, hr₁, hiff₁⟩ := validateArraySize_reports a name arraySize span
  obtain ⟨es₂, he₂, hiff₂⟩ := addLocalSlot_spec (a := a.report es₁) ⟨hw.slots, hw.limit⟩ name span
  generalize hsym : (⟨name, varType, false, arraySize.isSome, (v.map Int32.ofNat).getD 0, false, []⟩ :
    Symbol) = sym
  have hentity : sym.entity = varEntity varType arraySize := by
    rw [← hsym, varEntity, Symbol.entity]
    simp
  have hname : sym.name = name := by rw [← hsym]
  let b : SemanticAnalyzer := { a.countLocal name with scope := a.scope.insert sym }
  have hb : b.Represents (Γ.declare name (varEntity varType arraySize)) := by
    rw [← hentity, ← hname]
    exact ha.insert (by rw [← hsym]; simp) (by rw [hname]; exact hΓn) rfl rfl
  obtain ⟨es₃, hr₃, hiff₃⟩ := analyzeInit_spec (declare_simple hΓ ht name arraySize)
    ((hb.report es₁).report es₂) initExpr varType span
  refine ⟨b, es₁ ++ (es₂ ++ es₃), ?_, rfl, rfl, rfl, hb, ?_⟩
  · have hstart : exec (analyzeVarDecl varType name initExpr arraySize span) a =
        exec (do
          addLocalSlot name span
          define sym s!"Duplicate variable: {name}" span
          analyzeInit initExpr varType span) (a.report es₁) := by
      rw [analyzeVarDecl, exec_lookup_bind, hn, ← hsym]
      exact hr₁.exec_bind_eq
    rw [hstart, exec_seq, he₂, exec_seq, exec_define (by rw [hname]; exact hn)]
    have h := hr₃.exec_eq
    rw [report_report, report_report, List.append_assoc] at h
    rw [← h, ← report_report]
    rfl
  · rw [List.append_eq_nil_iff, List.append_eq_nil_iff, hiff₁, hiff₂, hiff₃]
    rfl

theorem analyzeVarDecl_spec {Γ : Names} (hΓ : Γ.Simple) {varType : Ty} (ht : varType.IsScalar)
    (name : String) (initExpr : Option Expr) (arraySize : Option Int32) (span : Span) :
    Spec Γ (analyzeVarDecl varType name initExpr arraySize span) [name]
      (StmtOk Γ (.varDecl varType name initExpr arraySize span)) where
  extending := analyzeVarDecl_extending
  sound a ha hw he := by
    cases hn : a.scope.lookup name with
    | some sym =>
      rw [analyzeVarDecl, exec_lookup_bind, hn] at he
      simp [(Reports.error ..).exec_eq] at he
    | none =>
      obtain ⟨b, es, hb, hbe, hbn, hbs, hbr, hiff⟩ :=
        exec_analyzeVarDecl hΓ ha hw ht hn initExpr arraySize span
      rw [hb, report_errors, List.append_eq_nil_iff] at he
      obtain ⟨hsize, hcard, hinit⟩ := hiff.mp he.2
      have hΓn : Γ name = none := by rw [← ha.scope, hn]; rfl
      rw [hb]
      refine ⟨_, .varDecl hΓn hsize hinit span, hbr.report es, ⟨hbs, hcard⟩, ?_⟩
      rw [show (b.report es).currentLocalNames = b.currentLocalNames from rfl, hbn,
        Finset.insert_eq, Finset.union_comm]
      simp
  complete a ha hw he Γ' hJ hcard := by
    cases hJ with
    | varDecl hfresh hsize hinit =>
      have hn : a.scope.lookup name = none := by
        rw [← ha.scope] at hfresh
        exact Option.map_eq_none_iff.mp hfresh
      obtain ⟨b, es, hb, hbe, hbn, hbs, hbr, hiff⟩ :=
        exec_analyzeVarDecl hΓ ha hw ht hn initExpr arraySize span
      have hlimit : b.currentLocalNames.card ≤ maxLocalSlots := by
        rw [hbn, Finset.insert_eq, Finset.union_comm]
        simpa using hcard
      rw [hb, report_errors, hbe, he, hiff.mpr ⟨hsize, hlimit, hinit⟩]
      rfl

/-- Parsed statements keep the types of the visible names within the source syntax. -/
theorem stmtOk_simple {Γ Γ' : Names} {stmt : Stmt} (hΓ : Γ.Simple) (hs : stmt.SourceForm)
    (h : StmtOk Γ stmt Γ') : Γ'.Simple := by
  cases h with
  | varDecl => exact declare_simple hΓ hs.scalar _ _
  | _ => exact hΓ

mutual

theorem analyzeStmt_spec : ∀ (stmt : Stmt) {Γ : Names}, Γ.Simple → stmt.SourceForm →
    Spec Γ (analyzeStmt stmt) stmt.localNames (StmtOk Γ stmt)
  | .varDecl _ name initExpr arraySize span, _, hΓ, hs =>
    analyzeVarDecl_spec hΓ hs.scalar name initExpr arraySize span
  | .assign target indexExpr value span, Γ, hΓ, _ => by
    refine (Spec.of_reports analyzeAssign_onlyReports fun a ha ↦
      analyzeAssign_spec hΓ ha target indexExpr value span).congr fun Γ' ↦ ?_
    constructor
    · rintro ⟨rfl, h⟩
      exact h
    · intro h
      cases h with
      | assignScalar h hv => exact ⟨rfl, .assignScalar h hv span⟩
      | assignElement h hi hv => exact ⟨rfl, .assignElement h hi hv span⟩
  | .ifStmt condition thenBody none span, Γ, hΓ, hs => by
    refine ((Spec.of_reports analyzeCondition_onlyReports fun a ha ↦
      analyzeCondition_spec hΓ ha condition span).seq
        (K := fun Γ' Γ'' ↦ Γ'' = Γ' ∧ ∃ Γ₁, StmtsOk Γ' thenBody Γ₁)
        -- the block starts under the names of the condition, and the names it declares end with it
        (fun Γ' h ↦ (analyzeStmts_spec thenBody (h.1 ▸ hΓ) hs).block)
        (analyzeStmts_extending thenBody).block (fun _ _ h h' ↦ h.1.trans h'.1.symm)).congr
          fun Γ' ↦ ?_
    constructor
    · rintro ⟨_, ⟨rfl, hc⟩, rfl, Γ₁, h⟩
      exact .ifThen hc h span
    · intro h
      cases h with
      | ifThen hc h => exact ⟨Γ, ⟨rfl, hc⟩, rfl, _, h⟩
  | .ifStmt condition thenBody (some elseBody) span, Γ, hΓ, hs => by
    refine ((Spec.of_reports analyzeCondition_onlyReports fun a ha ↦
      analyzeCondition_spec hΓ ha condition span).seq
        (K := fun Γ' Γ'' ↦ ∃ Γ₃, (Γ₃ = Γ' ∧ ∃ Γ₁, StmtsOk Γ' thenBody Γ₁) ∧
          Γ'' = Γ₃ ∧ ∃ Γ₂, StmtsOk Γ₃ elseBody Γ₂)
        (fun Γ' h ↦ (analyzeStmts_spec thenBody (h.1 ▸ hΓ) hs.1).block.seq
          (fun Γ₃ h' ↦ (analyzeStmts_spec elseBody (h'.1 ▸ h.1 ▸ hΓ) hs.2).block)
          (analyzeStmts_extending elseBody).block (fun _ _ h h' ↦ h.1.trans h'.1.symm))
        ((analyzeStmts_extending thenBody).block.bind fun _ ↦
          (analyzeStmts_extending elseBody).block)
        (fun _ _ h h' ↦ h.1.trans h'.1.symm)).congr fun Γ' ↦ ?_
    constructor
    · rintro ⟨_, ⟨rfl, hc⟩, _, ⟨rfl, Γ₁, h⟩, rfl, Γ₂, h'⟩
      exact .ifElse hc h h' span
    · intro h
      cases h with
      | ifElse hc h h' => exact ⟨Γ, ⟨rfl, hc⟩, Γ, ⟨rfl, _, h⟩, rfl, _, h'⟩
  | .whileStmt condition body span, Γ, hΓ, hs => by
    refine ((Spec.of_reports analyzeCondition_onlyReports fun a ha ↦
      analyzeCondition_spec hΓ ha condition span).seq
        (K := fun Γ' Γ'' ↦ Γ'' = Γ' ∧ ∃ Γ₁, StmtsOk Γ' body Γ₁)
        (fun Γ' h ↦ (analyzeStmts_spec body (h.1 ▸ hΓ) hs).block)
        (analyzeStmts_extending body).block (fun _ _ h h' ↦ h.1.trans h'.1.symm)).congr
          fun Γ' ↦ ?_
    constructor
    · rintro ⟨_, ⟨rfl, hc⟩, rfl, Γ₁, h⟩
      exact .whileStmt hc h span
    · intro h
      cases h with
      | whileStmt hc h => exact ⟨Γ, ⟨rfl, hc⟩, rfl, _, h⟩
  | .returnStmt value span, Γ, hΓ, _ => by
    refine (Spec.of_reports analyzeInt_onlyReports fun a ha ↦
      analyzeInt_spec hΓ ha value _ span).congr fun Γ' ↦ ?_
    constructor
    · rintro ⟨rfl, h⟩
      exact .returnStmt h span
    · intro h
      cases h with
      | returnStmt h => exact ⟨rfl, h⟩
  | .print value span, Γ, hΓ, _ => by
    refine (Spec.of_reports (.bind (analyzeExpr_onlyReports value) fun _ ↦ .pure _) fun a ha ↦
      analyzeAnyType_spec hΓ ha value).congr fun Γ' ↦ ?_
    constructor
    · rintro ⟨rfl, t, h⟩
      exact .print h span
    · intro h
      cases h with
      | print h => exact ⟨rfl, _, h⟩
  | .exprStmt expr span, Γ, hΓ, _ => by
    refine (Spec.of_reports (.bind (analyzeExpr_onlyReports expr) fun _ ↦ .pure _) fun a ha ↦
      analyzeAnyType_spec hΓ ha expr).congr fun Γ' ↦ ?_
    constructor
    · rintro ⟨rfl, t, h⟩
      exact .exprStmt h span
    · intro h
      cases h with
      | exprStmt h => exact ⟨rfl, _, h⟩

theorem analyzeStmts_spec : ∀ (stmts : List Stmt) {Γ : Names}, Γ.Simple → sourceFormList stmts →
    Spec Γ (analyzeStmts stmts) (localNamesList stmts) (StmtsOk Γ stmts)
  | [], Γ, _, _ => by
    refine (Spec.of_reports (x := analyzeStmts []) (P := True) (.pure _) fun a _ ↦
      ⟨[], .pure (), by simp⟩).congr fun Γ' ↦ ?_
    constructor
    · rintro ⟨rfl, -⟩
      exact .nil _
    · intro h
      cases h
      exact ⟨rfl, trivial⟩
  | stmt :: stmts, Γ, hΓ, hs => by
    refine ((analyzeStmt_spec stmt hΓ hs.1).seq
      (fun Γ' h ↦ analyzeStmts_spec stmts (stmtOk_simple hΓ hs.1 h) hs.2)
      (analyzeStmts_extending stmts) (fun _ _ h h' ↦ h.unique h')).congr fun Γ' ↦ ?_
    constructor
    · rintro ⟨Γ₁, h, hs⟩
      exact .cons h hs
    · intro h
      cases h with
      | cons h hs => exact ⟨_, h, hs⟩

end

end SemanticAnalyzer

end MiniLang
