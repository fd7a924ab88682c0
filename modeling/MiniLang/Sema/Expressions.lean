import MiniLang.Sema.Analyzer
import MiniLang.Sema.WellFormed

/-!
# The analyzer on expressions

Analyzing an expression changes nothing but the list of errors, and it appends no error exactly when
the expression is typed under the names that the analyzer's scopes stand for.

## The statement

`Reports x a v es` says that the computation `x` has the value `v` in the state `a`, and leaves `a`
with the errors `es` appended. `ExprSpec` says of an expression that its analysis reports in this
sense, with a type that is the expression's if there are no errors, and with no errors if the
expression has any type. The analyzer goes on behind an error with the type `Ty.error`, so that both
halves are needed at once: the errors of an expression with an ill-typed operand may all be those of
the operand.

## The argument

`Represents` reads the chain of scopes and the function table as one table of visible names. It
survives reports, so that the specifications of the operands of an expression compose by
`Reports.bind`; there is one lemma for each form of expression, and the theorem is an induction over
the tree that picks the lemma.
-/

namespace MiniLang

/-! ## Typing -/

/-- Every type in `Γ` is `int` or `bool`, as the parser builds them. -/
structure Names.Simple (Γ : Names) : Prop where
  scalar : ∀ name t, Γ name = some (.scalar t) → t.IsScalar
  array : ∀ name t, Γ name = some (.array t) → t.IsScalar
  function : ∀ name ps, Γ name = some (.function ps) → ∀ t ∈ ps, Ty.IsScalar t

theorem Ty.IsScalar.ne_error {t : Ty} (h : t.IsScalar) : t ≠ .error := by
  rcases h with rfl | rfl <;> simp

theorem BinaryTyped.isScalar {op : BinaryOp} {t u v : Ty} (h : BinaryTyped op t u v) :
    v.IsScalar := by
  cases h with
  | arithmetic => exact .inl rfl
  | ordering => exact .inr rfl
  | equality => exact .inr rfl
  | logical => exact .inr rfl

/-- The operators that take two integers. -/
theorem BinaryTyped.ints {op : BinaryOp} {t u v : Ty} (h : BinaryTyped op t u v)
    (hop : op ∈ [BinaryOp.add, .sub, .mul, .div, .lt, .gt, .le, .ge]) : t = .int ∧ u = .int := by
  cases h with
  | arithmetic => exact ⟨rfl, rfl⟩
  | ordering => exact ⟨rfl, rfl⟩
  | equality h => rcases h with _ | ⟨_, _ | ⟨_, ⟨⟩⟩⟩ <;> exact absurd hop (by decide)
  | logical h => rcases h with _ | ⟨_, _ | ⟨_, ⟨⟩⟩⟩ <;> exact absurd hop (by decide)

theorem BinaryTyped.same {op : BinaryOp} {t u v : Ty} (h : BinaryTyped op t u v)
    (hop : op ∈ [BinaryOp.eq, .ne]) : t = u := by
  cases h with
  | arithmetic => rfl
  | ordering => rfl
  | equality => rfl
  | logical h => rcases h with _ | ⟨_, _ | ⟨_, ⟨⟩⟩⟩ <;> exact absurd hop (by decide)

theorem BinaryTyped.scalars {op : BinaryOp} {t u v : Ty} (h : BinaryTyped op t u v)
    (hop : op ∈ [BinaryOp.and, .or]) : t.IsScalar ∧ u.IsScalar := by
  cases h with
  | arithmetic => exact ⟨.inl rfl, .inl rfl⟩
  | ordering => exact ⟨.inl rfl, .inl rfl⟩
  | equality h => rcases h with _ | ⟨_, _ | ⟨_, ⟨⟩⟩⟩ <;> exact absurd hop (by decide)
  | logical _ ht hu => exact ⟨ht, hu⟩

theorem UnaryTyped.isScalar {op : UnaryOp} {t u : Ty} (h : UnaryTyped op t u) : u.IsScalar := by
  cases h with
  | neg => exact .inl rfl
  | not => exact .inr rfl

theorem HasType.isScalar {Γ : Names} (hΓ : Γ.Simple) {e : Expr} {t : Ty} (h : HasType Γ e t) :
    t.IsScalar := by
  cases h with
  | intLiteral => exact .inl rfl
  | boolLiteral => exact .inr rfl
  | identifier h => exact hΓ.scalar _ _ h
  | binary _ _ h => exact h.isScalar
  | unary _ h => exact h.isScalar
  | call => exact .inl rfl
  | arrayIndex h => exact hΓ.array _ _ h

theorem BinaryTyped.unique {op : BinaryOp} {t u v v' : Ty} (h : BinaryTyped op t u v)
    (h' : BinaryTyped op t u v') : v = v' := by
  cases h <;> cases h' <;> simp_all <;> grind

theorem UnaryTyped.unique {op : UnaryOp} {t u u' : Ty} (h : UnaryTyped op t u)
    (h' : UnaryTyped op t u') : u = u' := by
  cases h <;> cases h' <;> rfl

/-- An expression has at most one type. -/
theorem HasType.unique {Γ : Names} : ∀ {e : Expr} {t t' : Ty}, HasType Γ e t → HasType Γ e t' →
    t = t'
  | .intLiteral .., _, _, .intLiteral .., .intLiteral .. => rfl
  | .boolLiteral .., _, _, .boolLiteral .., .boolLiteral .. => rfl
  | .identifier .., _, _, .identifier h _, .identifier h' _ => by
    rw [h] at h'
    exact Entity.scalar.inj (Option.some.inj h')
  | .binary .., _, _, .binary hl hr h _, .binary hl' hr' h' _ => by
    cases hl.unique hl'
    cases hr.unique hr'
    exact h.unique h'
  | .unary .., _, _, .unary ht h _, .unary ht' h' _ => by
    cases ht.unique ht'
    exact h.unique h'
  | .call .., _, _, .call .., .call .. => rfl
  | .arrayIndex .., _, _, .arrayIndex h _ _, .arrayIndex h' _ _ => by
    rw [h] at h'
    exact Entity.array.inj (Option.some.inj h')

theorem HaveTypes.length_eq {Γ : Names} : ∀ {args : List Expr} {ts : List Ty},
    HaveTypes Γ args ts → args.length = ts.length
  | [], _, .nil => rfl
  | _ :: _, _, .cons _ hs => congrArg (· + 1) hs.length_eq

/-- The entity that a symbol of the analyzer describes. -/
def Symbol.entity (sym : Symbol) : Entity :=
  if sym.isFunction then .function sym.paramTypes
  else if sym.isArray then .array sym.symType else .scalar sym.symType

namespace SemanticAnalyzer

/-! ## What the scopes stand for -/

/-- The scopes and the function table of `a` stand for the visible names `Γ`. -/
structure Represents (a : SemanticAnalyzer) (Γ : Names) : Prop where
  scope : ∀ name, (a.scope.lookup name).map Symbol.entity = Γ name
  functions : ∀ name params,
    (a.functions.lookup name).map Symbol.paramTypes = some params ↔
      Γ name = some (.function params)
  kinds : ∀ name, ∀ sym ∈ a.scope.lookup name, ¬(sym.isFunction ∧ sym.isArray)

/-- `a` with the errors `es` reported. -/
def report (a : SemanticAnalyzer) (es : List SemanticError) : SemanticAnalyzer :=
  { a with errors := a.errors ++ es }

@[simp] theorem report_errors (a : SemanticAnalyzer) (es : List SemanticError) :
    (a.report es).errors = a.errors ++ es := rfl

@[simp] theorem report_scope (a : SemanticAnalyzer) (es : List SemanticError) :
    (a.report es).scope = a.scope := rfl

@[simp] theorem report_functions (a : SemanticAnalyzer) (es : List SemanticError) :
    (a.report es).functions = a.functions := rfl

@[simp] theorem report_nil (a : SemanticAnalyzer) : a.report [] = a := by
  simp [report]

theorem report_report (a : SemanticAnalyzer) (es es' : List SemanticError) :
    (a.report es).report es' = a.report (es ++ es') := by
  simp [report]

theorem Represents.report {a : SemanticAnalyzer} {Γ : Names} (h : a.Represents Γ)
    (es : List SemanticError) : (a.report es).Represents Γ :=
  ⟨h.scope, h.functions, h.kinds⟩

theorem Represents.eq_entity {a : SemanticAnalyzer} {Γ : Names} (h : a.Represents Γ)
    {name : String} {sym : Symbol} (hn : a.scope.lookup name = some sym) :
    Γ name = some sym.entity := by
  rw [← h.scope, hn]
  rfl

/-! ## Computations that only report -/

/-- Run on `a`, `x` returns `v` and appends the errors `es`, changing nothing else. -/
def Reports {α : Type} (x : SemaM α) (a : SemanticAnalyzer) (v : α) (es : List SemanticError) :
    Prop :=
  x.run a = (v, a.report es)

namespace Reports

variable {α β : Type} {a : SemanticAnalyzer}

theorem pure (v : α) : Reports (Pure.pure v) a v [] := by
  rw [Reports, StateT.run_pure, report_nil]
  rfl

theorem bind {x : SemaM α} {f : α → SemaM β} {v : α} {w : β} {es es' : List SemanticError}
    (hx : Reports x a v es) (hf : Reports (f v) (a.report es) w es') :
    Reports (x >>= f) a w (es ++ es') := by
  unfold Reports at hx hf ⊢
  rw [StateT.run_bind, hx, ← report_report]
  exact hf

theorem error (message : String) (span : Span) :
    Reports (SemanticAnalyzer.error message span) a () [⟨message, span⟩] := rfl

/-- The errors of `errorIf`. -/
theorem errorIf (p : Prop) [Decidable p] (message : String) (span : Span) :
    Reports (SemanticAnalyzer.errorIf p message span) a () (if p then [⟨message, span⟩] else []) := by
  unfold SemanticAnalyzer.errorIf
  split
  · exact error message span
  · exact pure ()

theorem error_then (message : String) (span : Span) (v : α) :
    Reports (do SemanticAnalyzer.error message span; return v) a v [⟨message, span⟩] :=
  bind (error message span) (pure v)

/-- Reading the state first. -/
theorem get_bind {f : SemanticAnalyzer → SemaM α} {v : α} {es : List SemanticError}
    (h : Reports (f a) a v es) : Reports (get >>= f) a v es := h

theorem lookup_bind {name : String} {f : Option Symbol → SemaM α} {v : α}
    {es : List SemanticError} (h : Reports (f (a.scope.lookup name)) a v es) :
    Reports (SemanticAnalyzer.lookup name >>= f) a v es := h

end Reports

theorem ite_singleton_eq_nil {p : Prop} [Decidable p] {e : SemanticError} :
    (if p then [e] else []) = [] ↔ ¬p := by
  split <;> simp_all

/-! ## Operators -/

theorem not_notInt {t : Ty} (h : t ≠ .error) : ¬notInt t ↔ t = .int := by
  cases t <;> simp_all [notInt]

theorem not_notCondition {t : Ty} (h : t.IsScalar) : ¬notCondition t := by
  rcases h with rfl | rfl <;> simp [notCondition]

/-- On operand types without an error, the operator rule is what the analyzer checks. -/
theorem analyzeBinaryOp_spec (a : SemanticAnalyzer) (op : BinaryOp) (t u : Ty) (span : Span) :
    ∃ v es, Reports (analyzeBinaryOp op t u span) a v es ∧
      (t.IsScalar → u.IsScalar → es = [] → BinaryTyped op t u v) ∧
      (∀ v', BinaryTyped op t u v' → es = []) := by
  have two : ∀ (p q : Prop) [Decidable p] [Decidable q] (m m' : String) (v : Ty),
      Reports (do errorIf p m span; errorIf q m' span; return v) a v
        ((if p then [⟨m, span⟩] else []) ++ ((if q then [⟨m', span⟩] else []) ++ [])) :=
    fun p q _ _ m m' v ↦ .bind (.errorIf ..) (.bind (.errorIf ..) (.pure v))
  -- both operands are checked to be integers
  have hints : ∀ m m' : String, t.IsScalar → u.IsScalar →
      (if notInt t then [SemanticError.mk m span] else []) ++
        ((if notInt u then [SemanticError.mk m' span] else []) ++ []) = [] →
      t = .int ∧ u = .int := by
    intro m m' ht hu h
    simpa only [List.append_nil, List.append_eq_nil_iff, ite_singleton_eq_nil,
      not_notInt ht.ne_error, not_notInt hu.ne_error] using h
  cases op with
  | add | sub | mul | div =>
    refine ⟨_, _, two .., fun ht hu h ↦ ?_, fun v' h ↦ ?_⟩
    · obtain ⟨rfl, rfl⟩ := hints _ _ ht hu h
      exact .arithmetic (by decide)
    · obtain ⟨rfl, rfl⟩ := h.ints (by decide)
      rfl
  | lt | gt | le | ge =>
    refine ⟨_, _, two .., fun ht hu h ↦ ?_, fun v' h ↦ ?_⟩
    · obtain ⟨rfl, rfl⟩ := hints _ _ ht hu h
      exact .ordering (by decide)
    · obtain ⟨rfl, rfl⟩ := h.ints (by decide)
      rfl
  | eq | ne =>
    refine ⟨_, _, .bind (.errorIf ..) (.pure _), fun ht hu h ↦ ?_, fun v' h ↦ ?_⟩
    · simp only [List.append_nil, ite_singleton_eq_nil, not_and, not_not] at h
      have htu : t = u := by
        by_contra hne
        exact hu.ne_error (h hne ht.ne_error)
      subst htu
      exact .equality (by decide) t
    · rw [if_neg fun hne ↦ hne.1 (h.same (by decide)), List.append_nil]
  | and | or =>
    refine ⟨_, _, two .., fun ht hu _ ↦ .logical (by decide) ht hu, fun v' h ↦ ?_⟩
    obtain ⟨ht, hu⟩ := h.scalars (by decide)
    rw [if_neg (not_notCondition ht), if_neg (not_notCondition hu)]
    rfl

theorem analyzeUnaryOp_spec (a : SemanticAnalyzer) (op : UnaryOp) (t : Ty) (span : Span) :
    ∃ v es, Reports (analyzeUnaryOp op t span) a v es ∧
      (t.IsScalar → es = [] → UnaryTyped op t v) ∧ (∀ v', UnaryTyped op t v' → es = []) := by
  cases op with
  | neg =>
    refine ⟨_, _, .bind (.errorIf ..) (.pure _), fun ht h ↦ ?_, fun v' h ↦ ?_⟩
    · simp only [List.append_nil, ite_singleton_eq_nil, not_notInt ht.ne_error] at h
      subst h
      exact .neg
    · cases h
      simp [notInt]
  | not =>
    refine ⟨_, _, .bind (.errorIf ..) (.pure _), fun ht _ ↦ .not ht, fun v' h ↦ ?_⟩
    cases h with
    | not ht => simp [not_notCondition ht]

/-! ## Expressions -/

theorem analyzeIdentifier_spec {a : SemanticAnalyzer} {Γ : Names} (ha : a.Represents Γ)
    (name : String) (span : Span) :
    ∃ v es, Reports (analyzeIdentifier name span) a v es ∧
      (es = [] → Γ name = some (.scalar v)) ∧ (∀ t, Γ name = some (.scalar t) → es = []) := by
  cases h : a.scope.lookup name with
  | none =>
    refine ⟨_, _, .lookup_bind (by rw [h]; exact .error_then ..), by simp, fun t ht ↦ ?_⟩
    simp [← ha.scope, h] at ht
  | some sym =>
    have hΓ := ha.eq_entity h
    unfold Symbol.entity at hΓ
    by_cases hf : sym.isFunction
    · refine ⟨_, _, .lookup_bind (by rw [h]; simp only [hf, if_true]; exact .error_then ..),
        by simp, fun t ht ↦ ?_⟩
      simp [hΓ, hf] at ht
    by_cases hr : sym.isArray
    · refine ⟨_, _, .lookup_bind
        (by rw [h]; simp only [hf, hr, if_true]; exact .error_then ..),
        by simp, fun t ht ↦ ?_⟩
      simp [hΓ, hf, hr] at ht
    · refine ⟨_, _, .lookup_bind (by rw [h]; simp only [hf, hr]; exact .pure _),
        fun _ ↦ ?_, by simp⟩
      simp [hΓ, hf, hr]

/-- What the analysis of `e` under `Γ` amounts to: a type and some errors, and no errors exactly
when `e` has that type. -/
def ExprSpec (Γ : Names) (a : SemanticAnalyzer) (e : Expr) : Prop :=
  ∃ t es, Reports (analyzeExpr e) a t es ∧ (es = [] → HasType Γ e t) ∧
    (∀ t', HasType Γ e t' → es = [])

/-- The same for the arguments of a call, against the declared types. -/
def ArgsSpec (Γ : Names) (a : SemanticAnalyzer) (args : List Expr) (i : Nat) (ts : List Ty)
    (span : Span) : Prop :=
  ∃ es, Reports (analyzeArgs i args ts span) a () es ∧ (es = [] ↔ HaveTypes Γ args ts)

section

variable {Γ : Names} {a : SemanticAnalyzer}

theorem ExprSpec.identifier (ha : a.Represents Γ) (name : String) (span : Span) :
    ExprSpec Γ a (.identifier name span) := by
  obtain ⟨t, es, hr, hs, hc⟩ := analyzeIdentifier_spec ha name span
  refine ⟨t, es, hr, fun h ↦ .identifier (hs h) span, fun t' ht ↦ ?_⟩
  cases ht with
  | identifier h => exact hc _ h

theorem ExprSpec.binary (hΓ : Γ.Simple) {left right : Expr} (hleft : ExprSpec Γ a left)
    (hright : ∀ es, ExprSpec Γ (a.report es) right) (op : BinaryOp) (span : Span) :
    ExprSpec Γ a (.binary op left right span) := by
  obtain ⟨t, es, hr, hs, hc⟩ := hleft
  obtain ⟨u, es', hr', hs', hc'⟩ := hright es
  obtain ⟨v, es'', hr'', hs'', hc''⟩ := analyzeBinaryOp_spec ((a.report es).report es') op t u span
  refine ⟨v, _, .bind hr (.bind hr' hr''), fun h ↦ ?_, fun v' hv ↦ ?_⟩
  · obtain ⟨rfl, rfl, rfl⟩ := by simpa only [List.append_eq_nil_iff] using h
    exact .binary (hs rfl) (hs' rfl)
      (hs'' ((hs rfl).isScalar hΓ) ((hs' rfl).isScalar hΓ) rfl) span
  · cases hv with
    | binary hl hu h =>
      obtain rfl := hc _ hl
      obtain rfl := hc' _ hu
      cases hl.unique (hs rfl)
      cases hu.unique (hs' rfl)
      rw [hc'' _ h]
      rfl

theorem ExprSpec.unary (hΓ : Γ.Simple) {operand : Expr} (hoperand : ExprSpec Γ a operand)
    (op : UnaryOp) (span : Span) : ExprSpec Γ a (.unary op operand span) := by
  obtain ⟨t, es, hr, hs, hc⟩ := hoperand
  obtain ⟨v, es', hr', hs', hc'⟩ := analyzeUnaryOp_spec (a.report es) op t span
  refine ⟨v, _, .bind hr hr', fun h ↦ ?_, fun v' hv ↦ ?_⟩
  · obtain ⟨rfl, rfl⟩ := by simpa only [List.append_eq_nil_iff] using h
    exact .unary (hs rfl) (hs' ((hs rfl).isScalar hΓ) rfl) span
  · cases hv with
    | unary ht h =>
      obtain rfl := hc _ ht
      cases ht.unique (hs rfl)
      rw [hc' _ h]
      rfl

/-- A call: of no function, with too few or too many arguments, or with arguments to check. -/
theorem ExprSpec.call (ha : a.Represents Γ) {name : String} {args : List Expr} {span : Span}
    (hargs : ∀ ts, args.length = ts.length → ArgsSpec Γ a args 0 ts span) :
    ExprSpec Γ a (.call name args span) := by
  cases hf : a.functions.lookup name with
  | none =>
    refine ⟨_, _, by unfold analyzeExpr; exact .get_bind (by rw [hf]; exact .error_then ..),
      by simp, fun t ht ↦ ?_⟩
    cases ht with
    | call h =>
      have := (ha.functions _ _).mpr h
      simp [hf] at this
  | some func =>
    have hname := (ha.functions name func.paramTypes).mp (by rw [hf]; rfl)
    by_cases hlen : args.length = func.paramTypes.length
    · obtain ⟨es, hr, hiff⟩ := hargs func.paramTypes hlen
      refine ⟨.int, es ++ [], by
        unfold analyzeExpr
        exact .get_bind (by simp only [hf, hlen, ne_eq, not_true, if_false]; exact .bind hr (.pure _)),
        fun h ↦ ?_, fun t ht ↦ ?_⟩
      · exact .call hname (hiff.mp (by simpa using h)) span
      · cases ht with
        | call h hargs =>
          rw [hname] at h
          cases h
          simpa using hiff.mpr hargs
    · refine ⟨.int, _, by
        unfold analyzeExpr
        exact .get_bind (by simp only [hf, hlen, ne_eq, not_false_eq_true, if_true]; exact .error_then ..),
        by simp, fun t ht ↦ ?_⟩
      cases ht with
      | call h hargs =>
        rw [hname] at h
        cases h
        exact absurd hargs.length_eq hlen

/-- An element: of no name, of a name that is no array, or at an index to check. -/
theorem ExprSpec.arrayIndex (hΓ : Γ.Simple) (ha : a.Represents Γ) {index : Expr}
    (hindex : ExprSpec Γ a index) (name : String) (span : Span) :
    ExprSpec Γ a (.arrayIndex name index span) := by
  cases hn : a.scope.lookup name with
  | none =>
    refine ⟨_, _, by unfold analyzeExpr; exact .lookup_bind (by rw [hn]; exact .error_then ..),
      by simp, fun t ht ↦ ?_⟩
    cases ht with
    | arrayIndex h => simp [← ha.scope, hn] at h
  | some sym =>
    have hname := ha.eq_entity hn
    have hkind := ha.kinds name sym hn
    unfold Symbol.entity at hname
    by_cases harr : sym.isArray
    · have hf : ¬sym.isFunction := fun hf ↦ hkind ⟨hf, harr⟩
      simp only [hf, harr, if_true] at hname
      obtain ⟨t, es, hr, hs, hc⟩ := hindex
      refine ⟨sym.symType, _, by
        unfold analyzeExpr
        exact .lookup_bind (by
          rw [hn]
          simp only [harr, not_true, if_false]
          exact .bind hr (.bind (.errorIf ..) (.pure _))), fun h ↦ ?_, fun t' ht ↦ ?_⟩
      · simp only [List.append_nil, List.append_eq_nil_iff, ite_singleton_eq_nil] at h
        obtain ⟨rfl, hint⟩ := h
        obtain rfl := (not_notInt ((hs rfl).isScalar hΓ).ne_error).mp hint
        exact .arrayIndex hname (hs rfl) span
      · cases ht with
        | arrayIndex h hi =>
          obtain rfl := hc _ hi
          cases hi.unique (hs rfl)
          simp [notInt]
    · refine ⟨_, _, by
        unfold analyzeExpr
        exact .lookup_bind (by
          rw [hn]
          simp only [harr]
          exact .error_then ..), by simp, fun t ht ↦ ?_⟩
      cases ht with
      | arrayIndex h =>
        rw [hname] at h
        split at h <;> simp_all

/-- One more argument. -/
theorem ArgsSpec.cons (hΓ : Γ.Simple) {arg : Expr} {args : List Expr} {i : Nat} {t : Ty}
    {ts : List Ty} {span : Span} (harg : ExprSpec Γ a arg)
    (hargs : ∀ es es', ArgsSpec Γ ((a.report es).report es') args (i + 1) ts span) :
    ArgsSpec Γ a (arg :: args) i (t :: ts) span := by
  obtain ⟨u, es, hr, hs, hc⟩ := harg
  obtain ⟨es', hr', hiff⟩ := hargs es _
  refine ⟨_, .bind hr (.bind (.errorIf ..) hr'), fun h ↦ ?_, fun h ↦ ?_⟩
  · simp only [List.append_eq_nil_iff, ite_singleton_eq_nil, not_and, not_not] at h
    obtain ⟨rfl, hmismatch, rfl⟩ := h
    have hu := hs rfl
    have hut : u = t := by
      by_contra hne
      exact (hu.isScalar hΓ).ne_error (hmismatch hne)
    subst hut
    exact .cons hu (hiff.mp rfl)
  · cases h with
    | cons ht hts =>
      obtain rfl := hc _ ht
      cases ht.unique (hs rfl)
      simpa using hiff.mpr hts

end

mutual

theorem analyzeExpr_spec {Γ : Names} (hΓ : Γ.Simple) : ∀ (e : Expr) {a : SemanticAnalyzer},
    a.Represents Γ → ExprSpec Γ a e
  | .intLiteral value span, _, _ =>
    ⟨.int, [], .pure _, fun _ ↦ .intLiteral value span, fun _ _ ↦ rfl⟩
  | .boolLiteral value span, _, _ =>
    ⟨.bool, [], .pure _, fun _ ↦ .boolLiteral value span, fun _ _ ↦ rfl⟩
  | .identifier name span, _, ha => .identifier ha name span
  | .binary op left right span, _, ha =>
    .binary hΓ (analyzeExpr_spec hΓ left ha) (fun es ↦ analyzeExpr_spec hΓ right (ha.report es)) op
      span
  | .unary op operand span, _, ha => .unary hΓ (analyzeExpr_spec hΓ operand ha) op span
  | .call _ args span, _, ha => .call ha fun ts hlen ↦ analyzeArgs_spec hΓ args 0 ts span hlen ha
  | .arrayIndex name index span, _, ha =>
    .arrayIndex hΓ ha (analyzeExpr_spec hΓ index ha) name span

theorem analyzeArgs_spec {Γ : Names} (hΓ : Γ.Simple) : ∀ (args : List Expr) (i : Nat)
    (ts : List Ty) (span : Span), args.length = ts.length → ∀ {a : SemanticAnalyzer},
    a.Represents Γ → ArgsSpec Γ a args i ts span
  | [], _, [], _, _, _, _ => ⟨[], .pure (), by simp [HaveTypes.nil]⟩
  | arg :: args, i, _ :: ts, span, hlen, _, ha =>
    .cons hΓ (analyzeExpr_spec hΓ arg ha) fun es es' ↦ analyzeArgs_spec hΓ args (i + 1) ts span
      (Nat.succ.inj hlen) ((ha.report es).report es')

end

end SemanticAnalyzer

end MiniLang
