import MiniLang.Sema.Statements
import Mathlib.Data.List.Dedup

/-!
# The analyzer on programs

The declaration passes leave the errors empty exactly when the top-level names, sizes and storage
are in order, and then the global scope stands for the top-level names. With the analysis of
function bodies this makes the analyzer accept exactly the well-formed programs.

## Passes and judgement

The analyzer makes several passes over a program: it collects the globals, then the functions, then
checks the initial values of globals, looks for `main`, and analyzes each body. The judgement
`WellFormed` is declarative and has no order of passes. Each pass has two lemmas, that a run without
errors finds its part of the judgement true and leaves the state that the next pass expects, and
that the part being true leads to a run without errors. Since errors are only ever appended, a
program without errors has none after any pass, and the parts can be put together.

## Names of globals and functions

Globals and functions share one name space. A global is new if no global before it has its name, a
function if neither a global nor a function before it does. `declaredGlobal` and `declaredFunction`
say what a name stands for after a list of declarations; `NoArrayFunctions` keeps track of the fact
that no symbol is both.
-/

namespace MiniLang

/-! ## Freshness of declared names -/

theorem Names.declare_eq_none {Γ : Names} {name n : String} {entity : Entity}
    (h : Γ.declare name entity n = none) : Γ n = none := by
  rw [Names.declare, Function.update_apply] at h
  split at h
  · cases h
  · exact h

theorem StmtOk.eq_none_of_eq_none {Γ Γ' : Names} {stmt : Stmt} (h : StmtOk Γ stmt Γ') {n : String}
    (hn : Γ' n = none) : Γ n = none := by
  cases h with
  | varDecl => exact Names.declare_eq_none hn
  | _ => exact hn

theorem StmtsOk.eq_none_of_eq_none : ∀ {stmts : List Stmt} {Γ Γ' : Names}, StmtsOk Γ stmts Γ' →
    ∀ {n : String}, Γ' n = none → Γ n = none
  | [], _, _, .nil _, _, hn => hn
  | _ :: _, _, _, .cons h hs, _, hn => h.eq_none_of_eq_none (hs.eq_none_of_eq_none hn)

mutual

/-- The names a well-formed statement declares are not visible before it. -/
theorem StmtOk.fresh : ∀ {stmt : Stmt} {Γ Γ' : Names}, StmtOk Γ stmt Γ' →
    ∀ n ∈ stmt.localNames, Γ n = none
  | .varDecl .., _, _, .varDecl hfresh _ _ _, n, hn => by
    rw [Stmt.localNames, List.mem_singleton] at hn
    rw [hn]
    exact hfresh
  | .ifStmt _ _ none _, _, _, .ifThen _ h _, n, hn => h.fresh n hn
  | .ifStmt _ _ (some _) _, _, _, .ifElse _ h h' _, n, hn => by
    rw [Stmt.localNames, List.mem_append] at hn
    rcases hn with hn | hn
    · exact h.fresh n hn
    · exact h'.fresh n hn
  | .whileStmt .., _, _, .whileStmt _ h _, n, hn => h.fresh n hn

theorem StmtsOk.fresh : ∀ {stmts : List Stmt} {Γ Γ' : Names}, StmtsOk Γ stmts Γ' →
    ∀ n ∈ localNamesList stmts, Γ n = none
  | _ :: _, _, _, .cons h hs, n, hn => by
    rw [localNamesList, List.mem_append] at hn
    rcases hn with hn | hn
    · exact h.fresh n hn
    · exact h.eq_none_of_eq_none (hs.fresh n hn)

end

theorem ParamsOk.eq_none_of_eq_none {params : List Param} {Γ Γ' : Names}
    (hs : ParamsOk Γ params Γ') {n : String} (hn : Γ' n = none) :
    Γ n = none ∧ n ∉ params.map Param.name := by
  induction hs with
  | nil => exact ⟨hn, List.not_mem_nil⟩
  | cons _ _ ih =>
    obtain ⟨h, hmem⟩ := ih hn
    refine ⟨Names.declare_eq_none h, fun hmem' ↦ ?_⟩
    rcases List.mem_cons.mp hmem' with rfl | hmem'
    · simp [Names.declare] at h
    · exact hmem hmem'

theorem ParamsOk.fresh : ∀ {params : List Param} {Γ Γ' : Names}, ParamsOk Γ params Γ' →
    ∀ n ∈ params.map Param.name, Γ n = none
  | _ :: _, _, _, .cons hfresh hs, n, hn => by
    rcases List.mem_cons.mp hn with rfl | hn
    · exact hfresh
    · exact Names.declare_eq_none (hs.fresh n hn)

theorem ParamsOk.unique : ∀ {params : List Param} {Γ Γ₁ Γ₂ : Names}, ParamsOk Γ params Γ₁ →
    ParamsOk Γ params Γ₂ → Γ₁ = Γ₂
  | [], _, _, _, .nil _, .nil _ => rfl
  | _ :: _, _, _, _, .cons _ h, .cons _ h' => h.unique h'

/-- Parameters that are each new where they are declared are distinct. -/
theorem ParamsOk.nodup {params : List Param} {Γ Γ' : Names} (hs : ParamsOk Γ params Γ') :
    (params.map Param.name).Nodup := by
  induction hs with
  | nil => exact List.nodup_nil
  | cons _ hs ih =>
    refine List.nodup_cons.mpr ⟨fun hmem ↦ ?_, ih⟩
    have h := hs.fresh _ hmem
    simp [Names.declare] at h

/-- In a well-formed function the slots are counted by the parameters and local names together. -/
theorem card_params_union_locals {Γ Γ₁ Γ₂ : Names} {f : Function} (hp : ParamsOk Γ f.params Γ₁)
    (hs : StmtsOk Γ₁ f.body Γ₂) :
    ((f.params.map Param.name).toFinset ∪ (localNamesList f.body).toFinset).card =
      f.localSlots := by
  have hdisjoint : Disjoint (f.params.map Param.name).toFinset (localNamesList f.body).toFinset := by
    rw [Finset.disjoint_left]
    intro n hn hn'
    exact (hp.eq_none_of_eq_none (hs.fresh n (List.mem_toFinset.mp hn'))).2
      (List.mem_toFinset.mp hn)
  rw [Finset.card_union_of_disjoint hdisjoint, List.toFinset_card_of_nodup hp.nodup,
    List.length_map, List.card_toFinset, Function.localSlots]

namespace SemanticAnalyzer

/-! ## Function bodies -/

theorem addParams_extending : ∀ params : List Param, Extending (addParams params)
  | [] => .of_onlyReports (.pure _)
  | param :: params => by
    refine Extending.bind (.of_onlyReports (.lookup _)) fun sym ↦ ?_
    split
    · exact .bind (.of_onlyReports .error) fun _ ↦ addParams_extending params
    · exact .bind define_extending fun _ ↦ addParams_extending params

/-- Parameters become visible one by one, each with an error if it is not new. -/
theorem addParams_spec : ∀ (params : List Param) {Γ : Names} {a : SemanticAnalyzer},
    a.Represents Γ →
    (exec (addParams params) a).currentLocalNames = a.currentLocalNames ∧
    (exec (addParams params) a).currentLocalSlots = a.currentLocalSlots ∧
    ((exec (addParams params) a).errors = [] →
      ∃ Γ', ParamsOk Γ params Γ' ∧ (exec (addParams params) a).Represents Γ') ∧
    (∀ Γ', ParamsOk Γ params Γ' → a.errors = [] → (exec (addParams params) a).errors = [])
  | [], Γ, a, ha => ⟨rfl, rfl, fun _ ↦ ⟨Γ, .nil Γ, ha⟩, fun _ _ he ↦ he⟩
  | param :: params, Γ, a, ha => by
    cases hn : a.scope.lookup param.name with
    | some sym =>
      have hstep : exec (addParams (param :: params)) a = exec (addParams params)
          (a.report [⟨s!"Parameter shadows existing symbol: {param.name}", param.span⟩]) := by
        rw [addParams, exec_lookup_bind, hn]
        rfl
      obtain ⟨hnames, hslots, -, -⟩ := addParams_spec params (ha.report
        [⟨s!"Parameter shadows existing symbol: {param.name}", param.span⟩])
      rw [hstep]
      refine ⟨hnames, hslots, fun he ↦ ?_, fun Γ' h _ ↦ ?_⟩
      · have := (addParams_extending params _).errors_eq_nil he
        simp at this
      · cases h with
        | cons hfresh => simp [← ha.scope, hn] at hfresh
    | none =>
      have hfresh : Γ param.name = none := by rw [← ha.scope, hn]; rfl
      set sym : Symbol := ⟨param.name, param.paramType, false, false, 0, false, []⟩ with hsym
      have hstep : exec (addParams (param :: params)) a =
          exec (addParams params) { a with scope := a.scope.insert sym } := by
        rw [addParams, exec_lookup_bind, hn]
        exact (exec_seq ..).trans (by rw [exec_define hn])
      have hb : SemanticAnalyzer.Represents { a with scope := a.scope.insert sym }
          (Γ.declare param.name (.scalar param.paramType)) :=
        ha.insert (s := sym) (by simp [hsym]) hfresh rfl rfl
      rw [hstep]
      obtain ⟨hnames, hslots, hsound, hcomplete⟩ := addParams_spec params hb
      refine ⟨hnames, hslots, fun he ↦ ?_, fun Γ' h he ↦ ?_⟩
      · obtain ⟨Γ', hp, hr⟩ := hsound he
        exact ⟨Γ', .cons hfresh hp, hr⟩
      · cases h with
        | cons _ hp => exact hcomplete Γ' hp he

theorem ParamsOk.simple : ∀ {params : List Param} {Γ Γ' : Names}, ParamsOk Γ params Γ' →
    Γ.Simple → (∀ param ∈ params, param.paramType.IsScalar) → Γ'.Simple
  | [], _, _, .nil _, hΓ, _ => hΓ
  | _ :: _, _, _, .cons _ hs, hΓ, ht =>
    ParamsOk.simple hs (declare_simple hΓ (ht _ List.mem_cons_self) _ none)
      fun param hmem ↦ ht param (List.mem_cons_of_mem _ hmem)

/-- `a` at the start of the analysis of `f`. -/
def enter (a : SemanticAnalyzer) (f : Function) : SemanticAnalyzer :=
  { a with
    currentFunction := some f.name
    currentLocalNames := (f.params.map Param.name).toFinset
    currentLocalSlots := f.params.length }

/-- The body of a function, as one block. -/
def analyzeBody (f : Function) : SemaM Unit := do
  addParams f.params
  analyzeStmts f.body

theorem exec_analyzeFunction (a : SemanticAnalyzer) (f : Function) :
    exec (analyzeFunction f) a = { exec (block (analyzeBody f))
      (exec (checkLocalSlotLimit f.span) (a.enter f)) with currentFunction := none } := rfl

theorem analyzeBody_extending (f : Function) : Extending (analyzeBody f) :=
  .bind (addParams_extending f.params) fun _ ↦ analyzeStmts_extending f.body

/-- A body that is analyzed without errors is well-formed, and its slots were all counted. -/
theorem analyzeBody_sound {Γ : Names} (hΓ : Γ.Simple) {b : SemanticAnalyzer} (hb : b.Represents Γ)
    {f : Function} (hparams : ∀ param ∈ f.params, param.paramType.IsScalar)
    (hbody : sourceFormList f.body)
    (hbn : b.currentLocalNames = (f.params.map Param.name).toFinset)
    (hbs : b.currentLocalSlots = f.params.length) (hlimit : f.params.length ≤ maxLocalSlots)
    (he : (exec (block (analyzeBody f)) b).errors = []) :
    FunctionOk Γ f ∧ (exec (block (analyzeBody f)) b).currentLocalSlots = f.localSlots := by
  obtain ⟨hnames, hslots, hsound, -⟩ := addParams_spec f.params (Spec.pushed_represents hb)
  obtain ⟨Γ₁, hp, hr₁⟩ := hsound ((analyzeStmts_extending f.body _).errors_eq_nil he)
  have hcard : (f.params.map Param.name).toFinset.card = f.params.length := by
    rw [List.toFinset_card_of_nodup hp.nodup, List.length_map]
  have hw : (exec (addParams f.params) { b with scope := b.scope.push }).Within :=
    ⟨by rw [hslots, hnames]; exact hbs.trans (hcard.symm.trans (congrArg _ hbn.symm)),
      by rw [hnames]; exact (congrArg _ hbn).trans_le (hcard.trans_le hlimit)⟩
  obtain ⟨Γ₂, hs, -, hw', hn⟩ :=
    (analyzeStmts_spec f.body (ParamsOk.simple hp hΓ hparams) hbody).sound _ hr₁ hw he
  have hn' := hn.trans (congrArg (· ∪ (localNamesList f.body).toFinset) (hnames.trans hbn))
  have hcount := (congrArg Finset.card hn').trans (card_params_union_locals hp hs)
  exact ⟨⟨⟨Γ₁, Γ₂, hp, hs⟩, hcount.symm.trans_le hw'.limit⟩, hw'.slots.trans hcount⟩

/-- One function is analyzed without errors exactly when it is well-formed. -/
theorem analyzeFunction_spec {Γ : Names} (hΓ : Γ.Simple) {a : SemanticAnalyzer}
    (ha : a.Represents Γ) {f : Function} (hparams : ∀ param ∈ f.params, param.paramType.IsScalar)
    (hbody : sourceFormList f.body) :
    (exec (analyzeFunction f) a).Represents Γ ∧
      ((exec (analyzeFunction f) a).errors = [] ↔ a.errors = [] ∧ FunctionOk Γ f) ∧
      ((exec (analyzeFunction f) a).errors = [] →
        (exec (analyzeFunction f) a).currentLocalSlots = f.localSlots) := by
  obtain ⟨es, hr, hiff⟩ := checkLocalSlotLimit_reports (a.enter f) f.span
  rw [exec_analyzeFunction, hr.exec_eq]
  have henter : (a.enter f).Represents Γ := ⟨ha.scope, ha.functions, ha.kinds⟩
  set b := (a.enter f).report es with hb
  have hbr : b.Represents Γ := henter.report es
  have hscope := (analyzeBody_extending f).block_scope b
  have hext := (analyzeBody_extending f).block b
  have hstart (he : (exec (block (analyzeBody f)) b).errors = []) :
      a.errors = [] ∧ f.params.length ≤ maxLocalSlots := by
    have hbe := hext.errors_eq_nil he
    rw [hb, report_errors, List.append_eq_nil_iff] at hbe
    exact ⟨hbe.1, hiff.mp hbe.2⟩
  have hsound (he : (exec (block (analyzeBody f)) b).errors = []) :=
    analyzeBody_sound hΓ hbr hparams hbody rfl rfl (hstart he).2 he
  refine ⟨⟨?_, ?_, ?_⟩, ⟨fun he ↦ ⟨(hstart he).1, (hsound he).1⟩, fun ⟨he, hok⟩ ↦ ?_⟩,
    fun he ↦ (hsound he).2⟩
  · exact fun name ↦ (congrArg (fun s ↦ (s.lookup name).map Symbol.entity) hscope).trans
      (hbr.scope name)
  · intro name params
    rw [← hbr.functions]
    exact Eq.to_iff (congrArg (fun s : HashMap String Symbol ↦
      (s.lookup name).map Symbol.paramTypes = some params) hext.functions)
  · intro name sym hsym
    exact hbr.kinds name sym (by rw [← hscope]; exact hsym)
  · obtain ⟨⟨Γ₁, Γ₂, hp, hs⟩, hlimit⟩ := hok
    rw [← card_params_union_locals hp hs] at hlimit
    have hcard : (f.params.map Param.name).toFinset.card = f.params.length := by
      rw [List.toFinset_card_of_nodup hp.nodup, List.length_map]
    have hlength : f.params.length ≤ maxLocalSlots :=
      hcard ▸ (Finset.card_le_card Finset.subset_union_left).trans hlimit
    have hbe : b.errors = [] := by
      rw [hb, report_errors, hiff.mpr hlength]
      exact (List.append_nil _).trans he
    obtain ⟨hnames, hslots, hsound, hcomplete⟩ :=
      addParams_spec f.params (Spec.pushed_represents hbr)
    have hpe := hcomplete Γ₁ hp hbe
    obtain ⟨Γ₁', hp', hr₁⟩ := hsound hpe
    obtain rfl := hp.unique hp'
    have hw : (exec (addParams f.params) { b with scope := b.scope.push }).Within :=
      ⟨by rw [hslots, hnames]; exact hcard.symm, by rw [hnames]; exact hcard ▸ hlength⟩
    have hcount : ((exec (addParams f.params) { b with scope := b.scope.push }).currentLocalNames ∪
        (localNamesList f.body).toFinset).card ≤ maxLocalSlots := by
      rw [hnames]
      exact hlimit
    exact (analyzeStmts_spec f.body (ParamsOk.simple hp hΓ hparams) hbody).complete _ hr₁ hw hpe
      Γ₂ hs hcount

theorem analyzeFunctions_spec {Γ : Names} (hΓ : Γ.Simple) : ∀ (fs : List Function),
    (∀ f ∈ fs, ∀ param ∈ f.params, param.paramType.IsScalar) →
    (∀ f ∈ fs, sourceFormList f.body) → ∀ {a : SemanticAnalyzer}, a.Represents Γ →
    ((exec (analyzeFunctions fs) a).errors = [] ↔ a.errors = [] ∧ ∀ f ∈ fs, FunctionOk Γ f)
  | [], _, _, a, _ => by simp [analyzeFunctions]
  | f :: fs, hparams, hbodies, a, ha => by
    obtain ⟨hr, hiff, -⟩ := analyzeFunction_spec hΓ ha (hparams f List.mem_cons_self)
      (hbodies f List.mem_cons_self)
    have ih := analyzeFunctions_spec hΓ fs (fun g hg ↦ hparams g (List.mem_cons_of_mem _ hg))
      (fun g hg ↦ hbodies g (List.mem_cons_of_mem _ hg)) hr
    rw [analyzeFunctions, exec_seq, ih, hiff, and_assoc, List.forall_mem_cons]

/-! ## Declarations -/

theorem checkGlobalInits_spec {Γ : Names} (hΓ : Γ.Simple) : ∀ (globs : List GlobalVar)
    {a : SemanticAnalyzer}, a.Represents Γ →
    ∃ es, Reports (checkGlobalInits globs) a () es ∧
      (es = [] ↔ ∀ g ∈ globs, InitOk Γ g.varType g.initExpr)
  | [], _, _ => ⟨[], .pure (), by simp⟩
  | g :: globs, a, ha => by
    obtain ⟨es, hr, hiff⟩ := analyzeInit_spec hΓ ha g.initExpr g.varType g.span
    obtain ⟨es', hr', hiff'⟩ := checkGlobalInits_spec hΓ globs (ha.report es)
    refine ⟨es ++ es', hr.bind hr', ?_⟩
    rw [List.append_eq_nil_iff, hiff, hiff', List.forall_mem_cons]

theorem checkMain_spec {Γ : Names} {a : SemanticAnalyzer} (ha : a.Represents Γ) :
    ∃ es, Reports checkMain a () es ∧ (es = [] ↔ Γ "main" = some (.function [])) := by
  cases hf : a.functions.lookup "main" with
  | none =>
    refine ⟨_, .get_bind (by rw [hf]; exact .error ..), ?_⟩
    rw [← ha.functions, hf]
    simp
  | some sym =>
    refine ⟨_, .get_bind (by rw [hf]; exact .errorIf ..), ?_⟩
    rw [← ha.functions, hf, ite_singleton_eq_nil]
    simp

/-- What the storage and the names of global declarations require, with `n` slots taken. -/
structure GlobalsOk (n : Nat) (a : SemanticAnalyzer) (globs : List GlobalVar) : Prop where
  sizes : ∀ g ∈ globs, ∀ size ∈ g.arraySize, 0 < size
  slots : n + (globs.map GlobalVar.slots).sum ≤ maxGlobalSlots
  nodup : (globs.map GlobalVar.name).Nodup
  fresh : ∀ g ∈ globs, a.scope.lookup g.name = none

/-- The symbol that a global declaration defines. -/
def globalSymbol (g : GlobalVar) (checked : Option Nat) : Symbol :=
  ⟨g.name, g.varType, true, g.arraySize.isSome, (checked.map Int32.ofNat).getD 0, false, []⟩

theorem globalSymbol_entity (g : GlobalVar) (checked : Option Nat) :
    (globalSymbol g checked).entity = varEntity g.varType g.arraySize := by
  rfl

theorem validateArraySize_value {a : SemanticAnalyzer} {g : GlobalVar}
    (h : ∀ size ∈ g.arraySize, 0 < size) :
    ∃ v, Reports (validateArraySize g.name g.arraySize g.span) a v [] ∧
      (if g.arraySize.isSome then v.getD 0 else 1) = g.slots := by
  cases hs : g.arraySize with
  | none => exact ⟨none, .pure _, by simp [GlobalVar.slots, hs]⟩
  | some size =>
    have hsize := h size hs
    refine ⟨some (asUsize size), ?_, by simp [GlobalVar.slots, hs]⟩
    rw [validateArraySize]
    simp only [hsize, if_true]
    exact .pure _

theorem GlobalVar.slots_pos {g : GlobalVar} (h : ∀ size ∈ g.arraySize, 0 < size) :
    0 < g.slots ∧ g.slots < 2 ^ 31 := by
  unfold MiniLang.GlobalVar.slots
  cases hs : g.arraySize with
  | none => simp
  | some size =>
    have hsize := h size hs
    have hlt := size.toInt_lt
    rw [Int32.lt_iff_toInt_lt] at hsize
    simp only [asUsize, Int32.toInt_zero] at *
    omega

theorem addGlobalSlots_spec (a : SemanticAnalyzer) (name : String) {slots n : Nat} (span : Span)
    (hpos : 0 < slots) (hlt : slots < 2 ^ 31) (hn : n ≤ maxGlobalSlots) :
    ∃ es, Reports (addGlobalSlots name slots span n) a (n + slots) es ∧
      (es = [] ↔ n + slots ≤ maxGlobalSlots) := by
  have hle : n + slots ≤ usizeMax := by
    simp only [usizeMax, maxGlobalSlots] at *
    omega
  have hadd : checkedAdd n slots = some (n + slots) := if_pos hle
  rw [addGlobalSlots, if_neg (by omega), hadd]
  exact ⟨_, .bind (.errorIf ..) (.pure _), by
    rw [List.append_nil, ite_singleton_eq_nil, Nat.not_lt]⟩

theorem addGlobalSlots_onlyReports (name : String) (slots n : Nat) (span : Span) :
    OnlyReports (addGlobalSlots name slots span n) := by
  unfold addGlobalSlots
  split
  · exact .pure _
  · split
    · exact .error_then
    · exact .bind .errorIf fun _ ↦ .pure _

theorem collectGlobals_extending : ∀ (globs : List GlobalVar) (n : Nat),
    Extending (collectGlobals n globs)
  | [], _ => .of_onlyReports (.pure _)
  | _ :: globs, _ =>
    .bind (.of_onlyReports validateArraySize_onlyReports) fun _ ↦
      .bind (.of_onlyReports (addGlobalSlots_onlyReports _ _ _ _)) fun n' ↦
        .bind define_extending fun _ ↦ collectGlobals_extending globs n'

/-- One global: without errors it defines its symbol and takes its slots. -/
theorem exec_collectGlobals_cons {a : SemanticAnalyzer} {g : GlobalVar} (globs : List GlobalVar)
    {n : Nat} (hn : n ≤ maxGlobalSlots) (hsize : ∀ size ∈ g.arraySize, 0 < size)
    (hslots : n + g.slots ≤ maxGlobalSlots) (hfresh : a.scope.lookup g.name = none) :
    ∃ sym : Symbol, sym.name = g.name ∧ sym.entity = varEntity g.varType g.arraySize ∧
      ¬sym.isFunction ∧
      exec (collectGlobals n (g :: globs)) a =
        exec (collectGlobals (n + g.slots) globs) { a with scope := a.scope.insert sym } := by
  obtain ⟨v, hr, hv⟩ := validateArraySize_value (a := a) hsize
  obtain ⟨hpos, hlt⟩ := GlobalVar.slots_pos hsize
  obtain ⟨es, hr', hiff⟩ := addGlobalSlots_spec a g.name g.span hpos hlt hn
  obtain rfl := hiff.mpr hslots
  refine ⟨globalSymbol g v, rfl, globalSymbol_entity g v, by simp [globalSymbol], ?_⟩
  rw [collectGlobals, hr.exec_bind_eq, report_nil, hv, hr'.exec_bind_eq, report_nil, exec_seq]
  exact congrArg _ (exec_define hfresh _ _)

theorem lookup_eq_none_of_errors_define {a : SemanticAnalyzer} {s : Symbol} {message : String}
    {span : Span} (hparents : a.scope.parents = [])
    (he : (exec (define s message span) a).errors = []) : a.scope.lookup s.name = none := by
  rw [define, exec_get_bind] at he
  split at he
  · simp [(Reports.error ..).exec_eq] at he
  · rename_i hmem
    rw [Scope.lookup, hparents]
    simp [Scope.lookupChain, AList.lookup_eq_none.mpr hmem]

/-- A global with a wrong size, too many slots or a taken name leaves an error behind. -/
theorem errors_collectGlobals_cons {a : SemanticAnalyzer} {g : GlobalVar} {globs : List GlobalVar}
    {n : Nat} (hn : n ≤ maxGlobalSlots) (hparents : a.scope.parents = [])
    (he : (exec (collectGlobals n (g :: globs)) a).errors = []) :
    a.errors = [] ∧ (∀ size ∈ g.arraySize, 0 < size) ∧ n + g.slots ≤ maxGlobalSlots ∧
      a.scope.lookup g.name = none := by
  obtain ⟨v, es, hr, hiff⟩ := validateArraySize_reports a g.name g.arraySize g.span
  obtain ⟨n', es', hr'⟩ := addGlobalSlots_onlyReports g.name
    (if g.arraySize.isSome then v.getD 0 else 1) n g.span (a.report es)
  rw [collectGlobals, hr.exec_bind_eq, hr'.exec_bind_eq, exec_seq] at he
  have hdefine := (collectGlobals_extending globs n' _).errors_eq_nil he
  have hreport := (define_extending _).errors_eq_nil hdefine
  rw [report_report, report_errors, List.append_eq_nil_iff, List.append_eq_nil_iff] at hreport
  obtain ⟨hae, rfl, rfl⟩ := hreport
  have hsize := hiff.mp rfl
  rw [report_nil, report_nil] at hdefine
  have hfresh := lookup_eq_none_of_errors_define hparents hdefine
  refine ⟨hae, hsize, ?_, hfresh⟩
  obtain ⟨v', hv, hslots⟩ := validateArraySize_value (a := a) hsize
  obtain rfl : v = v' := (Prod.mk.inj (hr.symm.trans hv)).1
  obtain ⟨hpos, hlt⟩ := GlobalVar.slots_pos hsize
  obtain ⟨es, hr₁, hiff₁⟩ := addGlobalSlots_spec (a.report []) g.name g.span hpos hlt hn
  rw [hslots] at hr'
  have hstate := (Prod.mk.inj (hr'.symm.trans hr₁)).2
  have hes : es = [] := by
    have := congrArg SemanticAnalyzer.errors hstate
    simpa [hae] using this.symm
  exact hiff₁.mp hes

/-- What a name stands for after the declarations `globs`, if it stood for `entity` before. -/
def declaredGlobal (globs : List GlobalVar) (name : String) : Option Entity :=
  (globs.find? (·.name = name)).map fun g ↦ varEntity g.varType g.arraySize

def NoArrayFunctions (a : SemanticAnalyzer) : Prop :=
  ∀ name, ∀ sym ∈ a.scope.lookup name, ¬(sym.isFunction ∧ sym.isArray)

theorem NoArrayFunctions.insert {a : SemanticAnalyzer} (hk : a.NoArrayFunctions) {sym : Symbol}
    (hsym : ¬(sym.isFunction ∧ sym.isArray)) :
    NoArrayFunctions { a with scope := a.scope.insert sym } := by
  intro name sym' h
  rw [show SemanticAnalyzer.scope _ = a.scope.insert sym from rfl, lookup_insert] at h
  split at h
  · obtain rfl := Option.mem_some_iff.mp h
    exact hsym
  · exact hk name sym' h

theorem GlobalsOk.cons {n : Nat} {a : SemanticAnalyzer} {g : GlobalVar} {globs : List GlobalVar}
    {sym : Symbol} (hsym : sym.name = g.name) :
    GlobalsOk n a (g :: globs) ↔ (∀ size ∈ g.arraySize, 0 < size) ∧
      a.scope.lookup g.name = none ∧
      GlobalsOk (n + g.slots) { a with scope := a.scope.insert sym } globs := by
  constructor
  · intro h
    have hnodup := List.nodup_cons.mp h.nodup
    have hslots := h.slots
    refine ⟨h.sizes g List.mem_cons_self, h.fresh g List.mem_cons_self,
      ⟨fun g' hg ↦ h.sizes g' (List.mem_cons_of_mem _ hg), ?_, hnodup.2, fun g' hg ↦ ?_⟩⟩
    · rwa [List.map_cons, List.sum_cons, ← Nat.add_assoc] at hslots
    · have hne : g'.name ≠ g.name := fun heq ↦ hnodup.1 (heq ▸ List.mem_map_of_mem hg)
      rw [show SemanticAnalyzer.scope _ = a.scope.insert sym from rfl, lookup_insert, hsym,
        if_neg hne]
      exact h.fresh g' (List.mem_cons_of_mem _ hg)
  · rintro ⟨hsize, hfresh, h⟩
    have hfresh' : ∀ g' ∈ globs, g'.name ≠ g.name ∧ a.scope.lookup g'.name = none := by
      intro g' hg
      have := h.fresh g' hg
      rw [show SemanticAnalyzer.scope _ = a.scope.insert sym from rfl, lookup_insert, hsym] at this
      split at this
      · cases this
      · exact ⟨by assumption, this⟩
    refine ⟨List.forall_mem_cons.mpr ⟨hsize, h.sizes⟩, ?_, List.nodup_cons.mpr ⟨?_, h.nodup⟩,
      List.forall_mem_cons.mpr ⟨hfresh, fun g' hg ↦ (hfresh' g' hg).2⟩⟩
    · rw [List.map_cons, List.sum_cons, ← Nat.add_assoc]
      exact h.slots
    · rintro hmem
      obtain ⟨g', hg, heq⟩ := List.mem_map.mp hmem
      exact (hfresh' g' hg).1 heq

theorem declaredGlobal_cons (g : GlobalVar) (globs : List GlobalVar) (name : String) :
    declaredGlobal (g :: globs) name = if g.name = name then some (varEntity g.varType g.arraySize)
      else declaredGlobal globs name := by
  rw [declaredGlobal, List.find?_cons]
  split <;> simp_all [declaredGlobal]

/-- Globals collected without errors are in order, and the global scope is extended by them. -/
theorem collectGlobals_sound : ∀ (globs : List GlobalVar) {n : Nat} {a : SemanticAnalyzer},
    n ≤ maxGlobalSlots → a.scope.parents = [] → a.NoArrayFunctions →
    (exec (collectGlobals n globs) a).errors = [] →
    a.errors = [] ∧ GlobalsOk n a globs ∧ (exec (collectGlobals n globs) a).NoArrayFunctions ∧
      ∀ name, ((exec (collectGlobals n globs) a).scope.lookup name).map Symbol.entity =
        ((a.scope.lookup name).map Symbol.entity <|> declaredGlobal globs name)
  | [], n, a, hn, _, hk, he =>
    ⟨he, ⟨by simp, by simpa using hn, by simp, by simp⟩, hk,
      fun name ↦ by simp [declaredGlobal, collectGlobals]⟩
  | g :: globs, n, a, hn, hparents, hk, he => by
    obtain ⟨hae, hsize, hslots, hfresh⟩ := errors_collectGlobals_cons hn hparents he
    obtain ⟨sym, hname, hentity, hsym, hstep⟩ :=
      exec_collectGlobals_cons globs hn hsize hslots hfresh
    rw [hstep] at he ⊢
    obtain ⟨-, hok, hk', hlookup⟩ := collectGlobals_sound globs (a := { a with
      scope := a.scope.insert sym }) hslots hparents (hk.insert fun h ↦ hsym h.1) he
    refine ⟨hae, (GlobalsOk.cons hname).mpr ⟨hsize, hfresh, hok⟩, hk', fun name ↦ ?_⟩
    rw [hlookup, declaredGlobal_cons, lookup_insert, hname]
    by_cases h : name = g.name
    · subst h
      simp [hfresh, hentity]
    · simp [h, Ne.symm h]

theorem collectGlobals_complete : ∀ (globs : List GlobalVar) {n : Nat} {a : SemanticAnalyzer},
    n ≤ maxGlobalSlots → a.errors = [] → GlobalsOk n a globs →
    (exec (collectGlobals n globs) a).errors = []
  | [], _, _, _, he, _ => he
  | g :: globs, n, a, hn, he, hok => by
    have hsize := hok.sizes g List.mem_cons_self
    have hfresh := hok.fresh g List.mem_cons_self
    have hslots : n + g.slots ≤ maxGlobalSlots := by
      have := hok.slots
      simp only [List.map_cons, List.sum_cons] at this
      omega
    obtain ⟨sym, hname, -, -, hstep⟩ :=
      exec_collectGlobals_cons globs hn hsize hslots hfresh
    rw [hstep]
    exact collectGlobals_complete globs hslots he ((GlobalsOk.cons hname).mp hok).2.2

/-! ## Functions -/

/-- The function declarations are new to the scope and the function table, and distinct. -/
structure FunctionsNew (a : SemanticAnalyzer) (fs : List Function) : Prop where
  nodup : (fs.map Function.name).Nodup
  functions : ∀ f ∈ fs, f.name ∉ a.functions
  scope : ∀ f ∈ fs, a.scope.lookup f.name = none

def functionSymbol (f : Function) : Symbol :=
  ⟨f.name, .int, false, false, 0, true, f.params.map Param.paramType⟩

/-- `a` with `f` in the function table. -/
def tabulate (a : SemanticAnalyzer) (f : Function) : SemanticAnalyzer :=
  { a with functions := a.functions.insert f.name (functionSymbol f) }

/-- `a` after the declaration of `f`. -/
def declareFunction (a : SemanticAnalyzer) (f : Function) : SemanticAnalyzer :=
  { a.tabulate f with scope := a.scope.insert (functionSymbol f) }

@[simp] theorem declareFunction_functions (a : SemanticAnalyzer) (f : Function) :
    (a.declareFunction f).functions = a.functions.insert f.name (functionSymbol f) := rfl

@[simp] theorem declareFunction_scope (a : SemanticAnalyzer) (f : Function) :
    (a.declareFunction f).scope = a.scope.insert (functionSymbol f) := rfl

@[simp] theorem functionSymbol_name (f : Function) : (functionSymbol f).name = f.name := rfl

theorem errors_prefix_collectFunction (a : SemanticAnalyzer) (f : Function) :
    a.errors <+: (exec (collectFunction f) a).errors := by
  rw [collectFunction, exec_get_bind]
  split
  · exact (Extending.of_onlyReports .error a).errors
  · rw [exec_seq, exec_set]
    exact (define_extending (a.tabulate f)).errors

theorem errors_prefix_collectFunctions : ∀ (fs : List Function) (a : SemanticAnalyzer),
    a.errors <+: (exec (collectFunctions fs) a).errors
  | [], _ => List.prefix_rfl
  | f :: fs, a => (errors_prefix_collectFunction a f).trans (errors_prefix_collectFunctions fs _)

theorem exec_collectFunction {a : SemanticAnalyzer} {f : Function} (hf : f.name ∉ a.functions)
    (hscope : a.scope.lookup f.name = none) :
    exec (collectFunction f) a = a.declareFunction f := by
  rw [collectFunction, exec_get_bind, if_neg hf, exec_seq, exec_set]
  exact exec_define (a := a.tabulate f) (s := functionSymbol f) hscope _ _

theorem errors_collectFunction {a : SemanticAnalyzer} {f : Function}
    (hparents : a.scope.parents = []) (he : (exec (collectFunction f) a).errors = []) :
    a.errors = [] ∧ f.name ∉ a.functions ∧ a.scope.lookup f.name = none := by
  have hae := errors_prefix_collectFunction a f
  rw [he, List.prefix_nil] at hae
  rw [collectFunction, exec_get_bind] at he
  split at he
  · simp [(Reports.error ..).exec_eq] at he
  · rename_i hf
    rw [exec_seq, exec_set] at he
    exact ⟨hae, hf, lookup_eq_none_of_errors_define (a := a.tabulate f)
      (s := functionSymbol f) hparents he⟩

theorem FunctionsNew.cons {a : SemanticAnalyzer} {f : Function} {fs : List Function} :
    FunctionsNew a (f :: fs) ↔ f.name ∉ a.functions ∧ a.scope.lookup f.name = none ∧
      FunctionsNew (a.declareFunction f) fs := by
  constructor
  · intro h
    have hnodup := List.nodup_cons.mp h.nodup
    have hne : ∀ f' ∈ fs, f'.name ≠ f.name := fun f' hf heq ↦
      hnodup.1 (heq ▸ List.mem_map_of_mem hf)
    refine ⟨h.functions f List.mem_cons_self, h.scope f List.mem_cons_self,
      ⟨hnodup.2, fun f' hf ↦ ?_, fun f' hf ↦ ?_⟩⟩
    · simpa [hne f' hf] using h.functions f' (List.mem_cons_of_mem _ hf)
    · rw [declareFunction_scope, lookup_insert, functionSymbol_name, if_neg (hne f' hf)]
      exact h.scope f' (List.mem_cons_of_mem _ hf)
  · rintro ⟨hf, hscope, h⟩
    have hnew : ∀ f' ∈ fs, f'.name ≠ f.name ∧ f'.name ∉ a.functions := fun f' hf ↦ by
      simpa using h.functions f' hf
    refine ⟨List.nodup_cons.mpr ⟨fun hmem ↦ ?_, h.nodup⟩, List.forall_mem_cons.mpr ⟨hf, fun f' hf ↦
      (hnew f' hf).2⟩, List.forall_mem_cons.mpr ⟨hscope, fun f' hf ↦ ?_⟩⟩
    · obtain ⟨f', hf, heq⟩ := List.mem_map.mp hmem
      exact (hnew f' hf).1 heq
    · have := h.scope f' hf
      rwa [declareFunction_scope, lookup_insert, functionSymbol_name, if_neg (hnew f' hf).1] at this

/-- The parameter types of the declared function of a name. -/
def declaredFunction (fs : List Function) (name : String) : Option (List Ty) :=
  (fs.find? (·.name = name)).map fun f ↦ f.params.map Param.paramType

theorem declaredFunction_cons (f : Function) (fs : List Function) (name : String) :
    declaredFunction (f :: fs) name =
      if f.name = name then some (f.params.map Param.paramType) else declaredFunction fs name := by
  rw [declaredFunction, List.find?_cons]
  split <;> simp_all [declaredFunction]

theorem collectFunctions_sound : ∀ (fs : List Function) {a : SemanticAnalyzer},
    a.scope.parents = [] → a.NoArrayFunctions → (exec (collectFunctions fs) a).errors = [] →
    a.errors = [] ∧ FunctionsNew a fs ∧ (exec (collectFunctions fs) a).NoArrayFunctions ∧
      (∀ name, ((exec (collectFunctions fs) a).scope.lookup name).map Symbol.entity =
        ((a.scope.lookup name).map Symbol.entity <|>
          (declaredFunction fs name).map Entity.function)) ∧
      ∀ name, ((exec (collectFunctions fs) a).functions.lookup name).map Symbol.paramTypes =
        ((a.functions.lookup name).map Symbol.paramTypes <|> declaredFunction fs name)
  | [], a, _, hk, he =>
    ⟨he, ⟨by simp, by simp, by simp⟩, hk, fun name ↦ by simp [declaredFunction, collectFunctions],
      fun name ↦ by simp [declaredFunction, collectFunctions]⟩
  | f :: fs, a, hparents, hk, he => by
    have hstep := errors_prefix_collectFunctions fs (exec (collectFunction f) a)
    rw [collectFunctions, exec_seq] at he ⊢
    rw [he, List.prefix_nil] at hstep
    obtain ⟨hae, hf, hscope⟩ := errors_collectFunction hparents hstep
    rw [exec_collectFunction hf hscope] at he ⊢
    have hk' : (a.declareFunction f).NoArrayFunctions := hk.insert (by simp [functionSymbol])
    obtain ⟨-, hnew, hk'', hlookup, hfunctions⟩ := collectFunctions_sound fs
      (a := a.declareFunction f) hparents hk' he
    refine ⟨hae, FunctionsNew.cons.mpr ⟨hf, hscope, hnew⟩, hk'', fun name ↦ ?_, fun name ↦ ?_⟩
    · rw [hlookup, declaredFunction_cons, declareFunction_scope, lookup_insert]
      by_cases h : name = f.name
      · subst h
        simp [functionSymbol, Symbol.entity, hscope]
      · simp [functionSymbol, h, Ne.symm h]
    · rw [hfunctions, declaredFunction_cons, declareFunction_functions]
      by_cases h : name = f.name
      · subst h
        simp [functionSymbol, AList.lookup_eq_none.mpr hf]
      · rw [AList.lookup_insert_ne h]
        simp [Ne.symm h]

theorem collectFunctions_complete : ∀ (fs : List Function) {a : SemanticAnalyzer},
    a.errors = [] → FunctionsNew a fs → (exec (collectFunctions fs) a).errors = []
  | [], _, he, _ => he
  | f :: fs, a, he, h => by
    obtain ⟨hf, hscope, h⟩ := FunctionsNew.cons.mp h
    rw [collectFunctions, exec_seq, exec_collectFunction hf hscope]
    exact collectFunctions_complete fs he h

/-! ## Programs -/

theorem topLevel_eq (p : Program) (name : String) : p.topLevel name =
    (declaredGlobal p.globals name <|> (declaredFunction p.functions name).map Entity.function) := by
  rw [Program.topLevel, declaredGlobal, declaredFunction, Option.map_map]
  rfl

theorem declaredGlobal_eq_none {globs : List GlobalVar} {name : String} :
    declaredGlobal globs name = none ↔ name ∉ globs.map GlobalVar.name := by
  simp [declaredGlobal]

theorem declaredFunction_eq_some {fs : List Function} (hnodup : (fs.map Function.name).Nodup)
    {name : String} {params : List Ty} : declaredFunction fs name = some params ↔
      ∃ f ∈ fs, f.name = name ∧ f.params.map Param.paramType = params := by
  induction fs with
  | nil => simp [declaredFunction]
  | cons f fs ih =>
    have h := List.nodup_cons.mp hnodup
    rw [declaredFunction_cons, List.exists_mem_cons_iff]
    by_cases hf : f.name = name
    · have hnone : ¬∃ f' ∈ fs, f'.name = name ∧ f'.params.map Param.paramType = params := by
        rintro ⟨f', hmem, heq, -⟩
        exact h.1 (hf ▸ heq ▸ List.mem_map_of_mem hmem)
      simp [hf, hnone]
    · simp only [hf, if_false, false_and, false_or]
      exact ih h.2

theorem topLevel_simple {p : Program} (hp : p.SourceForm)
    (hnodup : (p.functions.map Function.name).Nodup) : p.topLevel.Simple := by
  have hglobal : ∀ name e, declaredGlobal p.globals name = some e →
      ∃ t size, Ty.IsScalar t ∧ e = varEntity t size := by
    intro name e h
    obtain ⟨g, hg, rfl⟩ := Option.map_eq_some_iff.mp h
    exact ⟨g.varType, g.arraySize, (hp.globals g (List.mem_of_find?_eq_some hg)).scalar, rfl⟩
  have hcases : ∀ name e, p.topLevel name = some e →
      (∃ t size, Ty.IsScalar t ∧ e = varEntity t size) ∨
        ∃ ps, e = .function ps ∧ ∀ t ∈ ps, Ty.IsScalar t := by
    intro name e h
    rw [topLevel_eq] at h
    cases hg : declaredGlobal p.globals name with
    | some e' =>
      rw [hg] at h
      exact .inl (hglobal name e (by rw [hg]; exact h))
    | none =>
      rw [hg] at h
      obtain ⟨ps, hps, rfl⟩ := Option.map_eq_some_iff.mp h
      obtain ⟨f, hf, -, rfl⟩ := (declaredFunction_eq_some hnodup).mp hps
      refine .inr ⟨_, rfl, fun t ht ↦ ?_⟩
      obtain ⟨param, hparam, rfl⟩ := List.mem_map.mp ht
      exact hp.params f hf param hparam
  refine ⟨fun name t h ↦ ?_, fun name t h ↦ ?_, fun name ps h ↦ ?_⟩
  · rcases hcases name _ h with ⟨u, size, hu, heq⟩ | ⟨ps, heq, -⟩
    · rw [varEntity] at heq
      split at heq <;> simp_all
    · cases heq
  · rcases hcases name _ h with ⟨u, size, hu, heq⟩ | ⟨ps, heq, -⟩
    · rw [varEntity] at heq
      split at heq <;> simp_all
    · cases heq
  · rcases hcases name _ h with ⟨u, size, hu, heq⟩ | ⟨ps', heq, hps⟩
    · rw [varEntity] at heq
      split at heq <;> cases heq
    · cases heq
      exact hps

theorem noArrayFunctions_new : new.NoArrayFunctions := by
  intro name sym h
  simp [new, Scope.lookup, Scope.lookupChain] at h

/-- The state after the two declaration loops. -/
def collected (p : Program) : SemanticAnalyzer :=
  exec (collectFunctions p.functions) (exec (collectGlobals 0 p.globals) new)

/-- Names and storage of the top-level declarations in order. -/
structure DeclarationsOk (p : Program) : Prop where
  distinct : (p.globals.map GlobalVar.name ++ p.functions.map Function.name).Nodup
  sizes : ∀ g ∈ p.globals, ∀ size ∈ g.arraySize, 0 < size
  globalSlots : (p.globals.map GlobalVar.slots).sum ≤ maxGlobalSlots

theorem collected_sound {p : Program} (he : (collected p).errors = []) :
    DeclarationsOk p ∧ (collected p).Represents p.topLevel := by
  have hext := collectGlobals_extending p.globals 0 new
  have hbe := errors_prefix_collectFunctions p.functions (exec (collectGlobals 0 p.globals) new)
  rw [show (exec (collectFunctions p.functions) _).errors = [] from he, List.prefix_nil] at hbe
  obtain ⟨-, hok, hk, hlookup⟩ := collectGlobals_sound p.globals (Nat.zero_le _) rfl
    noArrayFunctions_new hbe
  obtain ⟨-, hnew, hk', hlookup', hfunctions⟩ :=
    collectFunctions_sound p.functions hext.parents hk he
  have hglobal : ∀ name, ((exec (collectGlobals 0 p.globals) new).scope.lookup name).map
      Symbol.entity = declaredGlobal p.globals name := by
    intro name
    rw [hlookup]
    simp [new, Scope.lookup, Scope.lookupChain]
  have hdisjoint : ∀ f ∈ p.functions, f.name ∉ p.globals.map GlobalVar.name := by
    intro f hf
    rw [← declaredGlobal_eq_none, ← hglobal, hnew.scope f hf]
    rfl
  refine ⟨⟨?_, hok.sizes, ?_⟩, ⟨fun name ↦ ?_, fun name params ↦ ?_, hk'⟩⟩
  · refine List.nodup_append.mpr ⟨hok.nodup, hnew.nodup, ?_⟩
    rintro name hg name' hmem rfl
    obtain ⟨f, hf, rfl⟩ := List.mem_map.mp hmem
    exact hdisjoint f hf hg
  · simpa using hok.slots
  · rw [collected, hlookup', hglobal, topLevel_eq]
  · have hfun : ((collected p).functions.lookup name).map Symbol.paramTypes =
        declaredFunction p.functions name := by
      rw [collected, hfunctions, hext.functions]
      simp [new]
    rw [hfun, topLevel_eq]
    cases hg : declaredGlobal p.globals name with
    | none => simp
    | some e =>
      have hnone : declaredFunction p.functions name = none := by
        rw [Option.eq_none_iff_forall_ne_some]
        intro ps hps
        obtain ⟨f, hf, rfl, -⟩ := (declaredFunction_eq_some hnew.nodup).mp hps
        rw [declaredGlobal_eq_none.mpr (hdisjoint f hf)] at hg
        cases hg
      obtain ⟨g, -, rfl⟩ := Option.map_eq_some_iff.mp hg
      rw [hnone, varEntity]
      split <;> simp

theorem collected_complete {p : Program} (h : DeclarationsOk p) : (collected p).errors = [] := by
  have hext := collectGlobals_extending p.globals 0 new
  obtain ⟨hg, hf, hdisjoint⟩ := List.nodup_append.mp h.distinct
  have hok : GlobalsOk 0 new p.globals :=
    ⟨h.sizes, by simpa using h.globalSlots, hg, fun g _ ↦ by
      simp [new, Scope.lookup, Scope.lookupChain]⟩
  have hbe := collectGlobals_complete p.globals (Nat.zero_le _) rfl hok
  obtain ⟨-, -, -, hlookup⟩ := collectGlobals_sound p.globals (Nat.zero_le _) rfl
    noArrayFunctions_new hbe
  refine collectFunctions_complete p.functions hbe ⟨hf, fun f _ ↦ ?_, fun f hmem ↦ ?_⟩
  · rw [hext.functions]
    exact List.not_mem_nil
  · have hnone : declaredGlobal p.globals f.name = none :=
      declaredGlobal_eq_none.mpr fun hg ↦ hdisjoint _ hg _ (List.mem_map_of_mem hmem) rfl
    have hl := hlookup f.name
    rw [hnone] at hl
    simpa [new, Scope.lookup, Scope.lookupChain] using hl

theorem topLevel_main {p : Program} (h : DeclarationsOk p) :
    p.topLevel "main" = some (.function []) ↔
      ∃ f ∈ p.functions, f.name = "main" ∧ f.params = [] := by
  obtain ⟨-, hf, hdisjoint⟩ := List.nodup_append.mp h.distinct
  rw [topLevel_eq]
  constructor
  · intro hmain
    cases hg : declaredGlobal p.globals "main" with
    | some e =>
      obtain ⟨g, -, rfl⟩ := Option.map_eq_some_iff.mp hg
      rw [hg, varEntity] at hmain
      split at hmain <;> cases hmain
    | none =>
      rw [hg] at hmain
      obtain ⟨ps, hps, heq⟩ := Option.map_eq_some_iff.mp hmain
      cases heq
      obtain ⟨f, hmem, hname, hparams⟩ := (declaredFunction_eq_some hf).mp hps
      exact ⟨f, hmem, hname, List.map_eq_nil_iff.mp hparams⟩
  · rintro ⟨f, hmem, hname, hparams⟩
    have hnone : declaredGlobal p.globals "main" = none := by
      rw [declaredGlobal_eq_none, ← hname]
      exact fun hg ↦ hdisjoint _ hg _ (List.mem_map_of_mem hmem) rfl
    have hsome : declaredFunction p.functions "main" = some [] :=
      (declaredFunction_eq_some hf).mpr ⟨f, hmem, hname, by rw [hparams]; rfl⟩
    rw [hnone, hsome]
    rfl

theorem exec_analyzeProgram (p : Program) : exec (analyzeProgram p) new =
    exec (analyzeFunctions p.functions) (exec checkMain (exec (checkGlobalInits p.globals)
      (collected p))) := rfl

theorem errors_mono_analyzeFunction (a : SemanticAnalyzer) (f : Function) :
    a.errors <+: (exec (analyzeFunction f) a).errors := by
  obtain ⟨es, hr, -⟩ := checkLocalSlotLimit_reports (a.enter f) f.span
  rw [exec_analyzeFunction, hr.exec_eq]
  exact (List.prefix_append _ es).trans
    ((analyzeBody_extending f).block ((a.enter f).report es)).errors

theorem errors_mono_analyzeFunctions : ∀ (fs : List Function) (a : SemanticAnalyzer),
    a.errors <+: (exec (analyzeFunctions fs) a).errors
  | [], _ => List.prefix_rfl
  | f :: fs, a => (errors_mono_analyzeFunction a f).trans (errors_mono_analyzeFunctions fs _)

theorem checkGlobalInits_onlyReports : ∀ globs : List GlobalVar, OnlyReports (checkGlobalInits globs)
  | [] => .pure _
  | _ :: globs => .bind analyzeInit_onlyReports fun _ ↦ checkGlobalInits_onlyReports globs

theorem checkMain_onlyReports : OnlyReports checkMain := by
  refine .bind .get fun a ↦ ?_
  split
  · exact .error
  · exact .errorIf

/-- The analyzer ends without errors exactly on well-formed programs. -/
theorem errors_analyzeProgram_eq_nil_iff {p : Program} (hp : p.SourceForm) :
    (exec (analyzeProgram p) new).errors = [] ↔ p.WellFormed := by
  rw [exec_analyzeProgram]
  by_cases hc : (collected p).errors = []
  · obtain ⟨hd, hr⟩ := collected_sound hc
    have hΓ := topLevel_simple hp (List.nodup_append.mp hd.distinct).2.1
    obtain ⟨es, hr₁, hiff₁⟩ := checkGlobalInits_spec hΓ p.globals hr
    obtain ⟨es', hr₂, hiff₂⟩ := checkMain_spec (hr.report es)
    rw [hr₁.exec_eq, hr₂.exec_eq, analyzeFunctions_spec hΓ p.functions hp.params hp.bodies
      ((hr.report es).report es'), report_errors, report_errors, List.append_eq_nil_iff,
      List.append_eq_nil_iff, hiff₁, hiff₂, topLevel_main hd]
    constructor
    · rintro ⟨⟨⟨-, hinits⟩, hmain⟩, hfunctions⟩
      exact ⟨hd.distinct, hmain, hd.sizes, hd.globalSlots, hinits, hfunctions⟩
    · intro h
      exact ⟨⟨⟨hc, h.inits⟩, h.main⟩, h.functions⟩
  · constructor
    · intro he
      have h₁ := errors_mono_analyzeFunctions p.functions
        (exec checkMain (exec (checkGlobalInits p.globals) (collected p)))
      rw [he, List.prefix_nil] at h₁
      have h₂ := (Extending.of_onlyReports checkMain_onlyReports _).errors_eq_nil h₁
      exact absurd ((Extending.of_onlyReports (checkGlobalInits_onlyReports _) _).errors_eq_nil h₂) hc
    · intro h
      exact absurd (collected_complete ⟨h.distinct, h.sizes, h.globalSlots⟩) hc

/-- `analyze` accepts exactly the well-formed programs. -/
theorem analyze_eq_ok_iff {p : Program} (hp : p.SourceForm) : analyze p = .ok () ↔ p.WellFormed := by
  rw [← errors_analyzeProgram_eq_nil_iff hp]
  show (if (exec (analyzeProgram p) new).errors = [] then _ else _) = _ ↔ _
  split <;> simp_all

end SemanticAnalyzer

end MiniLang
