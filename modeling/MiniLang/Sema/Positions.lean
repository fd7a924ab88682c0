import MiniLang.Sema.Parsed

/-!
# Positions and the static rules

The rules for well-formed programs do not look at positions: a program obeys them exactly if it does
so without its positions.
-/

namespace MiniLang

variable {Γ : Names}

/-! ## Expressions and statements -/

mutual

theorem hasType_eraseSpans : ∀ {e : Expr} {t : Ty}, HasType Γ e.eraseSpans t ↔ HasType Γ e t
  | .intLiteral value span, t => by
    constructor <;> rintro ⟨⟩ <;> exact .intLiteral value _
  | .boolLiteral value span, t => by
    constructor <;> rintro ⟨⟩ <;> exact .boolLiteral value _
  | .identifier name span, t => by
    constructor <;> rintro ⟨⟩ <;> exact .identifier ‹_› _
  | .binary op left right span, t => by
    constructor
    · intro h
      cases h with
      | binary hl hr h => exact .binary (hasType_eraseSpans.mp hl) (hasType_eraseSpans.mp hr) h span
    · intro h
      cases h with
      | binary hl hr h =>
        exact .binary (hasType_eraseSpans.mpr hl) (hasType_eraseSpans.mpr hr) h .default
  | .unary op operand span, t => by
    constructor
    · intro h
      cases h with
      | unary ht h => exact .unary (hasType_eraseSpans.mp ht) h span
    · intro h
      cases h with
      | unary ht h => exact .unary (hasType_eraseSpans.mpr ht) h .default
  | .call name args span, t => by
    constructor
    · intro h
      cases h with
      | call h hargs => exact .call h (haveTypes_eraseSpans.mp hargs) span
    · intro h
      cases h with
      | call h hargs => exact .call h (haveTypes_eraseSpans.mpr hargs) .default
  | .arrayIndex name index span, t => by
    constructor
    · intro h
      cases h with
      | arrayIndex h hindex => exact .arrayIndex h (hasType_eraseSpans.mp hindex) span
    · intro h
      cases h with
      | arrayIndex h hindex => exact .arrayIndex h (hasType_eraseSpans.mpr hindex) .default

theorem haveTypes_eraseSpans : ∀ {es : List Expr} {ts : List Ty},
    HaveTypes Γ (eraseSpansList es) ts ↔ HaveTypes Γ es ts
  | [], ts => Iff.rfl
  | e :: es, ts => by
    constructor
    · intro h
      cases h with
      | cons h hargs => exact .cons (hasType_eraseSpans.mp h) (haveTypes_eraseSpans.mp hargs)
    · intro h
      cases h with
      | cons h hargs => exact .cons (hasType_eraseSpans.mpr h) (haveTypes_eraseSpans.mpr hargs)

end

theorem isCondition_eraseSpans {e : Expr} : IsCondition Γ e.eraseSpans ↔ IsCondition Γ e :=
  exists_congr fun _ ↦ and_congr_right' hasType_eraseSpans

theorem initOk_eraseSpans {t : Ty} {init : Option Expr} :
    InitOk Γ t (init.map Expr.eraseSpans) ↔ InitOk Γ t init := by
  cases init with
  | none => exact Iff.rfl
  | some e => simp [InitOk, hasType_eraseSpans]

mutual

theorem stmtOk_eraseSpans : ∀ {stmt : Stmt} {Γ Γ' : Names},
    StmtOk Γ stmt.eraseSpans Γ' ↔ StmtOk Γ stmt Γ'
  | .varDecl t name init size span, Γ, Γ' => by
    constructor
    · intro h
      cases h with
      | varDecl hfresh hsize hinit => exact .varDecl hfresh hsize (initOk_eraseSpans.mp hinit) span
    · intro h
      cases h with
      | varDecl hfresh hsize hinit =>
        exact .varDecl hfresh hsize (initOk_eraseSpans.mpr hinit) .default
  | .assign target none value span, Γ, Γ' => by
    constructor
    · intro h
      cases h with
      | assignScalar h hv => exact .assignScalar h (hasType_eraseSpans.mp hv) span
    · intro h
      cases h with
      | assignScalar h hv => exact .assignScalar h (hasType_eraseSpans.mpr hv) .default
  | .assign target (some index) value span, Γ, Γ' => by
    constructor
    · intro h
      cases h with
      | assignElement h hi hv =>
        exact .assignElement h (hasType_eraseSpans.mp hi) (hasType_eraseSpans.mp hv) span
    · intro h
      cases h with
      | assignElement h hi hv =>
        exact .assignElement h (hasType_eraseSpans.mpr hi) (hasType_eraseSpans.mpr hv) .default
  | .ifStmt condition thenBody none span, Γ, Γ' => by
    constructor
    · intro h
      cases h with
      | ifThen h hthen =>
        exact .ifThen (isCondition_eraseSpans.mp h) (stmtsOk_eraseSpans.mp hthen) span
    · intro h
      cases h with
      | ifThen h hthen =>
        exact .ifThen (isCondition_eraseSpans.mpr h) (stmtsOk_eraseSpans.mpr hthen) .default
  | .ifStmt condition thenBody (some elseBody) span, Γ, Γ' => by
    constructor
    · intro h
      cases h with
      | ifElse h hthen helse =>
        exact .ifElse (isCondition_eraseSpans.mp h) (stmtsOk_eraseSpans.mp hthen)
          (stmtsOk_eraseSpans.mp helse) span
    · intro h
      cases h with
      | ifElse h hthen helse =>
        exact .ifElse (isCondition_eraseSpans.mpr h) (stmtsOk_eraseSpans.mpr hthen)
          (stmtsOk_eraseSpans.mpr helse) .default
  | .whileStmt condition body span, Γ, Γ' => by
    constructor
    · intro h
      cases h with
      | whileStmt h hbody =>
        exact .whileStmt (isCondition_eraseSpans.mp h) (stmtsOk_eraseSpans.mp hbody) span
    · intro h
      cases h with
      | whileStmt h hbody =>
        exact .whileStmt (isCondition_eraseSpans.mpr h) (stmtsOk_eraseSpans.mpr hbody) .default
  | .returnStmt value span, Γ, Γ' => by
    constructor
    · intro h
      cases h with
      | returnStmt h => exact .returnStmt (hasType_eraseSpans.mp h) span
    · intro h
      cases h with
      | returnStmt h => exact .returnStmt (hasType_eraseSpans.mpr h) .default
  | .print value span, Γ, Γ' => by
    constructor
    · intro h
      cases h with
      | print h => exact .print (hasType_eraseSpans.mp h) span
    · intro h
      cases h with
      | print h => exact .print (hasType_eraseSpans.mpr h) .default
  | .exprStmt expr span, Γ, Γ' => by
    constructor
    · intro h
      cases h with
      | exprStmt h => exact .exprStmt (hasType_eraseSpans.mp h) span
    · intro h
      cases h with
      | exprStmt h => exact .exprStmt (hasType_eraseSpans.mpr h) .default

theorem stmtsOk_eraseSpans : ∀ {stmts : List Stmt} {Γ Γ' : Names},
    StmtsOk Γ (eraseSpansStmts stmts) Γ' ↔ StmtsOk Γ stmts Γ'
  | [], Γ, Γ' => Iff.rfl
  | stmt :: stmts, Γ, Γ' => by
    constructor
    · intro h
      cases h with
      | cons h hs => exact .cons (stmtOk_eraseSpans.mp h) (stmtsOk_eraseSpans.mp hs)
    · intro h
      cases h with
      | cons h hs => exact .cons (stmtOk_eraseSpans.mpr h) (stmtsOk_eraseSpans.mpr hs)

end

/-! ## Programs -/

mutual

theorem localNames_eraseSpans : ∀ stmt : Stmt, stmt.eraseSpans.localNames = stmt.localNames
  | .varDecl .. => rfl
  | .assign .. => rfl
  | .ifStmt _ thenBody none _ => localNamesList_eraseSpans thenBody
  | .ifStmt _ thenBody (some elseBody) _ =>
    congrArg₂ (· ++ ·) (localNamesList_eraseSpans thenBody) (localNamesList_eraseSpans elseBody)
  | .whileStmt _ body _ => localNamesList_eraseSpans body
  | .returnStmt .. => rfl
  | .print .. => rfl
  | .exprStmt .. => rfl

theorem localNamesList_eraseSpans : ∀ stmts : List Stmt,
    localNamesList (eraseSpansStmts stmts) = localNamesList stmts
  | [] => rfl
  | stmt :: stmts =>
    congrArg₂ (· ++ ·) (localNames_eraseSpans stmt) (localNamesList_eraseSpans stmts)

end

theorem paramsOk_eraseSpans {Γ' : Names} {params : List Param} :
    ParamsOk Γ (params.map Param.eraseSpans) Γ' ↔ ParamsOk Γ params Γ' := by
  induction params generalizing Γ with
  | nil => exact Iff.rfl
  | cons param params ih =>
    constructor
    · intro h
      cases h with
      | cons hfresh hs => exact .cons hfresh (ih.mp hs)
    · intro h
      cases h with
      | cons hfresh hs => exact .cons hfresh (ih.mpr hs)

theorem localSlots_eraseSpans (f : Function) : f.eraseSpans.localSlots = f.localSlots := by
  rw [Function.localSlots, Function.localSlots, Function.eraseSpans, List.length_map,
    localNamesList_eraseSpans]

theorem functionOk_eraseSpans {f : Function} : FunctionOk Γ f.eraseSpans ↔ FunctionOk Γ f := by
  have hbody : (∃ Γ₁ Γ₂, ParamsOk Γ f.eraseSpans.params Γ₁ ∧ StmtsOk Γ₁ f.eraseSpans.body Γ₂) ↔
      ∃ Γ₁ Γ₂, ParamsOk Γ f.params Γ₁ ∧ StmtsOk Γ₁ f.body Γ₂ :=
    exists_congr fun _ ↦ exists_congr fun _ ↦ and_congr paramsOk_eraseSpans stmtsOk_eraseSpans
  constructor
  · rintro ⟨h, hslots⟩
    exact ⟨hbody.mp h, localSlots_eraseSpans f ▸ hslots⟩
  · rintro ⟨h, hslots⟩
    exact ⟨hbody.mpr h, (localSlots_eraseSpans f).symm ▸ hslots⟩

theorem topLevel_eraseSpans (p : Program) : p.eraseSpans.topLevel = p.topLevel := by
  funext name
  have hparams (f : Function) :
      f.eraseSpans.params.map Param.paramType = f.params.map Param.paramType := by
    rw [Function.eraseSpans, List.map_map]
    rfl
  rw [Program.topLevel, Program.topLevel, Program.eraseSpans, List.find?_map, List.find?_map,
    Option.map_map, Option.map_map]
  refine congrArg₂ (· <|> ·) rfl (congrArg₂ Option.map (funext fun f ↦ ?_) rfl)
  exact congrArg Entity.function (hparams f)

/-- **A program is well-formed** if and only if it is so without its positions. -/
theorem Program.wellFormed_eraseSpans {p : Program} : p.eraseSpans.WellFormed ↔ p.WellFormed := by
  have hglobals : p.eraseSpans.globals.map GlobalVar.name = p.globals.map GlobalVar.name := by
    rw [Program.eraseSpans, List.map_map]
    rfl
  have hfunctions : p.eraseSpans.functions.map Function.name = p.functions.map Function.name := by
    rw [Program.eraseSpans, List.map_map]
    rfl
  have hslots : p.eraseSpans.globals.map GlobalVar.slots = p.globals.map GlobalVar.slots := by
    rw [Program.eraseSpans, List.map_map]
    rfl
  constructor
  · intro h
    refine ⟨by simpa only [hglobals, hfunctions] using h.distinct, ?_, fun g hg ↦ ?_,
      hslots ▸ h.globalSlots, fun g hg ↦ ?_, fun f hf ↦ ?_⟩
    · obtain ⟨_, hmem, hname, hparams⟩ := h.main
      obtain ⟨f, hf, rfl⟩ := List.mem_map.mp hmem
      exact ⟨f, hf, hname, List.map_eq_nil_iff.mp hparams⟩
    · exact h.sizes g.eraseSpans (List.mem_map_of_mem hg)
    · have hinit := h.inits g.eraseSpans (List.mem_map_of_mem hg)
      rw [topLevel_eraseSpans] at hinit
      exact initOk_eraseSpans.mp hinit
    · have hok := h.functions f.eraseSpans (List.mem_map_of_mem hf)
      rw [topLevel_eraseSpans] at hok
      exact functionOk_eraseSpans.mp hok
  · intro h
    refine ⟨by simpa only [hglobals, hfunctions] using h.distinct, ?_, fun g hg ↦ ?_,
      hslots.symm ▸ h.globalSlots, fun g hg ↦ ?_, fun f hf ↦ ?_⟩
    · obtain ⟨f, hf, hname, hparams⟩ := h.main
      refine ⟨f.eraseSpans, List.mem_map_of_mem hf, hname, ?_⟩
      rw [Function.eraseSpans, hparams]
      rfl
    · obtain ⟨g, hmem, rfl⟩ := List.mem_map.mp hg
      exact h.sizes g hmem
    · obtain ⟨g, hmem, rfl⟩ := List.mem_map.mp hg
      rw [topLevel_eraseSpans]
      exact initOk_eraseSpans.mpr (h.inits g hmem)
    · obtain ⟨f, hmem, rfl⟩ := List.mem_map.mp hf
      rw [topLevel_eraseSpans]
      exact functionOk_eraseSpans.mpr (h.functions f hmem)

end MiniLang
