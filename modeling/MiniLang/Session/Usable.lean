import MiniLang.Sema.Positions
import MiniLang.Session.Sessions

/-!
# What a session accepts

A definition is only parsed, so that it may well be one that the analyzer refuses. Whether the
session is usable after it is decided by the static rules, on the definitions of the session before
and those of the input.

## The argument

The text of a session consists of two halves, the globals and the functions, and an evaluation puts
a `main` of its own behind them. Parsing such a text is parsing its parts: a text that derives one
list of definitions derives no other, so that the definitions of the session after an input are
those of the halves before and those of the input, in the half that it was added to. The static
rules are then asked of these definitions and the synthetic `main`, of which they ask nothing more.
-/

namespace MiniLang

open Lexer Grammar

namespace Repl

variable {repl : Repl} {input : String}

/-! ## The static rules -/

/-- The names visible in a session: those of the definitions, and `main`. -/
def names (globals : List GlobalVar) (functions : List Function) : Names :=
  (Program.topLevel ⟨globals, functions⟩).declare "main" (.function [])

/-- The static rules for the definitions of a session. -/
structure Fits (globals : List GlobalVar) (functions : List Function) : Prop where
  distinct : (globals.map GlobalVar.name ++ functions.map Function.name).Nodup
  main_free : "main" ∉ globals.map GlobalVar.name ++ functions.map Function.name
  sizes : ∀ g ∈ globals, ∀ size ∈ g.arraySize, 0 < size
  globalSlots : (globals.map GlobalVar.slots).sum ≤ maxGlobalSlots
  inits : ∀ g ∈ globals, InitOk (names globals functions) g.varType g.initExpr
  functions : ∀ f ∈ functions, FunctionOk (names globals functions) f

theorem topLevel_eq {p : Program} {functions : List Function} {main : Function}
    (hfunctions : p.functions = functions ++ [main]) (hname : main.name = "main")
    (hparams : main.params = [])
    (hfree : "main" ∉ p.globals.map GlobalVar.name ++ functions.map Function.name) :
    p.topLevel = names p.globals functions := by
  rw [List.mem_append, not_or] at hfree
  funext name
  rw [names, Names.declare, Program.topLevel, hfunctions, List.find?_append]
  by_cases hmain : name = "main"
  · have hglobal : p.globals.find? (·.name = name) = none :=
      List.find?_eq_none.mpr fun g hg heq ↦ hfree.1
        (List.mem_map.mpr ⟨g, hg, (of_decide_eq_true heq).trans hmain⟩)
    have hfunction : functions.find? (·.name = name) = none :=
      List.find?_eq_none.mpr fun f hf heq ↦ hfree.2
        (List.mem_map.mpr ⟨f, hf, (of_decide_eq_true heq).trans hmain⟩)
    have hlast : [main].find? (·.name = name) = some main :=
      List.find?_cons_of_pos (decide_eq_true (hname.trans hmain.symm))
    rw [hglobal, hfunction, hlast, hmain, Function.update_self]
    show some (Entity.function (main.params.map Param.paramType)) = _
    rw [hparams]
    rfl
  · have hlast : [main].find? (·.name = name) = none := by
      rw [List.find?_cons_of_neg (by rw [hname]; exact fun heq ↦ hmain (of_decide_eq_true heq).symm),
        List.find?_nil]
    rw [hlast, Option.or_none, Function.update_of_ne hmain]
    rfl

/-- The synthetic function is always well-formed. -/
theorem functionOk_main (Γ : Names) {main : Function} (hmain : main.eraseSpans = syntheticMain) :
    FunctionOk Γ main := by
  obtain ⟨name, params, body, span⟩ := main
  obtain ⟨-, hparams, hbody, -⟩ := Function.mk.inj hmain
  obtain rfl := List.map_eq_nil_iff.mp hparams
  cases body with
  | nil => cases hbody
  | cons stmt body =>
    obtain ⟨hstmt, hrest⟩ := List.cons.inj hbody
    obtain ⟨value, span', rfl, hvalue⟩ := exists_returnStmt hstmt
    obtain ⟨span'', rfl⟩ := exists_intLiteral hvalue
    cases body with
    | cons => cases hrest
    | nil =>
      refine ⟨⟨Γ, Γ, .nil Γ, .cons (.returnStmt (.intLiteral 0 span'') span') (.nil Γ)⟩, ?_⟩
      exact (show 0 + ([] : List String).dedup.length ≤ maxLocalSlots by decide)

theorem wellFormed_iff_fits {p : Program} {functions : List Function} {main : Function}
    (hfunctions : p.functions = functions ++ [main]) (hmain : main.eraseSpans = syntheticMain) :
    p.WellFormed ↔ Fits p.globals functions := by
  have hname : main.name = "main" := congrArg Function.name hmain
  have hparams : main.params = [] := List.map_eq_nil_iff.mp (congrArg Function.params hmain)
  have hdistinct : (p.globals.map GlobalVar.name ++ p.functions.map Function.name).Nodup ↔
      (p.globals.map GlobalVar.name ++ functions.map Function.name).Nodup ∧
        "main" ∉ p.globals.map GlobalVar.name ++ functions.map Function.name := by
    rw [hfunctions, List.map_append, List.map_singleton, hname, ← List.append_assoc,
      List.nodup_append]
    constructor
    · rintro ⟨hnodup, -, hapart⟩
      exact ⟨hnodup, fun hmem ↦ hapart _ hmem _ List.mem_cons_self rfl⟩
    · rintro ⟨hnodup, hfree⟩
      refine ⟨hnodup, List.nodup_singleton _, fun name hmem other hother heq ↦ hfree ?_⟩
      rw [← List.mem_singleton.mp hother, ← heq]
      exact hmem
  constructor
  · intro h
    obtain ⟨hnodup, hfree⟩ := hdistinct.mp h.distinct
    have htop := topLevel_eq hfunctions hname hparams hfree
    refine ⟨hnodup, hfree, h.sizes, h.globalSlots, ?_, fun f hf ↦ ?_⟩
    · rw [← htop]
      exact h.inits
    · rw [← htop]
      refine h.functions f ?_
      rw [hfunctions]
      exact List.mem_append_left _ hf
  · intro h
    have htop := topLevel_eq hfunctions hname hparams h.main_free
    refine ⟨hdistinct.mpr ⟨h.distinct, h.main_free⟩, ⟨main, ?_, hname, hparams⟩, h.sizes,
      h.globalSlots, ?_, fun f hf ↦ ?_⟩
    · rw [hfunctions]
      exact List.mem_append_right _ List.mem_cons_self
    · rw [htop]
      exact h.inits
    · rw [htop]
      rw [hfunctions] at hf
      rcases List.mem_append.mp hf with hf | hf
      · exact h.functions f hf
      · rw [List.mem_singleton.mp hf]
        exact functionOk_main _ hmain

/-- The definitions of a session, as the parser reads them in front of the synthetic function. -/
def Definitions (repl : Repl) (globals : List GlobalVar) (functions : List Function) : Prop :=
  ∃ p main, Parsed repl.wrapper p ∧ p.globals = globals ∧ p.functions = functions ++ [main] ∧
    main.eraseSpans = syntheticMain

/-- The wrapper passes semantic analysis if and only if the definitions obey the static rules. -/
theorem usable_iff_fits {p q : Program} (hparsed : Parsed repl.wrapper p)
    (hp : p.eraseSpans = Program.join q ⟨[], [syntheticMain]⟩) :
    Usable repl ↔ Fits q.globals q.functions := by
  have hglobals : p.eraseSpans.globals = q.globals := by
    rw [hp]
    exact List.append_nil _
  have hfunctions : p.eraseSpans.functions = q.functions ++ [syntheticMain] := by
    rw [hp]
    rfl
  rw [usable_iff_analyze hparsed, analyze_parsed_iff hparsed, ← hglobals,
    ← wellFormed_iff_fits hfunctions rfl, Program.wellFormed_eraseSpans]

/-- **What a session accepts.** A refused input changes nothing. After an accepted one the wrapper
parses, and it passes semantic analysis if and only if the definitions obey the static rules: for a
definition, those that the two halves of the text declared before and those of the input. -/
theorem usable_iff (h : Reachable repl) (input : String) :
    ((repl.handleInput input).1 ≠ .ok () → (repl.handleInput input).2 = repl) ∧
      ((repl.handleInput input).1 = .ok () → ∃ globals functions,
        Definitions (repl.handleInput input).2 globals functions ∧
          (Usable (repl.handleInput input).2 ↔ Fits globals functions)) ∧
      (IsDefinition input → (repl.handleInput input).1 = .ok () → ∃ globals functions new,
        Reads repl.globalsSource globals ∧ Reads repl.functionsSource functions ∧
          Reads (added input) new ∧
          (Usable (repl.handleInput input).2 ↔ Fits (joined input globals functions new).globals
            (joined input globals functions new).functions)) := by
  refine ⟨handleInput_error, fun _ ↦ ?_, fun hdefinition hok ↦ ?_⟩
  · obtain ⟨⟨pg, hg⟩, ⟨pf, hf⟩⟩ := (h.input input).inv
    obtain ⟨p, hparsed, hp⟩ := wrapper_parsed hg hf
    obtain ⟨functions, main, hfunctions, hmain⟩ := exists_main hp
    refine ⟨p.globals, functions, ⟨p, main, hparsed, rfl, hfunctions, hmain⟩, ?_⟩
    rw [usable_iff_analyze hparsed, analyze_parsed_iff hparsed,
      wellFormed_iff_fits hfunctions hmain]
  · obtain ⟨⟨pg, hg⟩, ⟨pf, hf⟩⟩ := h.inv
    obtain ⟨d, pg', pf', hd, hg', hf', hjoined⟩ := handleInput_declares hg hf hdefinition hok
    obtain ⟨p, hparsed, hp⟩ := wrapper_parsed hg' hf'
    rw [hjoined] at hp
    exact ⟨pg, pf, d, hg.reads, hf.reads, hd, usable_iff_fits hparsed hp⟩

/-! ### A session with earlier definitions -/

/-- After `int n` and `func f() { return n; }`. -/
def twoDefinitions : Repl := ⟨"int n;\n", "func f() \x7b return n; \x7d\n"⟩

theorem reachable_twoDefinitions : Reachable twoDefinitions := by
  have hglobal : (new.handleInput "int n").2 = ⟨"int n;\n", ""⟩ := by decide +kernel
  have hfunction : (handleInput ⟨"int n;\n", ""⟩ "func f() \x7b return n; \x7d").2 =
      twoDefinitions := by decide +kernel
  rw [← hfunction, ← hglobal]
  exact (Reachable.new.input _).input _

/-- `func g() { return f(); }` -/
def callsEarlier : String := "func g() \x7b return f(); \x7d"

theorem usable_iff_callsEarlier : (twoDefinitions.handleInput callsEarlier).1 = .ok () ∧
    Usable (twoDefinitions.handleInput callsEarlier).2 ∧ ∃ globals functions new,
      Reads twoDefinitions.globalsSource globals ∧ Reads twoDefinitions.functionsSource functions ∧
        Reads callsEarlier new ∧ Fits (globals.globals ++ functions.globals ++ new.globals)
          (globals.functions ++ functions.functions ++ new.functions) := by
  have hok : (twoDefinitions.handleInput callsEarlier).1 = .ok () := by decide +kernel
  have husable : Usable (twoDefinitions.handleInput callsEarlier).2 := by decide +kernel
  have hfunc : startsWithWord callsEarlier "func " = true := by decide +kernel
  obtain ⟨globals, functions, new, hglobals, hfunctions, hnew, hfits⟩ :=
    (usable_iff reachable_twoDefinitions callsEarlier).2.2 (.inl hfunc) hok
  rw [added, if_pos hfunc] at hnew
  rw [joined, if_pos hfunc] at hfits
  exact ⟨hok, husable, globals, functions, new, hglobals, hfunctions, hnew, hfits.mp husable⟩

/-! ## An unknown name -/

/-- `func f() { return x; }`, without a declaration of `x`. -/
def unknownName : String := "func f() \x7b return x; \x7d"

theorem handleInput_unknownName : (new.handleInput unknownName).1 = .ok () ∧
    ¬Usable (new.handleInput unknownName).2 := by decide +kernel

/-- A definition that uses an unknown name makes every later expression fail. -/
theorem not_usable : ¬∀ repl, Reachable repl → ∀ input, IsDefinition input →
    (repl.handleInput input).1 = .ok () → Usable (repl.handleInput input).2 := by
  intro h
  obtain ⟨hok, hunusable⟩ := handleInput_unknownName
  exact hunusable (h new .new unknownName (.inl (by decide +kernel)) hok)

end Repl

end MiniLang
