import MiniLang.Syntax.ParserExact
import MiniLang.Sema.Exactness

/-!
# The analyzer on parsed programs

Parsed programs declare `int` and `bool` only, so the exactness of the analyzer applies to them.
-/

namespace MiniLang

open Grammar

/-! ## Parsed declarations -/

theorem typeToken_isScalar {kind : TokenKind} {t : Ty} (h : TypeToken kind t) : t.IsScalar := by
  cases h with
  | int => exact .inl rfl
  | bool => exact .inr rfl

theorem declarator_plain {ts : List TokenKind} {size : Option Int32} {init : Option Expr}
    (h : Declarator ts size init) : size.isSome → init = none := by
  cases h <;> simp

mutual

theorem stmtDerives_sourceForm : ∀ {ts : List TokenKind} {st : Stmt}, StmtDerives ts st →
    st.SourceForm
  | _, _, .varDecl ht _ h => ⟨typeToken_isScalar ht, declarator_plain h⟩
  | _, _, .assign .. => trivial
  | _, _, .assignElement .. => trivial
  | _, _, .ifThen _ hb => blockDerives_sourceForm hb
  | _, _, .ifElse _ hb he => ⟨blockDerives_sourceForm hb, blockDerives_sourceForm he⟩
  | _, _, .whileStmt _ hb => blockDerives_sourceForm hb
  | _, _, .returnStmt _ => trivial
  | _, _, .print _ => trivial
  | _, _, .exprStmt _ => trivial

theorem blockDerives_sourceForm : ∀ {ts : List TokenKind} {ss : List Stmt}, BlockDerives ts ss →
    sourceFormList ss
  | _, _, .block h => stmtsDerive_sourceForm h

theorem stmtsDerive_sourceForm : ∀ {ts : List TokenKind} {ss : List Stmt}, StmtsDerive ts ss →
    sourceFormList ss
  | _, _, .nil => trivial
  | _, _, .cons h hs => ⟨stmtDerives_sourceForm h, stmtsDerive_sourceForm hs⟩

end

theorem programDerives_sourceForm {ts : List TokenKind} {p : Program} (h : ProgramDerives ts p) :
    p.SourceForm := by
  induction h with
  | nil => exact ⟨by simp, by simp, by simp⟩
  | globalDecl h hs ih =>
    refine ⟨List.forall_mem_cons.mpr ⟨?_, ih.globals⟩, ih.params, ih.bodies⟩
    cases h with
    | globalDecl ht _ h => exact ⟨typeToken_isScalar ht, declarator_plain h⟩
  | function h hs ih =>
    cases h with
    | function name hp hb =>
      refine ⟨ih.globals, List.forall_mem_cons.mpr ⟨?_, ih.params⟩,
        List.forall_mem_cons.mpr ⟨blockDerives_sourceForm hb, ih.bodies⟩⟩
      have hmore : ∀ {us ps}, MoreParams us ps → ∀ p ∈ ps, Ty.IsScalar p.paramType := by
        intro us ps h
        induction h with
        | nil => simp
        | cons h _ ih =>
          cases h with
          | param ht => exact List.forall_mem_cons.mpr ⟨typeToken_isScalar ht, ih⟩
      cases hp with
      | none => simp
      | params h hs =>
        cases h with
        | param ht => exact List.forall_mem_cons.mpr ⟨typeToken_isScalar ht, hmore hs⟩

/-! ## Erasing positions keeps the declarations -/

mutual

theorem sourceForm_eraseSpans : ∀ st : Stmt, st.eraseSpans.SourceForm ↔ st.SourceForm
  | .varDecl t name init size span => by
    constructor <;> rintro ⟨h, h'⟩ <;> exact ⟨h, by simpa using h'⟩
  | .assign .. => Iff.rfl
  | .ifStmt _ thenBody none _ => sourceFormList_eraseSpans thenBody
  | .ifStmt _ thenBody (some elseBody) _ =>
    and_congr (sourceFormList_eraseSpans thenBody) (sourceFormList_eraseSpans elseBody)
  | .whileStmt _ body _ => sourceFormList_eraseSpans body
  | .returnStmt .. => Iff.rfl
  | .print .. => Iff.rfl
  | .exprStmt .. => Iff.rfl

theorem sourceFormList_eraseSpans : ∀ ss : List Stmt,
    sourceFormList (eraseSpansStmts ss) ↔ sourceFormList ss
  | [] => Iff.rfl
  | s :: ss => and_congr (sourceForm_eraseSpans s) (sourceFormList_eraseSpans ss)

end

theorem Program.sourceForm_of_eraseSpans {p : Program} (h : p.eraseSpans.SourceForm) :
    p.SourceForm := by
  refine ⟨fun g hg ↦ ?_, fun f hf param hp ↦ ?_, fun f hf ↦ ?_⟩
  · have := h.globals _ (List.mem_map_of_mem hg)
    exact ⟨this.scalar, by simpa [GlobalVar.eraseSpans] using this.plain⟩
  · have hp' : param.eraseSpans ∈ f.eraseSpans.params := List.mem_map_of_mem hp
    have hscalar := h.params f.eraseSpans (List.mem_map_of_mem hf) param.eraseSpans hp'
    exact hscalar
  · exact (sourceFormList_eraseSpans f.body).mp (h.bodies _ (List.mem_map_of_mem hf))

/-- The program is what the parser makes of `source`. -/
def Parsed (source : List UInt8) (p : Program) : Prop := Parser.parse (tokenize source) = .ok p

theorem Parsed.sourceForm {source : List UInt8} {p : Program} (h : Parsed source p) :
    p.SourceForm := by
  obtain ⟨ts, hts, -⟩ := Parser.kinds_of_eofEnded (tokenize_eofEnded source)
  exact Program.sourceForm_of_eraseSpans
    (programDerives_sourceForm (Parser.derives_of_parse (tokenize_eofEnded source) hts h))

/-! ## A sample program -/

/-- The bytes of an ASCII text. -/
def asciiBytes (text : String) : List UInt8 := text.toList.map Char.toUInt8

def sampleSource : List UInt8 :=
  asciiBytes "func main() \x7b int x[2]; x[0] = 7; return x[0]; \x7d"

def sampleProgram : Program where
  globals := []
  functions := [{
    name := "main"
    params := []
    body := [
      .varDecl .int "x" none (some 2) ⟨1, 15⟩,
      .assign "x" (some (.intLiteral 0 ⟨1, 27⟩)) (.intLiteral 7 ⟨1, 32⟩) ⟨1, 25⟩,
      .returnStmt (.arrayIndex "x" (.intLiteral 0 ⟨1, 44⟩) ⟨1, 42⟩) ⟨1, 35⟩]
    span := ⟨1, 1⟩ }]

def sampleTokens : List Token := [⟨.kwFunc, ⟨1, 1⟩⟩, ⟨.identifier "main", ⟨1, 6⟩⟩,
  ⟨.lParen, ⟨1, 10⟩⟩, ⟨.rParen, ⟨1, 11⟩⟩, ⟨.lBrace, ⟨1, 13⟩⟩, ⟨.kwInt, ⟨1, 15⟩⟩,
  ⟨.identifier "x", ⟨1, 19⟩⟩, ⟨.lBracket, ⟨1, 20⟩⟩, ⟨.intLiteral 2, ⟨1, 21⟩⟩,
  ⟨.rBracket, ⟨1, 22⟩⟩, ⟨.semicolon, ⟨1, 23⟩⟩, ⟨.identifier "x", ⟨1, 25⟩⟩,
  ⟨.lBracket, ⟨1, 26⟩⟩, ⟨.intLiteral 0, ⟨1, 27⟩⟩, ⟨.rBracket, ⟨1, 28⟩⟩, ⟨.assign, ⟨1, 30⟩⟩,
  ⟨.intLiteral 7, ⟨1, 32⟩⟩, ⟨.semicolon, ⟨1, 33⟩⟩, ⟨.kwReturn, ⟨1, 35⟩⟩,
  ⟨.identifier "x", ⟨1, 42⟩⟩, ⟨.lBracket, ⟨1, 43⟩⟩, ⟨.intLiteral 0, ⟨1, 44⟩⟩,
  ⟨.rBracket, ⟨1, 45⟩⟩, ⟨.semicolon, ⟨1, 46⟩⟩, ⟨.rBrace, ⟨1, 48⟩⟩, ⟨.eof, ⟨1, 49⟩⟩]

theorem tokenize_sample : tokenize sampleSource = sampleTokens := by decide +kernel

theorem sample_parsed : Parsed sampleSource sampleProgram := by
  rw [Parsed, tokenize_sample]
  rfl

/-- The sample is accepted by the analyzer. -/
theorem sample_accepted : SemanticAnalyzer.analyze sampleProgram = .ok () := by decide +kernel

/-! ## Exactness -/

/-- **Exactness of semantic analysis.** The analyzer accepts a parsed program if and only if it is
well-formed. -/
theorem analyze_parsed_iff {source : List UInt8} {p : Program} (h : Parsed source p) :
    SemanticAnalyzer.analyze p = .ok () ↔ p.WellFormed :=
  SemanticAnalyzer.analyze_eq_ok_iff h.sourceForm

theorem analyze_parsed_iff_sample : Parsed sampleSource sampleProgram ∧
    (SemanticAnalyzer.analyze sampleProgram = .ok () ↔ sampleProgram.WellFormed) :=
  ⟨sample_parsed, analyze_parsed_iff sample_parsed⟩

end MiniLang
