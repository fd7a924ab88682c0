import MiniLang.Fuzz.FailureFingerprint
import MiniLang.Fuzz.RoundTrip
import MiniLang.Fuzz.ShrinkCandidates
import Mathlib.Logic.Relation

/-!
# The shrinker

The shrinker goes from source text to source text: it parses the text, prints a candidate for the
tree and keeps it when it fails in the same way, and it tries to remove a line of the text when no
candidate does.

## Why there are no cycles

The texts are not what gets smaller: the first shrink prints a program that may have been written
more tersely. Printing forgets the positions and parsing a printed program gives it back, so after
one shrink the text is a printed one, and from then on the weight of its tree goes down with each
text that the shrinker takes from a tree (`weight_of_astShrinks`). A candidate for a tree that can
be printed can be printed as well: no candidate has a new name, or a new literal but `0` and
`false`.

## The audit

Whether a program fails is asked of an audit that is run on the text, a parameter here. The shrinker
keeps a text only if the audit fails with the same signature. So what it returns fails as the input
did, whatever the audit does, provided the input failed at all. A removed line keeps the signature
too, but it may change the tree in any way: weights are compared along shrinks of the tree.
-/

namespace MiniLang.Fuzz

/-! ## Positions are not printed -/

mutual

theorem emitExpr_eraseSpans : (e : Expr) → emitExpr e.eraseSpans = emitExpr e
  | .intLiteral .. => rfl
  | .boolLiteral .. => rfl
  | .identifier .. => rfl
  | .binary _ left right _ => by
    rw [Expr.eraseSpans, emitExpr, emitExpr_eraseSpans left, emitExpr_eraseSpans right, emitExpr]
  | .unary _ operand _ => by rw [Expr.eraseSpans, emitExpr, emitExpr_eraseSpans operand, emitExpr]
  | .call _ args _ => by rw [Expr.eraseSpans, emitExpr, emitExprs_eraseSpans args, emitExpr]
  | .arrayIndex _ index _ => by
    rw [Expr.eraseSpans, emitExpr, emitExpr_eraseSpans index, emitExpr]
termination_by structural e => e

theorem emitExprs_eraseSpans : (args : List Expr) → emitExprs (eraseSpansList args) = emitExprs args
  | [] => rfl
  | arg :: args => by
    rw [eraseSpansList, emitExprs, emitExpr_eraseSpans arg, emitExprs_eraseSpans args, emitExprs]
termination_by structural args => args

end

theorem emitDeclarator_eraseSpans (name : String) (initExpr : Option Expr)
    (arraySize : Option Int32) :
    emitDeclarator name (initExpr.map Expr.eraseSpans) arraySize =
      emitDeclarator name initExpr arraySize := by
  cases initExpr with
  | none => rfl
  | some expr =>
    cases arraySize with
    | none =>
      exact congrArg (fun text ↦ name ++ (" = " ++ text) ++ ";\n") (emitExpr_eraseSpans expr)
    | some size => rfl

mutual

theorem emitStmt_eraseSpans (indent : Nat) : (stmt : Stmt) →
    emitStmt indent stmt.eraseSpans = emitStmt indent stmt
  | .varDecl .. => by
    rw [Stmt.eraseSpans, emitStmt, emitDeclarator_eraseSpans, emitStmt]
  | .assign _ none value _ => by
    rw [Stmt.eraseSpans, Option.map_none, emitStmt, emitExpr_eraseSpans value, emitStmt]
  | .assign _ (some index) value _ => by
    rw [Stmt.eraseSpans, Option.map_some, emitStmt, emitExpr_eraseSpans index,
      emitExpr_eraseSpans value, emitStmt]
  | .ifStmt condition thenBody none _ => by
    rw [Stmt.eraseSpans, emitStmt, emitExpr_eraseSpans condition,
      emitStmts_eraseSpans (indent + 1) thenBody, emitStmt]
  | .ifStmt condition thenBody (some elseBody) _ => by
    rw [Stmt.eraseSpans, emitStmt, emitExpr_eraseSpans condition,
      emitStmts_eraseSpans (indent + 1) thenBody, emitStmts_eraseSpans (indent + 1) elseBody,
      emitStmt]
  | .whileStmt condition body _ => by
    rw [Stmt.eraseSpans, emitStmt, emitExpr_eraseSpans condition,
      emitStmts_eraseSpans (indent + 1) body, emitStmt]
  | .returnStmt value _ => by rw [Stmt.eraseSpans, emitStmt, emitExpr_eraseSpans value, emitStmt]
  | .print value _ => by rw [Stmt.eraseSpans, emitStmt, emitExpr_eraseSpans value, emitStmt]
  | .exprStmt expr _ => by rw [Stmt.eraseSpans, emitStmt, emitExpr_eraseSpans expr, emitStmt]
termination_by structural stmt => stmt

theorem emitStmts_eraseSpans (indent : Nat) : (body : List Stmt) →
    emitStmts indent (eraseSpansStmts body) = emitStmts indent body
  | [] => rfl
  | stmt :: stmts => by
    rw [eraseSpansStmts, emitStmts, emitStmt_eraseSpans indent stmt,
      emitStmts_eraseSpans indent stmts, emitStmts]
termination_by structural body => body

end

theorem emitFunction_eraseSpans (function : Function) :
    emitFunction function.eraseSpans = emitFunction function := by
  have hparams : (function.params.map Param.eraseSpans).map emitParam =
      function.params.map emitParam := by
    rw [List.map_map]
    exact List.map_congr_left fun _ _ ↦ rfl
  rw [Function.eraseSpans, emitFunction, hparams, emitStmts_eraseSpans, emitFunction]

theorem emitProgram_eraseSpans (program : Program) :
    emitProgram program.eraseSpans = emitProgram program := by
  have hglobals : (program.globals.map GlobalVar.eraseSpans).map emitGlobal =
      program.globals.map emitGlobal := by
    rw [List.map_map]
    refine List.map_congr_left fun g _ ↦ ?_
    rw [Function.comp_apply, emitGlobal, GlobalVar.eraseSpans, emitDeclarator_eraseSpans,
      emitGlobal]
  have hfunctions : (program.functions.map Function.eraseSpans).map emitFunction =
      program.functions.map emitFunction := by
    rw [List.map_map]
    exact List.map_congr_left fun f _ ↦ emitFunction_eraseSpans f
  rw [emitProgram, Program.eraseSpans, hglobals, hfunctions, emitProgram]
  simp only [ne_eq, List.map_eq_nil_iff]

theorem emitProgram_congr {program program' : Program}
    (h : program'.eraseSpans = program.eraseSpans) : emitProgram program' = emitProgram program := by
  rw [← emitProgram_eraseSpans program', h, emitProgram_eraseSpans]

/-! ## Candidates can be printed -/

mutual

theorem printable_exprShrinkCandidates : (e : Expr) → PrintableExpr e →
    ∀ candidate ∈ exprShrinkCandidates e, PrintableExpr candidate
  | .intLiteral value span, _ => by
    intro candidate h
    rw [exprShrinkCandidates] at h
    split at h
    · exact absurd h List.not_mem_nil
    · rw [List.mem_singleton.mp h]
      exact Int32.le_refl 0
  | .boolLiteral value span, _ => by
    intro candidate h
    cases value with
    | false => exact absurd h List.not_mem_nil
    | true =>
      rw [List.mem_singleton.mp h]
      exact trivial
  | .identifier name span, _ => by
    intro candidate h
    rw [List.mem_singleton.mp h]
    exact Int32.le_refl 0
  | .binary op left right span, he => by
    intro candidate h
    rw [exprShrinkCandidates, List.mem_append, List.mem_append] at h
    rcases h with (h | h) | h
    · rcases List.mem_cons.mp h with rfl | h
      · exact he.1
      rcases List.mem_cons.mp h with rfl | h
      · exact he.2
      · rw [List.mem_singleton.mp h]
        exact Int32.le_refl 0
    · obtain ⟨left', hleft', rfl⟩ := List.mem_map.mp h
      exact ⟨printable_exprShrinkCandidates left he.1 left' hleft', he.2⟩
    · obtain ⟨right', hright', rfl⟩ := List.mem_map.mp h
      exact ⟨he.1, printable_exprShrinkCandidates right he.2 right' hright'⟩
  | .unary op operand span, he => by
    intro candidate h
    rcases List.mem_cons.mp h with rfl | h
    · exact he
    · obtain ⟨operand', hoperand', rfl⟩ := List.mem_map.mp h
      exact printable_exprShrinkCandidates operand he operand' hoperand'
  | .call name args span, he => by
    intro candidate h
    rcases List.mem_cons.mp h with rfl | h
    · exact Int32.le_refl 0
    · obtain ⟨args', hargs', rfl⟩ := List.mem_map.mp h
      exact ⟨he.1, printable_argsShrinkCandidates args he.2 args' hargs'⟩
  | .arrayIndex name index span, he => by
    intro candidate h
    rcases List.mem_cons.mp h with rfl | h
    · exact Int32.le_refl 0
    rcases List.mem_cons.mp h with rfl | h
    · exact ⟨he.1, Int32.le_refl 0⟩
    · obtain ⟨index', hindex', rfl⟩ := List.mem_map.mp h
      exact ⟨he.1, printable_exprShrinkCandidates index he.2 index' hindex'⟩
termination_by structural e => e

theorem printable_argsShrinkCandidates : (args : List Expr) → PrintableExprs args →
    ∀ candidate ∈ argsShrinkCandidates args, PrintableExprs candidate
  | [], _ => fun candidate h ↦ absurd h List.not_mem_nil
  | arg :: args, hargs => by
    intro candidate h
    rcases List.mem_append.mp h with h | h
    · obtain ⟨arg', harg', rfl⟩ := List.mem_map.mp h
      exact ⟨printable_exprShrinkCandidates arg hargs.1 arg' harg', hargs.2⟩
    · obtain ⟨args', hargs', rfl⟩ := List.mem_map.mp h
      exact ⟨hargs.1, printable_argsShrinkCandidates args hargs.2 args' hargs'⟩
termination_by structural args => args

end

theorem PrintableStmts.append {body rest : List Stmt} (hbody : PrintableStmts body)
    (hrest : PrintableStmts rest) : PrintableStmts (body ++ rest) := by
  induction body with
  | nil => exact hrest
  | cons stmt stmts ih => exact ⟨hbody.1, ih hbody.2⟩

theorem PrintableDecl.shrink {t : Ty} {name : String} {expr expr' : Expr} {size : Option Int32}
    (h : PrintableDecl t name (some expr) size) (hexpr' : expr' ∈ exprShrinkCandidates expr) :
    PrintableDecl t name (some expr') size := by
  obtain ⟨⟨hscalar, hplain⟩, hname, hinit, hsize⟩ := h
  refine ⟨⟨hscalar, fun hsome ↦ ?_⟩, hname, fun e he ↦ ?_, hsize⟩
  · cases hplain hsome
  · obtain rfl := Option.some.inj he
    exact printable_exprShrinkCandidates expr (hinit expr rfl) _ hexpr'

mutual

theorem printable_stmtShrinkCandidates : (stmt : Stmt) → PrintableStmt stmt →
    ∀ candidate ∈ stmtShrinkCandidates stmt, PrintableStmts candidate
  | .varDecl _ _ none _ _, _ => fun candidate h ↦ absurd h List.not_mem_nil
  | .varDecl varType name (some expr) arraySize span, hstmt => by
    intro candidate h
    obtain ⟨expr', hexpr', rfl⟩ := List.mem_map.mp h
    exact ⟨PrintableDecl.shrink hstmt hexpr', trivial⟩
  | .assign target none value span, hstmt => by
    intro candidate h
    obtain ⟨value', hvalue', rfl⟩ := List.mem_map.mp h
    exact ⟨⟨hstmt.1, printable_exprShrinkCandidates value hstmt.2 value' hvalue'⟩, trivial⟩
  | .assign target (some index) value span, hstmt => by
    intro candidate h
    rw [stmtShrinkCandidates, List.mem_append, List.mem_append] at h
    rcases h with (h | h) | h
    · obtain ⟨value', hvalue', rfl⟩ := List.mem_map.mp h
      exact ⟨⟨hstmt.1, hstmt.2.1,
        printable_exprShrinkCandidates value hstmt.2.2 value' hvalue'⟩, trivial⟩
    · rw [List.mem_singleton.mp h]
      exact ⟨⟨hstmt.1, Int32.le_refl 0, hstmt.2.2⟩, trivial⟩
    · obtain ⟨index', hindex', rfl⟩ := List.mem_map.mp h
      exact ⟨⟨hstmt.1, printable_exprShrinkCandidates index hstmt.2.1 index' hindex',
        hstmt.2.2⟩, trivial⟩
  | .ifStmt condition thenBody none span, hstmt => by
    intro candidate h
    rw [stmtShrinkCandidates, List.mem_append, List.mem_append] at h
    rcases h with (h | h) | h
    · rw [List.mem_singleton.mp h]
      exact hstmt.2
    · obtain ⟨condition', hcondition', rfl⟩ := List.mem_map.mp h
      exact ⟨⟨printable_exprShrinkCandidates condition hstmt.1 condition' hcondition',
        hstmt.2⟩, trivial⟩
    · obtain ⟨body', hbody', rfl⟩ := List.mem_map.mp h
      exact ⟨⟨hstmt.1, printable_bodyShrinkCandidates thenBody hstmt.2 body' hbody'⟩, trivial⟩
  | .ifStmt condition thenBody (some elseBody) span, hstmt => by
    intro candidate h
    rw [stmtShrinkCandidates, List.mem_append, List.mem_append, List.mem_append] at h
    rcases h with ((h | h) | h) | h
    · rcases List.mem_cons.mp h with rfl | h
      · exact hstmt.2.1
      · rw [List.mem_singleton.mp h]
        exact hstmt.2.2
    · obtain ⟨condition', hcondition', rfl⟩ := List.mem_map.mp h
      exact ⟨⟨printable_exprShrinkCandidates condition hstmt.1 condition' hcondition',
        hstmt.2⟩, trivial⟩
    · obtain ⟨body', hbody', rfl⟩ := List.mem_map.mp h
      exact ⟨⟨hstmt.1, printable_bodyShrinkCandidates thenBody hstmt.2.1 body' hbody',
        hstmt.2.2⟩, trivial⟩
    · obtain ⟨body', hbody', rfl⟩ := List.mem_map.mp h
      exact ⟨⟨hstmt.1, hstmt.2.1,
        printable_bodyShrinkCandidates elseBody hstmt.2.2 body' hbody'⟩, trivial⟩
  | .whileStmt condition body span, hstmt => by
    intro candidate h
    rw [stmtShrinkCandidates, List.mem_append, List.mem_append] at h
    rcases h with (h | h) | h
    · rw [List.mem_singleton.mp h]
      exact hstmt.2
    · obtain ⟨condition', hcondition', rfl⟩ := List.mem_map.mp h
      exact ⟨⟨printable_exprShrinkCandidates condition hstmt.1 condition' hcondition',
        hstmt.2⟩, trivial⟩
    · obtain ⟨body', hbody', rfl⟩ := List.mem_map.mp h
      exact ⟨⟨hstmt.1, printable_bodyShrinkCandidates body hstmt.2 body' hbody'⟩, trivial⟩
  | .returnStmt value span, hstmt => by
    intro candidate h
    obtain ⟨value', hvalue', rfl⟩ := List.mem_map.mp h
    exact ⟨printable_exprShrinkCandidates value hstmt value' hvalue', trivial⟩
  | .print value span, hstmt => by
    intro candidate h
    obtain ⟨value', hvalue', rfl⟩ := List.mem_map.mp h
    exact ⟨printable_exprShrinkCandidates value hstmt value' hvalue', trivial⟩
  | .exprStmt expr span, hstmt => by
    intro candidate h
    obtain ⟨expr', hexpr', rfl⟩ := List.mem_map.mp h
    exact ⟨printable_exprShrinkCandidates expr hstmt expr' hexpr', trivial⟩
termination_by structural stmt => stmt

theorem printable_bodyShrinkCandidates : (body : List Stmt) → PrintableStmts body →
    ∀ candidate ∈ bodyShrinkCandidates body, PrintableStmts candidate
  | [], _ => fun candidate h ↦ absurd h List.not_mem_nil
  | stmt :: stmts, hbody => by
    intro candidate h
    rw [bodyShrinkCandidates, List.mem_append, List.mem_append] at h
    rcases h with (h | h) | h
    · split at h
      · exact absurd h List.not_mem_nil
      · rw [List.mem_singleton.mp h]
        exact hbody.2
    · obtain ⟨replacement, hreplacement, rfl⟩ := List.mem_map.mp h
      exact (printable_stmtShrinkCandidates stmt hbody.1 replacement hreplacement).append hbody.2
    · obtain ⟨stmts', hstmts', rfl⟩ := List.mem_map.mp h
      exact ⟨hbody.1, printable_bodyShrinkCandidates stmts hbody.2 stmts' hstmts'⟩
termination_by structural body => body

end

theorem mem_of_removals {α : Type} {removable : α → Bool} {as candidate : List α}
    (h : candidate ∈ removals removable as) : ∀ a ∈ candidate, a ∈ as := by
  induction as generalizing candidate with
  | nil => exact absurd h List.not_mem_nil
  | cons a as ih =>
    rcases List.mem_append.mp h with h | h
    · split at h
      · rw [List.mem_singleton.mp h]
        exact fun b hb ↦ List.mem_cons_of_mem a hb
      · exact absurd h List.not_mem_nil
    · obtain ⟨as', has', rfl⟩ := List.mem_map.mp h
      intro b hb
      rcases List.mem_cons.mp hb with rfl | hb
      · exact List.mem_cons_self
      · exact List.mem_cons_of_mem a (ih has' b hb)

theorem printable_functionsShrinkCandidates {functions candidate : List Function}
    (hfunctions : ∀ f ∈ functions, PrintableFunction f)
    (h : candidate ∈ functionsShrinkCandidates functions) :
    ∀ f ∈ candidate, PrintableFunction f := by
  induction functions generalizing candidate with
  | nil => exact absurd h List.not_mem_nil
  | cons function functions ih =>
    obtain ⟨⟨hname, hparams, hbody⟩, hrest⟩ := List.forall_mem_cons.mp hfunctions
    rcases List.mem_append.mp h with h | h
    · obtain ⟨body, hbody', rfl⟩ := List.mem_map.mp h
      exact List.forall_mem_cons.mpr
        ⟨⟨hname, hparams, printable_bodyShrinkCandidates _ hbody body hbody'⟩, hrest⟩
    · obtain ⟨functions', hfunctions', rfl⟩ := List.mem_map.mp h
      exact List.forall_mem_cons.mpr ⟨⟨hname, hparams, hbody⟩, ih hrest hfunctions'⟩

theorem printable_astShrinkCandidates {program candidate : Program}
    (hprogram : PrintableProgram program) (h : candidate ∈ astShrinkCandidates program) :
    PrintableProgram candidate := by
  rw [astShrinkCandidates, List.mem_append, List.mem_append] at h
  rcases h with (h | h) | h
  · obtain ⟨globals, hglobals, rfl⟩ := List.mem_map.mp h
    exact ⟨fun g hg ↦ hprogram.globals g (mem_of_removals hglobals g hg), hprogram.functions⟩
  · obtain ⟨functions, hfunctions, rfl⟩ := List.mem_map.mp h
    exact ⟨hprogram.globals, fun f hf ↦ hprogram.functions f (mem_of_removals hfunctions f hf)⟩
  · obtain ⟨functions, hfunctions, rfl⟩ := List.mem_map.mp h
    exact ⟨hprogram.globals, printable_functionsShrinkCandidates hprogram.functions hfunctions⟩

/-! ## Shrinking a source text -/

/-- A failure as the shrinker recognises it. -/
structure FailureSignature where
  tag : String
  fingerprint : UInt64
deriving DecidableEq

def FailureSignature.fromReason (reason : FuzzFailureReason) : FailureSignature :=
  ⟨reason.tag, reason.fingerprint⟩

def parseProgram (source : String) : Option Program :=
  (Parser.parse (tokenize (utf8Bytes source))).toOption

/-- `char::is_whitespace` -/
def isWhitespace (ch : Char) : Bool :=
  (0x09 ≤ ch.toNat && ch.toNat ≤ 0x0d) || (0x2000 ≤ ch.toNat && ch.toNat ≤ 0x200a) ||
    [0x20, 0x85, 0xa0, 0x1680, 0x2028, 0x2029, 0x202f, 0x205f, 0x3000].contains ch.toNat

/-- `str::trim` -/
def trim (line : List Char) : List Char :=
  ((line.dropWhile isWhitespace).reverse.dropWhile isWhitespace).reverse

def isRemovableLine (line : List Char) : Bool :=
  (trim line).getLast? == some ';' && !"return ".toList.isPrefixOf (trim line)

section

-- What the shrinker does is the same whatever the audit of a source text reports.
variable (auditSource : String → Option FuzzFailureReason)

def hasSameFailure (source : String) (signature : FailureSignature) : Bool :=
  match auditSource source with
  | some reason => FailureSignature.fromReason reason == signature
  | none => false

def findAstShrink (source : String) (signature : FailureSignature) : Option String :=
  match parseProgram source with
  | none => none
  | some program =>
    ((astShrinkCandidates program).map emitProgram).find? fun candidate ↦
      candidate != source && hasSameFailure auditSource candidate signature

def findLineRemovalShrink (source : String) (signature : FailureSignature) : Option String :=
  ((removals isRemovableLine (lines source.toList)).map fun candidate ↦
    String.ofList (['\n'].intercalate candidate ++ ['\n'])).find? fun candidate ↦
      hasSameFailure auditSource candidate signature

/-- At most so many passes, each of which takes the first candidate that fails in the same way. -/
def shrinkPasses : Nat → String → FailureSignature → String
  | 0, current, _ => current
  | passes + 1, current, signature =>
    ((findAstShrink auditSource current signature).or
      (findLineRemovalShrink auditSource current signature)).elim current
        fun candidate ↦ shrinkPasses passes candidate signature

/-- `SHRINK_PASSES` -/
def maxShrinkPasses : Nat := 64

def shrinkSource (source : String) (signature : FailureSignature) : String :=
  shrinkPasses auditSource maxShrinkPasses source signature

variable {auditSource} {source candidate : String} {signature : FailureSignature}

theorem hasSameFailure_findAstShrink
    (h : findAstShrink auditSource source signature = some candidate) :
    hasSameFailure auditSource candidate signature = true := by
  unfold findAstShrink at h
  split at h
  · cases h
  · have hcandidate := List.find?_some h
    exact (Bool.and_eq_true_iff.mp hcandidate).2

theorem hasSameFailure_findLineRemovalShrink
    (h : findLineRemovalShrink auditSource source signature = some candidate) :
    hasSameFailure auditSource candidate signature = true := by
  have hcandidate := List.find?_some h
  exact hcandidate

theorem hasSameFailure_shrinkPasses (passes : Nat)
    (h : hasSameFailure auditSource source signature = true) :
    hasSameFailure auditSource (shrinkPasses auditSource passes source signature) signature =
      true := by
  induction passes generalizing source with
  | zero =>
    rw [shrinkPasses]
    exact h
  | succ passes ih =>
    rw [shrinkPasses]
    cases hcandidate : (findAstShrink auditSource source signature).or
      (findLineRemovalShrink auditSource source signature) with
    | none => exact h
    | some candidate =>
      refine ih ?_
      rcases Option.or_eq_some_iff.mp hcandidate with hast | ⟨-, hline⟩
      · exact hasSameFailure_findAstShrink hast
      · exact hasSameFailure_findLineRemovalShrink hline

end

/-! ## No cycles -/

/-- A source text and the text of a candidate for its tree, if it is another one. -/
def AstShrink (source candidate : String) : Prop :=
  ∃ program, parseProgram source = some program ∧
    candidate ∈ (astShrinkCandidates program).map emitProgram ∧ candidate ≠ source

theorem astShrink_of_findAstShrink {auditSource : String → Option FuzzFailureReason}
    {source candidate : String} {signature : FailureSignature}
    (h : findAstShrink auditSource source signature = some candidate) :
    AstShrink source candidate := by
  unfold findAstShrink at h
  split at h
  · cases h
  · next program hprogram =>
    have hcandidate := List.find?_some h
    exact ⟨program, hprogram, List.mem_of_find?_eq_some h,
      bne_iff_ne.mp (Bool.and_eq_true_iff.mp hcandidate).1⟩

/-- The text of a program that can be printed parses to that program, positions aside. -/
theorem parseProgram_emitProgram {program : Program} (h : PrintableProgram program) :
    ∃ p, parseProgram (emitProgram program) = some p ∧ PrintableProgram p ∧
      p.eraseSpans = program.eraseSpans := by
  obtain ⟨p, hparse, herase⟩ := parse_emitProgram h
  refine ⟨p, ?_, ?_, herase⟩
  · rw [parseProgram, hparse]
    rfl
  · rw [← printableProgram_eraseSpans, herase]
    exact printableProgram_eraseSpans.mpr h

/-- The text is a printed one, and it parses to `program`. -/
structure Printed (source : String) (program : Program) : Prop where
  parsed : parseProgram source = some program
  printable : PrintableProgram program
  text : emitProgram program = source

/-- A shrink prints a program, and one that is lighter than a printed program before. -/
theorem AstShrink.printed {source candidate : String} {program : Program}
    (h : AstShrink source candidate) (hparse : parseProgram source = some program)
    (hprogram : PrintableProgram program) :
    ∃ program', Printed candidate program' ∧ weight program' ≤ weight program ∧
      (emitProgram program = source → weight program' < weight program) := by
  obtain ⟨parsed, hparsed, hmem, hne⟩ := h
  obtain rfl := Option.some.inj (hparse.symm.trans hparsed)
  obtain ⟨shrunk, hshrunk, rfl⟩ := List.mem_map.mp hmem
  obtain ⟨program', hparse', hprintable', herase⟩ :=
    parseProgram_emitProgram (printable_astShrinkCandidates hprogram hshrunk)
  refine ⟨program', ⟨hparse', hprintable', emitProgram_congr herase⟩, ?_⟩
  rw [weight_congr herase]
  rcases lighter_astShrinkCandidates hshrunk with heq | hlt
  · refine ⟨Nat.le_of_eq (weight_congr heq), fun htext ↦ absurd ?_ hne⟩
    rw [emitProgram_congr heq, htext]
  · exact ⟨Nat.le_of_lt hlt, fun _ ↦ hlt⟩

/-- From a printed text on, every shrink makes the program lighter. -/
theorem weight_of_astShrinks {source candidate : String}
    (h : Relation.TransGen AstShrink source candidate) {program : Program}
    (hprogram : Printed source program) :
    ∃ program', Printed candidate program' ∧ weight program' < weight program := by
  induction h with
  | single h =>
    obtain ⟨program', hprogram', -, hlt⟩ := h.printed hprogram.parsed hprogram.printable
    exact ⟨program', hprogram', hlt hprogram.text⟩
  | tail _ h ih =>
    obtain ⟨middle, hmiddle, hlt⟩ := ih
    obtain ⟨program', hprogram', -, hlt'⟩ := h.printed hmiddle.parsed hmiddle.printable
    exact ⟨program', hprogram', (hlt' hmiddle.text).trans hlt⟩

/-- Sequences of shrinks that start from a program with identifiers for names and non-negative
literals never come back to a text. -/
theorem not_cyclic_of_printable {source : String} {program : Program}
    (hparse : parseProgram source = some program) (hprogram : PrintableProgram program) :
    ¬Relation.TransGen AstShrink source source := by
  intro hcycle
  -- a text that a shrink ends in is a printed one
  have hprinted : Printed source program := by
    obtain ⟨candidate, hfirst, hrest⟩ := Relation.TransGen.head'_iff.mp hcycle
    obtain ⟨first, hfirst', -⟩ := hfirst.printed hparse hprogram
    have hlast : ∃ last, Printed source last := by
      rcases Relation.reflTransGen_iff_eq_or_transGen.mp hrest with rfl | hrest
      · exact ⟨first, hfirst'⟩
      · obtain ⟨last, hlast, -⟩ := weight_of_astShrinks hrest hfirst'
        exact ⟨last, hlast⟩
    obtain ⟨last, hlast⟩ := hlast
    obtain rfl := Option.some.inj (hparse.symm.trans hlast.parsed)
    exact hlast
  obtain ⟨program', hprogram', hlt⟩ := weight_of_astShrinks hcycle hprinted
  obtain rfl := Option.some.inj (hparse.symm.trans hprogram'.parsed)
  exact Nat.lt_irrefl _ hlt

/-- **The shrinker is sound and makes progress.** A candidate is the program again, positions
aside, or lighter; no sequence of shrinks of a source text comes back to it; and what the shrinker
returns fails in the same way as its source did. -/
theorem shrinkSource_sound (auditSource : String → Option FuzzFailureReason) :
    (∀ program : Program, ∀ candidate ∈ astShrinkCandidates program,
      candidate.eraseSpans = program.eraseSpans ∨ weight candidate < weight program) ∧
    (∀ (source : String) (program : Program), parseProgram source = some program →
      PrintableProgram program → ¬Relation.TransGen
        (fun text shrunk ↦ ∃ signature, findAstShrink auditSource text signature = some shrunk)
        source source) ∧
    (∀ (source : String) (signature : FailureSignature),
      hasSameFailure auditSource source signature = true →
        hasSameFailure auditSource (shrinkSource auditSource source signature) signature =
          true) := by
  refine ⟨fun program candidate h ↦ lighter_astShrinkCandidates h, ?_,
    fun source signature h ↦ hasSameFailure_shrinkPasses maxShrinkPasses h⟩
  intro source program hparse hprogram hcycle
  refine not_cyclic_of_printable hparse hprogram (Relation.TransGen.mono ?_ source source hcycle)
  rintro text shrunk ⟨signature, h⟩
  exact astShrink_of_findAstShrink h

/-- `func main() { int x[2]; x[0] = 7; return x[0]; }` -/
def sampleText : String := "func main() \x7b int x[2]; x[0] = 7; return x[0]; \x7d"

/-- An audit that fails where the text has an array. -/
def sampleAudit (source : String) : Option FuzzFailureReason :=
  if source.toList.contains '[' then some (.verification "array") else none

def sampleSignature : FailureSignature := .fromReason (.verification "array")

/-- The audit fails, a shrink is found, and what the shrinker returns fails in the same way. -/
theorem shrinkSource_sound_sample :
    (∀ candidate ∈ astShrinkCandidates sampleProgram,
      candidate.eraseSpans = sampleProgram.eraseSpans ∨ weight candidate < weight sampleProgram) ∧
    ¬Relation.TransGen
      (fun text shrunk ↦ ∃ signature, findAstShrink sampleAudit text signature = some shrunk)
      sampleText sampleText ∧
    (findAstShrink sampleAudit sampleText sampleSignature).isSome ∧
    hasSameFailure sampleAudit (shrinkSource sampleAudit sampleText sampleSignature)
      sampleSignature = true := by
  have htext : utf8Bytes sampleText = sampleSource := by decide +kernel
  have hparse : parseProgram sampleText = some sampleProgram := by
    rw [parseProgram, htext, sample_parsed]
    rfl
  have hprintable : PrintableProgram sampleProgram := by
    refine printable_of_parsed sample_parsed ?_
    rw [LiteralsBelow]
    decide +kernel
  obtain ⟨hlighter, hacyclic, hkept⟩ := shrinkSource_sound sampleAudit
  refine ⟨hlighter sampleProgram, hacyclic sampleText sampleProgram hparse hprintable, ?_,
    hkept sampleText sampleSignature (by decide +kernel)⟩
  unfold findAstShrink
  rw [hparse]
  decide +kernel

end MiniLang.Fuzz
