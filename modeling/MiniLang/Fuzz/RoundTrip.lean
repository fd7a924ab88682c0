import MiniLang.Fuzz.EmitProgram
import MiniLang.Sema.Parsed

/-!
# The round trip of the printer

What the parser makes of a source text can be printed, when the integer literals of the text are
below `2 ^ 31`, and the printed text parses to the same tree again, positions aside.

## From the text to the tree

The printer writes a literal as an `i32` in decimals. The lexer reduces a literal to 32 bits, so a
number from `2 ^ 31` on may become negative, and the printed minus sign would be read as an
operator. The condition is therefore on the text: `LiteralsBelow` looks at the runs of digits that
the lexer takes for numbers. From there it goes to tokens, each of which the printer can reproduce
(`PrintableToken`), and by induction on derivations to the tree that the parser makes of them.

Names need no condition. What the lexer takes for an identifier is no keyword, and it is read as the
same word when it is printed.

## Back

That a tree that can be printed parses back is shown for all trees elsewhere. It does not matter
where the parts of the tree stood, since the printer does not look at positions.
-/

namespace MiniLang

open Grammar

namespace Lexer

/-! ## Integer literals -/

/-- The digits of the integer literals that `tokenizeLoop` reads. -/
def literalsLoop : Nat → Lexer → List (List UInt8)
  | 0, _ => []
  | fuel + 1, l =>
    let (token, l') := l.nextToken
    let start := l.skipWhitespaceAndComments (l.rest.length + 1)
    match token.kind with
    | .eof => []
    | .intLiteral _ => (start.takeWhile isAsciiDigit).1 :: literalsLoop fuel l'
    | _ => literalsLoop fuel l'

/-- The number that a run of digits stands for. -/
def decimalValue (digits : List UInt8) : Nat :=
  digits.foldl (fun value ch ↦ value * 10 + (ch - byte '0').toNat) 0

end Lexer

/-- The integer literals of a source text, as their digits. -/
def integerLiterals (source : List UInt8) : List (List UInt8) :=
  (Lexer.new source).literalsLoop (source.length + 1)

/-- The integer literals of a source text are all below `bound`. -/
def LiteralsBelow (source : List UInt8) (bound : Nat) : Prop :=
  ∀ digits ∈ integerLiterals source, Lexer.decimalValue digits < bound

namespace Fuzz

open Lexer

/-! ## Tokens of a source text -/

/-- A token that the printer can reproduce. -/
def PrintableToken (kind : TokenKind) : Prop :=
  (∀ name, kind = .identifier name → IsName name) ∧ ∀ value, kind = .intLiteral value → 0 ≤ value

theorem digitsValue_eq (digits : List UInt8) :
    digitsValue digits = Int32.ofNat (decimalValue digits) := by
  have hfold (n : Nat) : digits.foldl
      (fun value ch ↦ value * 10 + Int32.ofNat (ch - byte '0').toNat) (Int32.ofNat n) =
      Int32.ofNat (digits.foldl (fun value ch ↦ value * 10 + (ch - byte '0').toNat) n) := by
    induction digits generalizing n with
    | nil => rfl
    | cons ch digits ih =>
      rw [List.foldl_cons, List.foldl_cons, ← ih, Int32.ofNat_add, Int32.ofNat_mul]
      rfl
  exact hfold 0

theorem digitsValue_nonneg {digits : List UInt8} (h : decimalValue digits < 2 ^ 31) :
    0 ≤ digitsValue digits := by
  rw [digitsValue_eq, Int32.le_iff_toInt_le, Int32.toInt_ofNat_of_lt h, Int32.toInt_zero]
  exact Int.natCast_nonneg _

theorem all_advanceWhile (p : UInt8 → Bool) (s : List UInt8) (line column : Nat) :
    ∀ c ∈ (advanceWhile p s line column).1, p c = true := by
  induction s generalizing line column with
  | nil => exact fun c hc ↦ absurd hc List.not_mem_nil
  | cons ch rest ih =>
    rw [advanceWhile]
    split
    · next hch => exact List.forall_mem_cons.mpr ⟨hch, ih _ _⟩
    · exact fun c hc ↦ absurd hc List.not_mem_nil

theorem printableToken_of_ne {kind : TokenKind} (hname : ∀ name, kind ≠ .identifier name)
    (hvalue : ∀ value, kind ≠ .intLiteral value) : PrintableToken kind :=
  ⟨fun name h ↦ absurd h (hname name), fun value h ↦ absurd h (hvalue value)⟩

theorem printableToken_symbol (ch : UInt8) : PrintableToken (singleCharToken ch) := by
  refine printableToken_of_ne (fun name ↦ ?_) fun value ↦ ?_
  all_goals
    unfold singleCharToken
    repeat' apply ite_ne
    all_goals exact fun heq ↦ nomatch heq

theorem printableToken_pair {ch next : UInt8} {kind : TokenKind}
    (h : twoCharOperator ch next = some kind) : PrintableToken kind := by
  unfold twoCharOperator at h
  refine printableToken_of_ne ?_ ?_
  all_goals
    rintro value rfl
    repeat' split at h
    all_goals simp at h

theorem printableToken_word {name : String} (hname : IsWord name) :
    PrintableToken (keywordOrIdentifier name) := by
  refine ⟨fun name' h ↦ ?_, fun value h ↦ ?_⟩
  · have heq : name' = name := by
      have h' := h
      unfold keywordOrIdentifier at h'
      split at h'
      all_goals cases h'
      rfl
    subst heq
    exact { hname with kind := h }
  · unfold keywordOrIdentifier at h
    split at h
    all_goals cases h

/-- The run of bytes that `scan_identifier_or_keyword` takes. -/
theorem isWord_takeWhile {ch : UInt8} {rest : List UInt8} {line column : Nat}
    (halpha : (isAsciiAlphabetic ch || ch == byte '_') = true) (hdigit : isAsciiDigit ch = false) :
    IsWord (text (takeWhile (fun ch ↦ isAsciiAlphanumeric ch || ch == byte '_')
      ⟨ch :: rest, line, column⟩).1) := by
  have hch : (isAsciiAlphanumeric ch || ch == byte '_') = true := by
    rw [isAsciiAlphanumeric, Bool.or_right_comm, halpha, Bool.true_or]
  have hall := all_advanceWhile (fun ch ↦ isAsciiAlphanumeric ch || ch == byte '_') (ch :: rest)
    line column
  rw [takeWhile]
  dsimp only
  rw [advanceWhile, if_pos hch] at hall ⊢
  refine isWord_text (List.cons_ne_nil _ _) hall fun c hc ↦ ?_
  rw [← Option.some_inj.mp hc]
  exact hdigit

/-- Where the literals fit, the next token can be printed. -/
theorem printableToken_nextToken {l : Lexer}
    (h : ∀ value, l.nextToken.1.kind = .intLiteral value → decimalValue
      ((l.skipWhitespaceAndComments (l.rest.length + 1)).takeWhile isAsciiDigit).1 < 2 ^ 31) :
    PrintableToken l.nextToken.1.kind := by
  rw [nextToken] at h ⊢
  generalize l.skipWhitespaceAndComments (l.rest.length + 1) = start at h ⊢
  obtain ⟨rest, line, column⟩ := start
  cases rest with
  | nil =>
    refine printableToken_of_ne (fun name heq ↦ ?_) fun value heq ↦ ?_
    all_goals cases heq
  | cons ch rest =>
    dsimp only at h ⊢
    by_cases hdigit : isAsciiDigit ch = true
    · rw [if_pos hdigit] at h ⊢
      refine ⟨fun name heq ↦ (by cases heq), fun value heq ↦ ?_⟩
      have hvalue := digitsValue_nonneg (h value heq)
      have heq : TokenKind.intLiteral (digitsValue (takeWhile isAsciiDigit
        ⟨ch :: rest, line, column⟩).1) = .intLiteral value := heq
      rwa [TokenKind.intLiteral.inj heq] at hvalue
    · rw [if_neg hdigit]
      split
      · next halpha =>
        exact printableToken_word (isWord_takeWhile halpha (Bool.eq_false_of_not_eq_true hdigit))
      · split
        · next kind hpair =>
          obtain ⟨next, -, hpair⟩ := Option.bind_eq_some_iff.mp hpair
          exact printableToken_pair hpair
        · exact printableToken_symbol ch

theorem printableToken_loop {fuel : Nat} {l : Lexer}
    (h : ∀ digits ∈ literalsLoop fuel l, decimalValue digits < 2 ^ 31) :
    ∀ token ∈ tokenizeLoop fuel l, PrintableToken token.kind := by
  induction fuel generalizing l with
  | zero => exact fun token htoken ↦ absurd htoken List.not_mem_nil
  | succ fuel ih =>
    have hnext : PrintableToken l.nextToken.1.kind := by
      refine printableToken_nextToken fun value hvalue ↦ ?_
      rw [literalsLoop] at h
      simp only [hvalue] at h
      exact h _ List.mem_cons_self
    have hrest : l.nextToken.1.kind ≠ .eof →
        ∀ digits ∈ literalsLoop fuel l.nextToken.2, decimalValue digits < 2 ^ 31 := by
      intro hkind digits hdigits
      rw [literalsLoop] at h
      dsimp only at h
      split at h
      · next heof => exact absurd heof hkind
      · exact h digits (List.mem_cons_of_mem _ hdigits)
      · exact h digits hdigits
    rw [tokenizeLoop]
    dsimp only
    split
    · intro token htoken
      rw [List.mem_singleton.mp htoken]
      exact hnext
    · next hkind => exact List.forall_mem_cons.mpr ⟨hnext, ih (hrest hkind)⟩

/-! ## Trees of a source text -/

/-- The tokens of a source text with such literals. -/
def PrintableTokens (ts : List TokenKind) : Prop := ∀ kind ∈ ts, PrintableToken kind

variable {ts us : List TokenKind}

theorem PrintableTokens.left (h : PrintableTokens (ts ++ us)) : PrintableTokens ts :=
  fun kind hkind ↦ h kind (List.mem_append_left us hkind)

theorem PrintableTokens.right (h : PrintableTokens (ts ++ us)) : PrintableTokens us :=
  fun kind hkind ↦ h kind (List.mem_append_right ts hkind)

theorem PrintableTokens.head {kind : TokenKind} (h : PrintableTokens (kind :: ts)) :
    PrintableToken kind := h kind List.mem_cons_self

theorem PrintableTokens.tail {kind : TokenKind} (h : PrintableTokens (kind :: ts)) :
    PrintableTokens ts := fun kind' hkind ↦ h kind' (List.mem_cons_of_mem kind hkind)

theorem PrintableTokens.name {name : String} (h : PrintableTokens (.identifier name :: ts)) :
    IsName name := h.head.1 name rfl

mutual

theorem printable_of_derives : ∀ {l : Level} {ts : List TokenKind} {e : Expr},
    Derives l ts e → PrintableTokens ts → PrintableExpr e
  | _, _, _, .chain _ h hs, hts => printable_of_chain hs hts.right (printable_of_derives h hts.left)
  | _, _, _, .neg (e := e) h, hts =>
    show PrintableExpr e from printable_of_derives h hts.tail
  | _, _, _, .not (e := e) h, hts =>
    show PrintableExpr e from printable_of_derives h hts.tail
  | _, _, _, .primary h, hts => printable_of_derives h hts
  | _, _, _, .intLiteral value, hts => hts.head.2 value rfl
  | _, _, _, .boolLiteral _, _ => trivial
  | _, _, _, .identifier _, hts => hts.name
  | _, _, _, .arrayIndex _ h, hts => ⟨hts.name, printable_of_derives h hts.tail.tail.left⟩
  | _, _, _, .callNone _, hts => ⟨hts.name, trivial⟩
  | _, _, _, .call _ h hs, hts =>
    ⟨hts.name, printable_of_derives h hts.tail.tail.left.left,
      printable_of_moreArgs hs hts.tail.tail.left.right⟩
  | _, _, _, .parens h, hts => printable_of_derives h hts.tail.left

theorem printable_of_chain : ∀ {l : Level} {left : Expr} {ts : List TokenKind} {e : Expr},
    Chain l left ts e → PrintableTokens ts → PrintableExpr left → PrintableExpr e
  | _, _, _, _, .nil _ _, _, hleft => hleft
  | _, _, _, _, .cons _ h hs, hts, hleft =>
    printable_of_chain hs hts.tail.right ⟨hleft, printable_of_derives h hts.tail.left⟩

theorem printable_of_moreArgs : ∀ {ts : List TokenKind} {es : List Expr},
    MoreArgs ts es → PrintableTokens ts → PrintableExprs es
  | _, _, .nil, _ => trivial
  | _, _, .cons h hs, hts =>
    ⟨printable_of_derives h hts.tail.left, printable_of_moreArgs hs hts.tail.right⟩

end

theorem scalar_of_typeToken {kind : TokenKind} {t : Ty} (h : TypeToken kind t) : t.IsScalar := by
  cases h with
  | int => exact .inl rfl
  | bool => exact .inr rfl

theorem printable_of_declarator {kind : TokenKind} {t : Ty} {name : String}
    {size : Option Int32} {init : Option Expr} (ht : TypeToken kind t)
    (h : Declarator ts size init) (hts : PrintableTokens (kind :: .identifier name :: ts)) :
    PrintableDecl t name init size := by
  have hname := hts.tail.name
  have hscalar := scalar_of_typeToken ht
  cases h with
  | array size =>
    refine ⟨⟨hscalar, fun _ ↦ rfl⟩, hname, fun e he ↦ absurd he (Option.not_mem_none e),
      fun n hn ↦ ?_⟩
    rw [← Option.some_inj.mp hn]
    exact hts.tail.tail.tail.head.2 size rfl
  | init h =>
    refine ⟨⟨hscalar, fun hsome ↦ absurd hsome Bool.false_ne_true⟩, hname, fun e he ↦ ?_,
      fun n hn ↦ absurd hn (Option.not_mem_none n)⟩
    rw [← Option.some_inj.mp he]
    exact printable_of_derives h hts.tail.tail.tail.left
  | plain =>
    exact ⟨⟨hscalar, fun hsome ↦ absurd hsome Bool.false_ne_true⟩, hname,
      fun e he ↦ absurd he (Option.not_mem_none e), fun n hn ↦ absurd hn (Option.not_mem_none n)⟩

mutual

theorem printable_of_stmtDerives : ∀ {ts : List TokenKind} {stmt : Stmt},
    StmtDerives ts stmt → PrintableTokens ts → PrintableStmt stmt
  | _, _, .varDecl ht _ h, hts => printable_of_declarator ht h hts
  | _, _, .assign _ h, hts => ⟨hts.name, printable_of_derives h hts.tail.tail.left⟩
  | _, _, .assignElement _ hi h, hts =>
    ⟨hts.name, printable_of_derives hi hts.tail.tail.left,
      printable_of_derives h hts.tail.tail.right.tail.tail.left⟩
  | _, _, .ifThen h hb, hts =>
    ⟨printable_of_derives h hts.tail.tail.left,
      printable_of_blockDerives hb hts.tail.tail.right.tail⟩
  | _, _, .ifElse h hb he, hts =>
    ⟨printable_of_derives h hts.tail.tail.left,
      printable_of_blockDerives hb hts.tail.tail.right.tail.left,
      printable_of_blockDerives he hts.tail.tail.right.tail.right.tail⟩
  | _, _, .whileStmt h hb, hts =>
    ⟨printable_of_derives h hts.tail.tail.left,
      printable_of_blockDerives hb hts.tail.tail.right.tail⟩
  | _, _, .returnStmt h, hts => printable_of_derives h hts.tail.left
  | _, _, .print h, hts => printable_of_derives h hts.tail.left
  | _, _, .exprStmt h, hts => printable_of_derives h hts.left

theorem printable_of_blockDerives : ∀ {ts : List TokenKind} {body : List Stmt},
    BlockDerives ts body → PrintableTokens ts → PrintableStmts body
  | _, _, .block h, hts => printable_of_stmtsDerive h hts.tail.left

theorem printable_of_stmtsDerive : ∀ {ts : List TokenKind} {stmts : List Stmt},
    StmtsDerive ts stmts → PrintableTokens ts → PrintableStmts stmts
  | _, _, .nil, _ => trivial
  | _, _, .cons h hs, hts =>
    ⟨printable_of_stmtDerives h hts.left, printable_of_stmtsDerive hs hts.right⟩

end

theorem printable_of_paramDerives {param : Param} (h : ParamDerives ts param)
    (hts : PrintableTokens ts) : PrintableParam param := by
  cases h with
  | param ht name => exact ⟨scalar_of_typeToken ht, hts.tail.name⟩

theorem printable_of_moreParams {params : List Param} (h : MoreParams ts params)
    (hts : PrintableTokens ts) : ∀ param ∈ params, PrintableParam param := by
  induction h with
  | nil => exact fun param hparam ↦ absurd hparam List.not_mem_nil
  | cons h hs ih =>
    exact List.forall_mem_cons.mpr ⟨printable_of_paramDerives h hts.tail.left, ih hts.tail.right⟩

theorem printable_of_functionDerives {function : Function} (h : FunctionDerives ts function)
    (hts : PrintableTokens ts) : PrintableFunction function := by
  cases h with
  | function name hp hb =>
    have hparams := hts.tail.tail.tail.left
    refine ⟨hts.tail.name, ?_, printable_of_blockDerives hb hts.tail.tail.tail.right.tail⟩
    cases hp with
    | none => exact fun param hparam ↦ absurd hparam List.not_mem_nil
    | params h hs =>
      exact List.forall_mem_cons.mpr ⟨printable_of_paramDerives h hparams.left,
        printable_of_moreParams hs hparams.right⟩

theorem printable_of_programDerives {program : Program} (h : ProgramDerives ts program)
    (hts : PrintableTokens ts) : PrintableProgram program := by
  induction h with
  | nil =>
    exact ⟨fun g hg ↦ absurd hg List.not_mem_nil, fun f hf ↦ absurd hf List.not_mem_nil⟩
  | globalDecl h hs ih =>
    obtain ⟨hglobals, hfunctions⟩ := ih hts.right
    cases h with
    | globalDecl ht name h =>
      exact ⟨List.forall_mem_cons.mpr ⟨printable_of_declarator ht h hts.left, hglobals⟩, hfunctions⟩
  | function h hs ih =>
    obtain ⟨hglobals, hfunctions⟩ := ih hts.right
    exact ⟨hglobals,
      List.forall_mem_cons.mpr ⟨printable_of_functionDerives h hts.left, hfunctions⟩⟩

/-! ## Positions do not matter -/

mutual

theorem printableExpr_eraseSpans : (e : Expr) → (PrintableExpr e.eraseSpans ↔ PrintableExpr e)
  | .intLiteral .. => Iff.rfl
  | .boolLiteral .. => Iff.rfl
  | .identifier .. => Iff.rfl
  | .binary _ left right _ =>
    and_congr (printableExpr_eraseSpans left) (printableExpr_eraseSpans right)
  | .unary _ operand _ => printableExpr_eraseSpans operand
  | .call _ args _ => and_congr_right' (printableExprs_eraseSpans args)
  | .arrayIndex _ index _ => and_congr_right' (printableExpr_eraseSpans index)
termination_by structural e => e

theorem printableExprs_eraseSpans : (es : List Expr) →
    (PrintableExprs (eraseSpansList es) ↔ PrintableExprs es)
  | [] => Iff.rfl
  | e :: es => and_congr (printableExpr_eraseSpans e) (printableExprs_eraseSpans es)
termination_by structural es => es

end

theorem printableDecl_eraseSpans {t : Ty} {name : String} {init : Option Expr}
    {size : Option Int32} :
    PrintableDecl t name (init.map Expr.eraseSpans) size ↔ PrintableDecl t name init size := by
  constructor
  · rintro ⟨⟨hscalar, hplain⟩, hname, hinit, hsize⟩
    refine ⟨⟨hscalar, fun hsome ↦ Option.map_eq_none_iff.mp (hplain hsome)⟩, hname, fun e he ↦ ?_,
      hsize⟩
    exact (printableExpr_eraseSpans e).mp (hinit _ (Option.mem_map_of_mem _ he))
  · rintro ⟨⟨hscalar, hplain⟩, hname, hinit, hsize⟩
    refine ⟨⟨hscalar, fun hsome ↦ Option.map_eq_none_iff.mpr (hplain hsome)⟩, hname, fun e he ↦ ?_,
      hsize⟩
    obtain ⟨e', he', rfl⟩ := Option.mem_map.mp he
    exact (printableExpr_eraseSpans e').mpr (hinit e' he')

mutual

theorem printableStmt_eraseSpans : (stmt : Stmt) →
    (PrintableStmt stmt.eraseSpans ↔ PrintableStmt stmt)
  | .varDecl .. => printableDecl_eraseSpans
  | .assign _ none value _ => and_congr_right' (printableExpr_eraseSpans value)
  | .assign _ (some index) value _ =>
    and_congr_right' (and_congr (printableExpr_eraseSpans index) (printableExpr_eraseSpans value))
  | .ifStmt condition thenBody none _ =>
    and_congr (printableExpr_eraseSpans condition) (printableStmts_eraseSpans thenBody)
  | .ifStmt condition thenBody (some elseBody) _ =>
    and_congr (printableExpr_eraseSpans condition)
      (and_congr (printableStmts_eraseSpans thenBody) (printableStmts_eraseSpans elseBody))
  | .whileStmt condition body _ =>
    and_congr (printableExpr_eraseSpans condition) (printableStmts_eraseSpans body)
  | .returnStmt value _ => printableExpr_eraseSpans value
  | .print value _ => printableExpr_eraseSpans value
  | .exprStmt expr _ => printableExpr_eraseSpans expr
termination_by structural stmt => stmt

theorem printableStmts_eraseSpans : (stmts : List Stmt) →
    (PrintableStmts (eraseSpansStmts stmts) ↔ PrintableStmts stmts)
  | [] => Iff.rfl
  | stmt :: stmts => and_congr (printableStmt_eraseSpans stmt) (printableStmts_eraseSpans stmts)
termination_by structural stmts => stmts

end

theorem printableFunction_eraseSpans {function : Function} :
    PrintableFunction function.eraseSpans ↔ PrintableFunction function := by
  constructor
  · rintro ⟨hname, hparams, hbody⟩
    refine ⟨hname, fun param hparam ↦ ?_, (printableStmts_eraseSpans _).mp hbody⟩
    obtain ⟨hscalar, hname⟩ := hparams _ (List.mem_map_of_mem hparam)
    exact ⟨hscalar, hname⟩
  · rintro ⟨hname, hparams, hbody⟩
    refine ⟨hname, fun param hparam ↦ ?_, (printableStmts_eraseSpans _).mpr hbody⟩
    obtain ⟨param', hparam', rfl⟩ := List.mem_map.mp hparam
    obtain ⟨hscalar, hname⟩ := hparams param' hparam'
    exact ⟨hscalar, hname⟩

theorem printableProgram_eraseSpans {program : Program} :
    PrintableProgram program.eraseSpans ↔ PrintableProgram program := by
  constructor
  · intro h
    exact ⟨fun g hg ↦ printableDecl_eraseSpans.mp (h.globals _ (List.mem_map_of_mem hg)),
      fun f hf ↦ printableFunction_eraseSpans.mp (h.functions _ (List.mem_map_of_mem hf))⟩
  · intro h
    refine ⟨fun g hg ↦ ?_, fun f hf ↦ ?_⟩
    · obtain ⟨g', hg', rfl⟩ := List.mem_map.mp hg
      exact printableDecl_eraseSpans.mpr (h.globals g' hg')
    · obtain ⟨f', hf', rfl⟩ := List.mem_map.mp hf
      exact printableFunction_eraseSpans.mpr (h.functions f' hf')

/-- What the parser makes of a source text can be printed. -/
theorem printable_of_parsed {source : List UInt8} {program : Program} (h : Parsed source program)
    (hliterals : LiteralsBelow source (2 ^ 31)) : PrintableProgram program := by
  have htokens := tokenize_eofEnded source
  obtain ⟨ts, hts, -⟩ := Parser.kinds_of_eofEnded htokens
  refine printableProgram_eraseSpans.mp
    (printable_of_programDerives (Parser.derives_of_parse htokens hts h) fun kind hkind ↦ ?_)
  have hmem : kind ∈ (tokenize source).map Token.kind := by
    rw [hts]
    exact List.mem_append_left _ hkind
  obtain ⟨token, htoken, rfl⟩ := List.mem_map.mp hmem
  exact printableToken_loop hliterals token htoken

/-- **The round trip.** -/
theorem parsed_emitProgram {source : List UInt8} {program : Program} (h : Parsed source program)
    (hliterals : LiteralsBelow source (2 ^ 31)) :
    ∃ program', Parsed (utf8Bytes (emitProgram program)) program' ∧
      program'.eraseSpans = program.eraseSpans :=
  parse_emitProgram (printable_of_parsed h hliterals)

/-- `func main() { int x[2]; x[0] = 7; return x[0]; }` -/
theorem parsed_emitProgram_sample :
    ∃ program', Parsed (utf8Bytes (emitProgram sampleProgram)) program' ∧
      program'.eraseSpans = sampleProgram.eraseSpans := by
  refine parsed_emitProgram sample_parsed ?_
  rw [LiteralsBelow]
  decide +kernel

end Fuzz

end MiniLang
