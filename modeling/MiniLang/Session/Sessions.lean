import MiniLang.Session.Repl
import MiniLang.Syntax.Joined

/-!
# The text of a session

Whatever is entered, the accumulated text is a program, and so is the text with a `main` behind it.
A definition adds what it declares on its own, no more and no less.

## The construction

The session appends texts and parses them anew, so that everything rests on the tokens of joined
texts: `Lines` are texts that end with a line break, whose tokens do not depend on what follows. The
tokens of the accumulated text, of the input and of the synthetic `main` therefore stand one after
the other, and an accepted input has derived all of them at once.

## The invariant

`Inv` says that the two halves of the text declare programs. An accepted function is cut off before
its `func`, which stands nowhere inside a declaration; of an accepted global only the end is known,
and there the parser decides: it reads the earlier definitions the way it read them before
(`programDerives_cancel`), so that the rest is what the input declares.
-/

namespace MiniLang

open Lexer Grammar

namespace Repl

variable {repl : Repl} {s t : List UInt8} {ts us : List TokenKind} {input : String}

/-! ## Lines -/

/-- The tokens of `s`, which ends with a line break, in front of any text. -/
def Lines (s : List UInt8) (ts : List TokenKind) : Prop :=
  ∀ t kinds, Lexes t kinds → Lexes (s ++ t) (ts ++ kinds)

theorem lines_nil : Lines [] [] := fun _ _ h ↦ h

theorem Lines.newline (h : Lines s ts) : Lines (s ++ [byte '\n']) ts := by
  intro t kinds ht
  rw [List.append_assoc]
  exact h _ _ (ht.blank (byte '\n') (by decide))

theorem Lines.append (hs : Lines s ts) (ht : Lines t us) : Lines (s ++ t) (ts ++ us) := by
  intro v kinds hv
  rw [List.append_assoc, List.append_assoc]
  exact hs _ _ (ht _ _ hv)

theorem Lines.line (h : Lines s ts) (ht : Sentence t us) :
    Lines (s ++ t ++ [byte '\n']) (ts ++ us) := by
  intro v kinds hv
  rw [List.append_assoc, List.append_assoc, List.append_assoc]
  exact h _ _ (ht.joined v kinds hv)

theorem Lines.last (h : Lines s ts) (ht : Sentence t us) : Lexes (s ++ t) (ts ++ us ++ [.eof]) := by
  rw [List.append_assoc]
  exact h _ _ ht.alone

theorem utf8Bytes_newline : utf8Bytes "\n" = [byte '\n'] := by decide

/-! ## First words -/

/-- A byte that the lexer skips or takes as an error. -/
def isStray (b : UInt8) : Bool :=
  isWhitespace b || !isIdentifierChar b &&
    !("+-*/<>!=()\x7b\x7d[];,&|".toList.map byte).contains b

theorem stray_of_isWhiteSpace {c : Char} (h : isWhiteSpace c = true) :
    ∀ b ∈ String.utf8EncodeChar c, isStray b = true := by
  have hall : whiteSpace.all (fun n ↦ (String.utf8EncodeChar (Char.ofNat n)).all isStray) = true := by
    decide
  have hc := List.all_eq_true.mp hall c.toNat (List.contains_iff_mem.mp h)
  rw [Char.ofNat_toNat] at hc
  exact List.all_eq_true.mp hc

/-- A stray byte that is no blank is an error on its own. -/
theorem sentence_strayByte (h : Sentence s ts) {b : UInt8} (hstray : isStray b = true)
    (hblank : isWhitespace b = false) : ∃ message, Sentence (b :: s) (.error message :: ts) := by
  rw [isStray, hblank, Bool.false_or, Bool.and_eq_true, Bool.not_eq_true', Bool.not_eq_true'] at hstray
  obtain ⟨hident, hsymbols⟩ := hstray
  have hne (c : Char) (hc : c ∈ "+-*/<>!=()\x7b\x7d[];,&|".toList) : b ≠ byte c := by
    rintro rfl
    rw [List.contains_iff_mem.mpr (List.mem_map_of_mem hc)] at hsymbols
    cases hsymbols
  have htoken : singleCharToken b = .error s!"Unexpected character: {Char.ofUInt8 b}" := by
    simp only [singleCharToken, if_neg (hne '+' (by decide)), if_neg (hne '-' (by decide)),
      if_neg (hne '*' (by decide)), if_neg (hne '/' (by decide)), if_neg (hne '<' (by decide)),
      if_neg (hne '>' (by decide)), if_neg (hne '!' (by decide)), if_neg (hne '=' (by decide)),
      if_neg (hne '(' (by decide)), if_neg (hne ')' (by decide)), if_neg (hne '\x7b' (by decide)),
      if_neg (hne '\x7d' (by decide)), if_neg (hne '[' (by decide)), if_neg (hne ']' (by decide)),
      if_neg (hne ';' (by decide)), if_neg (hne ',' (by decide))]
  have hpair (next : UInt8) : twoCharOperator b next = none := by
    simp [twoCharOperator, hne '=' (by decide), hne '!' (by decide), hne '<' (by decide),
      hne '>' (by decide), hne '&' (by decide), hne '|' (by decide)]
  refine ⟨s!"Unexpected character: {Char.ofUInt8 b}", ?_⟩
  rw [← htoken]
  refine h.prepend [b] [singleCharToken b] (fun _ ↦ True) (fun _ _ ↦ trivial) trivial ?_
  intro t kinds _ ht
  refine ht.symbol b ⟨hident, hblank⟩ (fun hslash ↦ hne '/' (by decide) hslash.1) ?_
  cases t.head? with
  | none => rfl
  | some next => exact hpair next

/-- Stray bytes are blanks and errors. -/
theorem sentence_stray (h : Sentence s ts) {word : List UInt8} (hword : ∀ b ∈ word, isStray b = true) :
    ∃ errors, (∀ k ∈ errors, ∃ message, k = .error message) ∧ Sentence (word ++ s) (errors ++ ts) := by
  induction word with
  | nil => exact ⟨[], List.forall_mem_nil _, h⟩
  | cons b word ih =>
    obtain ⟨hb, hword⟩ := List.forall_mem_cons.mp hword
    obtain ⟨errors, herrors, hsentence⟩ := ih hword
    cases hblank : isWhitespace b with
    | true => exact ⟨errors, herrors, hsentence.blank hblank⟩
    | false =>
      obtain ⟨message, hbyte⟩ := sentence_strayByte hsentence hb hblank
      exact ⟨.error message :: errors, List.forall_mem_cons.mpr ⟨⟨message, rfl⟩, herrors⟩, hbyte⟩

/-- The tokens of an input that starts with the word `func`. -/
theorem sentence_func (h : startsWithWord input "func " = true) :
    ∃ errors us, (∀ k ∈ errors, ∃ message, k = .error message) ∧
      Sentence (utf8Bytes input) (errors ++ .kwFunc :: us) := by
  obtain ⟨rest, hrest⟩ := List.isPrefixOf_iff_prefix.mp h
  obtain ⟨us, hus⟩ := exists_sentence (rest.flatMap String.utf8EncodeChar)
  have hword : Sentence (utf8Bytes "func " ++ rest.flatMap String.utf8EncodeChar)
      (.kwFunc :: us) := by
    have hspace : Sentence (byte ' ' :: rest.flatMap String.utf8EncodeChar) us :=
      hus.blank (by decide)
    refine hspace.prepend (asciiBytes "func") [.kwFunc] (isIdentifierChar · = false) ?_
      (by decide) ?_
    · intro c hc
      rw [← Option.some_inj.mp hc]
      decide
    · intro t kinds hclosed ht
      have hchars : (byte 'f' :: asciiBytes "unc").all isIdentifierChar = true := by decide
      exact ht.identifier (List.all_eq_true.mp hchars) (by decide) hclosed
  have hbytes : utf8Bytes input =
      (input.toList.takeWhile isWhiteSpace).flatMap String.utf8EncodeChar ++
        (utf8Bytes "func " ++ rest.flatMap String.utf8EncodeChar) := by
    rw [utf8Bytes, utf8Bytes, ← List.flatMap_append, hrest, ← List.flatMap_append,
      List.takeWhile_append_dropWhile]
  have hblank : ∀ b ∈ (input.toList.takeWhile isWhiteSpace).flatMap String.utf8EncodeChar,
      isStray b = true := by
    intro b hb
    obtain ⟨c, hc, hb⟩ := List.mem_flatMap.mp hb
    exact stray_of_isWhiteSpace (List.all_eq_true.mp List.all_takeWhile c hc) b hb
  obtain ⟨errors, herrors, hsentence⟩ := sentence_stray hword hblank
  rw [← hbytes] at hsentence
  exact ⟨errors, us, herrors, hsentence⟩

/-! ## The accumulated text -/

/-- A text of whole lines that is a program. -/
def Declares (source : String) (p : Program) : Prop :=
  ∃ ts, Lines (utf8Bytes source) ts ∧ ProgramDerives ts p

theorem declares_empty : Declares "" ⟨[], []⟩ := ⟨[], lines_nil, .nil⟩

/-- Both parts of the accumulated text are programs. -/
structure Inv (repl : Repl) : Prop where
  globals : ∃ p, Declares repl.globalsSource p
  functions : ∃ p, Declares repl.functionsSource p

/-- The tokens of a source that parses, but for the last, are a sentence. -/
theorem derives_of_lexes {source : List UInt8} {p : Program} (hlexes : Lexes source (ts ++ [.eof]))
    (hparse : Parser.parse (tokenize source) = .ok p) : ProgramDerives ts p.eraseSpans :=
  Parser.derives_of_parse (tokenize_eofEnded source) (tokenize_kinds hlexes) hparse

theorem error_not_mem {p : Program} (h : ProgramDerives ts p) (message : String) :
    .error message ∉ ts := by
  have hinner {us : List TokenKind} (hus : Inner us) : .error message ∉ us := fun hmem ↦ by
    cases List.all_eq_true.mp hus _ hmem
  induction h with
  | nil => exact List.not_mem_nil
  | globalDecl hg _ ih =>
    intro hmem
    rcases List.mem_append.mp hmem with hmem | hmem
    · exact hinner (inner_of_globalDerives hg) hmem
    · exact ih hmem
  | function hf _ ih =>
    obtain ⟨us, rfl, hus⟩ := inner_of_functionDerives hf
    intro hmem
    rcases List.mem_append.mp hmem with hmem | hmem
    · rcases List.mem_cons.mp hmem with heq | hmem
      · cases heq
      · exact hinner hus hmem
    · exact ih hmem

/-- The tokens of a source: those of the accumulated text and those of the last line. -/
theorem lexes_source {gs fs : List TokenKind} (hg : Lines (utf8Bytes repl.globalsSource) gs)
    (hf : Lines (utf8Bytes repl.functionsSource) fs) {text : String}
    (ht : Sentence (utf8Bytes text) ts) :
    Lexes (utf8Bytes (repl.source text)) (gs ++ fs ++ ts ++ [.eof]) := by
  rw [source]
  simp only [utf8Bytes_append, utf8Bytes_newline]
  rw [List.append_assoc (utf8Bytes repl.globalsSource ++ [byte '\n'])]
  exact (hg.newline.append hf.newline).last ht

/-! ### Texts of their own -/

/-- What a text declares on its own, without positions. -/
def Reads (text : String) (p : Program) : Prop :=
  ∃ q, Parsed (utf8Bytes text) q ∧ q.eraseSpans = p

theorem reads_of_lexes {text : String} {p : Program} (hlexes : Lexes (utf8Bytes text) (ts ++ [.eof]))
    (h : ProgramDerives ts p) : Reads text p :=
  Parser.parse_of_derives (tokenize_kinds hlexes) h

theorem Declares.reads {source : String} {p : Program} (h : Declares source p) : Reads source p := by
  obtain ⟨ts, hlines, hp⟩ := h
  have hlexes := hlines [] [.eof] lexes_nil
  rw [List.append_nil] at hlexes
  exact reads_of_lexes hlexes hp

/-- A line behind a text of whole lines. -/
theorem Declares.line {source text : String} {p d : Program} (h : Declares source p)
    (ht : Sentence (utf8Bytes text) ts) (hd : ProgramDerives ts d) :
    Declares (source ++ text ++ "\n") (Program.join p d) := by
  obtain ⟨us, hlines, hp⟩ := h
  refine ⟨us ++ ts, ?_, hp.join hd⟩
  rw [utf8Bytes_append, utf8Bytes_append, utf8Bytes_newline]
  exact hlines.line ht

/-- Two ways to read the same tokens are one. -/
theorem accepts_unique {α β : Type} {p : Parser.ParserM α} {erase : α → β}
    {ts ts' rest rest' : List TokenKind} {b b' : β} (h : Parser.Accepts p erase ts rest b)
    (h' : Parser.Accepts p erase ts' rest' b') (heq : ts ++ rest = ts' ++ rest') :
    ts = ts' ∧ rest = rest' ∧ b = b' := by
  have hkinds : ((ts ++ rest).map fun kind ↦ (⟨kind, .default⟩ : Token)).map Token.kind =
      ts ++ rest := by
    rw [List.map_map]
    exact List.map_id _
  obtain ⟨a, s, hrun, hrest, rfl⟩ := h _ hkinds
  obtain ⟨a', s', hrun', hrest', rfl⟩ := h' _ (hkinds.trans heq)
  cases hrun.symm.trans hrun'
  obtain rfl : rest = rest' := hrest.symm.trans hrest'
  exact ⟨List.append_cancel_right heq, rfl, rfl⟩

theorem head_of_globalDerives {g : GlobalVar} (h : GlobalDerives ts g) : ts.head? ≠ some .kwFunc := by
  cases h with
  | globalDecl ht => cases ht <;> exact nofun

theorem head_of_functionDerives {f : Function} (h : FunctionDerives ts f) :
    ts.head? = some .kwFunc := by
  cases h with
  | function => rfl

/-- A global and a function never start alike. -/
theorem globalDerives_ne {g : GlobalVar} {f : Function} {rest rest' : List TokenKind}
    (hg : GlobalDerives ts g) (hf : FunctionDerives us f) : ts ++ rest ≠ us ++ rest' := by
  intro heq
  have hhead := congrArg List.head? heq
  rw [List.head?_append_of_ne_nil _ (Parser.globalDerives_ne_nil hg),
    List.head?_append_of_ne_nil _ (Parser.functionDerives_ne_nil hf),
    head_of_functionDerives hf] at hhead
  exact head_of_globalDerives hg hhead

theorem Program.join_assoc (p q r : Program) :
    Program.join (Program.join p q) r = Program.join p (Program.join q r) := by
  rw [Program.join, Program.join, Program.join, Program.join, List.append_assoc, List.append_assoc]

/-- Behind the tokens of a program, a program goes on with the tokens of another. -/
theorem programDerives_cancel {p q : Program} (hp : ProgramDerives ts p)
    (hq : ProgramDerives (ts ++ us) q) : ∃ d, ProgramDerives us d ∧ q = Program.join p d := by
  induction hp generalizing q with
  | nil => exact ⟨q, hq, rfl⟩
  | @globalDecl vs ws g p hg hs ih =>
    rw [List.append_assoc] at hq
    generalize hall : vs ++ (ws ++ us) = all at hq
    cases hq with
    | nil => exact absurd (List.append_eq_nil_iff.mp hall).1 (Parser.globalDerives_ne_nil hg)
    | @globalDecl vs' ws' g' q' hg' hs' =>
      have hfuel : vs.length ≤ vs.length + vs'.length := Nat.le_add_right _ _
      have hfuel' : vs'.length ≤ vs.length + vs'.length := Nat.le_add_left _ _
      obtain ⟨rfl, rfl, rfl⟩ := accepts_unique (Parser.parseGlobal_accepts hg hfuel)
        (Parser.parseGlobal_accepts hg' hfuel') hall
      obtain ⟨d, hd, rfl⟩ := ih hs'
      exact ⟨d, hd, rfl⟩
    | function hf' hs' => exact absurd hall (globalDerives_ne hg hf')
  | @function vs ws f p hf hs ih =>
    rw [List.append_assoc] at hq
    generalize hall : vs ++ (ws ++ us) = all at hq
    cases hq with
    | nil => exact absurd (List.append_eq_nil_iff.mp hall).1 (Parser.functionDerives_ne_nil hf)
    | globalDecl hg' hs' => exact absurd hall.symm (globalDerives_ne hg' hf)
    | @function vs' ws' f' q' hf' hs' =>
      have hfuel : vs.length ≤ vs.length + vs'.length := Nat.le_add_right _ _
      have hfuel' : vs'.length ≤ vs.length + vs'.length := Nat.le_add_left _ _
      obtain ⟨rfl, rfl, rfl⟩ := accepts_unique (Parser.parseFunction_accepts hf hfuel)
        (Parser.parseFunction_accepts hf' hfuel') hall
      obtain ⟨d, hd, rfl⟩ := ih hs'
      exact ⟨d, hd, rfl⟩

/-! ## Accepted inputs -/

/-- The text that a definition adds: a global gets the semicolon it lacks. -/
def added (input : String) : String :=
  if startsWithWord input "func " then input
  else if input.toList.getLast? = some ';' then input
  else input ++ ";"

/-- The definitions of a session with those of an input, in the order of the source. -/
def joined (input : String) (globals functions new : Program) : Program :=
  if startsWithWord input "func " then Program.join (Program.join globals functions) new
  else Program.join (Program.join globals new) functions

/-- What an accepted function adds. -/
theorem addFunction_declares {pg pf : Program} (hg : Declares repl.globalsSource pg)
    (hf : Declares repl.functionsSource pf) (hfunc : startsWithWord input "func " = true)
    (hok : (repl.addFunction input).1 = .ok ()) : ∃ d, Reads input d ∧
      Declares (repl.addFunction input).2.globalsSource pg ∧
      Declares (repl.addFunction input).2.functionsSource (Program.join pf d) := by
  obtain ⟨gs, hgs, hpg⟩ := hg
  obtain ⟨fs, hfs, hpf⟩ := hf
  obtain ⟨errors, us, herrors, hsentence⟩ := sentence_func hfunc
  unfold addFunction at hok ⊢
  cases hparse : Parser.parse (tokenize (utf8Bytes (repl.source input))) with
  | error e =>
    rw [hparse] at hok
    cases hok
  | ok p =>
    have hderives := derives_of_lexes (lexes_source hgs hfs hsentence) hparse
    obtain rfl : errors = [] := by
      refine List.eq_nil_iff_forall_not_mem.mpr fun k hk ↦ ?_
      obtain ⟨message, rfl⟩ := herrors k hk
      refine error_not_mem hderives message ?_
      exact List.mem_append_right _ (List.mem_append_left _ hk)
    obtain ⟨-, d, -, hd, -⟩ := hderives.cut
    exact ⟨d, reads_of_lexes hsentence.alone hd, ⟨gs, hgs, hpg⟩,
      Declares.line ⟨fs, hfs, hpf⟩ hsentence hd⟩

/-! ## The synthetic function -/

def syntheticMain : Function := ⟨"main", [], [.returnStmt (.intLiteral 0 .default) .default], .default⟩

/-- The tokens of `func main() { return 0; }`, after the first. -/
def syntheticTokens : List TokenKind :=
  [.identifier "main", .lParen, .rParen, .lBrace, .kwReturn, .intLiteral 0, .semicolon, .rBrace]

theorem sentence_main :
    Sentence (utf8Bytes "func main() \x7b return 0; \x7d") (.kwFunc :: syntheticTokens) := by
  obtain ⟨ts, hts⟩ := exists_sentence (utf8Bytes "func main() \x7b return 0; \x7d")
  have hkinds : ts ++ [.eof] = (.kwFunc :: syntheticTokens) ++ [.eof] := by
    rw [← tokenize_kinds hts.alone]
    decide +kernel
  rw [List.append_cancel_right hkinds] at hts
  exact hts

theorem derives_main : ProgramDerives (.kwFunc :: syntheticTokens) ⟨[], [syntheticMain]⟩ := by
  have htokens : tokenize (utf8Bytes "func main() \x7b return 0; \x7d") =
      [⟨.kwFunc, ⟨1, 1⟩⟩, ⟨.identifier "main", ⟨1, 6⟩⟩, ⟨.lParen, ⟨1, 10⟩⟩, ⟨.rParen, ⟨1, 11⟩⟩,
        ⟨.lBrace, ⟨1, 13⟩⟩, ⟨.kwReturn, ⟨1, 15⟩⟩, ⟨.intLiteral 0, ⟨1, 22⟩⟩, ⟨.semicolon, ⟨1, 23⟩⟩,
        ⟨.rBrace, ⟨1, 25⟩⟩, ⟨.eof, ⟨1, 26⟩⟩] := by
    decide +kernel
  have hparse : Parser.parse (tokenize (utf8Bytes "func main() \x7b return 0; \x7d")) =
      .ok ⟨[], [⟨"main", [], [.returnStmt (.intLiteral 0 ⟨1, 22⟩) ⟨1, 15⟩], ⟨1, 1⟩⟩]⟩ := by
    rw [htokens]
    rfl
  exact derives_of_lexes sentence_main.alone hparse

/-- What an accepted global adds. -/
theorem addGlobal_declares {pg : Program} (hg : Declares repl.globalsSource pg)
    (hfunc : ¬startsWithWord input "func " = true) (hok : (repl.addGlobal input).1 = .ok ()) :
    ∃ d, Reads (added input) d ∧
      Declares (repl.addGlobal input).2.globalsSource (Program.join pg d) ∧
      (repl.addGlobal input).2.functionsSource = repl.functionsSource := by
  obtain ⟨gs, hgs, hpg⟩ := hg
  rw [added, if_neg hfunc]
  unfold addGlobal at hok ⊢
  dsimp only at hok ⊢
  generalize (if input.toList.getLast? = some ';' then input else input ++ ";") = line at hok ⊢
  obtain ⟨us, hline⟩ := exists_sentence (utf8Bytes line)
  have hbytes : utf8Bytes (repl.globalsSource ++ "\n" ++ line ++
      "\nfunc main() \x7b return 0; \x7d") = utf8Bytes repl.globalsSource ++ [byte '\n'] ++
        (utf8Bytes line ++ byte '\n' :: utf8Bytes "func main() \x7b return 0; \x7d") := by
    have hmain : utf8Bytes "\nfunc main() \x7b return 0; \x7d" =
        byte '\n' :: utf8Bytes "func main() \x7b return 0; \x7d" := by
      decide
    rw [utf8Bytes_append, utf8Bytes_append, utf8Bytes_append, hmain, utf8Bytes_newline,
      List.append_assoc (utf8Bytes repl.globalsSource ++ [byte '\n'])]
  have hlexes : Lexes (utf8Bytes (repl.globalsSource ++ "\n" ++ line ++
      "\nfunc main() \x7b return 0; \x7d")) (gs ++ us ++ .kwFunc :: syntheticTokens ++ [.eof]) := by
    rw [hbytes, List.append_assoc gs, List.append_assoc gs, List.append_assoc us]
    exact hgs.newline _ _ (hline.joined _ _ sentence_main.alone)
  cases hparse : Parser.parse (tokenize (utf8Bytes (repl.globalsSource ++ "\n" ++ line ++
      "\nfunc main() \x7b return 0; \x7d"))) with
  | error e =>
    rw [hparse] at hok
    cases hok
  | ok p =>
    -- the parser has read the earlier globals as before, so the rest is the line
    obtain ⟨p₁, -, hp₁, -, -⟩ := (derives_of_lexes hlexes hparse).cut
    obtain ⟨d, hd, -⟩ := programDerives_cancel hpg hp₁
    exact ⟨d, reads_of_lexes hline.alone hd, Declares.line ⟨gs, hgs, hpg⟩ hline hd, rfl⟩

theorem evalExpression_snd (repl : Repl) (expr : String) : (repl.evalExpression expr).2 = repl := by
  unfold evalExpression
  dsimp only
  split
  · rfl
  · split <;> rfl

/-- A refused input leaves the session as it is. -/
theorem handleInput_error (hok : (repl.handleInput input).1 ≠ .ok ()) :
    (repl.handleInput input).2 = repl := by
  rw [handleInput] at hok ⊢
  split at hok
  case isTrue hfunc =>
    rw [if_pos hfunc]
    unfold addFunction at hok ⊢
    split at hok
    case h_1 hparse => rfl
    case h_2 => exact absurd rfl hok
  case isFalse hfunc =>
    rw [if_neg hfunc]
    split at hok
    case isTrue hglobal =>
      rw [if_pos hglobal]
      unfold addGlobal at hok ⊢
      dsimp only at hok ⊢
      split at hok
      case h_1 hparse => rfl
      case h_2 => exact absurd rfl hok
    case isFalse hglobal =>
      rw [if_neg hglobal]
      exact evalExpression_snd repl input

/-- What an accepted definition adds. -/
theorem handleInput_declares {pg pf : Program} (hg : Declares repl.globalsSource pg)
    (hf : Declares repl.functionsSource pf) (hdefinition : IsDefinition input)
    (hok : (repl.handleInput input).1 = .ok ()) : ∃ d pg' pf', Reads (added input) d ∧
      Declares (repl.handleInput input).2.globalsSource pg' ∧
      Declares (repl.handleInput input).2.functionsSource pf' ∧
      Program.join pg' pf' = joined input pg pf d := by
  rw [handleInput] at hok ⊢
  by_cases hfunc : startsWithWord input "func " = true
  · rw [if_pos hfunc] at hok ⊢
    obtain ⟨d, hd, hg', hf'⟩ := addFunction_declares hg hf hfunc hok
    refine ⟨d, _, _, ?_, hg', hf', ?_⟩
    · rwa [added, if_pos hfunc]
    · rw [joined, if_pos hfunc, Program.join_assoc]
  · have hglobal : (startsWithWord input "int " || startsWithWord input "bool ") = true :=
      (Bool.or_eq_true _ _).mpr (hdefinition.resolve_left hfunc)
    rw [if_neg hfunc, if_pos hglobal] at hok ⊢
    obtain ⟨d, hd, hg', hsame⟩ := addGlobal_declares hg hfunc hok
    refine ⟨d, _, pf, hd, hg', ?_, ?_⟩
    · rw [hsame]
      exact hf
    · rw [joined, if_neg hfunc]

theorem Inv.handleInput (h : repl.Inv) (input : String) : (repl.handleInput input).2.Inv := by
  by_cases hok : (repl.handleInput input).1 = .ok ()
  · by_cases hdefinition : IsDefinition input
    · obtain ⟨pg, hg⟩ := h.globals
      obtain ⟨pf, hf⟩ := h.functions
      obtain ⟨-, pg', pf', -, hg', hf', -⟩ := handleInput_declares hg hf hdefinition hok
      exact ⟨⟨pg', hg'⟩, ⟨pf', hf'⟩⟩
    · obtain ⟨hfunc, hglobal⟩ := not_or.mp hdefinition
      rw [← Bool.or_eq_true] at hglobal
      rw [Repl.handleInput, if_neg hfunc, if_neg hglobal, evalExpression_snd]
      exact h
  · rw [handleInput_error hok]
    exact h

theorem Reachable.inv (h : Reachable repl) : repl.Inv := by
  induction h with
  | new => exact ⟨⟨_, declares_empty⟩, ⟨_, declares_empty⟩⟩
  | input _ input ih => exact ih.handleInput input
  | clear => exact ⟨⟨_, declares_empty⟩, ⟨_, declares_empty⟩⟩

/-! ## The wrapper -/

/-- The wrapper parses: to the definitions, with the synthetic function as the last one. -/
theorem wrapper_parsed {pg pf : Program} (hg : Declares repl.globalsSource pg)
    (hf : Declares repl.functionsSource pf) : ∃ p, Parsed repl.wrapper p ∧
      p.eraseSpans = Program.join (Program.join pg pf) ⟨[], [syntheticMain]⟩ := by
  obtain ⟨gs, hgs, hpg⟩ := hg
  obtain ⟨fs, hfs, hpf⟩ := hf
  exact Parser.parse_of_derives (tokenize_kinds (lexes_source hgs hfs sentence_main))
    ((hpg.join hpf).join derives_main)

theorem exists_main {p q : Program} (h : p.eraseSpans = Program.join q ⟨[], [syntheticMain]⟩) :
    ∃ functions main, p.functions = functions ++ [main] ∧ main.eraseSpans = syntheticMain := by
  have hfunctions : p.functions.map Function.eraseSpans = q.functions ++ [syntheticMain] :=
    congrArg Program.functions h
  obtain ⟨functions, last, hsplit, -, hlast⟩ := List.map_eq_append_iff.mp hfunctions
  obtain ⟨main, rfl, hmain⟩ := List.map_eq_singleton_iff.mp hlast
  exact ⟨functions, main, hsplit, hmain⟩

end Repl

end MiniLang
