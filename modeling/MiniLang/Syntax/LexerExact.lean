import Mathlib.Data.List.Induction
import Mathlib.Data.List.TakeWhile
import MiniLang.Syntax.Lexing
import MiniLang.Syntax.ParserExact

/-!
# The lexer is exact

The lexical rules are a table of keywords, a table of operators, and what the digits of a number and
the characters of an identifier are. The lexer cuts the bytes of a source into blanks, comments and
the longest lexemes, none left out, and puts every token at the position of its first byte.

## The rules

`TokenAt` is longest match, stated for all texts: a lexeme stands at the front, and no longer one
does. The lexer does not compare lexemes. It looks at one byte, takes a run of digits or of
identifier characters, or tries two bytes for an operator and then one, and it is the tables that
make this the longest match: no operator begins like a number or a word, and each operator of two
bytes begins with one of the first bytes that the lexer tries. These facts about tables are decided
by evaluation; the rest is about runs (`length_le_of_run`).

## The invariant

`Lexer.after before rest` is the lexer between two parts of the source, with its position computed
from the bytes before. Each part of the lexer goes from such a state to another, with more bytes in
`before`, so that nothing is left out by construction and positions need no argument of their own.
The counters of the code have 32 bits and wrap; `Counters` are compared with the position at every
byte, which is right up to the length that they can count.
-/

namespace MiniLang

open Lexer

/-! ## The lexical rules -/

def keywords : List (String × TokenKind) :=
  [("int", .kwInt), ("bool", .kwBool), ("if", .kwIf), ("else", .kwElse), ("while", .kwWhile),
    ("func", .kwFunc), ("return", .kwReturn), ("print", .kwPrint), ("true", .boolLiteral true),
    ("false", .boolLiteral false)]

def operators : List (String × TokenKind) :=
  [("==", .eq), ("!=", .ne), ("<=", .le), (">=", .ge), ("&&", .and), ("||", .or), ("+", .plus),
    ("-", .minus), ("*", .star), ("/", .slash), ("<", .lt), (">", .gt), ("!", .not), ("=", .assign),
    ("(", .lParen), (")", .rParen), ("\x7b", .lBrace), ("\x7d", .rBrace), ("[", .lBracket),
    ("]", .rBracket), (";", .semicolon), (",", .comma)]

/-- The number that decimal digits denote. -/
def numeral (digits : List UInt8) : Nat :=
  digits.foldl (fun value ch ↦ value * 10 + (ch - byte '0').toNat) 0

/-- The texts of tokens. A literal is reduced to 32 bits, with a sign. -/
inductive Lexeme : List UInt8 → TokenKind → Prop
  | number {digits : List UInt8} (hne : digits ≠ []) (h : ∀ ch ∈ digits, isAsciiDigit ch = true) :
      Lexeme digits (.intLiteral (Int32.ofNat (numeral digits)))
  | keyword {word : String} {kind : TokenKind} (h : (word, kind) ∈ keywords) :
      Lexeme (utf8Bytes word) kind
  | identifier {ch : UInt8} {word : List UInt8} (hfirst : isAsciiDigit ch = false)
      (h : ∀ c ∈ ch :: word, isIdentifierChar c = true)
      (hkeyword : ∀ kind, (text (ch :: word), kind) ∉ keywords) :
      Lexeme (ch :: word) (.identifier (text (ch :: word)))
  | operator {op : String} {kind : TokenKind} (h : (op, kind) ∈ operators) :
      Lexeme (utf8Bytes op) kind

/-- The token at the start of a text, and the bytes it takes. -/
inductive TokenAt : List UInt8 → List UInt8 → TokenKind → Prop
  | longest {text word : List UInt8} {kind : TokenKind} (h : Lexeme word kind) (hword : word <+: text)
      (hlongest : ∀ word' kind', Lexeme word' kind' → word' <+: text → word'.length ≤ word.length) :
      TokenAt text word kind
  | unknown {ch : UInt8} {rest : List UInt8}
      (h : ∀ word kind, Lexeme word kind → ¬ word <+: ch :: rest) :
      TokenAt (ch :: rest) [ch] (.error s!"Unexpected character: {Char.ofUInt8 ch}")

/-- Neither a blank nor a comment starts here. -/
def Clear : List UInt8 → Prop
  | [] => True
  | ch :: rest => StartsToken ch rest

/-- All blanks and comments before `rest`; a comment ends before the end of its line or of the
source. -/
inductive Gap : List UInt8 → List UInt8 → Prop
  | done {rest : List UInt8} (h : Clear rest) : Gap [] rest
  | blank {ch : UInt8} {gap rest : List UInt8} (hch : isWhitespace ch = true) (h : Gap gap rest) :
      Gap (ch :: gap) rest
  | comment {body gap rest : List UInt8} (hbody : ∀ ch ∈ body, ch ≠ byte '\n')
      (hend : ∀ ch ∈ (gap ++ rest).head?, ch = byte '\n') (h : Gap gap rest) :
      Gap (byte '/' :: byte '/' :: (body ++ gap)) rest

/-- Line and column, in bytes, of what comes after the bytes `before`. -/
def position (before : List UInt8) : Span :=
  ⟨before.count (byte '\n') + 1, (before.reverse.takeWhile (· != byte '\n')).length + 1⟩

/-- The tokens of the bytes after `before`: every byte is in a gap or in the lexeme of a token, and
every token has the position of its first byte. -/
inductive Tokenizes : List UInt8 → List UInt8 → List Token → Prop
  | eof {before gap : List UInt8} (h : Gap gap []) :
      Tokenizes before gap [⟨.eof, position (before ++ gap)⟩]
  | token {before gap word rest : List UInt8} {kind : TokenKind} {tokens : List Token}
      (hgap : Gap gap (word ++ rest)) (h : TokenAt (word ++ rest) word kind)
      (hrest : Tokenizes (before ++ gap ++ word) rest tokens) :
      Tokenizes before (gap ++ (word ++ rest)) (⟨kind, position (before ++ gap)⟩ :: tokens)

/-! ## Positions -/

theorem position_append (before : List UInt8) (ch : UInt8) : position (before ++ [ch]) =
    if ch = byte '\n' then ⟨(position before).line + 1, 1⟩
    else ⟨(position before).line, (position before).column + 1⟩ := by
  split
  · rename_i h
    rw [position, h, List.count_append, List.count_singleton_self, List.reverse_append,
      List.reverse_singleton, List.singleton_append, List.takeWhile_cons_of_neg (by simp)]
    rfl
  · rename_i h
    rw [position, List.count_append, List.count_singleton, List.reverse_append,
      List.reverse_singleton, List.singleton_append, List.takeWhile_cons_of_pos (by simpa using h),
      if_neg (by simpa using h)]
    rfl

/-- The lexer between the bytes `before` and `rest`. -/
def Lexer.after (before rest : List UInt8) : Lexer :=
  ⟨rest, (position before).line, (position before).column⟩

namespace Lexer

theorem advance_after (before : List UInt8) (ch : UInt8) (rest : List UInt8) :
    advance (after before (ch :: rest)) = after (before ++ [ch]) rest := by
  have hadvance : advance (after before (ch :: rest)) =
      if ch = byte '\n' then ⟨rest, (position before).line + 1, 1⟩
      else ⟨rest, (position before).line, (position before).column + 1⟩ := rfl
  rw [hadvance, after, position_append]
  split <;> rfl

theorem takeWhile_after (p : UInt8 → Bool) (before s : List UInt8) :
    (after before s).takeWhile p =
      (s.takeWhile p, after (before ++ s.takeWhile p) (s.dropWhile p)) := by
  rw [takeWhile]
  induction s generalizing before with
  | nil =>
    rw [List.takeWhile_nil, List.dropWhile_nil, List.append_nil]
    rfl
  | cons ch s ih =>
    have hstep : advance ⟨ch :: s, (position before).line, (position before).column⟩ = _ :=
      advance_after before ch s
    by_cases hch : p ch = true
    · rw [List.takeWhile_cons_of_pos hch, List.dropWhile_cons_of_pos hch]
      have hmore := ih (before ++ [ch])
      simp only [after, advanceWhile, if_pos hch, hstep] at hmore ⊢
      rw [hmore, List.append_assoc, List.singleton_append]
    · rw [List.takeWhile_cons_of_neg hch, List.dropWhile_cons_of_neg hch, List.append_nil]
      simp only [after, advanceWhile, if_neg hch]

/-! ## Gaps -/

theorem head?_dropWhile {p : UInt8 → Bool} {s : List UInt8} {ch : UInt8}
    (h : (s.dropWhile p).head? = some ch) : p ch = false := by
  have hhead := List.head?_dropWhile_not p s
  rw [h] at hhead
  exact hhead

theorem gap_blanks {blanks gap rest : List UInt8} (hblanks : ∀ ch ∈ blanks, isWhitespace ch = true)
    (h : Gap gap rest) : Gap (blanks ++ gap) rest := by
  induction blanks with
  | nil => exact h
  | cons ch blanks ih =>
    obtain ⟨hch, hmore⟩ := List.forall_mem_cons.mp hblanks
    exact .blank hch (ih hmore)

/-- The fuel is more than the bytes that are left. -/
theorem skip_after {fuel : Nat} {before s : List UInt8} (hfuel : s.length < fuel) :
    ∃ gap rest, s = gap ++ rest ∧ Gap gap rest ∧ Clear rest ∧
      skipWhitespaceAndComments fuel (after before s) = after (before ++ gap) rest := by
  induction fuel generalizing before s with
  | zero => exact absurd hfuel (Nat.not_lt_zero _)
  | succ fuel ih =>
    have hblanks : ∀ ch ∈ s.takeWhile isWhitespace, isWhitespace ch = true :=
      fun ch hch ↦ List.mem_takeWhile_imp hch
    have hsplit := @List.takeWhile_append_dropWhile _ isWhitespace s
    rw [skipWhitespaceAndComments, takeWhile_after]
    generalize s.takeWhile isWhitespace = blanks at hblanks hsplit ⊢
    have hfirst (ch : UInt8) (h : (s.dropWhile isWhitespace).head? = some ch) :
        isWhitespace ch = false := head?_dropWhile h
    generalize s.dropWhile isWhitespace = more at hfirst hsplit ⊢
    subst hsplit
    dsimp only
    split
    -- a comment: it runs to the end of its line, and the search goes on behind it
    · rename_i hcomment
      obtain ⟨tail, rfl⟩ : ∃ tail, more = byte '/' :: byte '/' :: tail := by
        obtain ⟨hslash, hnext⟩ := hcomment
        cases more with
        | nil => cases hslash
        | cons ch tail =>
          cases tail with
          | nil => cases hnext
          | cons next tail =>
            obtain rfl := Option.some.inj hslash
            obtain rfl := Option.some.inj hnext
            exact ⟨tail, rfl⟩
      have htake (rest : List UInt8) : (byte '/' :: byte '/' :: rest).takeWhile (· != byte '\n') =
          byte '/' :: byte '/' :: rest.takeWhile (· != byte '\n') := rfl
      have hdrop (rest : List UInt8) : (byte '/' :: byte '/' :: rest).dropWhile (· != byte '\n') =
          rest.dropWhile (· != byte '\n') := rfl
      have hbody : ∀ ch ∈ tail.takeWhile (· != byte '\n'), ch ≠ byte '\n' := by
        intro ch hch
        have hne := List.mem_takeWhile_imp hch
        exact bne_iff_ne.mp hne
      have hend : ∀ ch ∈ (tail.dropWhile (· != byte '\n')).head?, ch = byte '\n' := by
        intro ch hch
        have heq := head?_dropWhile hch
        exact bne_eq_false_iff_eq.mp heq
      have hline := @List.takeWhile_append_dropWhile _ (· != byte '\n') tail
      rw [takeWhile_after, htake, hdrop]
      generalize tail.takeWhile (· != byte '\n') = body at hbody hline ⊢
      generalize tail.dropWhile (· != byte '\n') = more at hend hline ⊢
      subst hline
      obtain ⟨gap, rest, rfl, hgap, hclear, hskip⟩ := @ih
        (before ++ blanks ++ byte '/' :: byte '/' :: body) more (by
          simp only [List.length_append, List.length_cons] at hfuel
          omega)
      refine ⟨blanks ++ byte '/' :: byte '/' :: (body ++ gap), rest, ?_,
        gap_blanks hblanks (.comment hbody hend hgap), hclear, ?_⟩
      · simp only [List.append_assoc, List.cons_append]
      · rw [hskip]
        simp only [List.append_assoc, List.cons_append]
    -- neither a blank nor a comment: the gap ends here
    · rename_i hcomment
      have hclear : Clear more := by
        cases more with
        | nil => trivial
        | cons ch more =>
          refine ⟨hfirst ch rfl, fun h ↦ hcomment ⟨?_, ?_⟩⟩
          · exact congrArg some h.1
          · rw [← h.2, List.head?_eq_getElem?]
            rfl
      have hgap := gap_blanks hblanks (.done hclear)
      rw [List.append_nil] at hgap
      exact ⟨blanks, more, rfl, hgap, hclear, rfl⟩

/-! ## Lexemes -/

theorem digitsValue_eq (digits : List UInt8) : digitsValue digits = Int32.ofNat (numeral digits) := by
  have hfold (n : Nat) :
      digits.foldl (fun value ch ↦ value * 10 + Int32.ofNat (ch - byte '0').toNat) (Int32.ofNat n) =
        Int32.ofNat (digits.foldl (fun value ch ↦ value * 10 + (ch - byte '0').toNat) n) := by
    induction digits generalizing n with
    | nil => rfl
    | cons ch digits ih =>
      rw [List.foldl_cons, List.foldl_cons, ← ih, Int32.ofNat_add, Int32.ofNat_mul]
      rfl
  exact hfold 0

theorem keywordOrIdentifier_cases (word : String) :
    (word, keywordOrIdentifier word) ∈ keywords ∨
      keywordOrIdentifier word = .identifier word ∧ ∀ kind, (word, kind) ∉ keywords := by
  unfold keywordOrIdentifier
  split
  case h_11 =>
    refine .inr ⟨rfl, fun kind h ↦ ?_⟩
    simp only [keywords, List.mem_cons, Prod.mk.injEq, List.not_mem_nil, or_false] at h
    grind
  all_goals exact .inl (by decide)

theorem lexeme_word {ch : UInt8} {word : List UInt8} (hfirst : isAsciiDigit ch = false)
    (h : ∀ c ∈ ch :: word, isIdentifierChar c = true) :
    Lexeme (ch :: word) (keywordOrIdentifier (text (ch :: word))) := by
  obtain hkeyword | ⟨heq, hkeyword⟩ := keywordOrIdentifier_cases (text (ch :: word))
  · have := Lexeme.keyword hkeyword
    rwa [utf8Bytes_text fun c hc ↦ lt_of_isIdentifierChar (h c hc)] at this
  · rw [heq]
    exact .identifier hfirst h hkeyword

/-- The operators are those of the code. -/
structure OperatorByte (ch : UInt8) : Prop where
  digit : isAsciiDigit ch = false
  identifier : isIdentifierChar ch = false

theorem operator_cases : ∀ op ∈ operators,
    (∃ ch, utf8Bytes op.1 = [ch] ∧ singleCharToken ch = op.2 ∧ OperatorByte ch) ∨
      ∃ ch next, utf8Bytes op.1 = [ch, next] ∧ twoCharOperator ch next = some op.2 ∧
        OperatorByte ch := by
  simp only [operators, List.forall_mem_cons]
  repeat' apply And.intro
  all_goals first
    | exact .inl ⟨_, rfl, by decide, by decide, by decide⟩
    | exact .inr ⟨_, _, rfl, by decide, by decide, by decide⟩
    | exact List.forall_mem_nil _

theorem twoCharOperator_mem {ch next : UInt8} {kind : TokenKind}
    (h : twoCharOperator ch next = some kind) :
    ∃ op ∈ operators, utf8Bytes op.1 = [ch, next] ∧ op.2 = kind := by
  unfold twoCharOperator at h
  repeat' split at h
  case isFalse => cases h
  all_goals
    rename_i hbytes
    obtain ⟨rfl, rfl⟩ := hbytes
    obtain rfl := Option.some.inj h
    decide

theorem singleCharToken_cases (ch : UInt8) :
    (∃ op ∈ operators, utf8Bytes op.1 = [ch] ∧ op.2 = singleCharToken ch) ∨
      singleCharToken ch = .error s!"Unexpected character: {Char.ofUInt8 ch}" := by
  generalize hkind : singleCharToken ch = kind
  by_contra hneither
  obtain ⟨hoperator, herror⟩ := not_or.mp hneither
  -- each branch of the code but the last is that of an operator
  have hbranch : ∀ {b : UInt8} {a k : TokenKind},
      (∃ op ∈ operators, utf8Bytes op.1 = [b] ∧ op.2 = a) → k ≠ kind →
      (if ch = b then a else k) ≠ kind := by
    rintro b a k ⟨op, hop, hbytes, rfl⟩ hk
    split
    · next heq => exact fun hcase ↦ hoperator ⟨op, hop, heq ▸ hbytes, hcase⟩
    · exact hk
  refine absurd hkind ?_
  unfold singleCharToken
  repeat' refine hbranch (by decide) ?_
  exact Ne.symm herror

/-- What a lexeme starts with. -/
theorem lexeme_first {word : List UInt8} {kind : TokenKind} (h : Lexeme word kind) :
    ∃ ch rest, word = ch :: rest ∧
      ((isAsciiDigit ch = true ∧ ∀ c ∈ word, isAsciiDigit c = true) ∨
        (isAsciiDigit ch = false ∧ ∀ c ∈ word, isIdentifierChar c = true) ∨
        (∃ op ∈ operators, utf8Bytes op.1 = word) ∧ OperatorByte ch) := by
  cases h with
  | number hne h =>
    obtain ⟨ch, rest, rfl⟩ := List.exists_cons_of_ne_nil hne
    exact ⟨ch, rest, rfl, .inl ⟨h ch List.mem_cons_self, h⟩⟩
  | @keyword word kind h =>
    have hword : ∀ k ∈ keywords, ∃ ch rest, utf8Bytes k.1 = ch :: rest ∧
        isAsciiDigit ch = false ∧ ∀ c ∈ ch :: rest, isIdentifierChar c = true := by
      simp only [keywords, List.forall_mem_cons]
      repeat' apply And.intro
      all_goals first
        | exact ⟨_, _, rfl, by decide, by decide +kernel⟩
        | exact List.forall_mem_nil _
    obtain ⟨ch, rest, hbytes, hdigit, hchars⟩ := hword _ h
    rw [hbytes]
    exact ⟨ch, rest, rfl, .inr (.inl ⟨hdigit, hchars⟩)⟩
  | identifier hfirst h hkeyword => exact ⟨_, _, rfl, .inr (.inl ⟨hfirst, h⟩)⟩
  | @operator op kind h =>
    obtain ⟨ch, hbytes, -, hch⟩ | ⟨ch, next, hbytes, -, hch⟩ := operator_cases _ h
    · exact ⟨ch, [], hbytes, .inr (.inr ⟨⟨_, h, rfl⟩, hch⟩)⟩
    · exact ⟨ch, [next], hbytes, .inr (.inr ⟨⟨_, h, rfl⟩, hch⟩)⟩

/-- A run of bytes is as long as it can be. -/
theorem length_le_of_run {p : UInt8 → Bool} {run rest word : List UInt8}
    (hrest : ∀ ch ∈ rest.head?, p ch = false) (hword : ∀ ch ∈ word, p ch = true)
    (h : word <+: run ++ rest) : word.length ≤ run.length := by
  induction run generalizing word with
  | nil =>
    obtain ⟨more, hmore⟩ := h
    cases word with
    | nil => exact Nat.le_refl _
    | cons ch word =>
      rw [List.nil_append] at hmore
      have hch := hrest ch (hmore ▸ rfl)
      rw [hword ch List.mem_cons_self] at hch
      exact absurd hch (by decide)
  | cons c run ih =>
    cases word with
    | nil => exact Nat.zero_le _
    | cons ch word =>
      rw [List.cons_append, List.cons_prefix_cons] at h
      exact Nat.succ_le_succ (ih (List.forall_mem_cons.mp hword).2 h.2)

theorem head_eq_of_starts {ch c : UInt8} {word rest : List UInt8} (h : c :: word <+: ch :: rest) :
    c = ch :=
  (List.cons_prefix_cons.mp h).1

theorem tokenAt_number {ch : UInt8} {digits rest : List UInt8}
    (h : ∀ c ∈ ch :: digits, isAsciiDigit c = true)
    (hrest : ∀ c ∈ rest.head?, isAsciiDigit c = false) :
    TokenAt (ch :: digits ++ rest) (ch :: digits) (.intLiteral (digitsValue (ch :: digits))) := by
  rw [digitsValue_eq]
  refine .longest (.number (List.cons_ne_nil _ _) h) (List.prefix_append _ _) fun word kind hword hstart ↦ ?_
  obtain ⟨c, more, rfl, ⟨-, hdigits⟩ | ⟨hc, -⟩ | ⟨-, hc⟩⟩ := lexeme_first hword
  · exact length_le_of_run hrest hdigits hstart
  · obtain rfl := head_eq_of_starts hstart
    rw [h c List.mem_cons_self] at hc
    exact absurd hc (by decide)
  · obtain rfl := head_eq_of_starts hstart
    have hdigit := hc.digit
    rw [h c List.mem_cons_self] at hdigit
    exact absurd hdigit (by decide)

theorem tokenAt_word {ch : UInt8} {word rest : List UInt8} (hfirst : isAsciiDigit ch = false)
    (h : ∀ c ∈ ch :: word, isIdentifierChar c = true) (hrest : Closed rest) :
    TokenAt (ch :: word ++ rest) (ch :: word) (keywordOrIdentifier (text (ch :: word))) := by
  refine .longest (lexeme_word hfirst h) (List.prefix_append _ _) fun word' kind hword hstart ↦ ?_
  obtain ⟨c, more, rfl, ⟨hc, -⟩ | ⟨-, hchars⟩ | ⟨-, hc⟩⟩ := lexeme_first hword
  · obtain rfl := head_eq_of_starts hstart
    rw [hfirst] at hc
    exact absurd hc (by decide)
  · exact length_le_of_run hrest hchars hstart
  · obtain rfl := head_eq_of_starts hstart
    have hidentifier := hc.identifier
    rw [h c List.mem_cons_self] at hidentifier
    exact absurd hidentifier (by decide)

/-- Only operators start where neither a number nor a word does. -/
theorem operator_of_lexeme {ch : UInt8} {rest word : List UInt8} {kind : TokenKind}
    (hdigit : isAsciiDigit ch = false) (hidentifier : isIdentifierChar ch = false)
    (h : Lexeme word kind) (hstart : word <+: ch :: rest) :
    ∃ op ∈ operators, utf8Bytes op.1 = word := by
  obtain ⟨c, more, rfl, ⟨hc, -⟩ | ⟨-, hchars⟩ | ⟨hop, -⟩⟩ := lexeme_first h
  · obtain rfl := head_eq_of_starts hstart
    rw [hdigit] at hc
    exact absurd hc (by decide)
  · obtain rfl := head_eq_of_starts hstart
    rw [hchars c List.mem_cons_self] at hidentifier
    exact absurd hidentifier (by decide)
  · exact hop

theorem tokenAt_two {ch next : UInt8} {rest : List UInt8} {kind : TokenKind}
    (hdigit : isAsciiDigit ch = false) (hidentifier : isIdentifierChar ch = false)
    (h : twoCharOperator ch next = some kind) : TokenAt (ch :: next :: rest) [ch, next] kind := by
  obtain ⟨op, hop, hbytes, rfl⟩ := twoCharOperator_mem h
  have hlexeme := Lexeme.operator hop
  rw [hbytes] at hlexeme
  refine .longest hlexeme ⟨rest, rfl⟩ fun word kind hword hstart ↦ ?_
  obtain ⟨op', hop', rfl⟩ := operator_of_lexeme hdigit hidentifier hword hstart
  obtain ⟨c, hbytes', -⟩ | ⟨c, c', hbytes', -⟩ := operator_cases op' hop'
  · rw [hbytes']
    exact Nat.le_succ 1
  · rw [hbytes']
    exact Nat.le_refl 2

theorem tokenAt_single {ch : UInt8} {rest : List UInt8} (hdigit : isAsciiDigit ch = false)
    (hidentifier : isIdentifierChar ch = false)
    (h : ∀ next ∈ rest.head?, twoCharOperator ch next = none) :
    TokenAt (ch :: rest) [ch] (singleCharToken ch) := by
  -- an operator of two bytes that starts here would have been taken
  have hshort {word : List UInt8} {kind : TokenKind} (hword : Lexeme word kind)
      (hstart : word <+: ch :: rest) : word = [ch] ∧
        ∃ op ∈ operators, utf8Bytes op.1 = [ch] ∧ singleCharToken ch = op.2 := by
    obtain ⟨op, hop, rfl⟩ := operator_of_lexeme hdigit hidentifier hword hstart
    obtain ⟨c, hbytes, hkind, -⟩ | ⟨c, c', hbytes, hkind, -⟩ := operator_cases op hop
    · rw [hbytes] at hstart
      obtain rfl := head_eq_of_starts hstart
      exact ⟨hbytes, op, hop, hbytes, hkind⟩
    · rw [hbytes, List.cons_prefix_cons] at hstart
      obtain ⟨rfl, more, rfl⟩ := hstart
      rw [h c' rfl] at hkind
      cases hkind
  obtain ⟨op, hop, hbytes, hkind⟩ | herror := singleCharToken_cases ch
  · have hlexeme := Lexeme.operator hop
    rw [hbytes, hkind] at hlexeme
    refine .longest hlexeme ⟨rest, rfl⟩ fun word kind hword hstart ↦ ?_
    rw [(hshort hword hstart).1]
  · rw [herror]
    refine .unknown fun word kind hword hstart ↦ ?_
    obtain ⟨-, op, hop, -, hkind⟩ := hshort hword hstart
    rw [herror] at hkind
    have hknown : ∀ op ∈ operators, ∀ message, op.2 ≠ .error message := by
      simp only [operators, List.forall_mem_cons]
      repeat' apply And.intro
      all_goals first
        | exact fun _ heq ↦ TokenKind.noConfusion heq
        | exact List.forall_mem_nil _
    exact hknown op hop _ hkind.symm

/-! ## The run of the lexer -/

theorem scanNumber_after (before : List UInt8) {ch : UInt8} {s : List UInt8}
    (hdigit : isAsciiDigit ch = true) : ∃ word more kind, ch :: s = word ++ more ∧ word ≠ [] ∧
      TokenAt (ch :: s) word kind ∧ kind ≠ .eof ∧
      (after before (ch :: s)).scanNumber = (⟨kind, position before⟩, after (before ++ word) more) := by
  have hscan : (after before (ch :: s)).scanNumber =
      (⟨.intLiteral (digitsValue ((ch :: s).takeWhile isAsciiDigit)), position before⟩,
        after (before ++ (ch :: s).takeWhile isAsciiDigit) ((ch :: s).dropWhile isAsciiDigit)) := by
    rw [scanNumber, takeWhile_after]
    rfl
  rw [List.takeWhile_cons_of_pos hdigit, List.dropWhile_cons_of_pos hdigit] at hscan
  have hdigits : ∀ c ∈ ch :: s.takeWhile isAsciiDigit, isAsciiDigit c = true :=
    List.forall_mem_cons.mpr ⟨hdigit, fun c hc ↦ List.mem_takeWhile_imp hc⟩
  have htoken := tokenAt_number hdigits fun c hc ↦ @head?_dropWhile isAsciiDigit s c hc
  rw [List.cons_append, List.takeWhile_append_dropWhile] at htoken
  refine ⟨_, _, _, ?_, List.cons_ne_nil _ _, htoken, fun h ↦ TokenKind.noConfusion h, hscan⟩
  rw [List.cons_append, List.takeWhile_append_dropWhile]

theorem scanWord_after (before : List UInt8) {ch : UInt8} {s : List UInt8}
    (hdigit : isAsciiDigit ch = false) (hidentifier : isIdentifierChar ch = true) :
    ∃ word more kind, ch :: s = word ++ more ∧ word ≠ [] ∧ TokenAt (ch :: s) word kind ∧
      kind ≠ .eof ∧ (after before (ch :: s)).scanIdentifierOrKeyword =
        (⟨kind, position before⟩, after (before ++ word) more) := by
  have hscan : (after before (ch :: s)).scanIdentifierOrKeyword =
      (⟨keywordOrIdentifier (text ((ch :: s).takeWhile isIdentifierChar)), position before⟩,
        after (before ++ (ch :: s).takeWhile isIdentifierChar)
          ((ch :: s).dropWhile isIdentifierChar)) := by
    have htake := takeWhile_after isIdentifierChar before (ch :: s)
    unfold isIdentifierChar at htake
    rw [scanIdentifierOrKeyword, htake]
    rfl
  rw [List.takeWhile_cons_of_pos hidentifier, List.dropWhile_cons_of_pos hidentifier] at hscan
  have hchars : ∀ c ∈ ch :: s.takeWhile isIdentifierChar, isIdentifierChar c = true :=
    List.forall_mem_cons.mpr ⟨hidentifier, fun c hc ↦ List.mem_takeWhile_imp hc⟩
  have htoken := tokenAt_word hdigit hchars
    fun c hc ↦ @head?_dropWhile isIdentifierChar s c hc
  rw [List.cons_append, List.takeWhile_append_dropWhile] at htoken
  refine ⟨_, _, _, ?_, List.cons_ne_nil _ _, htoken, keywordOrIdentifier_ne_eof _, hscan⟩
  rw [List.cons_append, List.takeWhile_append_dropWhile]

theorem nextToken_after (before s : List UInt8) : ∃ gap rest, s = gap ++ rest ∧ Gap gap rest ∧
    (rest = [] ∧ (after before s).nextToken =
        (⟨.eof, position (before ++ gap)⟩, after (before ++ gap) []) ∨
      ∃ word more kind, rest = word ++ more ∧ word ≠ [] ∧ TokenAt rest word kind ∧ kind ≠ .eof ∧
        (after before s).nextToken =
          (⟨kind, position (before ++ gap)⟩, after (before ++ gap ++ word) more)) := by
  obtain ⟨gap, rest, hs, hgap, hclear, hskip⟩ := @skip_after (s.length + 1) before s (Nat.lt_succ_self _)
  refine ⟨gap, rest, hs, hgap, ?_⟩
  have hskip' : (after before s).skipWhitespaceAndComments ((after before s).rest.length + 1) =
      after (before ++ gap) rest := hskip
  cases rest with
  | nil =>
    left
    rw [nextToken, hskip']
    exact ⟨rfl, rfl⟩
  | cons ch more =>
    right
    have hnext : (after before s).nextToken =
        if isAsciiDigit ch then (after (before ++ gap) (ch :: more)).scanNumber
        else if isAsciiAlphabetic ch || ch == byte '_' then
          (after (before ++ gap) (ch :: more)).scanIdentifierOrKeyword
        else ((after (before ++ gap) (ch :: more)).peek.bind (twoCharOperator ch)).elim
          ((after (before ++ gap) (ch :: more)).makeToken (singleCharToken ch),
            (after (before ++ gap) (ch :: more)).advance)
          (fun kind ↦ ((after (before ++ gap) (ch :: more)).makeToken kind,
            (after (before ++ gap) (ch :: more)).advance.advance)) := by
      have hrest : (after (before ++ gap) (ch :: more)).rest = ch :: more := rfl
      rw [nextToken, hskip', hrest]
      dsimp only
      cases (after (before ++ gap) (ch :: more)).peek.bind (twoCharOperator ch) <;> rfl
    rw [hnext]
    -- the order of the tests in the code: a number, a word, two bytes, one byte
    cases hdigit : isAsciiDigit ch with
    | true => exact scanNumber_after _ hdigit
    | false =>
      rw [if_neg Bool.false_ne_true]
      cases hword : (isAsciiAlphabetic ch || ch == byte '_') with
      | true =>
        refine scanWord_after _ hdigit ?_
        rw [isIdentifierChar, isAsciiAlphanumeric, hdigit, Bool.or_false]
        exact hword
      | false =>
        have hidentifier : isIdentifierChar ch = false := by
          rw [isIdentifierChar, isAsciiAlphanumeric, hdigit, Bool.or_false]
          exact hword
        rw [if_neg Bool.false_ne_true]
        cases hpair : (after (before ++ gap) (ch :: more)).peek.bind (twoCharOperator ch) with
        | some kind =>
          obtain ⟨next, hnext, hkind⟩ := Option.bind_eq_some_iff.mp hpair
          cases more with
          | nil => cases hnext
          | cons next' more =>
            obtain rfl := Option.some.inj hnext
            refine ⟨[ch, next'], more, kind, rfl, List.cons_ne_nil _ _,
              tokenAt_two hdigit hidentifier hkind, twoCharOperator_ne_eof hkind, ?_⟩
            rw [Option.elim_some, advance_after, advance_after, List.append_assoc]
            rfl
        | none =>
          have hnone : ∀ next ∈ more.head?, twoCharOperator ch next = none := by
            intro next hnext
            rw [Option.bind_eq_none_iff] at hpair
            apply hpair
            rw [← hnext, List.head?_eq_getElem?]
            rfl
          refine ⟨[ch], more, _, rfl, List.cons_ne_nil _ _,
            tokenAt_single hdigit hidentifier hnone, singleCharToken_ne_eof ch, ?_⟩
          rw [Option.elim_none, advance_after]
          rfl

theorem tokenizeLoop_after {fuel : Nat} {before s : List UInt8} (hfuel : s.length < fuel) :
    Tokenizes before s (tokenizeLoop fuel (after before s)) := by
  induction fuel generalizing before s with
  | zero => exact absurd hfuel (Nat.not_lt_zero _)
  | succ fuel ih =>
    obtain ⟨gap, rest, rfl, hgap, ⟨rfl, hnext⟩ | ⟨word, more, kind, rfl, hne, htoken, heof, hnext⟩⟩ :=
      nextToken_after before s
    · rw [tokenizeLoop, hnext, List.append_nil]
      exact .eof hgap
    · rw [tokenizeLoop, hnext]
      dsimp only
      rw [if_neg heof]
      apply Tokenizes.token hgap htoken
      apply ih
      have hpos := List.length_pos_iff.mpr hne
      simp only [List.length_append] at hfuel
      omega

end Lexer

/-! ## The counters of the code -/

/-- `line` and `column` of the code, which are 32 bits wide. -/
structure Counters where
  line : UInt32
  column : UInt32

/-- What `advance` makes of them; `+=` wraps. -/
def Counters.advance (counters : Counters) (ch : UInt8) : Counters :=
  if ch = byte '\n' then ⟨counters.line + 1, 1⟩ else ⟨counters.line, counters.column + 1⟩

def countersAfter (before : List UInt8) : Counters := before.foldl Counters.advance ⟨1, 1⟩

theorem countersAfter_eq (before : List UInt8) : countersAfter before =
    ⟨UInt32.ofNat (position before).line, UInt32.ofNat (position before).column⟩ := by
  induction before using List.reverseRecOn with
  | nil => rfl
  | append_singleton before ch ih =>
    rw [countersAfter, List.foldl_append, ← countersAfter, ih, List.foldl_cons, List.foldl_nil,
      position_append, Counters.advance]
    split
    · rw [UInt32.ofNat_add]
      rfl
    · rw [UInt32.ofNat_add]
      rfl

theorem position_le (before : List UInt8) : (position before).line ≤ before.length + 1 ∧
    (position before).column ≤ before.length + 1 := by
  constructor
  · exact Nat.succ_le_succ List.count_le_length
  · have h := (@List.takeWhile_prefix _ before.reverse (· != byte '\n')).length_le
    rw [List.length_reverse] at h
    exact Nat.succ_le_succ h

/-- **Exactness.** All bytes of a source are in the gaps and lexemes of its tokens, the last token is
the only `Eof`, and the counters are the position at every byte. -/
theorem tokenize_exact {source : List UInt8} (h : source.length < 2 ^ 32) :
    Tokenizes [] source (tokenize source) ∧
      (∃ tokens last, tokenize source = tokens ++ [last] ∧ last.kind = .eof ∧
        ∀ token ∈ tokens, token.kind ≠ .eof) ∧
      ∀ before rest, source = before ++ rest → rest ≠ [] →
        (countersAfter before).line.toNat = (position before).line ∧
          (countersAfter before).column.toNat = (position before).column := by
  refine ⟨tokenizeLoop_after (Nat.lt_succ_self _), ?_, ?_⟩
  · obtain ⟨tokens, last, htokens, hlast, hbody⟩ := tokenize_eofEnded source
    exact ⟨tokens, last, htokens, hlast, hbody⟩
  · rintro before rest rfl hne
    have hpos := List.length_pos_iff.mpr hne
    rw [List.length_append] at h
    obtain ⟨hline, hcolumn⟩ := position_le before
    have hsize : UInt32.size = 2 ^ 32 := rfl
    rw [countersAfter_eq]
    exact ⟨UInt32.toNat_ofNat_of_lt' (by omega), UInt32.toNat_ofNat_of_lt' (by omega)⟩

theorem tokenize_exact_sample :
    Tokenizes [] (utf8Bytes "a\n//b\n==007") (tokenize (utf8Bytes "a\n//b\n==007")) :=
  (tokenize_exact (by decide)).1

end MiniLang
