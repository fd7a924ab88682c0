import MiniLang.Syntax.ParserExact

/-!
# Texts and their tokens

`Lexes s kinds` says that the bytes `s` have the tokens `kinds`, wherever in a source they stand.
The rules put a text together from its last byte to its first: blanks, words, numbers and symbols.

## From the end

The lexer reads forward, but a token depends on what follows it: a word ends where its bytes do, and
a symbol may be the first half of a longer one. So a rule adds one piece in front of a text whose
tokens are known already, and asks of the first byte of that text only that it does not continue the
piece.

Positions do not matter here. `Lexes` quantifies over the line and column at which the text starts,
and over every fuel that exceeds its length, so that no rule has to count.
-/

namespace MiniLang

/-- `source.as_bytes()`. -/
def utf8Bytes (text : String) : List UInt8 := text.toList.flatMap String.utf8EncodeChar

theorem utf8Bytes_append (text text' : String) :
    utf8Bytes (text ++ text') = utf8Bytes text ++ utf8Bytes text' := by
  rw [utf8Bytes, String.toList_append, List.flatMap_append]
  rfl

namespace Lexer

variable {s rest word digits : List UInt8} {kinds : List TokenKind} {ch next : UInt8}

/-- The bytes `s` up to the end of the source have the given tokens. -/
def Lexes (s : List UInt8) (kinds : List TokenKind) : Prop :=
  ∀ line column fuel, s.length < fuel →
    (tokenizeLoop fuel ⟨s, line, column⟩).map Token.kind = kinds

def isIdentifierChar (ch : UInt8) : Bool := isAsciiAlphanumeric ch || ch == byte '_'

/-- The next byte does not belong to a word. -/
def Closed (s : List UInt8) : Prop := ∀ ch ∈ s.head?, isIdentifierChar ch = false

theorem closed_cons (h : isIdentifierChar ch = false) (s : List UInt8) :
    Closed (ch :: s) := by
  intro c hc
  rw [← Option.some_inj.mp hc]
  exact h

/-- A byte that starts neither a blank nor a comment. -/
def StartsToken (ch : UInt8) (rest : List UInt8) : Prop :=
  isWhitespace ch = false ∧ ¬(ch = byte '/' ∧ rest.head? = some (byte '/'))

theorem tokenize_kinds {source : List UInt8} (h : Lexes source kinds) :
    (tokenize source).map Token.kind = kinds :=
  h 1 1 (source.length + 1) (Nat.lt_succ_self _)

/-! ## Runs of bytes -/

theorem rest_advance (ch : UInt8) (rest : List UInt8) (line column : Nat) :
    ∃ line' column', advance ⟨ch :: rest, line, column⟩ = ⟨rest, line', column'⟩ := by
  have hadvance : advance ⟨ch :: rest, line, column⟩ =
      if ch = byte '\n' then ⟨rest, line + 1, 1⟩ else ⟨rest, line, column + 1⟩ := rfl
  rw [hadvance]
  split
  · exact ⟨_, _, rfl⟩
  · exact ⟨_, _, rfl⟩

theorem advanceWhile_append {p : UInt8 → Bool} (hword : ∀ ch ∈ word, p ch = true)
    (hrest : ∀ ch ∈ rest.head?, p ch = false) (line column : Nat) :
    ∃ line' column', advanceWhile p (word ++ rest) line column =
      (word, ⟨rest, line', column'⟩) := by
  induction word generalizing line column with
  | nil =>
    refine ⟨line, column, ?_⟩
    cases rest with
    | nil => rfl
    | cons ch rest =>
      rw [List.nil_append, advanceWhile, if_neg]
      rw [hrest ch rfl]
      exact Bool.false_ne_true
  | cons ch word ih =>
    obtain ⟨hch, hword⟩ := List.forall_mem_cons.mp hword
    obtain ⟨line', column', hadvance⟩ := rest_advance ch (word ++ rest) line column
    obtain ⟨line'', column'', hrun⟩ := ih hword line' column'
    refine ⟨line'', column'', ?_⟩
    rw [List.cons_append, advanceWhile, if_pos hch, hadvance]
    dsimp only
    rw [hrun]

/-! ## Blanks -/

/-- More fuel than bytes makes no difference. -/
theorem skip_fuel {fuel fuel' : Nat} {l : Lexer} (h : l.rest.length < fuel)
    (h' : l.rest.length < fuel') :
    skipWhitespaceAndComments fuel l = skipWhitespaceAndComments fuel' l := by
  induction fuel generalizing fuel' l with
  | zero => exact absurd h (Nat.not_lt_zero _)
  | succ fuel ih =>
    cases fuel' with
    | zero => exact absurd h' (Nat.not_lt_zero _)
    | succ fuel' =>
      rw [skipWhitespaceAndComments, skipWhitespaceAndComments]
      split
      · next hcomment =>
        have hblank := length_takeWhile_le isWhitespace l
        generalize (l.takeWhile isWhitespace).2 = m at hblank hcomment
        obtain ⟨rest, line, column⟩ := m
        cases rest with
        | nil => cases hcomment.1
        | cons ch rest =>
          obtain rfl : ch = byte '/' := Option.some_inj.mp hcomment.1
          have hshort := @length_takeWhile_lt (· != byte '\n') ⟨byte '/' :: rest, line, column⟩ _ _
            rfl (by decide)
          dsimp only at hblank hshort
          exact ih (by omega) (by omega)
      · rfl

theorem skip_of_startsToken (h : StartsToken ch rest) (fuel line column : Nat) :
    skipWhitespaceAndComments (fuel + 1) ⟨ch :: rest, line, column⟩ =
      ⟨ch :: rest, line, column⟩ := by
  have hblank : (takeWhile isWhitespace ⟨ch :: rest, line, column⟩).2 =
      ⟨ch :: rest, line, column⟩ := by
    rw [takeWhile, advanceWhile, if_neg (by rw [h.1]; exact Bool.false_ne_true)]
  rw [skipWhitespaceAndComments, hblank, if_neg]
  rintro ⟨hfirst, hsecond⟩
  refine h.2 ⟨Option.some_inj.mp hfirst, ?_⟩
  rw [List.head?_eq_getElem?]
  exact hsecond

theorem lexes_nil : Lexes [] [.eof] := by
  intro line column fuel hfuel
  obtain ⟨fuel, rfl⟩ := Nat.exists_eq_add_of_lt hfuel
  rw [List.length_nil, Nat.zero_add]
  rfl

theorem Lexes.blank (h : Lexes s kinds) (ch : UInt8) (hch : isWhitespace ch = true) :
    Lexes (ch :: s) kinds := by
  intro line column fuel hfuel
  obtain ⟨line', column', hadvance⟩ := rest_advance ch s line column
  have hskip (fuel : Nat) : skipWhitespaceAndComments (fuel + 1) ⟨ch :: s, line, column⟩ =
      skipWhitespaceAndComments (fuel + 1) ⟨s, line', column'⟩ := by
    rw [skipWhitespaceAndComments, skipWhitespaceAndComments, takeWhile, takeWhile, advanceWhile,
      if_pos hch, hadvance]
    rfl
  have hnext : nextToken ⟨ch :: s, line, column⟩ = nextToken ⟨s, line', column'⟩ := by
    rw [nextToken, nextToken]
    have hskip' := (hskip (s.length + 1)).trans
      (skip_fuel (show s.length < s.length + 2 by omega) (Nat.lt_succ_self _))
    dsimp only [List.length_cons]
    rw [hskip']
  obtain ⟨fuel, rfl⟩ := Nat.exists_eq_succ_of_ne_zero (Nat.ne_of_gt (Nat.zero_lt_of_lt hfuel))
  have hlength : s.length < fuel + 1 := Nat.lt_of_succ_lt hfuel
  rw [← h line' column' (fuel + 1) hlength, tokenizeLoop, tokenizeLoop, hnext]

/-- A comment ends before the end of its line. -/
theorem Lexes.comment (h : Lexes s kinds) {body : List UInt8} (hbody : ∀ c ∈ body, c ≠ byte '\n')
    (hend : ∀ c ∈ s.head?, c = byte '\n') : Lexes (byte '/' :: byte '/' :: body ++ s) kinds := by
  have hall : ∀ c ∈ byte '/' :: byte '/' :: body, (c != byte '\n') = true := by
    intro c hc
    rcases List.mem_cons.mp hc with rfl | hc
    · decide
    · rcases List.mem_cons.mp hc with rfl | hc
      · decide
      · exact bne_iff_ne.mpr (hbody c hc)
  have hstop : ∀ c ∈ s.head?, (c != byte '\n') = false := fun c hc ↦
    bne_eq_false_iff_eq.mpr (hend c hc)
  intro line column fuel hfuel
  obtain ⟨line', column', hrun⟩ := advanceWhile_append hall hstop line column
  have hnext : nextToken ⟨byte '/' :: byte '/' :: body ++ s, line, column⟩ =
      nextToken ⟨s, line', column'⟩ := by
    have hblank : (takeWhile isWhitespace ⟨byte '/' :: byte '/' :: body ++ s, line, column⟩).2 =
        ⟨byte '/' :: byte '/' :: body ++ s, line, column⟩ := by
      rw [List.cons_append, takeWhile, advanceWhile, if_neg (by decide)]
    have hcomment : (takeWhile (· != byte '\n')
        ⟨byte '/' :: byte '/' :: body ++ s, line, column⟩).2 = ⟨s, line', column'⟩ := by
      rw [takeWhile, hrun]
    have hskip : skipWhitespaceAndComments ((byte '/' :: byte '/' :: body ++ s).length + 1)
        ⟨byte '/' :: byte '/' :: body ++ s, line, column⟩ =
        skipWhitespaceAndComments (s.length + 1) ⟨s, line', column'⟩ := by
      rw [skipWhitespaceAndComments, hblank, if_pos ⟨rfl, rfl⟩, hcomment]
      refine skip_fuel ?_ (Nat.lt_succ_self _)
      rw [List.length_append, List.length_cons]
      dsimp only
      omega
    rw [nextToken, nextToken]
    dsimp only
    rw [hskip]
  obtain ⟨fuel, rfl⟩ := Nat.exists_eq_succ_of_ne_zero (Nat.ne_of_gt (Nat.zero_lt_of_lt hfuel))
  have hlength : s.length < fuel + 1 := by
    rw [List.length_append, List.length_cons] at hfuel
    omega
  rw [← h line' column' (fuel + 1) hlength, tokenizeLoop, tokenizeLoop, hnext]

/-! ## Tokens -/

/-- A token that takes the bytes up to `s`. -/
theorem Lexes.token {kind : TokenKind} (h : Lexes s kinds) (hword : word ≠ []) (hkind : kind ≠ .eof)
    (hnext : ∀ line column, ∃ span line' column',
      nextToken ⟨word ++ s, line, column⟩ = (⟨kind, span⟩, ⟨s, line', column'⟩)) :
    Lexes (word ++ s) (kind :: kinds) := by
  intro line column fuel hfuel
  obtain ⟨span, line', column', hnext⟩ := hnext line column
  obtain ⟨fuel, rfl⟩ := Nat.exists_eq_succ_of_ne_zero (Nat.ne_of_gt (Nat.zero_lt_of_lt hfuel))
  have hpos := List.length_pos_iff.mpr hword
  rw [List.length_append] at hfuel
  rw [tokenizeLoop, hnext]
  dsimp only
  rw [if_neg hkind, List.map_cons, h line' column' fuel (by omega)]

/-- A first byte that is neither a digit nor part of a word. -/
def IsSymbol (ch : UInt8) : Prop := isIdentifierChar ch = false ∧ isWhitespace ch = false

theorem startsToken_of_identifierChar (h : isIdentifierChar ch = true) (rest : List UInt8) :
    StartsToken ch rest := by
  refine ⟨?_, ?_⟩
  · by_contra hblank
    rw [Bool.not_eq_false] at hblank
    simp only [isWhitespace, Bool.or_eq_true, beq_iff_eq] at hblank
    rcases hblank with ((rfl | rfl) | rfl) | rfl <;> exact absurd h (by decide)
  · rintro ⟨rfl, -⟩
    exact absurd h (by decide)

/-- A keyword or an identifier. -/
theorem Lexes.identifier (h : Lexes s kinds) (hword : ∀ c ∈ ch :: word, isIdentifierChar c = true)
    (hfirst : isAsciiDigit ch = false) (hclosed : Closed s) :
    Lexes (ch :: word ++ s) (keywordOrIdentifier (text (ch :: word)) :: kinds) := by
  have hne : ch :: word ≠ [] := List.cons_ne_nil ch word
  refine h.token hne (keywordOrIdentifier_ne_eof _) fun line column ↦ ?_
  have hch := hword ch List.mem_cons_self
  obtain ⟨line', column', hrun⟩ := advanceWhile_append hword hclosed line column
  refine ⟨⟨line, column⟩, line', column', ?_⟩
  have hstart : (isAsciiAlphabetic ch || ch == byte '_') = true := by
    rw [isIdentifierChar, isAsciiAlphanumeric, hfirst, Bool.or_false] at hch
    exact hch
  rw [nextToken]
  dsimp only
  rw [List.cons_append, skip_of_startsToken (startsToken_of_identifierChar hch _)]
  dsimp only
  rw [if_neg (by rw [hfirst]; exact Bool.false_ne_true), if_pos hstart, scanIdentifierOrKeyword,
    takeWhile]
  dsimp only
  have hrun : advanceWhile (fun ch ↦ isAsciiAlphanumeric ch || ch == byte '_')
      (ch :: (word ++ s)) line column = (ch :: word, ⟨s, line', column'⟩) := hrun
  rw [hrun]
  rfl

/-- An integer literal. -/
theorem Lexes.digitRun (h : Lexes s kinds) (hdigits : ∀ ch ∈ digits, isAsciiDigit ch = true)
    (hne : digits ≠ []) (hend : ∀ ch ∈ s.head?, isAsciiDigit ch = false) :
    Lexes (digits ++ s) (.intLiteral (digitsValue digits) :: kinds) := by
  refine h.token hne (fun heq ↦ nomatch heq) fun line column ↦ ?_
  obtain ⟨line', column', hrun⟩ := advanceWhile_append hdigits hend line column
  obtain ⟨ch, digits, rfl⟩ := List.exists_cons_of_ne_nil hne
  have hch := hdigits ch List.mem_cons_self
  have hident : isIdentifierChar ch = true := by
    rw [isIdentifierChar, isAsciiAlphanumeric, hch, Bool.or_true, Bool.true_or]
  refine ⟨⟨line, column⟩, line', column', ?_⟩
  rw [nextToken]
  dsimp only
  rw [List.cons_append, skip_of_startsToken (startsToken_of_identifierChar hident _)]
  dsimp only
  rw [List.cons_append] at hrun
  rw [if_pos hch, scanNumber, takeWhile]
  dsimp only
  rw [hrun]
  rfl

theorem Lexes.number (h : Lexes s kinds) (hdigits : ∀ ch ∈ digits, isAsciiDigit ch = true)
    (hne : digits ≠ []) (hclosed : Closed s) :
    Lexes (digits ++ s) (.intLiteral (digitsValue digits) :: kinds) := by
  refine h.digitRun hdigits hne fun ch hch ↦ ?_
  have hother := hclosed ch hch
  rw [isIdentifierChar, isAsciiAlphanumeric] at hother
  simp only [Bool.or_eq_false_iff] at hother
  exact hother.1.2

/-- Neither a digit nor the start of a word. -/
theorem scans_of_isSymbol (h : IsSymbol ch) :
    isAsciiDigit ch = false ∧ (isAsciiAlphabetic ch || ch == byte '_') = false := by
  have hother := h.1
  rw [isIdentifierChar, isAsciiAlphanumeric] at hother
  simp only [Bool.or_eq_false_iff] at hother ⊢
  exact ⟨hother.1.2, hother.1.1, hother.2⟩

/-- A one-byte symbol. -/
theorem Lexes.symbol (h : Lexes s kinds) (ch : UInt8) (hch : IsSymbol ch)
    (hcomment : ¬(ch = byte '/' ∧ s.head? = some (byte '/')))
    (hsingle : s.head?.bind (twoCharOperator ch) = none) :
    Lexes (ch :: s) (singleCharToken ch :: kinds) := by
  have hne : [ch] ≠ [] := List.cons_ne_nil ch []
  refine h.token hne (singleCharToken_ne_eof ch) fun line column ↦ ?_
  obtain ⟨line', column', hadvance⟩ := rest_advance ch s line column
  refine ⟨⟨line, column⟩, line', column', ?_⟩
  obtain ⟨hdigit, halpha⟩ := scans_of_isSymbol hch
  rw [nextToken]
  dsimp only
  rw [List.singleton_append, skip_of_startsToken ⟨hch.2, hcomment⟩]
  dsimp only
  have hpeek : (peek ⟨ch :: s, line, column⟩).bind (twoCharOperator ch) = none := by
    rw [← hsingle, peek, List.head?_eq_getElem?]
    rfl
  rw [if_neg (by rw [hdigit]; exact Bool.false_ne_true),
    if_neg (by rw [halpha]; exact Bool.false_ne_true), hpeek]
  dsimp only
  rw [hadvance]
  rfl

/-- A two-byte symbol. -/
theorem Lexes.symbol₂ {kind : TokenKind} (h : Lexes s kinds) (ch next : UInt8)
    (hch : IsSymbol ch) (hpair : twoCharOperator ch next = some kind) :
    Lexes (ch :: next :: s) (kind :: kinds) := by
  have hne : [ch, next] ≠ [] := List.cons_ne_nil ch _
  refine h.token hne (twoCharOperator_ne_eof hpair) fun line column ↦ ?_
  obtain ⟨line', column', hadvance⟩ := rest_advance ch (next :: s) line column
  obtain ⟨line'', column'', hadvance'⟩ := rest_advance next s line' column'
  refine ⟨⟨line, column⟩, line'', column'', ?_⟩
  obtain ⟨hdigit, halpha⟩ := scans_of_isSymbol hch
  have hcomment : ¬(ch = byte '/' ∧ (next :: s).head? = some (byte '/')) := by
    rintro ⟨rfl, hnext⟩
    obtain rfl := Option.some_inj.mp hnext
    rw [show twoCharOperator (byte '/') (byte '/') = none by decide] at hpair
    cases hpair
  rw [nextToken]
  dsimp only
  rw [List.cons_append, List.singleton_append, skip_of_startsToken ⟨hch.2, hcomment⟩]
  dsimp only
  have hpeek : (peek ⟨ch :: next :: s, line, column⟩).bind (twoCharOperator ch) = some kind := hpair
  rw [if_neg (by rw [hdigit]; exact Bool.false_ne_true),
    if_neg (by rw [halpha]; exact Bool.false_ne_true), hpeek]
  dsimp only
  rw [hadvance, hadvance']
  rfl

/-! ## Words as texts -/

theorem utf8EncodeChar_ofUInt8 {b : UInt8} (h : b < 128) :
    String.utf8EncodeChar (Char.ofUInt8 b) = [b] := by
  have hb : b.toNat < 128 := h
  have hval : (Char.ofUInt8 b).val.toNat = b.toNat := UInt8.toNat_toUInt32 b
  rw [String.utf8EncodeChar, hval, if_pos (by omega), UInt8.ofNat_toNat]

theorem utf8Bytes_text {word : List UInt8} (h : ∀ b ∈ word, b < 128) :
    utf8Bytes (text word) = word := by
  rw [utf8Bytes, text, String.toList_ofList]
  induction word with
  | nil => rfl
  | cons b word ih =>
    obtain ⟨hb, hword⟩ := List.forall_mem_cons.mp h
    rw [List.map_cons, List.flatMap_cons, utf8EncodeChar_ofUInt8 hb, ih hword]
    rfl

theorem lt_of_isIdentifierChar {ch : UInt8} (h : isIdentifierChar ch = true) : ch < 128 := by
  simp only [isIdentifierChar, isAsciiAlphanumeric, isAsciiAlphabetic, isAsciiDigit,
    Bool.or_eq_true, Bool.and_eq_true, decide_eq_true_eq, beq_iff_eq] at h
  have hz : byte 'z' < 128 := by decide
  have hZ : byte 'Z' < 128 := by decide
  have h9 : byte '9' < 128 := by decide
  rcases h with ((⟨-, h⟩ | ⟨-, h⟩) | ⟨-, h⟩) | rfl
  · exact UInt8.lt_of_le_of_lt h hz
  · exact UInt8.lt_of_le_of_lt h hZ
  · exact UInt8.lt_of_le_of_lt h h9
  · decide

end Lexer

end MiniLang
