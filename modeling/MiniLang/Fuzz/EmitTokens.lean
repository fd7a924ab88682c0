import MiniLang.Fuzz.Emit
import MiniLang.Syntax.Lexing

/-!
# Tokens of printed programs

The lexer reads a printed tree as the tokens the printer meant, and the tokens derive the tree. A
tree can be printed when its names are identifiers and its integer literals are not negative.

## Two halves

`exprTokens` lists the tokens that a tree is meant to have. That these derive the tree is a fact
about the grammar: the printer puts every operator with its operands into parentheses, so that a
printed expression is a primary one, and a primary expression derives at any level. That the text
has these tokens is a fact about the lexer, with a rule for each piece of text that the printer
emits.

## What comes next

A text is put together from its end, because what the lexer makes of a word depends on the byte
behind it: a word goes on until a byte that is not of a word, and `!` or `-` are tokens only if they
do not start a longer one. The rule for an expression assumes such an end, and gives the first byte
of the expression to what stands before it.
-/

namespace MiniLang

open Grammar Lexer

namespace Fuzz

variable {s : List UInt8} {kinds : List TokenKind} {ts us : List TokenKind} {e : Expr} {l : Level}

/-! ## Names and literals -/

/-- A text that the lexer reads as one word. -/
structure IsWord (name : String) : Prop where
  nonempty : utf8Bytes name ≠ []
  chars : ∀ c ∈ utf8Bytes name, isIdentifierChar c = true
  first : ∀ c ∈ (utf8Bytes name).head?, isAsciiDigit c = false
  text_eq : text (utf8Bytes name) = name

/-- The text of an identifier. -/
structure IsName (name : String) : Prop extends IsWord name where
  kind : keywordOrIdentifier name = .identifier name

/-- A word before a byte that does not continue it. -/
theorem lexes_word {name : String} (hname : IsWord name) (h : Lexes s kinds) (hclosed : Closed s) :
    Lexes (utf8Bytes name ++ s) (keywordOrIdentifier name :: kinds) := by
  obtain ⟨hne, hchars, hfirst, htext⟩ := hname
  obtain ⟨ch, word, hbytes⟩ := List.exists_cons_of_ne_nil hne
  rw [hbytes] at hchars hfirst htext ⊢
  rw [← htext]
  exact h.identifier hchars (hfirst ch rfl) hclosed

theorem lexes_name {name : String} (hname : IsName name) (h : Lexes s kinds) (hclosed : Closed s) :
    Lexes (utf8Bytes name ++ s) (.identifier name :: kinds) := by
  have hlexes := lexes_word hname.toIsWord h hclosed
  rwa [hname.kind] at hlexes

theorem isWord_text {word : List UInt8} (hne : word ≠ [])
    (hchars : ∀ c ∈ word, isIdentifierChar c = true)
    (hfirst : ∀ c ∈ word.head?, isAsciiDigit c = false) : IsWord (text word) := by
  have hbytes := utf8Bytes_text fun c hc ↦ lt_of_isIdentifierChar (hchars c hc)
  constructor
  · rwa [hbytes]
  · rwa [hbytes]
  · rwa [hbytes]
  · rw [hbytes]

/-- The byte of a decimal digit. -/
theorem exists_digit {c : Char} (h : c.isDigit = true) : ∃ b, String.utf8EncodeChar c = [b] ∧
    isAsciiDigit b = true ∧ (b - byte '0').toNat = c.toNat - '0'.toNat := by
  rw [Char.isDigit, Bool.and_eq_true, decide_eq_true_eq, decide_eq_true_eq, ge_iff_le,
    UInt32.le_iff_toNat_le, UInt32.le_iff_toNat_le] at h
  have hlow : 48 ≤ c.val.toNat := h.1
  have hhigh : c.val.toNat ≤ 57 := h.2
  have hb : (UInt8.ofNat c.val.toNat).toNat = c.val.toNat := by
    rw [UInt8.toNat_ofNat']
    omega
  refine ⟨UInt8.ofNat c.val.toNat, ?_, ?_, ?_⟩
  · rw [String.utf8EncodeChar, if_pos (by omega)]
  · rw [isAsciiDigit, Bool.and_eq_true, decide_eq_true_eq, decide_eq_true_eq,
      UInt8.le_iff_toNat_le, UInt8.le_iff_toNat_le, hb]
    exact ⟨hlow, hhigh⟩
  · have hle : byte '0' ≤ UInt8.ofNat c.val.toNat := by
      rw [UInt8.le_iff_toNat_le, hb]
      exact hlow
    rw [UInt8.toNat_sub_of_le _ _ hle, hb]
    rfl

/-- The bytes of digits. -/
theorem digits_flatMap {cs : List Char} (h : ∀ c ∈ cs, c.isDigit = true) (n : Nat) :
    (cs.flatMap String.utf8EncodeChar).foldl
        (fun value ch ↦ value * 10 + Int32.ofNat (ch - byte '0').toNat) (Int32.ofNat n) =
      Int32.ofNat (Nat.ofDigitChars 10 cs n) ∧
    ∀ b ∈ cs.flatMap String.utf8EncodeChar, isAsciiDigit b = true := by
  induction cs generalizing n with
  | nil => exact ⟨rfl, fun b hb ↦ absurd hb List.not_mem_nil⟩
  | cons c cs ih =>
    obtain ⟨hc, hcs⟩ := List.forall_mem_cons.mp h
    obtain ⟨b, hencode, hdigit, hvalue⟩ := exists_digit hc
    obtain ⟨hfold, hall⟩ := ih hcs (10 * n + (c.toNat - '0'.toNat))
    rw [List.flatMap_cons, hencode, List.singleton_append, List.foldl_cons, hvalue,
      Nat.ofDigitChars_cons, ← hfold]
    refine ⟨?_, List.forall_mem_cons.mpr ⟨hdigit, hall⟩⟩
    rw [Int32.ofNat_add, Int32.ofNat_mul, Int32.mul_comm]
    rfl

/-- The digits of a number. -/
theorem digitsValue_repr (n : Nat) : digitsValue (utf8Bytes n.repr) = Int32.ofNat n ∧
    (∀ b ∈ utf8Bytes n.repr, isAsciiDigit b = true) ∧ utf8Bytes n.repr ≠ [] := by
  have hdigits : ∀ c ∈ Nat.toDigits 10 n, c.isDigit = true :=
    fun c hc ↦ Nat.isDigit_of_mem_toDigits (by decide) (by decide) hc
  obtain ⟨hfold, hall⟩ := digits_flatMap hdigits 0
  rw [utf8Bytes, Nat.toList_repr]
  refine ⟨?_, hall, ?_⟩
  · rw [Nat.ofDigitChars_ten_toDigits] at hfold
    exact hfold
  · obtain ⟨c, cs, hcs⟩ := List.exists_cons_of_ne_nil (@Nat.toDigits_ne_nil n 10)
    rw [hcs] at hdigits ⊢
    obtain ⟨b, hencode, -⟩ := exists_digit (hdigits c List.mem_cons_self)
    rw [List.flatMap_cons, hencode]
    exact List.cons_ne_nil _ _

theorem lexes_number {value : Int32} (hvalue : 0 ≤ value) (h : Lexes s kinds)
    (hclosed : Closed s) :
    Lexes (utf8Bytes (toString value.toInt) ++ s) (.intLiteral value :: kinds) := by
  obtain ⟨n, hn⟩ := Int.eq_ofNat_of_zero_le (Int32.le_iff_toInt_le.mp hvalue)
  have htext : toString value.toInt = n.repr := by
    rw [hn]
    rfl
  obtain ⟨hdigits, hall, hne⟩ := digitsValue_repr n
  have hlexes := h.number hall hne hclosed
  rw [hdigits] at hlexes
  have heq : Int32.ofNat n = value := by
    rw [← Int32.ofInt_toInt value, hn]
    rfl
  rw [htext, ← heq]
  exact hlexes

/-! ## Expressions -/

def binaryOpToken : BinaryOp → TokenKind
  | .add => .plus
  | .sub => .minus
  | .mul => .star
  | .div => .slash
  | .eq => .eq
  | .ne => .ne
  | .lt => .lt
  | .gt => .gt
  | .le => .le
  | .ge => .ge
  | .and => .and
  | .or => .or

def unaryOpToken : UnaryOp → TokenKind
  | .neg => .minus
  | .not => .not

mutual

/-- The tokens that an expression is printed as. -/
def exprTokens : Expr → List TokenKind
  | .intLiteral value _ => [.intLiteral value]
  | .boolLiteral value _ => [.boolLiteral value]
  | .identifier name _ => [.identifier name]
  | .binary op left right _ =>
    .lParen :: (exprTokens left ++ binaryOpToken op :: (exprTokens right ++ [.rParen]))
  | .unary op operand _ => .lParen :: unaryOpToken op :: (exprTokens operand ++ [.rParen])
  | .call name args _ => .identifier name :: .lParen :: (argsTokens args ++ [.rParen])
  | .arrayIndex name index _ => .identifier name :: .lBracket :: (exprTokens index ++ [.rBracket])
termination_by structural e => e

def argsTokens : List Expr → List TokenKind
  | [] => []
  | e :: es => exprTokens e ++ moreArgsTokens es
termination_by structural es => es

def moreArgsTokens : List Expr → List TokenKind
  | [] => []
  | e :: es => .comma :: (exprTokens e ++ moreArgsTokens es)
termination_by structural es => es

end

mutual

/-- The names are identifiers and the literals have digits only. -/
def PrintableExpr : Expr → Prop
  | .intLiteral value _ => 0 ≤ value
  | .boolLiteral .. => True
  | .identifier name _ => IsName name
  | .binary _ left right _ => PrintableExpr left ∧ PrintableExpr right
  | .unary _ operand _ => PrintableExpr operand
  | .call name args _ => IsName name ∧ PrintableExprs args
  | .arrayIndex name index _ => IsName name ∧ PrintableExpr index
termination_by structural e => e

def PrintableExprs : List Expr → Prop
  | [] => True
  | e :: es => PrintableExpr e ∧ PrintableExprs es
termination_by structural es => es

end

/-! ### Derivations -/

theorem derives_loosen (hl : l ≠ .unary ∧ l ≠ .primary) (h : Derives l.next ts e) :
    Derives l ts e := by
  have hchain := h.chain hl (.nil l e)
  rwa [List.append_nil] at hchain

/-- A sentence of any level is an expression. -/
theorem derives_or (h : Derives l ts e) : Derives .or ts e := by
  have hand (h : Derives .and ts e) : Derives .or ts e := derives_loosen (by decide) h
  have heq (h : Derives .equality ts e) : Derives .or ts e := hand (derives_loosen (by decide) h)
  have hcmp (h : Derives .comparison ts e) : Derives .or ts e := heq (derives_loosen (by decide) h)
  have hadd (h : Derives .additive ts e) : Derives .or ts e := hcmp (derives_loosen (by decide) h)
  have hmul (h : Derives .multiplicative ts e) : Derives .or ts e :=
    hadd (derives_loosen (by decide) h)
  have hunary (h : Derives .unary ts e) : Derives .or ts e := hmul (derives_loosen (by decide) h)
  cases l with
  | or => exact h
  | and => exact hand h
  | equality => exact heq h
  | comparison => exact hcmp h
  | additive => exact hadd h
  | multiplicative => exact hmul h
  | unary => exact hunary h
  | primary => exact hunary (.primary h)

/-- A primary is a sentence of every level. -/
theorem derives_of_primary (h : Derives .primary ts e) (l : Level) : Derives l ts e := by
  have hunary : Derives .unary ts e := .primary h
  have hmul : Derives .multiplicative ts e := derives_loosen (by decide) hunary
  have hadd : Derives .additive ts e := derives_loosen (by decide) hmul
  have hcmp : Derives .comparison ts e := derives_loosen (by decide) hadd
  have heq : Derives .equality ts e := derives_loosen (by decide) hcmp
  have hand : Derives .and ts e := derives_loosen (by decide) heq
  cases l with
  | or => exact derives_loosen (by decide) hand
  | and => exact hand
  | equality => exact heq
  | comparison => exact hcmp
  | additive => exact hadd
  | multiplicative => exact hmul
  | unary => exact hunary
  | primary => exact h

theorem exists_operator (op : BinaryOp) :
    ∃ l, (l ≠ .unary ∧ l ≠ .primary) ∧ Operator l (binaryOpToken op) op := by
  cases op with
  | add => exact ⟨_, by decide, .add⟩
  | sub => exact ⟨_, by decide, .sub⟩
  | mul => exact ⟨_, by decide, .mul⟩
  | div => exact ⟨_, by decide, .div⟩
  | eq => exact ⟨_, by decide, .eq⟩
  | ne => exact ⟨_, by decide, .ne⟩
  | lt => exact ⟨_, by decide, .lt⟩
  | gt => exact ⟨_, by decide, .gt⟩
  | le => exact ⟨_, by decide, .le⟩
  | ge => exact ⟨_, by decide, .ge⟩
  | and => exact ⟨_, by decide, .and⟩
  | or => exact ⟨_, by decide, .or⟩

/-- An operator application in parentheses. -/
theorem derives_binary (op : BinaryOp) {left right : Expr} (h : Derives .primary ts left)
    (h' : Derives .primary us right) :
    Derives .primary (.lParen :: (ts ++ binaryOpToken op :: (us ++ [.rParen])))
      (.binary op left right .default) := by
  obtain ⟨l, hl, hop⟩ := exists_operator op
  have hchain := (derives_of_primary h l.next).chain hl
    (.cons hop (derives_of_primary h' l.next) (.nil l _))
  have hparens := Derives.parens (derives_or hchain)
  rw [List.append_nil, List.append_assoc, List.cons_append] at hparens
  exact hparens

mutual

/-- The printed tokens derive the expression. -/
theorem derives_exprTokens : (e : Expr) → Derives .primary (exprTokens e) e.eraseSpans
  | .intLiteral value _ => .intLiteral value
  | .boolLiteral value _ => .boolLiteral value
  | .identifier name _ => .identifier name
  | .binary op left right _ =>
    derives_binary op (derives_exprTokens left) (derives_exprTokens right)
  | .unary .neg operand _ => by
    have h := derives_of_primary (derives_exprTokens operand) .unary
    exact .parens (derives_or (.neg h))
  | .unary .not operand _ => by
    have h := derives_of_primary (derives_exprTokens operand) .unary
    exact .parens (derives_or (.not h))
  | .call name [] _ => .callNone name
  | .call name (arg :: args) _ => .call name (derives_of_primary (derives_exprTokens arg) .or)
      (moreArgs_moreArgsTokens args)
  | .arrayIndex name index _ =>
    .arrayIndex name (derives_of_primary (derives_exprTokens index) .or)
termination_by structural e => e

theorem moreArgs_moreArgsTokens : (es : List Expr) →
    MoreArgs (moreArgsTokens es) (eraseSpansList es)
  | [] => .nil
  | e :: es => .cons (derives_of_primary (derives_exprTokens e) .or) (moreArgs_moreArgsTokens es)
termination_by structural es => es

end

/-! ### Texts -/

/-- The one-byte symbols that start no longer symbol. -/
def delimiters : List Char := ['(', ')', '\x7b', '\x7d', '[', ']', ';', ',', '-']

theorem lexes_delimiter {c : Char} (hc : c ∈ delimiters) (h : Lexes s kinds) :
    Lexes (byte c :: s) (singleCharToken (byte c) :: kinds) := by
  have hall : delimiters.all (fun c ↦ decide ((isIdentifierChar (byte c) = false ∧
      isWhitespace (byte c) = false) ∧ byte c ≠ byte '/' ∧ byte c ≠ byte '=' ∧
      byte c ≠ byte '!' ∧ byte c ≠ byte '<' ∧ byte c ≠ byte '>' ∧ byte c ≠ byte '&' ∧
      byte c ≠ byte '|')) = true := by decide
  obtain ⟨hsymbol, hslash, heq, hnot, hlt, hgt, hand, hor⟩ :=
    of_decide_eq_true (List.all_eq_true.mp hall c hc)
  refine h.symbol _ hsymbol (fun hcomment ↦ hslash hcomment.1) ?_
  cases s.head? with
  | none => rfl
  | some next => simp [twoCharOperator, heq, hnot, hlt, hgt, hand, hor]

theorem lexes_space (h : Lexes s kinds) : Lexes (utf8Bytes " " ++ s) kinds :=
  h.blank (byte ' ') (by decide)

theorem lexes_lParen (h : Lexes s kinds) : Lexes (utf8Bytes "(" ++ s) (.lParen :: kinds) :=
  lexes_delimiter (c := '(') (by decide) h

theorem lexes_rParen (h : Lexes s kinds) : Lexes (utf8Bytes ")" ++ s) (.rParen :: kinds) :=
  lexes_delimiter (c := ')') (by decide) h

theorem lexes_lBracket (h : Lexes s kinds) : Lexes (utf8Bytes "[" ++ s) (.lBracket :: kinds) :=
  lexes_delimiter (c := '[') (by decide) h

theorem lexes_rBracket (h : Lexes s kinds) : Lexes (utf8Bytes "]" ++ s) (.rBracket :: kinds) :=
  lexes_delimiter (c := ']') (by decide) h

theorem lexes_comma (h : Lexes s kinds) : Lexes (utf8Bytes ", " ++ s) (.comma :: kinds) :=
  lexes_delimiter (c := ',') (by decide) (lexes_space h)

/-- A binary operator between blanks. -/
theorem lexes_binaryOp (op : BinaryOp) (h : Lexes s kinds) :
    Lexes (utf8Bytes (binaryOpSymbol op) ++ (utf8Bytes " " ++ s)) (binaryOpToken op :: kinds) := by
  have h := lexes_space h
  cases op with
  | add => exact h.symbol (byte '+') (by constructor <;> decide) (by simp +decide) rfl
  | sub => exact h.symbol (byte '-') (by constructor <;> decide) (by simp +decide) rfl
  | mul => exact h.symbol (byte '*') (by constructor <;> decide) (by simp +decide) rfl
  | div => exact h.symbol (byte '/') (by constructor <;> decide) (by simp +decide) rfl
  | lt => exact h.symbol (byte '<') (by constructor <;> decide) (by simp +decide) rfl
  | gt => exact h.symbol (byte '>') (by constructor <;> decide) (by simp +decide) rfl
  | eq => exact h.symbol₂ (byte '=') (byte '=') (by constructor <;> decide) rfl
  | ne => exact h.symbol₂ (byte '!') (byte '=') (by constructor <;> decide) rfl
  | le => exact h.symbol₂ (byte '<') (byte '=') (by constructor <;> decide) rfl
  | ge => exact h.symbol₂ (byte '>') (byte '=') (by constructor <;> decide) rfl
  | and => exact h.symbol₂ (byte '&') (byte '&') (by constructor <;> decide) rfl
  | or => exact h.symbol₂ (byte '|') (byte '|') (by constructor <;> decide) rfl

/-- A unary operator before an operand. -/
theorem lexes_unaryOp (op : UnaryOp) (h : Lexes s kinds) (hnext : s.head? ≠ some (byte '=')) :
    Lexes (utf8Bytes (unaryOpSymbol op) ++ s) (unaryOpToken op :: kinds) := by
  cases op with
  | neg => exact lexes_delimiter (c := '-') (by decide) h
  | not =>
    refine h.symbol (byte '!') (by constructor <;> decide) (by simp +decide) ?_
    cases hs : s.head? with
    | none => rfl
    | some next =>
      rw [hs] at hnext
      have hne : next ≠ byte '=' := fun heq ↦ hnext (heq ▸ rfl)
      simp +decide [twoCharOperator, hne]

/-- The words that the printer writes of its own. -/
def printedWords : List String :=
  ["if", "while", "else", "return", "print", "func", "int", "bool", "true", "false", "main"]

theorem isWord_printed {word : String} (h : word ∈ printedWords) : IsWord word := by
  have hall : ∀ word ∈ printedWords, utf8Bytes word ≠ [] ∧
      (∀ c ∈ utf8Bytes word, isIdentifierChar c = true) ∧
      (∀ c ∈ (utf8Bytes word).head?, isAsciiDigit c = false) ∧ text (utf8Bytes word) = word := by
    decide +kernel
  obtain ⟨hne, hchars, hfirst, htext⟩ := hall word h
  exact ⟨hne, hchars, hfirst, htext⟩

theorem isWord_bool (value : Bool) : IsWord (toString value) := by
  cases value with
  | true => exact isWord_printed (by decide)
  | false => exact isWord_printed (by decide)

/-- The bytes that a printed expression may start with. -/
theorem head_word {ch : UInt8} {word : List UInt8} (hch : isIdentifierChar ch = true) :
    (ch :: word ++ s).head? ≠ some (byte '=') := by
  rintro heq
  rw [Option.some_inj.mp heq] at hch
  exact absurd hch (by decide)

theorem head_name {name : String} (hname : IsWord name) :
    (utf8Bytes name ++ s).head? ≠ some (byte '=') := by
  obtain ⟨ch, word, hbytes⟩ := List.exists_cons_of_ne_nil hname.nonempty
  have hchars := hname.chars
  rw [hbytes] at hchars ⊢
  exact head_word (hchars ch List.mem_cons_self)

theorem head_emitExpr (e : Expr) (he : PrintableExpr e) :
    (utf8Bytes (emitExpr e) ++ s).head? ≠ some (byte '=') := by
  cases e with
  | intLiteral value span =>
    obtain ⟨n, hn⟩ := Int.eq_ofNat_of_zero_le (Int32.le_iff_toInt_le.mp he)
    have htext : toString value.toInt = n.repr := by
      rw [hn]
      rfl
    obtain ⟨-, hall, hne⟩ := digitsValue_repr n
    obtain ⟨b, bytes, hbytes⟩ := List.exists_cons_of_ne_nil hne
    rw [emitExpr, htext, hbytes]
    refine head_word ?_
    rw [isIdentifierChar, isAsciiAlphanumeric, hall b (hbytes ▸ List.mem_cons_self), Bool.or_true,
      Bool.true_or]
  | boolLiteral value span => exact head_name (isWord_bool value)
  | identifier name span => exact head_name he.toIsWord
  | binary op left right span =>
    simp only [emitExpr, utf8Bytes_append, List.append_assoc]
    exact fun heq ↦ absurd (Option.some_inj.mp heq) (by decide)
  | unary op operand span =>
    simp only [emitExpr, utf8Bytes_append, List.append_assoc]
    exact fun heq ↦ absurd (Option.some_inj.mp heq) (by decide)
  | call name args span =>
    simp only [emitExpr, utf8Bytes_append, List.append_assoc]
    exact head_name he.1.toIsWord
  | arrayIndex name index span =>
    simp only [emitExpr, utf8Bytes_append, List.append_assoc]
    exact head_name he.1.toIsWord

theorem lexes_bool (value : Bool) (h : Lexes s kinds) (hclosed : Closed s) :
    Lexes (utf8Bytes (toString value) ++ s) (.boolLiteral value :: kinds) := by
  cases value with
  | true => exact lexes_word (isWord_bool true) h hclosed
  | false => exact lexes_word (isWord_bool false) h hclosed

/-- The texts after the first of a joined list, with their separators. -/
def afterFirst (separator : String) : List String → String
  | [] => ""
  | text :: texts => separator ++ text ++ afterFirst separator texts

theorem intercalate_cons (separator text : String) (texts : List String) :
    separator.intercalate (text :: texts) = text ++ afterFirst separator texts := by
  induction texts generalizing text with
  | nil => rw [String.intercalate_singleton, afterFirst, String.append_empty]
  | cons text' texts ih =>
    rw [String.intercalate_cons_cons, ih, afterFirst, String.append_assoc, String.append_assoc]

mutual

/-- A printed expression has its tokens, before anything that does not continue its last word. -/
theorem lexes_emitExpr : (e : Expr) → PrintableExpr e → ∀ {s kinds}, Lexes s kinds → Closed s →
    Lexes (utf8Bytes (emitExpr e) ++ s) (exprTokens e ++ kinds)
  | .intLiteral _ _, he, _, _, h, hclosed => lexes_number he h hclosed
  | .boolLiteral value _, _, _, _, h, hclosed => lexes_bool value h hclosed
  | .identifier _ _, he, _, _, h, hclosed => lexes_name he h hclosed
  | .binary op left right _, he, s, kinds, h, _ => by
    have hright := lexes_emitExpr right he.2 (lexes_rParen h) (closed_cons (by decide) s)
    have hleft := lexes_emitExpr left he.1 (lexes_space (lexes_binaryOp op hright))
      (closed_cons (by decide) _)
    have hall := lexes_lParen hleft
    simp only [emitExpr, exprTokens, utf8Bytes_append, List.append_assoc, List.cons_append]
      at hall ⊢
    exact hall
  | .unary op operand _, he, s, kinds, h, _ => by
    have hoperand := lexes_emitExpr operand he (lexes_rParen h) (closed_cons (by decide) s)
    have hall := lexes_lParen (lexes_unaryOp op hoperand (head_emitExpr operand he))
    simp only [emitExpr, exprTokens, utf8Bytes_append, List.append_assoc, List.cons_append]
      at hall ⊢
    exact hall
  | .call name args _, he, s, kinds, h, _ => by
    have hargs := lexes_emitExprs args he.2 (lexes_rParen h) (closed_cons (by decide) s)
    have hall := lexes_name he.1 (lexes_lParen hargs) (closed_cons (by decide) _)
    simp only [emitExpr, exprTokens, utf8Bytes_append, List.append_assoc, List.cons_append]
      at hall ⊢
    exact hall
  | .arrayIndex name index _, he, s, kinds, h, _ => by
    have hindex := lexes_emitExpr index he.2 (lexes_rBracket h) (closed_cons (by decide) s)
    have hall := lexes_name he.1 (lexes_lBracket hindex) (closed_cons (by decide) _)
    simp only [emitExpr, exprTokens, utf8Bytes_append, List.append_assoc, List.cons_append]
      at hall ⊢
    exact hall
termination_by structural e => e

theorem lexes_emitExprs : (es : List Expr) → PrintableExprs es → ∀ {s kinds}, Lexes s kinds →
    Closed s → Lexes (utf8Bytes (", ".intercalate (emitExprs es)) ++ s) (argsTokens es ++ kinds)
  | [], _, _, _, h, _ => by
    rw [emitExprs, String.intercalate_nil, argsTokens]
    exact h
  | e :: es, hes, _, _, h, hclosed => by
    obtain ⟨hrest, hclosed⟩ := lexes_moreExprs es hes.2 h hclosed
    have hall := lexes_emitExpr e hes.1 hrest hclosed
    rw [emitExprs, intercalate_cons, argsTokens, utf8Bytes_append, List.append_assoc,
      List.append_assoc]
    exact hall
termination_by structural es => es

theorem lexes_moreExprs : (es : List Expr) → PrintableExprs es → ∀ {s kinds}, Lexes s kinds →
    Closed s → Lexes (utf8Bytes (afterFirst ", " (emitExprs es)) ++ s) (moreArgsTokens es ++ kinds) ∧
      Closed (utf8Bytes (afterFirst ", " (emitExprs es)) ++ s)
  | [], _, _, _, h, hclosed => ⟨h, hclosed⟩
  | e :: es, hes, _, _, h, hclosed => by
    obtain ⟨hrest, hclosed⟩ := lexes_moreExprs es hes.2 h hclosed
    have hall := lexes_comma (lexes_emitExpr e hes.1 hrest hclosed)
    simp only [emitExprs, afterFirst, moreArgsTokens, utf8Bytes_append, List.append_assoc,
      List.cons_append] at hall ⊢
    exact ⟨hall, closed_cons (by decide) _⟩
termination_by structural es => es

end

end Fuzz

end MiniLang
