import MiniLang.Syntax.Token

/-!
# Lexical analyzer

The source is the list of its UTF-8 bytes, and a lexer is what is left of it together with the
current line and column. Every loop takes fuel; `tokenize` supplies one unit per remaining byte,
which is enough because every token but the last consumes at least one byte.
-/

namespace MiniLang

structure Lexer where
  rest : List UInt8
  line : Nat
  column : Nat

namespace Lexer

def new (source : List UInt8) : Lexer := ⟨source, 1, 1⟩

def current (l : Lexer) : Option UInt8 := l.rest.head?

def peek (l : Lexer) : Option UInt8 := l.rest[1]?

/-- A byte literal of the source, such as `b'='`. -/
def byte (c : Char) : UInt8 := c.toUInt8

def advance (l : Lexer) : Lexer :=
  match l.rest with
  | [] => l
  | ch :: rest =>
    if ch = byte '\n' then ⟨rest, l.line + 1, 1⟩ else ⟨rest, l.line, l.column + 1⟩

/-- The loop `while p(current) { advance }`, with the bytes it passed over. -/
def advanceWhile (p : UInt8 → Bool) : List UInt8 → Nat → Nat → List UInt8 × Lexer
  | [], line, column => ([], ⟨[], line, column⟩)
  | ch :: rest, line, column =>
    if p ch then
      let l := advance ⟨ch :: rest, line, column⟩
      let r := advanceWhile p rest l.line l.column
      (ch :: r.1, r.2)
    else ([], ⟨ch :: rest, line, column⟩)

def takeWhile (p : UInt8 → Bool) (l : Lexer) : List UInt8 × Lexer :=
  advanceWhile p l.rest l.line l.column

def isWhitespace (ch : UInt8) : Bool :=
  ch == byte ' ' || ch == byte '\t' || ch == byte '\n' || ch == byte '\r'

def isAsciiDigit (ch : UInt8) : Bool := byte '0' ≤ ch && ch ≤ byte '9'

def isAsciiAlphabetic (ch : UInt8) : Bool :=
  (byte 'a' ≤ ch && ch ≤ byte 'z') || (byte 'A' ≤ ch && ch ≤ byte 'Z')

def isAsciiAlphanumeric (ch : UInt8) : Bool := isAsciiAlphabetic ch || isAsciiDigit ch

def skipWhitespaceAndComments : Nat → Lexer → Lexer
  | 0, l => l
  | fuel + 1, l =>
    let l := (l.takeWhile isWhitespace).2
    -- single-line comments
    if l.current = some (byte '/') ∧ l.peek = some (byte '/') then
      skipWhitespaceAndComments fuel (l.takeWhile (· != byte '\n')).2
    else l

def makeToken (l : Lexer) (kind : TokenKind) : Token := ⟨kind, ⟨l.line, l.column⟩⟩

/-- `value.wrapping_mul(10).wrapping_add(digit)` over the digits, in `i32`. -/
def digitsValue (digits : List UInt8) : Int32 :=
  digits.foldl (fun value ch ↦ value * 10 + Int32.ofNat (ch - byte '0').toNat) 0

def scanNumber (l : Lexer) : Token × Lexer :=
  let (digits, l') := l.takeWhile isAsciiDigit
  (l.makeToken (.intLiteral (digitsValue digits)), l')

/-- The text of a run of ASCII bytes. -/
def text (bytes : List UInt8) : String := String.ofList (bytes.map Char.ofUInt8)

def keywordOrIdentifier (text : String) : TokenKind :=
  match text with
  | "int" => .kwInt
  | "bool" => .kwBool
  | "if" => .kwIf
  | "else" => .kwElse
  | "while" => .kwWhile
  | "func" => .kwFunc
  | "return" => .kwReturn
  | "print" => .kwPrint
  | "true" => .boolLiteral true
  | "false" => .boolLiteral false
  | _ => .identifier text

def scanIdentifierOrKeyword (l : Lexer) : Token × Lexer :=
  let (bytes, l') := l.takeWhile fun ch ↦ isAsciiAlphanumeric ch || ch == byte '_'
  (l.makeToken (keywordOrIdentifier (text bytes)), l')

/-- The two-character operators: their first and second byte. -/
def twoCharOperator (ch next : UInt8) : Option TokenKind :=
  if ch = byte '=' ∧ next = byte '=' then some .eq
  else if ch = byte '!' ∧ next = byte '=' then some .ne
  else if ch = byte '<' ∧ next = byte '=' then some .le
  else if ch = byte '>' ∧ next = byte '=' then some .ge
  else if ch = byte '&' ∧ next = byte '&' then some .and
  else if ch = byte '|' ∧ next = byte '|' then some .or
  else none

def singleCharToken (ch : UInt8) : TokenKind :=
  if ch = byte '+' then .plus
  else if ch = byte '-' then .minus
  else if ch = byte '*' then .star
  else if ch = byte '/' then .slash
  else if ch = byte '<' then .lt
  else if ch = byte '>' then .gt
  else if ch = byte '!' then .not
  else if ch = byte '=' then .assign
  else if ch = byte '(' then .lParen
  else if ch = byte ')' then .rParen
  else if ch = byte '{' then .lBrace
  else if ch = byte '}' then .rBrace
  else if ch = byte '[' then .lBracket
  else if ch = byte ']' then .rBracket
  else if ch = byte ';' then .semicolon
  else if ch = byte ',' then .comma
  else .error s!"Unexpected character: {Char.ofUInt8 ch}"

def nextToken (lexer : Lexer) : Token × Lexer :=
  let l := lexer.skipWhitespaceAndComments (lexer.rest.length + 1)
  match l.rest with
  | [] => (l.makeToken .eof, l)
  | ch :: _ =>
    if isAsciiDigit ch then l.scanNumber
    else if isAsciiAlphabetic ch || ch == byte '_' then l.scanIdentifierOrKeyword
    else match l.peek.bind (twoCharOperator ch) with
      | some kind => (l.makeToken kind, l.advance.advance)
      | none => (l.makeToken (singleCharToken ch), l.advance)

/-- The loop of `tokenize`: tokens are collected up to and including the first `Eof`. -/
def tokenizeLoop : Nat → Lexer → List Token
  | 0, _ => []
  | fuel + 1, l =>
    let (token, l') := l.nextToken
    if token.kind = .eof then [token] else token :: tokenizeLoop fuel l'

end Lexer

/-- Tokenize the entire source into a list of tokens. -/
def tokenize (source : List UInt8) : List Token :=
  (Lexer.new source).tokenizeLoop (source.length + 1)

end MiniLang
