import Mathlib.Data.BitVec
/-!
# Tokens

The token kinds of the lexer, with the source position of each token.
-/

namespace MiniLang

/-- Source location for error reporting. -/
structure Span where
  line : Nat
  column : Nat
deriving DecidableEq

/-- `Span::default()`. -/
def Span.default : Span := ⟨0, 0⟩

inductive TokenKind
  -- Literals
  | intLiteral (value : Int32)
  | boolLiteral (value : Bool)
  | identifier (name : String)
  -- Keywords
  | kwInt | kwBool | kwIf | kwElse | kwWhile | kwFunc | kwReturn | kwPrint
  -- Arithmetic operators
  | plus | minus | star | slash
  -- Comparison operators
  | eq | ne | lt | gt | le | ge
  -- Logical operators
  | and | or | not
  | assign
  -- Delimiters
  | lParen | rParen | lBrace | rBrace | lBracket | rBracket | semicolon | comma
  -- Special
  | eof
  | error (message : String)
deriving DecidableEq

structure Token where
  kind : TokenKind
  span : Span
deriving DecidableEq

end MiniLang
