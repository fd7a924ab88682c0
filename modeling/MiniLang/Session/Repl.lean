import MiniLang.Sema.Parsed
import MiniLang.Syntax.Lexing

/-!
# The interactive session

`Repl` keeps the text of the definitions entered so far. A definition is parsed together with them
and then appended; an expression becomes the value of a `main` behind them, which is parsed,
analyzed and run. What a run prints is not modelled.
-/

namespace MiniLang

structure Repl where
  globalsSource : String
  functionsSource : String
  deriving DecidableEq

inductive ReplError
  | parse (e : ParseFailure)
  | semantic (errors : List SemanticError)

/-- The code points with the Unicode property White_Space. -/
def whiteSpace : List Nat :=
  [0x9, 0xa, 0xb, 0xc, 0xd, 0x20, 0x85, 0xa0, 0x1680, 0x2000, 0x2001, 0x2002, 0x2003, 0x2004,
    0x2005, 0x2006, 0x2007, 0x2008, 0x2009, 0x200a, 0x2028, 0x2029, 0x202f, 0x205f, 0x3000]

/-- `char::is_whitespace` -/
def isWhiteSpace (c : Char) : Bool := whiteSpace.contains c.toNat

/-- `input.trim_start().starts_with(word)` -/
def startsWithWord (input word : String) : Bool :=
  word.toList.isPrefixOf (input.toList.dropWhile isWhiteSpace)

namespace Repl

def new : Repl := ⟨"", ""⟩

/-- The source of a program with the definitions and `text` behind them. -/
def source (repl : Repl) (text : String) : String :=
  repl.globalsSource ++ "\n" ++ repl.functionsSource ++ "\n" ++ text

def addFunction (repl : Repl) (input : String) : Except ReplError Unit × Repl :=
  match Parser.parse (tokenize (utf8Bytes (repl.source input))) with
  | .error e => (.error (.parse e), repl)
  | .ok _ => (.ok (), { repl with functionsSource := repl.functionsSource ++ input ++ "\n" })

def addGlobal (repl : Repl) (input : String) : Except ReplError Unit × Repl :=
  -- ensure that it ends with a semicolon
  let input := if input.toList.getLast? = some ';' then input else input ++ ";"
  let source := repl.globalsSource ++ "\n" ++ input ++ "\nfunc main() \x7b return 0; \x7d"
  match Parser.parse (tokenize (utf8Bytes source)) with
  | .error e => (.error (.parse e), repl)
  | .ok _ => (.ok (), { repl with globalsSource := repl.globalsSource ++ input ++ "\n" })

def evalExpression (repl : Repl) (expr : String) : Except ReplError Unit × Repl :=
  let source := repl.source ("func main() \x7b return " ++ expr ++ "; \x7d")
  match Parser.parse (tokenize (utf8Bytes source)) with
  | .error e => (.error (.parse e), repl)
  | .ok program =>
    match SemanticAnalyzer.analyze program with
    | .error errors => (.error (.semantic errors), repl)
    | .ok () => (.ok (), repl)

def handleInput (repl : Repl) (input : String) : Except ReplError Unit × Repl :=
  if startsWithWord input "func " then repl.addFunction input
  else if startsWithWord input "int " || startsWithWord input "bool " then repl.addGlobal input
  else repl.evalExpression input

/-- The command `:clear`. -/
def clear (_ : Repl) : Repl := new

/-- A function or a global. -/
def IsDefinition (input : String) : Prop :=
  startsWithWord input "func " = true ∨ startsWithWord input "int " = true ∨
    startsWithWord input "bool " = true

/-- The states of a session, after any inputs. -/
inductive Reachable : Repl → Prop
  | new : Reachable new
  | input {repl : Repl} (h : Reachable repl) (input : String) :
      Reachable (repl.handleInput input).2
  | clear {repl : Repl} (h : Reachable repl) : Reachable repl.clear

/-- The wrapper around the expression `0`. -/
def wrapper (repl : Repl) : List UInt8 :=
  utf8Bytes (repl.source "func main() \x7b return 0; \x7d")

/-- The definitions with a `main` behind them parse and pass semantic analysis. -/
def Usable (repl : Repl) : Prop :=
  ∃ p, Parsed repl.wrapper p ∧ SemanticAnalyzer.analyze p = .ok ()

theorem usable_iff_analyze {repl : Repl} {p : Program} (h : Parsed repl.wrapper p) :
    Usable repl ↔ SemanticAnalyzer.analyze p = .ok () := by
  constructor
  · rintro ⟨p', hp', hanalyze⟩
    cases h.symm.trans hp'
    exact hanalyze
  · exact fun hanalyze ↦ ⟨p, h, hanalyze⟩

instance : DecidablePred Usable := fun repl ↦
  match hparse : Parser.parse (tokenize repl.wrapper) with
  | .error _ => .isFalse fun ⟨_, hp, _⟩ ↦ nomatch hparse.symm.trans hp
  | .ok _ => decidable_of_iff _ (usable_iff_analyze hparse).symm

instance (answer : Except ReplError Unit) : Decidable (answer = .ok ()) :=
  match answer with
  | .error _ => .isFalse nofun
  | .ok () => .isTrue rfl

end Repl

end MiniLang
