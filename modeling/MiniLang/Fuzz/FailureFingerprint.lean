import MiniLang.Bytecode.FrontEnd
import MiniLang.Fuzz.EmitTokens
import MiniLang.Syntax.Lexing
import MiniLang.Syntax.ParserExact

/-!
# Fingerprints of failures

A failure is fingerprinted by a hash of its rendered text, from which the position of a semantic
error is erased first. The normaliser looks only at lines that begin like a whole rendered compile
failure, which is the first line: the position of a parse error stays, and so does that of every
semantic error after the first. As two texts that differ in one byte never share a hash, the
fingerprint depends on the positions that stay.

## What the normaliser does to a text

`normalized` computes it line by line. A line that begins like a semantic failure loses what is
between its prefix and the next `": "`, which is the position, because a position has a colon only
before a digit (`splitOnce_spanChars`). Any other line is `Kept`. The errors after the first are on
lines of their own, and begin with a position and not with the prefix.

## Texts that differ in one byte

The hash multiplies by an odd number after each byte, so that each step can be undone and two states
that differ stay different over equal bytes. If a position is left in the text, there is another
position that is printed with one digit changed, the last of its column (`exists_near`), and the
message around it is the same. This makes the condition exact: where a position stays, some other
position has another fingerprint.
-/

namespace MiniLang.Fuzz

/-! ## Rendered failures -/

/-- `Display` for `Span`. -/
def spanText (span : Span) : String := toString span.line ++ ":" ++ toString span.column

/-- `Display` for `ParseError`. -/
def parseErrorText (message : String) (span : Span) : String :=
  "Parse error at " ++ spanText span ++ ": " ++ message

/-- `Display` for `SemanticError`. -/
def semanticErrorText (error : SemanticError) : String :=
  "Semantic error at " ++ spanText error.span ++ ": " ++ error.message

/-- What the front end of the fuzzer reports: the error of the parser, or the errors of the
analyzer, of which there is at least one. -/
inductive Diagnostics
  | parse (message : String) (span : Span)
  | semantic (error : SemanticError) (errors : List SemanticError)

def Diagnostics.text : Diagnostics → String
  | .parse message span => "Parse error: " ++ parseErrorText message span
  | .semantic error errors => "\n".intercalate ((error :: errors).map semanticErrorText)

def parseCheckedProgram (source : List UInt8) : Except String Program :=
  match Parser.parse (tokenize source) with
  | .error (.error message span) => .error ("Parse error: " ++ parseErrorText message span)
  -- the parser never ends so
  | .error _ => .error ""
  | .ok program =>
    match SemanticAnalyzer.analyze program with
    | .error errors => .error ("\n".intercalate (errors.map semanticErrorText))
    | .ok () => .ok program

inductive FuzzFailureReason
  | compile (msg : String)
  | verification (msg : String)
  | astOracle (msg : String)
  | backendComparison (msg : String)
  | traceReplay (msg : String)
  | traceDiff (msg : String)
  | metamorphic (msg : String)

namespace FuzzFailureReason

def tag : FuzzFailureReason → String
  | .compile _ => "compile"
  | .verification _ => "verification"
  | .astOracle _ => "ast-oracle"
  | .backendComparison _ => "backend-comparison"
  | .traceReplay _ => "trace-replay"
  | .traceDiff _ => "trace-diff"
  | .metamorphic _ => "metamorphic"

/-- `Display` -/
def display : FuzzFailureReason → String
  | .compile msg => "compile failure: " ++ msg
  | .verification msg => "verification failure:\n" ++ msg
  | .astOracle msg => "AST oracle comparison failure:\n" ++ msg
  | .backendComparison msg => "backend comparison failure:\n" ++ msg
  | .traceReplay msg => "trace replay failure:\n" ++ msg
  | .traceDiff msg => "trace diff failure:\n" ++ msg
  | .metamorphic msg => "metamorphic equivalence failure:\n" ++ msg

end FuzzFailureReason

/-! ## The fingerprint -/

/-- `str::lines`: lines end at `\n` or `\r\n`, and the last one may have no end. -/
def lines : List Char → List (List Char)
  | [] => []
  | '\r' :: '\n' :: rest => [] :: lines rest
  | '\n' :: rest => [] :: lines rest
  | ch :: rest =>
    match lines rest with
    | [] => [[ch]]
    | line :: more => (ch :: line) :: more

/-- `split_once(": ")` -/
def splitOnce : List Char → Option (List Char × List Char)
  | [] => none
  | ':' :: ' ' :: rest => some ([], rest)
  | ch :: rest => (splitOnce rest).map fun (before, after) ↦ (ch :: before, after)

def normalizeFailureLine (line : List Char) : List Char :=
  match line.dropPrefix? "compile failure: Semantic error at ".toList with
  | none => line
  | some rest =>
    match splitOnce rest with
    | none => line
    | some (_, message) => "compile failure: Semantic error at <span>: ".toList ++ message

def normalizeFailureMessage (message : String) : String :=
  String.ofList (['\n'].intercalate ((lines message.toList).map normalizeFailureLine))

def stableHash (value : String) : UInt64 :=
  (utf8Bytes value).foldl (fun hash byte ↦ (hash ^^^ byte.toUInt64) * 0x00000100000001b3)
    0xcbf29ce484222325

def FuzzFailureReason.fingerprint (reason : FuzzFailureReason) : UInt64 :=
  stableHash (reason.tag ++ ":" ++ normalizeFailureMessage reason.display)

/-! ## Lines -/

/-- A character that neither ends a line nor starts an end. -/
theorem lines_cons {ch : Char} {rest : List Char} (hnewline : ch ≠ '\n')
    (hreturn : ch = '\r' → rest.head? ≠ some '\n') :
    lines (ch :: rest) = (ch :: (lines rest).headD []) :: (lines rest).tail := by
  rw [lines]
  · cases lines rest with
    | nil => rfl
    | cons line more => rfl
  · rintro rest' rfl rfl
    exact hreturn rfl rfl
  · exact hnewline

/-- No part of a line end. -/
def Unbroken (text : List Char) : Prop := ∀ ch ∈ text, ch ≠ '\n' ∧ ch ≠ '\r'

instance (text : List Char) : Decidable (Unbroken text) := List.decidableBAll _ text

theorem lines_unbroken {text : List Char} (h : Unbroken text) (hne : text ≠ []) (rest : List Char) :
    lines (text ++ rest) = (text ++ (lines rest).headD []) :: (lines rest).tail := by
  induction text with
  | nil => exact absurd rfl hne
  | cons ch text ih =>
    obtain ⟨⟨hnewline, hreturn⟩, hmore⟩ := List.forall_mem_cons.mp h
    rw [List.cons_append, lines_cons hnewline fun h ↦ absurd h hreturn]
    cases text with
    | nil => rfl
    | cons ch' text =>
      rw [ih hmore (List.cons_ne_nil _ _), List.headD_cons, List.tail_cons]
      rfl

theorem lines_ne_nil (ch : Char) (rest : List Char) : lines (ch :: rest) ≠ [] := by
  rw [lines.eq_def]
  split
  · contradiction
  · exact List.cons_ne_nil _ _
  · exact List.cons_ne_nil _ _
  · split <;> exact List.cons_ne_nil _ _

theorem lines_newline (text rest : List Char) :
    lines (text ++ '\n' :: rest) = lines (text ++ ['\n']) ++ lines rest := by
  fun_induction lines text with
  | case1 => rfl
  | case2 more ih => exact congrArg ([] :: ·) ih
  | case3 more ih => exact congrArg ([] :: ·) ih
  | case4 ch more hreturn hnewline hlines ih =>
    cases more with
    | nil =>
      by_cases hch : ch = '\r'
      · subst hch
        rfl
      · rw [List.singleton_append, List.singleton_append, lines_cons hnewline fun h ↦ absurd h hch,
          lines_cons hnewline fun h ↦ absurd h hch]
        rfl
    | cons ch' more => exact absurd hlines (lines_ne_nil ch' more)
  | case5 ch more hreturn hnewline line lines' hlines ih =>
    cases more with
    | nil => cases hlines
    | cons ch' more =>
      have hhead : ch = '\r' → ch' ≠ '\n' := fun h h' ↦ hreturn more h (h' ▸ rfl)
      have hcons (tail : List Char) : lines (ch :: (ch' :: more ++ tail)) =
          (ch :: (lines (ch' :: more ++ tail)).headD []) :: (lines (ch' :: more ++ tail)).tail :=
        lines_cons hnewline fun h h' ↦ hhead h (Option.some.inj h')
      obtain ⟨first, others, hfirst⟩ : ∃ first others,
          lines (ch' :: more ++ ['\n']) = first :: others :=
        List.exists_cons_of_ne_nil (lines_ne_nil ch' (more ++ ['\n']))
      have hmore : lines (ch' :: more ++ '\n' :: rest) = first :: (others ++ lines rest) := by
        rw [ih, hfirst]
        rfl
      calc
        _ = (ch :: first) :: (others ++ lines rest) := by
          rw [List.cons_append, hcons, hmore]
          rfl
        _ = _ := by
          rw [List.cons_append, hcons, hfirst]
          rfl

/-! ## Positions in a text -/

def spanChars (span : Span) : List Char :=
  Nat.toDigits 10 span.line ++ ':' :: Nat.toDigits 10 span.column

theorem toList_spanText (span : Span) : (spanText span).toList = spanChars span := by
  rw [spanText, String.toList_append, String.toList_append, Nat.toString_eq_repr,
    Nat.toString_eq_repr, Nat.toList_repr, Nat.toList_repr, List.append_assoc]
  rfl

theorem ne_of_isDigit {ch : Char} (h : ch.isDigit = true) :
    ch ≠ '\n' ∧ ch ≠ '\r' ∧ ch ≠ ':' ∧ ch ≠ ' ' := by
  refine ⟨?_, ?_, ?_, ?_⟩ <;> (rintro rfl; exact absurd h (by decide))

theorem isDigit_toDigits {n : Nat} {ch : Char} (h : ch ∈ Nat.toDigits 10 n) : ch.isDigit = true :=
  Nat.isDigit_of_mem_toDigits (by decide) (by decide) h

theorem unbroken_append {text text' : List Char} (h : Unbroken text) (h' : Unbroken text') :
    Unbroken (text ++ text') :=
  fun ch hch ↦ (List.mem_append.mp hch).elim (h ch) (h' ch)

theorem unbroken_toDigits (n : Nat) : Unbroken (Nat.toDigits 10 n) := by
  intro ch hch
  obtain ⟨hnewline, hreturn, -⟩ := ne_of_isDigit (isDigit_toDigits hch)
  exact ⟨hnewline, hreturn⟩

theorem unbroken_spanChars (span : Span) : Unbroken (spanChars span) :=
  unbroken_append (unbroken_toDigits _)
    (unbroken_append (by decide : Unbroken [':']) (unbroken_toDigits _))

theorem splitOnce_digits {digits : List Char} (h : ∀ ch ∈ digits, ch.isDigit = true)
    (rest : List Char) : splitOnce (digits ++ rest) =
      (splitOnce rest).map fun (before, after) ↦ (digits ++ before, after) := by
  induction digits with
  | nil =>
    cases hrest : splitOnce rest <;> rw [List.nil_append, hrest] <;> rfl
  | cons ch digits ih =>
    obtain ⟨hch, hmore⟩ := List.forall_mem_cons.mp h
    rw [List.cons_append, splitOnce, ih hmore, Option.map_map]
    · rfl
    · rintro rest' rfl -
      exact absurd hch (by decide)

/-- The colon inside a position is followed by a digit. -/
theorem splitOnce_spanChars (span : Span) (message : List Char) :
    splitOnce (spanChars span ++ ':' :: ' ' :: message) = some (spanChars span, message) := by
  obtain ⟨ch, digits, hdigits⟩ := List.exists_cons_of_ne_nil (@Nat.toDigits_ne_nil span.column 10)
  have hcolumn : ∀ c ∈ ch :: digits, c.isDigit = true := fun c hc ↦ isDigit_toDigits (hdigits ▸ hc)
  have hinner : splitOnce (':' :: (ch :: digits) ++ ':' :: ' ' :: message) =
      some (':' :: ch :: digits, message) := by
    rw [List.cons_append, splitOnce, splitOnce_digits hcolumn, splitOnce]
    · simp only [Option.map_some, List.append_nil]
    · rintro rest - heq
      obtain ⟨rfl, -⟩ := List.cons.inj heq
      exact absurd (hcolumn ' ' List.mem_cons_self) (by decide)
  rw [spanChars, hdigits, List.append_assoc, splitOnce_digits fun _ ↦ isDigit_toDigits, hinner]
  rfl

/-- The position is erased from a first line. -/
theorem normalizeFailureLine_semantic (span : Span) (message : List Char) :
    normalizeFailureLine ("compile failure: Semantic error at ".toList ++
        (spanChars span ++ (": ".toList ++ message))) =
      "compile failure: Semantic error at <span>: ".toList ++ message := by
  have hstrip : ("compile failure: Semantic error at ".toList ++
      (spanChars span ++ (": ".toList ++ message))).dropPrefix?
        "compile failure: Semantic error at ".toList =
      some (spanChars span ++ (": ".toList ++ message)) := by
    rw [List.dropPrefix?_eq_some_iff]
    exact ⟨_, rfl, beq_self_eq_true _⟩
  have hsplit : splitOnce (spanChars span ++ (": ".toList ++ message)) =
      some (spanChars span, message) := splitOnce_spanChars span message
  rw [normalizeFailureLine, hstrip]
  dsimp only
  rw [hsplit]

/-! ## What stays of a text -/

/-- The lines of a message after normalisation, put together again. -/
def normalized (text : List Char) : List Char :=
  ['\n'].intercalate ((lines text).map normalizeFailureLine)

theorem joined_cons (line : List Char) (more : List (List Char)) :
    ['\n'].intercalate (line :: more) = line ++ more.flatMap ('\n' :: ·) := by
  induction more generalizing line with
  | nil => rw [List.intercalate_singleton, List.flatMap_nil, List.append_nil]
  | cons line' more ih => rw [List.intercalate_cons_cons, ih, List.flatMap_cons, List.append_assoc]; rfl

/-- Where the first line begins like a semantic error. -/
theorem normalized_semantic (span : Span) (message : List Char) :
    normalized ("compile failure: Semantic error at ".toList ++
        (spanChars span ++ (": ".toList ++ message))) =
      "compile failure: Semantic error at <span>: ".toList ++ (lines message).headD [] ++
        ((lines message).tail.map normalizeFailureLine).flatMap ('\n' :: ·) := by
  have hunbroken : Unbroken ("compile failure: Semantic error at ".toList ++
      (spanChars span ++ ": ".toList)) :=
    unbroken_append (by decide) (unbroken_append (unbroken_spanChars span) (by decide))
  have hlines := lines_unbroken hunbroken (List.append_ne_nil_of_left_ne_nil (by decide) _) message
  rw [List.append_assoc, List.append_assoc] at hlines
  rw [normalized, hlines, List.map_cons, joined_cons, List.append_assoc, List.append_assoc,
    normalizeFailureLine_semantic]

/-- A line that the normaliser leaves as it is because of how it begins. -/
def Kept (start : List Char) : Prop := ∀ rest, normalizeFailureLine (start ++ rest) = start ++ rest

theorem normalized_kept {start : List Char} (hkept : Kept start) (hstart : Unbroken start)
    (rest : List Char) : ∃ more, ∀ ch, ch.isDigit = true →
      normalized (start ++ ch :: rest) = start ++ ch :: more := by
  refine ⟨(lines rest).headD [] ++
    ((lines rest).tail.map normalizeFailureLine).flatMap ('\n' :: ·), fun ch hch ↦ ?_⟩
  obtain ⟨hnewline, hreturn, -⟩ := ne_of_isDigit hch
  have hunbroken : Unbroken (start ++ [ch]) :=
    unbroken_append hstart (List.forall_mem_singleton.mpr ⟨hnewline, hreturn⟩)
  have hlines := lines_unbroken hunbroken (List.append_ne_nil_of_right_ne_nil _ (by simp)) rest
  rw [List.append_assoc, List.append_assoc] at hlines
  rw [normalized, show ch :: rest = [ch] ++ rest from rfl, hlines, List.map_cons, hkept,
    joined_cons, List.append_assoc, List.append_assoc]
  rfl

/-- After whole lines. -/
theorem normalized_newline (before rest : List Char) (hrest : rest ≠ []) :
    normalized (before ++ '\n' :: rest) =
      normalized (before ++ ['\n']) ++ '\n' :: normalized rest := by
  obtain ⟨line, more, hbefore⟩ : ∃ line more, lines (before ++ ['\n']) = line :: more := by
    cases before with
    | nil => exact ⟨_, _, rfl⟩
    | cons ch before => exact List.exists_cons_of_ne_nil (lines_ne_nil ch _)
  obtain ⟨ch, rest, rfl⟩ := List.exists_cons_of_ne_nil hrest
  obtain ⟨line', more', hlines⟩ := List.exists_cons_of_ne_nil (lines_ne_nil ch rest)
  rw [normalized, lines_newline, hbefore, hlines, normalized, hbefore, normalized, hlines]
  simp only [List.map_cons, List.map_append, List.cons_append, joined_cons,
    List.flatMap_append, List.flatMap_cons, List.append_assoc]

/-! ## Texts that differ in one byte -/

/-- The multiplier is odd, so that a step of the hash can be undone. -/
theorem hash_step_injective {a b : UInt64} {byte byte' : UInt8}
    (h : (a ^^^ byte.toUInt64) * 0x00000100000001b3 =
      (b ^^^ byte'.toUInt64) * 0x00000100000001b3) : a ^^^ byte.toUInt64 = b ^^^ byte'.toUInt64 := by
  have hundo (x : UInt64) : x * 0x00000100000001b3 * 0xce965057aff6957b = x := by
    rw [UInt64.mul_assoc, show (0x00000100000001b3 : UInt64) * 0xce965057aff6957b = 1 from by decide,
      UInt64.mul_one]
  rw [← hundo (a ^^^ byte.toUInt64), h, hundo]

theorem xor_right_cancel {a b c : UInt64} (h : a ^^^ c = b ^^^ c) : a = b := by
  rw [← UInt64.xor_zero (a := a), ← UInt64.xor_self (a := c), ← UInt64.xor_assoc, h,
    UInt64.xor_assoc, UInt64.xor_self, UInt64.xor_zero]

theorem hash_ne_of_state {a b : UInt64} (h : a ≠ b) (bytes : List UInt8) :
    bytes.foldl (fun hash byte ↦ (hash ^^^ byte.toUInt64) * 0x00000100000001b3) a ≠
      bytes.foldl (fun hash byte ↦ (hash ^^^ byte.toUInt64) * 0x00000100000001b3) b := by
  induction bytes generalizing a b with
  | nil => exact h
  | cons byte bytes ih =>
    apply ih
    intro heq
    exact h (xor_right_cancel (hash_step_injective heq))

theorem stableHash_ne {before after : List Char} {ch ch' : Char} (h : ch.isDigit = true)
    (h' : ch'.isDigit = true) (hne : ch ≠ ch') :
    stableHash (String.ofList (before ++ ch :: after)) ≠
      stableHash (String.ofList (before ++ ch' :: after)) := by
  obtain ⟨byte, hbyte, -, hvalue⟩ := exists_digit h
  obtain ⟨byte', hbyte', -, hvalue'⟩ := exists_digit h'
  simp only [stableHash, utf8Bytes, String.toList_ofList, List.flatMap_append, List.flatMap_cons,
    hbyte, hbyte', List.foldl_append]
  apply hash_ne_of_state
  intro heq
  have hxor := hash_step_injective heq
  rw [UInt64.xor_comm, UInt64.xor_comm _ byte'.toUInt64] at hxor
  obtain rfl := UInt8.toUInt64_inj.mp (xor_right_cancel hxor)
  rw [hvalue] at hvalue'
  apply hne
  apply Char.toNat_inj.mp
  have hlow : '0'.toNat ≤ ch.toNat := by
    rw [Char.isDigit, Bool.and_eq_true, decide_eq_true_eq] at h
    exact h.1
  have hlow' : '0'.toNat ≤ ch'.toNat := by
    rw [Char.isDigit, Bool.and_eq_true, decide_eq_true_eq] at h'
    exact h'.1
  omega

/-- A column whose numeral differs in the last digit only. -/
def nearColumn (column : Nat) : Nat := if column % 10 = 0 then column + 1 else column - 1

def nearSpan (span : Span) : Span := ⟨span.line, nearColumn span.column⟩

/-- The digits but the last. -/
def frontDigits (n : Nat) : List Char := if n < 10 then [] else Nat.toDigits 10 (n / 10)

theorem toDigits_eq (n : Nat) :
    Nat.toDigits 10 n = frontDigits n ++ [Nat.digitChar (n % 10)] := by
  rw [frontDigits]
  split
  · rename_i h
    rw [Nat.toDigits_of_lt_base h, Nat.mod_eq_of_lt h, List.nil_append]
  · rename_i h
    exact Nat.toDigits_of_base_le (by decide) (Nat.le_of_not_lt h)

theorem digitChar_inj : ∀ n < 10, ∀ m < 10, Nat.digitChar n = Nat.digitChar m → n = m := by
  decide

theorem isDigit_digitChar : ∀ n < 10, (Nat.digitChar n).isDigit = true := by
  decide

theorem nearColumn_lt {column : Nat} (h : column < 2 ^ 32) : nearColumn column < 2 ^ 32 := by
  rw [nearColumn]
  split <;> omega

/-- Two texts of positions that differ in their last character. -/
theorem exists_near (span : Span) : ∃ front ch ch', spanChars span = front ++ [ch] ∧
    spanChars (nearSpan span) = front ++ [ch'] ∧ Unbroken front ∧
    ch.isDigit = true ∧ ch'.isDigit = true ∧ ch ≠ ch' := by
  have hnear : nearColumn span.column / 10 = span.column / 10 ∧
      nearColumn span.column % 10 ≠ span.column % 10 ∧
      (nearColumn span.column < 10 ↔ span.column < 10) := by
    rw [nearColumn]
    split <;> omega
  obtain ⟨hdiv, hmod, hlt⟩ := hnear
  refine ⟨Nat.toDigits 10 span.line ++ ':' :: frontDigits span.column, _, _, ?_, ?_, ?_,
    isDigit_digitChar (span.column % 10) (by omega),
    isDigit_digitChar (nearColumn span.column % 10) (by omega), fun heq ↦ hmod ?_⟩
  · rw [spanChars, toDigits_eq span.column, List.append_assoc, List.cons_append]
  · have hfront : frontDigits (nearColumn span.column) = frontDigits span.column := by
      simp only [frontDigits, hlt, hdiv]
    rw [spanChars, nearSpan, toDigits_eq (nearColumn span.column), hfront, List.append_assoc,
      List.cons_append]
  · apply unbroken_append (unbroken_toDigits _)
    apply unbroken_append (by decide : Unbroken [':'])
    split
    · exact List.forall_mem_nil _
    · exact unbroken_toDigits _
  · exact (digitChar_inj _ (by omega) _ (by omega) heq).symm

/-! ## Failures and their positions -/

namespace Diagnostics

/-- The failure that is reported. -/
def reason (d : Diagnostics) : FuzzFailureReason := .compile d.text

/-- The same diagnostics without their positions. -/
def messages : Diagnostics → Bool × List String
  | .parse message _ => (false, [message])
  | .semantic error errors => (true, (error :: errors).map SemanticError.message)

/-- Lines and columns are those of the type of positions. -/
def Fits : Diagnostics → Prop
  | .parse _ span => span.line < 2 ^ 32 ∧ span.column < 2 ^ 32
  | .semantic error errors =>
    ∀ e ∈ error :: errors, e.span.line < 2 ^ 32 ∧ e.span.column < 2 ^ 32

/-- What follows the first error. -/
def moreText (errors : List SemanticError) : List Char :=
  errors.flatMap fun error ↦ '\n' :: (semanticErrorText error).toList

theorem toList_semanticErrorText (error : SemanticError) : (semanticErrorText error).toList =
    "Semantic error at ".toList ++ (spanChars error.span ++ (": ".toList ++ error.message.toList)) := by
  change ("Semantic error at " ++ spanText error.span ++ ": " ++ error.message).toList = _
  rw [String.toList_append, String.toList_append, String.toList_append, toList_spanText,
    List.append_assoc, List.append_assoc]

theorem toList_text_semantic (error : SemanticError) (errors : List SemanticError) :
    (text (.semantic error errors)).toList = "Semantic error at ".toList ++
      (spanChars error.span ++ (": ".toList ++ (error.message.toList ++ moreText errors))) := by
  have hmore : ((errors.map semanticErrorText).map String.toList).flatMap ('\n' :: ·) =
      moreText errors := by
    rw [List.map_map, List.flatMap_map]
    rfl
  have hnewline : "\n".toList = ['\n'] := rfl
  rw [text, String.toList_intercalate, List.map_cons, List.map_cons, hnewline, joined_cons, hmore,
    toList_semanticErrorText, List.append_assoc, List.append_assoc, List.append_assoc]

theorem fingerprint_eq (d : Diagnostics) : d.reason.fingerprint = stableHash (String.ofList
    ("compile:".toList ++ normalized ("compile failure: ".toList ++ d.text.toList))) := by
  have htag : "compile:" = "compile" ++ ":" := by decide
  have hdisplay : d.reason.display.toList = "compile failure: ".toList ++ d.text.toList :=
    String.toList_append
  rw [String.ofList_append, String.ofList_toList, ← hdisplay, htag]
  rfl

theorem toList_display_semantic (error : SemanticError) (errors : List SemanticError) :
    "compile failure: ".toList ++ (text (.semantic error errors)).toList =
      "compile failure: Semantic error at ".toList ++ (spanChars error.span ++
        (": ".toList ++ (error.message.toList ++ moreText errors))) := by
  have hfirst : "compile failure: ".toList ++ "Semantic error at ".toList =
      "compile failure: Semantic error at ".toList := by decide
  rw [toList_text_semantic, ← List.append_assoc, hfirst]

/-- The position of the first semantic error plays no part. -/
theorem fingerprint_semantic {error error' : SemanticError} (errors : List SemanticError)
    (h : error'.message = error.message) :
    (reason (.semantic error' errors)).fingerprint = (reason (.semantic error errors)).fingerprint := by
  rw [fingerprint_eq, fingerprint_eq, toList_display_semantic, toList_display_semantic,
    normalized_semantic, normalized_semantic, h]

/-- Where a position stays, the fingerprint depends on it. -/
theorem fingerprint_ne {d d' : Diagnostics} {span : Span} {before normal start rest : List Char}
    (hbefore : ∀ text, text ≠ [] → normalized (before ++ text) = normal ++ normalized text)
    (hkept : Kept start) (hstart : Unbroken start)
    (hd : "compile failure: ".toList ++ d.text.toList = before ++ (start ++ (spanChars span ++ rest)))
    (hd' : "compile failure: ".toList ++ d'.text.toList =
      before ++ (start ++ (spanChars (nearSpan span) ++ rest))) :
    d'.reason.fingerprint ≠ d.reason.fingerprint := by
  obtain ⟨front, ch, ch', hspan, hspan', hfront, hch, hch', hne⟩ := exists_near span
  have hkept' : Kept (start ++ front) := by
    intro text
    rw [List.append_assoc]
    exact hkept _
  obtain ⟨more, hmore⟩ := normalized_kept hkept' (unbroken_append hstart hfront) rest
  have hnormal {c : Char} (hc : c.isDigit = true) :
      "compile:".toList ++ normalized (before ++ (start ++ (front ++ [c] ++ rest))) =
        "compile:".toList ++ (normal ++ (start ++ front)) ++ c :: more := by
    have htext : start ++ (front ++ [c] ++ rest) = start ++ front ++ c :: rest := by
      rw [List.append_assoc, List.append_assoc, List.singleton_append]
    rw [htext, hbefore _ (List.append_ne_nil_of_right_ne_nil _ (List.cons_ne_nil _ _)), hmore c hc]
    simp only [List.append_assoc]
  rw [fingerprint_eq, fingerprint_eq, hd, hd', hspan, hspan', hnormal hch, hnormal hch']
  exact stableHash_ne hch' hch hne.symm

theorem kept_parse : Kept "compile failure: Parse error: Parse error at ".toList := fun _ ↦ rfl

theorem kept_semantic : Kept "Semantic error at ".toList := fun _ ↦ rfl

theorem toList_display_parse (message : String) (span : Span) :
    "compile failure: ".toList ++ (text (.parse message span)).toList =
      "compile failure: Parse error: Parse error at ".toList ++
        (spanChars span ++ (": ".toList ++ message.toList)) := by
  have hfirst : "compile failure: ".toList ++ ("Parse error: ".toList ++ "Parse error at ".toList) =
      "compile failure: Parse error: Parse error at ".toList := by decide
  change "compile failure: ".toList ++
    ("Parse error: " ++ ("Parse error at " ++ spanText span ++ ": " ++ message)).toList = _
  rw [String.toList_append, String.toList_append, String.toList_append, String.toList_append,
    toList_spanText, List.append_assoc, List.append_assoc, ← List.append_assoc "Parse error: ".toList,
    ← List.append_assoc, hfirst]

theorem fingerprint_parse_ne (message : String) (span : Span) :
    (reason (.parse message (nearSpan span))).fingerprint ≠
      (reason (.parse message span)).fingerprint :=
  @fingerprint_ne _ _ span [] [] _ _ (fun _ _ ↦ rfl) kept_parse (by decide)
    (toList_display_parse message span) (toList_display_parse message (nearSpan span))

theorem toList_display_more (error second : SemanticError) (errors : List SemanticError) :
    "compile failure: ".toList ++ (text (.semantic error (second :: errors))).toList =
      ("compile failure: ".toList ++ (semanticErrorText error).toList ++ ['\n']) ++
        ("Semantic error at ".toList ++ (spanChars second.span ++
          (": ".toList ++ (second.message.toList ++ moreText errors)))) := by
  rw [toList_text_semantic, toList_semanticErrorText]
  have hmore : moreText (second :: errors) =
      ['\n'] ++ ("Semantic error at ".toList ++ (spanChars second.span ++
        (": ".toList ++ (second.message.toList ++ moreText errors)))) := by
    rw [moreText, List.flatMap_cons, toList_semanticErrorText, ← moreText, List.cons_append,
      List.append_assoc, List.append_assoc, List.append_assoc, List.singleton_append]
  rw [hmore]
  simp only [List.append_assoc]

theorem fingerprint_second_ne (error second : SemanticError) (errors : List SemanticError) :
    (reason (.semantic error ({ second with span := nearSpan second.span } :: errors))).fingerprint ≠
      (reason (.semantic error (second :: errors))).fingerprint := by
  refine @fingerprint_ne _ _ second.span _
    (normalized ("compile failure: ".toList ++ (semanticErrorText error).toList ++ ['\n']) ++ ['\n'])
    _ _ ?_ kept_semantic (by decide) (toList_display_more error second errors)
    (toList_display_more error { second with span := nearSpan second.span } errors)
  intro more hmore
  rw [List.append_assoc _ ['\n'], List.singleton_append, normalized_newline _ _ hmore,
    List.append_assoc _ ['\n'] (normalized more), List.singleton_append]

/-- **Positions and fingerprints.** The fingerprint of a failure is that of all failures with the
same diagnostics at other positions just when the failure is a single semantic error. -/
theorem spans_ignored_iff {d : Diagnostics} (hd : d.Fits) :
    (∀ d' : Diagnostics, d'.Fits → d'.messages = d.messages →
      d'.reason.fingerprint = d.reason.fingerprint) ↔ ∃ error, d = .semantic error [] := by
  constructor
  · intro h
    match d with
    | .parse message span =>
      exact absurd (h (.parse message (nearSpan span)) ⟨hd.1, nearColumn_lt hd.2⟩ rfl)
        (fingerprint_parse_ne message span)
    | .semantic error [] => exact ⟨error, rfl⟩
    | .semantic error (second :: errors) =>
      obtain ⟨herror, hmore⟩ := List.forall_mem_cons.mp hd
      obtain ⟨hsecond, herrors⟩ := List.forall_mem_cons.mp hmore
      have hfits : Fits (.semantic error ({ second with span := nearSpan second.span } :: errors)) :=
        List.forall_mem_cons.mpr ⟨herror,
          List.forall_mem_cons.mpr ⟨⟨hsecond.1, nearColumn_lt hsecond.2⟩, herrors⟩⟩
      exact absurd (h _ hfits rfl) (fingerprint_second_ne error second errors)
  · rintro ⟨error, rfl⟩ d' - hmessages
    match d' with
    | .parse message span => cases hmessages
    | .semantic error' errors =>
      have hcons := congrArg Prod.snd hmessages
      rw [messages, messages, List.map_cons, List.map_cons] at hcons
      obtain ⟨hmessage, hmap⟩ := List.cons.inj hcons
      obtain rfl := List.map_eq_nil_iff.mp hmap
      exact fingerprint_semantic [] hmessage

/-- One diagnostic at two positions. -/
theorem spans_ignored_iff_sample :
    (reason (.semantic ⟨"Undefined variable: missing", ⟨9, 2⟩⟩ [])).fingerprint =
      (reason (.semantic ⟨"Undefined variable: missing", ⟨3, 10⟩⟩ [])).fingerprint := by
  have hfits : Fits (.semantic ⟨"Undefined variable: missing", ⟨3, 10⟩⟩ []) :=
    List.forall_mem_singleton.mpr ⟨by decide, by decide⟩
  have hfits' : Fits (.semantic ⟨"Undefined variable: missing", ⟨9, 2⟩⟩ []) :=
    List.forall_mem_singleton.mpr ⟨by decide, by decide⟩
  exact (spans_ignored_iff hfits).mpr ⟨_, rfl⟩ _ hfits' rfl

/-- A blank in front of a text that does not parse. -/
theorem not_spans_ignored :
    parseCheckedProgram (utf8Bytes "x") =
        .error (text (.parse "Expected function or global declaration" ⟨1, 1⟩)) ∧
      parseCheckedProgram (utf8Bytes " x") =
        .error (text (.parse "Expected function or global declaration" ⟨1, 2⟩)) ∧
      (reason (.parse "Expected function or global declaration" ⟨1, 1⟩)).fingerprint ≠
        (reason (.parse "Expected function or global declaration" ⟨1, 2⟩)).fingerprint := by
  exact ⟨rfl, rfl, fingerprint_parse_ne _ ⟨1, 2⟩⟩

end Diagnostics

end MiniLang.Fuzz
