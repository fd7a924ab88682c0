import Mathlib.Data.BitVec
import Mathlib.Data.List.TakeWhile

/-!
# JSON

The grammar of JSON texts as a relation between a value and its texts, and a decoder that reads
every text of the grammar as its value. White space may stand around values and around the keys of
an object; a number is a mantissa and a power of ten.

## Grammar and decoder

A writer is right if its texts are texts of the grammar, which does not depend on any reader. That
nothing is lost in writing is another matter: one text could have two values. The decoder settles
it, since it is a function and reads every text of the grammar as its value (`decode_eq`). It is not
said that it rejects all other texts.

## What may follow

A reader gets a text and what comes after it, and has to stop at the right place. Strings and lists
end with a bracket or a quote of their own. A number does not, so it is read correctly only if what
follows is no character that occurs in numbers: `Follows`, and `Ends` with white space before it,
are carried through the lists. `ReadsValues` is stated for texts up to a length, by which values
inside of lists are smaller.

## Writing

The second half has what a writer without white space needs: integers in decimals, objects with
plain keys, and texts joined by commas.
-/

inductive Json
  | null
  | bool (value : Bool)
  | number (mantissa exponent : Int)
  | string (value : String)
  | array (items : List Json)
  | object (members : List (String × Json))

namespace Json

/-! ## The parts of a value -/

def field? (key : String) : Json → Option Json
  | .object members => members.lookup key
  | _ => none

@[simp] theorem field?_cons (key name : String) (value : Json) (members : List (String × Json)) :
    field? key (.object ((name, value) :: members)) =
      if key = name then some value else field? key (.object members) := by
  change ((name, value) :: members).lookup key = _
  by_cases h : key = name
  · rw [if_pos h, h]
    exact List.lookup_cons_self
  · rw [if_neg h, List.lookup_cons, beq_false_of_ne h]
    rfl

def int? : Json → Option Int
  | .number mantissa 0 => some mantissa
  | _ => none

def string? : Json → Option String
  | .string value => some value
  | _ => none

def items? : Json → Option (List Json)
  | .array items => some items
  | _ => none

/-! ## The grammar -/

def isSpace (ch : Char) : Bool := ch = ' ' || ch = '\n' || ch = '\r' || ch = '\t'

def hexValue (ch : Char) : Option Nat :=
  if '0' ≤ ch ∧ ch ≤ '9' then some (ch.toNat - '0'.toNat)
  else if 'a' ≤ ch ∧ ch ≤ 'f' then some (ch.toNat - 'a'.toNat + 10)
  else if 'A' ≤ ch ∧ ch ≤ 'F' then some (ch.toNat - 'A'.toNat + 10)
  else none

/-- Four hexadecimal digits. -/
def codeUnit (a b c d : Char) : Option Nat := do
  some ((((← hexValue a) * 16 + (← hexValue b)) * 16 + (← hexValue c)) * 16 + (← hexValue d))

/-- What a letter after a backslash stands for, `u` aside. -/
def escaped (ch : Char) : Option Char :=
  if ch = '"' ∨ ch = '\\' ∨ ch = '/' then some ch
  else if ch = 'b' then some '\x08'
  else if ch = 'f' then some '\x0c'
  else if ch = 'n' then some '\n'
  else if ch = 'r' then some '\r'
  else if ch = 't' then some '\t'
  else none

def isHigh (unit : Nat) : Prop := 0xD800 ≤ unit ∧ unit < 0xDC00

def isLow (unit : Nat) : Prop := 0xDC00 ≤ unit ∧ unit < 0xE000

instance (unit : Nat) : Decidable (isHigh unit) := inferInstanceAs (Decidable (_ ∧ _))

instance (unit : Nat) : Decidable (isLow unit) := inferInstanceAs (Decidable (_ ∧ _))

/-- The scalar value of a surrogate pair. -/
def ofPair (high low : Nat) : Nat := 0x10000 + (high - 0xD800) * 0x400 + (low - 0xDC00)

/-- The texts of one character in a string. -/
inductive Character : Char → List Char → Prop
  | plain {ch : Char} (hcontrol : ' ' ≤ ch) (hquote : ch ≠ '"') (hslash : ch ≠ '\\') :
      Character ch [ch]
  | escape {ch e : Char} (h : escaped e = some ch) : Character ch ['\\', e]
  | unit {ch a b c d : Char} (h : codeUnit a b c d = some ch.toNat) :
      Character ch ['\\', 'u', a, b, c, d]
  | pair {ch a b c d a' b' c' d' : Char} {high low : Nat} (h : codeUnit a b c d = some high)
      (hhigh : isHigh high) (h' : codeUnit a' b' c' d' = some low) (hlow : isLow low)
      (hch : ch.toNat = ofPair high low) :
      Character ch ['\\', 'u', a, b, c, d, '\\', 'u', a', b', c', d']

/-- The texts between the quotes of a string. -/
inductive Characters : List Char → List Char → Prop
  | nil : Characters [] []
  | cons {ch : Char} {chs text rest : List Char} (h : Character ch text)
      (hrest : Characters chs rest) : Characters (ch :: chs) (text ++ rest)

/-- The texts of a string, with its quotes. -/
inductive Quoted : String → List Char → Prop
  | mk {chs text : List Char} (h : Characters chs text) :
      Quoted (String.ofList chs) ('"' :: (text ++ ['"']))

def Space (text : List Char) : Prop := ∀ ch ∈ text, isSpace ch = true

instance (text : List Char) : Decidable (Space text) := List.decidableBAll _ text

/-- A run of at least one digit. -/
def digits (text : List Char) : Option Nat :=
  if text ≠ [] ∧ text.all Char.isDigit then some (Nat.ofDigitChars 10 text 0) else none

/-- Nothing, or the exponent of a number. -/
def exponent : List Char → Option Int
  | [] => some 0
  | e :: text =>
    if e = 'e' ∨ e = 'E' then
      match text with
      | '-' :: text => (digits text).map fun n ↦ -(n : Int)
      | '+' :: text => (digits text).map fun n ↦ (n : Int)
      | text => (digits text).map fun n ↦ (n : Int)
    else none

/-- The digits of the fraction, and the exponent. -/
def fraction : List Char → Option (List Char × Int)
  | '.' :: text =>
    if text.takeWhile Char.isDigit = [] then none
    else (exponent (text.dropWhile Char.isDigit)).map (text.takeWhile Char.isDigit, ·)
  | text => (exponent text).map ([], ·)

/-- A number without its sign; its first digit is zero only when it is alone. -/
def magnitude (text : List Char) : Option (Nat × Int) :=
  let whole := text.takeWhile Char.isDigit
  if whole = [] ∨ (whole.head? = some '0' ∧ whole.length ≠ 1) then none
  else (fraction (text.dropWhile Char.isDigit)).map fun (part, e) ↦
    (Nat.ofDigitChars 10 (whole ++ part) 0, e - part.length)

/-- The number that a text is, if it is one. -/
def numberValue : List Char → Option (Int × Int)
  | '-' :: text => (magnitude text).map fun (m, e) ↦ (-(m : Int), e)
  | text => (magnitude text).map fun (m, e) ↦ ((m : Int), e)

/-- The characters that occur in numbers. -/
def isNumberChar (ch : Char) : Bool :=
  ch.isDigit || ch = '-' || ch = '+' || ch = '.' || ch = 'e' || ch = 'E'

/-- At least one text, with commas between them. -/
inductive Separated {α : Type} (item : α → List Char → Prop) : List α → List Char → Prop
  | one {a : α} {text : List Char} (h : item a text) : Separated item [a] text
  | more {a : α} {as : List α} {text rest : List Char} (h : item a text)
      (hrest : Separated item as rest) : Separated item (a :: as) (text ++ ',' :: rest)

mutual

inductive Value : Json → List Char → Prop
  | null : Value .null ['n', 'u', 'l', 'l']
  | boolTrue : Value (.bool true) ['t', 'r', 'u', 'e']
  | boolFalse : Value (.bool false) ['f', 'a', 'l', 's', 'e']
  | number {mantissa exponent : Int} {text : List Char}
      (h : numberValue text = some (mantissa, exponent))
      (hchars : ∀ ch ∈ text, isNumberChar ch = true) : Value (.number mantissa exponent) text
  | string {value : String} {text : List Char} (h : Quoted value text) : Value (.string value) text
  | emptyArray {text : List Char} (h : Space text) : Value (.array []) ('[' :: (text ++ [']']))
  | array {items : List Json} {text : List Char} (h : Separated Element items text) :
      Value (.array items) ('[' :: (text ++ [']']))
  | emptyObject {text : List Char} (h : Space text) : Value (.object []) ('{' :: (text ++ ['}']))
  | object {members : List (String × Json)} {text : List Char} (h : Separated Member members text) :
      Value (.object members) ('{' :: (text ++ ['}']))

/-- A value with white space around it, which is what a whole text is too. -/
inductive Element : Json → List Char → Prop
  | mk {json : Json} {before text after : List Char} (hbefore : Space before) (h : Value json text)
      (hafter : Space after) : Element json (before ++ (text ++ after))

inductive Member : String × Json → List Char → Prop
  | mk {key : String} {json : Json} {before word after text : List Char} (hbefore : Space before)
      (hkey : Quoted key word) (hafter : Space after) (h : Element json text) :
      Member (key, json) (before ++ (word ++ (after ++ ':' :: text)))

end

/-! ## The decoder -/

/-- A reader takes what it can from the front of a text. -/
abbrev Reader (α : Type) := List Char → Option (α × List Char)

/-- One character of a string. -/
def character : Reader Char
  | '\\' :: 'u' :: a :: b :: c :: d :: rest => do
    let unit ← codeUnit a b c d
    if isHigh unit then
      match rest with
      | '\\' :: 'u' :: a :: b :: c :: d :: rest => do
        let low ← codeUnit a b c d
        if isLow low then some (Char.ofNat (ofPair unit low), rest) else none
      | _ => none
    else if isLow unit then none
    else some (Char.ofNat unit, rest)
  | '\\' :: e :: rest => do some (← escaped e, rest)
  | ch :: rest => if ' ' ≤ ch ∧ ch ≠ '\\' then some (ch, rest) else none
  | [] => none

/-- The characters up to the closing quote, at most as many as the fuel. -/
def characters : Nat → Reader (List Char)
  | 0, _ => none
  | _ + 1, '"' :: rest => some ([], rest)
  | fuel + 1, text => do
    let (ch, text) ← character text
    let (chs, text) ← characters fuel text
    some (ch :: chs, text)

def skipSpace (text : List Char) : List Char := text.dropWhile isSpace

/-- The rest of a list after its opening bracket, from its first item on. -/
def separated {α : Type} (item : Reader α) (close : Char) : Nat → Reader (List α)
  | 0, _ => none
  | fuel + 1, text => do
    let (a, text) ← item text
    match text with
    | [] => none
    | ch :: text =>
      if ch = close then some ([a], text)
      else if ch = ',' then do
        let (as, text) ← separated item close fuel text
        some (a :: as, text)
      else none

/-- A list after its opening bracket. -/
def bracketed {α : Type} (item : Reader α) (close : Char) (fuel : Nat) : Reader (List α) :=
  fun text ↦
    if (skipSpace text).head? = some close then some ([], (skipSpace text).tail)
    else separated item close fuel text

/-- A value with white space around it. -/
def element (value : Reader Json) : Reader Json := fun text ↦ do
  let (json, text) ← value (skipSpace text)
  some (json, skipSpace text)

def member (value : Reader Json) (fuel : Nat) : Reader (String × Json) := fun text ↦
  match skipSpace text with
  | '"' :: text => do
    let (key, text) ← characters fuel text
    match skipSpace text with
    | ':' :: text => do
      let (json, text) ← element value text
      some ((String.ofList key, json), text)
    | _ => none
  | _ => none

/-- The words and the numbers. -/
def scalar : Reader Json
  | 'n' :: 'u' :: 'l' :: 'l' :: rest => some (.null, rest)
  | 't' :: 'r' :: 'u' :: 'e' :: rest => some (.bool true, rest)
  | 'f' :: 'a' :: 'l' :: 's' :: 'e' :: rest => some (.bool false, rest)
  | text => (numberValue (text.takeWhile isNumberChar)).map fun (m, e) ↦
    (.number m e, text.dropWhile isNumberChar)

/-- A value, with brackets nested at most as deep as the fuel. -/
def value : Nat → Reader Json
  | 0, _ => none
  | fuel + 1, '[' :: text => do
    let (items, text) ← bracketed (element (value fuel)) ']' fuel text
    some (.array items, text)
  | fuel + 1, '{' :: text => do
    let (members, text) ← bracketed (member (value fuel) fuel) '}' fuel text
    some (.object members, text)
  | fuel + 1, '"' :: text => do
    let (chs, text) ← characters fuel text
    some (.string (String.ofList chs), text)
  | _ + 1, text => scalar text

/-- The value of a whole text. -/
def decode (text : String) : Option Json :=
  match element (value (text.length + 1)) text.toList with
  | some (json, []) => some json
  | _ => none

/-! ## The decoder reads what the grammar derives -/

theorem skipSpace_space {before : List Char} (h : Space before) (rest : List Char) :
    skipSpace (before ++ rest) = skipSpace rest :=
  List.dropWhile_append_of_pos h

theorem skipSpace_cons {ch : Char} (h : isSpace ch = false) (rest : List Char) :
    skipSpace (ch :: rest) = ch :: rest := by
  rw [skipSpace, List.dropWhile_cons_of_neg]
  rw [h]
  exact Bool.false_ne_true

/-- What may follow a number. -/
def Follows (rest : List Char) : Prop := ∀ ch ∈ rest.head?, isNumberChar ch = false

/-- What may follow a value and the white space after it. -/
def Ends (rest : List Char) : Prop :=
  ∀ ch ∈ rest.head?, isNumberChar ch = false ∧ isSpace ch = false

theorem skipSpace_of_ends {after rest : List Char} (h : Space after) (hrest : Ends rest) :
    skipSpace (after ++ rest) = rest := by
  rw [skipSpace_space h]
  cases rest with
  | nil => rfl
  | cons ch rest => exact skipSpace_cons (hrest ch rfl).2 rest

theorem isNumberChar_of_isSpace {ch : Char} (h : isSpace ch = true) : isNumberChar ch = false := by
  simp only [isSpace, Bool.or_eq_true, decide_eq_true_eq] at h
  obtain ((rfl | rfl) | rfl) | rfl := h <;> decide

theorem follows_append {after rest : List Char} (h : Space after) (hrest : Ends rest) :
    Follows (after ++ rest) := by
  intro ch hch
  cases after with
  | nil => exact (hrest ch hch).1
  | cons a after =>
    obtain rfl := Option.mem_some.mp hch
    exact isNumberChar_of_isSpace (h a List.mem_cons_self)

/-! ### Strings -/

theorem Character.exists_cons {ch : Char} {text : List Char} (h : Character ch text) :
    ∃ c rest, text = c :: rest ∧ c ≠ '"' := by
  cases h with
  | plain hcontrol hquote hslash => exact ⟨_, _, rfl, hquote⟩
  | _ => exact ⟨_, _, rfl, by decide⟩

theorem not_isHigh_toNat (ch : Char) : ¬ isHigh ch.toNat ∧ ¬ isLow ch.toNat := by
  have hvalid : ch.toNat < 0xD800 ∨ 0xDFFF < ch.toNat ∧ ch.toNat < 0x110000 := ch.valid
  rw [isHigh, isLow]
  omega

theorem character_append {ch : Char} {text : List Char} (h : Character ch text)
    (rest : List Char) : character (text ++ rest) = some (ch, rest) := by
  cases h with
  | plain hcontrol hquote hslash =>
    simp [character, hcontrol, hslash]
  | @escape e h =>
    have hu : e ≠ 'u' := by
      rintro rfl
      exact Option.some_ne_none ch h.symm
    simp [character, h, hu]
  | unit h =>
    simp [character, h, not_isHigh_toNat]
  | pair h hhigh h' hlow hch =>
    simp [character, h, h', hhigh, hlow, ← hch]

theorem characters_append {chs text : List Char} (h : Characters chs text) {fuel : Nat}
    (hfuel : text.length < fuel) (rest : List Char) :
    characters fuel (text ++ '"' :: rest) = some (chs, rest) := by
  induction h generalizing fuel with
  | nil =>
    cases fuel with
    | zero => exact absurd hfuel (Nat.not_lt_zero _)
    | succ fuel => rfl
  | @cons ch chs text more h hmore ih =>
    cases fuel with
    | zero => exact absurd hfuel (Nat.not_lt_zero _)
    | succ fuel =>
      obtain ⟨c, tail, htext, hc⟩ := h.exists_cons
      have hread := character_append h (more ++ '"' :: rest)
      have htail : characters fuel (more ++ '"' :: rest) = some (chs, rest) := by
        apply ih
        rw [htext, List.length_append, List.length_cons] at hfuel
        omega
      rw [List.append_assoc, characters, hread]
      · simp only [Option.bind_eq_bind, Option.bind_some, htail]
      · intro _ heq
        rw [htext, List.cons_append] at heq
        exact hc (List.cons.inj heq).1

/-! ### Lists -/

variable {α : Type} {P : α → List Char → Prop} {item : Reader α} {close : Char} {bound : Nat}

theorem ends_cons {ch : Char} (hnumber : isNumberChar ch = false) (hspace : isSpace ch = false)
    (rest : List Char) : Ends (ch :: rest) := by
  intro c hc
  obtain rfl := Option.mem_some.mp hc
  exact ⟨hnumber, hspace⟩

/-- The items are no longer than the bound up to which `item` reads them. -/
theorem separated_append (hread : ∀ {a text}, P a text → text.length ≤ bound →
      ∀ rest, Ends rest → item (text ++ rest) = some (a, rest))
    (hclose : isNumberChar close = false ∧ isSpace close = false ∧ close ≠ ',')
    {as : List α} {text : List Char} (h : Separated P as text) (hbound : text.length ≤ bound)
    {fuel : Nat} (hfuel : text.length < fuel) (rest : List Char) :
    separated item close fuel (text ++ close :: rest) = some (as, rest) := by
  induction h generalizing fuel with
  | one h =>
    cases fuel with
    | zero => exact absurd hfuel (Nat.not_lt_zero _)
    | succ fuel =>
      rw [separated, hread h hbound _ (ends_cons hclose.1 hclose.2.1 rest)]
      simp only [Option.bind_eq_bind, Option.bind_some, if_true]
  | @more a as text more h hmore ih =>
    cases fuel with
    | zero => exact absurd hfuel (Nat.not_lt_zero _)
    | succ fuel =>
      rw [List.length_append, List.length_cons] at hbound hfuel
      rw [List.append_assoc, List.cons_append, separated,
        hread h (by omega) _ (ends_cons (by decide) (by decide) _)]
      simp only [Option.bind_eq_bind, Option.bind_some, if_neg hclose.2.2.symm, if_true,
        @ih (by omega) fuel (by omega)]

/-- What a list starts with is not its closing bracket. -/
theorem separated_head (hhead : ∀ {a text}, P a text → ∀ rest,
      (skipSpace (text ++ rest)).head? ≠ some close) {as : List α} {text : List Char}
    (h : Separated P as text) (rest : List Char) :
    (skipSpace (text ++ rest)).head? ≠ some close := by
  cases h with
  | one h => exact hhead h rest
  | more h hmore =>
    rw [List.append_assoc]
    exact hhead h _

theorem bracketed_append (hread : ∀ {a text}, P a text → text.length ≤ bound →
      ∀ rest, Ends rest → item (text ++ rest) = some (a, rest))
    (hhead : ∀ {a text}, P a text → ∀ rest, (skipSpace (text ++ rest)).head? ≠ some close)
    (hclose : isNumberChar close = false ∧ isSpace close = false ∧ close ≠ ',')
    {as : List α} {text : List Char} (h : Separated P as text) (hbound : text.length ≤ bound)
    {fuel : Nat} (hfuel : text.length < fuel) (rest : List Char) :
    bracketed item close fuel (text ++ close :: rest) = some (as, rest) := by
  rw [bracketed, if_neg (separated_head hhead h _)]
  exact separated_append hread hclose h hbound hfuel rest

theorem bracketed_space {text : List Char} (h : Space text) (hclose : isSpace close = false)
    (fuel : Nat) (rest : List Char) :
    bracketed item close fuel (text ++ close :: rest) = some ([], rest) := by
  rw [bracketed, skipSpace_space h, skipSpace_cons hclose, if_pos List.head?_cons, List.tail_cons]

/-! ### Values -/

/-- The reader of a value reads the texts up to a length. -/
def ReadsValues (read : Reader Json) (bound : Nat) : Prop :=
  ∀ {json text}, Value json text → text.length ≤ bound →
    ∀ rest, Follows rest → read (text ++ rest) = some (json, rest)

theorem numberValue_ne_nil {text : List Char} {number : Int × Int}
    (h : numberValue text = some number) : text ≠ [] := by
  rintro rfl
  exact Option.some_ne_none number h.symm

theorem not_isSpace_of_isNumberChar {ch : Char} (h : isNumberChar ch = true) :
    isSpace ch = false := by
  cases hspace : isSpace ch with
  | false => rfl
  | true =>
    rw [isNumberChar_of_isSpace hspace] at h
    exact absurd h Bool.false_ne_true

/-- The first character of a value. -/
theorem Value.exists_cons {json : Json} {text : List Char} (h : Value json text) :
    ∃ ch rest, text = ch :: rest ∧ isSpace ch = false ∧ ch ≠ ']' := by
  cases h with
  | number h hchars =>
    obtain ⟨ch, rest, rfl⟩ := List.exists_cons_of_ne_nil (numberValue_ne_nil h)
    have hch := hchars ch List.mem_cons_self
    refine ⟨ch, rest, rfl, not_isSpace_of_isNumberChar hch, ?_⟩
    rintro rfl
    exact absurd hch (by decide)
  | string h =>
    obtain ⟨h⟩ := h
    exact ⟨_, _, rfl, by decide, by decide⟩
  | _ => exact ⟨_, _, rfl, by decide, by decide⟩

theorem skipSpace_value {json : Json} {text : List Char} (h : Value json text)
    (rest : List Char) : skipSpace (text ++ rest) = text ++ rest := by
  obtain ⟨ch, tail, rfl, hspace, -⟩ := h.exists_cons
  exact skipSpace_cons hspace _

theorem element_append {read : Reader Json} (hread : ReadsValues read bound) {json : Json}
    {text : List Char} (h : Element json text) (hbound : text.length ≤ bound) (rest : List Char)
    (hrest : Ends rest) : element read (text ++ rest) = some (json, rest) := by
  obtain ⟨hbefore, h, hafter⟩ := h
  rw [List.length_append, List.length_append] at hbound
  rw [List.append_assoc, List.append_assoc, element, skipSpace_space hbefore, skipSpace_value h,
    hread h (by omega) _ (follows_append hafter hrest)]
  simp only [Option.bind_eq_bind, Option.bind_some, skipSpace_of_ends hafter hrest]

theorem element_head {json : Json} {text : List Char} (h : Element json text) (rest : List Char) :
    (skipSpace (text ++ rest)).head? ≠ some ']' := by
  obtain ⟨hbefore, h, hafter⟩ := h
  rw [List.append_assoc, List.append_assoc, skipSpace_space hbefore, skipSpace_value h]
  obtain ⟨ch, tail, rfl, -, hch⟩ := h.exists_cons
  intro heq
  exact hch (Option.some.inj heq)

theorem member_append {read : Reader Json} (hread : ReadsValues read bound) {a : String × Json}
    {text : List Char} (h : Member a text) (hbound : text.length ≤ bound) (rest : List Char)
    (hrest : Ends rest) : member read bound (text ++ rest) = some (a, rest) := by
  obtain ⟨hbefore, ⟨hkey⟩, hafter, h⟩ := h
  simp only [List.length_append, List.length_cons] at hbound
  simp only [List.append_assoc, List.cons_append, List.nil_append, member,
    skipSpace_space hbefore, skipSpace_cons (rfl : isSpace '"' = false)]
  rw [characters_append hkey (by omega)]
  simp only [Option.bind_eq_bind, Option.bind_some, skipSpace_space hafter,
    skipSpace_cons (rfl : isSpace ':' = false)]
  rw [element_append hread h (by omega) rest hrest]
  rfl

theorem member_head {a : String × Json} {text : List Char} (h : Member a text)
    (rest : List Char) : (skipSpace (text ++ rest)).head? ≠ some '}' := by
  obtain ⟨hbefore, ⟨hkey⟩, hafter, h⟩ := h
  simp only [List.append_assoc, List.cons_append, skipSpace_space hbefore,
    skipSpace_cons (rfl : isSpace '"' = false), List.head?_cons]
  decide

theorem takeWhile_number {text rest : List Char} (h : ∀ ch ∈ text, isNumberChar ch = true)
    (hrest : Follows rest) : (text ++ rest).takeWhile isNumberChar = text ∧
      (text ++ rest).dropWhile isNumberChar = rest := by
  rw [List.takeWhile_append_of_pos h, List.dropWhile_append_of_pos h]
  cases rest with
  | nil => exact ⟨List.append_nil text, rfl⟩
  | cons ch rest =>
    have hch := hrest ch rfl
    rw [List.takeWhile_cons_of_neg, List.dropWhile_cons_of_neg, List.append_nil]
    · exact ⟨rfl, rfl⟩
    · rw [hch]
      exact Bool.false_ne_true
    · rw [hch]
      exact Bool.false_ne_true

theorem scalar_number {mantissa exponent : Int} {text rest : List Char}
    (h : numberValue text = some (mantissa, exponent))
    (hchars : ∀ ch ∈ text, isNumberChar ch = true) (hrest : Follows rest) :
    scalar (text ++ rest) = some (.number mantissa exponent, rest) := by
  obtain ⟨htake, hdrop⟩ := takeWhile_number hchars hrest
  obtain ⟨ch, tail, rfl⟩ := List.exists_cons_of_ne_nil (numberValue_ne_nil h)
  have hch := hchars ch List.mem_cons_self
  rw [scalar, htake, hdrop, h, Option.map_some]
  all_goals
    intro _ heq
    obtain ⟨rfl, -⟩ := List.cons.inj heq
    exact absurd hch (by decide)

theorem readsValues (fuel : Nat) : ReadsValues (value fuel) fuel := by
  induction fuel with
  | zero =>
    intro json text h hbound rest hrest
    obtain ⟨ch, tail, rfl, -⟩ := h.exists_cons
    exact absurd hbound (Nat.not_succ_le_zero _)
  | succ fuel ih =>
    intro json text h hbound rest hrest
    cases h with
    | number h hchars =>
      rw [← scalar_number h hchars hrest]
      obtain ⟨ch, tail, rfl⟩ := List.exists_cons_of_ne_nil (numberValue_ne_nil h)
      have hch := hchars ch List.mem_cons_self
      rw [List.cons_append, value]
      all_goals
        intro _ heq
        obtain ⟨rfl, -⟩ := List.cons.inj heq
        exact absurd hch (by decide)
    | string h =>
      obtain ⟨h⟩ := h
      rw [List.length_cons, List.length_append, List.length_singleton] at hbound
      rw [List.cons_append, List.append_assoc, List.singleton_append, value,
        characters_append h (by omega)]
      rfl
    | emptyArray h =>
      rw [List.cons_append, List.append_assoc, List.singleton_append, value,
        bracketed_space h (by decide)]
      rfl
    | emptyObject h =>
      rw [List.cons_append, List.append_assoc, List.singleton_append, value,
        bracketed_space h (by decide)]
      rfl
    | array h =>
      rw [List.length_cons, List.length_append, List.length_singleton] at hbound
      rw [List.cons_append, List.append_assoc, List.singleton_append, value,
        bracketed_append (element_append ih) element_head (by decide) h (by omega) (by omega)]
      rfl
    | object h =>
      rw [List.length_cons, List.length_append, List.length_singleton] at hbound
      rw [List.cons_append, List.append_assoc, List.singleton_append, value,
        bracketed_append (member_append ih) member_head (by decide) h (by omega) (by omega)]
      rfl
    | _ => rfl

/-- Every text of the grammar has its value. -/
theorem decode_eq {json : Json} {text : String} (h : Element json text.toList) :
    decode text = some json := by
  have hread := element_append (readsValues (text.length + 1)) h
    (Nat.le_succ_of_le (Nat.le_of_eq String.length_toList)) [] (fun _ hch ↦ absurd hch (by simp))
  rw [List.append_nil] at hread
  rw [decode, hread]

/-! ## Integers -/

theorem takeWhile_digits {text : List Char} (h : ∀ ch ∈ text, ch.isDigit = true) :
    text.takeWhile Char.isDigit = text ∧ text.dropWhile Char.isDigit = [] := by
  exact ⟨List.takeWhile_eq_self_iff.mpr h, List.dropWhile_eq_nil_iff.mpr h⟩

/-- Only zero starts with the digit zero. -/
theorem head?_toDigits {n : Nat} (h : (Nat.toDigits 10 n).head? = some '0') : n = 0 := by
  induction n using Nat.strongRecOn with
  | ind n ih =>
    by_cases hn : n < 10
    · rw [Nat.toDigits_of_lt_base hn] at h
      exact (by decide : ∀ m < 10, [Nat.digitChar m].head? = some '0' → m = 0) n hn h
    · obtain ⟨ch, text, htext⟩ := List.exists_cons_of_ne_nil (@Nat.toDigits_ne_nil (n / 10) 10)
      rw [Nat.toDigits_of_base_le (by decide) (by omega), htext] at h
      have hdiv : n / 10 = 0 := ih (n / 10) (by omega) (htext ▸ h)
      omega

theorem magnitude_toDigits (n : Nat) : magnitude (Nat.toDigits 10 n) = some (n, 0) := by
  have hdigits : ∀ ch ∈ Nat.toDigits 10 n, ch.isDigit = true :=
    fun _ ↦ Nat.isDigit_of_mem_toDigits (by decide) (by decide)
  obtain ⟨htake, hdrop⟩ := takeWhile_digits hdigits
  rw [magnitude, htake, hdrop, if_neg]
  · simp only [fraction, exponent, Option.map_some, List.append_nil,
      Nat.ofDigitChars_ten_toDigits]
    rfl
  · rintro (heq | ⟨hzero, hlength⟩)
    · exact Nat.toDigits_ne_nil heq
    · obtain rfl := head?_toDigits hzero
      exact hlength rfl

theorem isNumberChar_toDigits {n : Nat} {ch : Char} (h : ch ∈ Nat.toDigits 10 n) :
    isNumberChar ch = true := by
  rw [isNumberChar, Nat.isDigit_of_mem_toDigits (by decide) (by decide) h]
  rfl

theorem value_nat (n : Nat) : Value (.number n 0) (toString n).toList := by
  rw [Nat.toString_eq_repr, Nat.toList_repr]
  apply Value.number
  · obtain ⟨ch, text, htext⟩ := List.exists_cons_of_ne_nil (@Nat.toDigits_ne_nil n 10)
    have hdigit : ch.isDigit = true :=
      Nat.isDigit_of_mem_toDigits (by decide) (by decide) (htext ▸ List.mem_cons_self)
    rw [numberValue, magnitude_toDigits, Option.map_some]
    intro _ heq
    obtain ⟨rfl, -⟩ := List.cons.inj (htext.symm.trans heq)
    exact absurd hdigit (by decide)
  · exact fun ch ↦ isNumberChar_toDigits

theorem value_int (i : Int) : Value (.number i 0) (toString i).toList := by
  cases i with
  | ofNat n => exact value_nat n
  | negSucc n =>
    have htext : (toString (Int.negSucc n)).toList = '-' :: Nat.toDigits 10 (n + 1) := by
      rw [← Nat.toList_repr]
      exact String.toList_append
    rw [htext]
    apply Value.number
    · rw [numberValue, magnitude_toDigits, Option.map_some]
      rfl
    · intro ch hch
      obtain rfl | hch := List.mem_cons.mp hch
      · rfl
      · exact isNumberChar_toDigits hch

/-! ## Texts without white space -/

section

variable {β : Type} {text : β → List Char}

def separatedText (text : β → List Char) : List β → List Char
  | [] => []
  | a :: as => text a ++ as.flatMap fun a ↦ ',' :: text a

theorem separated_separatedText {f : β → α} (bs : List β) (b : β)
    (h : ∀ c ∈ b :: bs, P (f c) (text c)) :
    Separated P ((b :: bs).map f) (separatedText text (b :: bs)) := by
  induction bs generalizing b with
  | nil =>
    rw [separatedText, List.flatMap_nil, List.append_nil]
    exact .one (h b List.mem_cons_self)
  | cons c bs ih =>
    obtain ⟨hb, hmore⟩ := List.forall_mem_cons.mp h
    exact .more hb (ih c hmore)

end

theorem space_nil : Space [] := fun _ h ↦ absurd h List.not_mem_nil

theorem Value.element {json : Json} {text : List Char} (h : Value json text) :
    Element json text := by
  have := Element.mk space_nil h space_nil
  rwa [List.append_nil, List.nil_append] at this

/-- A key that needs no escapes. -/
def PlainKey (key : String) : Prop := ∀ ch ∈ key.toList, ' ' ≤ ch ∧ ch ≠ '"' ∧ ch ≠ '\\'

instance (key : String) : Decidable (PlainKey key) := List.decidableBAll _ key.toList

theorem characters_plain {chs : List Char} (h : ∀ ch ∈ chs, ' ' ≤ ch ∧ ch ≠ '"' ∧ ch ≠ '\\') :
    Characters chs chs := by
  induction chs with
  | nil => exact .nil
  | cons ch chs ih =>
    obtain ⟨⟨hcontrol, hquote, hslash⟩, hmore⟩ := List.forall_mem_cons.mp h
    exact .cons (.plain hcontrol hquote hslash) (ih hmore)

theorem PlainKey.quoted {key : String} (h : PlainKey key) :
    Quoted key ('"' :: (key.toList ++ ['"'])) := by
  have := Quoted.mk (characters_plain h)
  rwa [String.ofList_toList] at this

/-- A field of an object: its key, its value and the text of its value. -/
structure Field where
  key : String
  json : Json
  text : List Char

/-- Written without white space. -/
def Field.written (field : Field) : List Char :=
  '"' :: (field.key.toList ++ '"' :: ':' :: field.text)

def objectText (fields : List Field) : List Char :=
  '{' :: (separatedText Field.written fields ++ ['}'])

structure Field.Valid (field : Field) : Prop where
  key : PlainKey field.key
  value : Value field.json field.text

theorem Field.Valid.member {field : Field} (h : field.Valid) :
    Member (field.key, field.json) field.written := by
  have := Member.mk space_nil h.key.quoted space_nil h.value.element
  simpa only [Field.written, List.nil_append, List.cons_append, List.append_assoc] using this

theorem value_objectText (field : Field) (fields : List Field)
    (h : ∀ f ∈ field :: fields, f.Valid) :
    Value (.object ((field :: fields).map fun f ↦ (f.key, f.json)))
      (objectText (field :: fields)) :=
  .object (separated_separatedText fields field fun f hf ↦ (h f hf).member)

/-- White space after the last of several texts. -/
theorem Separated.element_append {items : List Json} {text space : List Char}
    (h : Separated Element items text) (hspace : Space space) :
    Separated Element items (text ++ space) := by
  induction h with
  | one h =>
    obtain ⟨hbefore, h, hafter⟩ := h
    rw [List.append_assoc, List.append_assoc]
    exact .one (.mk hbefore h fun ch hch ↦ (List.mem_append.mp hch).elim (hafter ch) (hspace ch))
  | more h hmore ih =>
    rw [List.append_assoc, List.cons_append]
    exact .more h ih

end Json
