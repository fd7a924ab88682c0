import MiniLang.Lib.Json
import MiniLang.Trace.Fingerprint

/-!
# Traces as JSON

`events_to_json` writes a trace into a string piece by piece. What it writes is a text of the JSON
grammar, and the backend name and all events can be read back from its value.

## The argument

Three things are related: the pieces that the source pushes, a JSON value for each trace, and the
grammar. The value is defined from the events (`traceJson`), and that it determines them is shown by
reading them back from it (`traceOfJson_json`). That the text which is pushed derives this value is
shown for strings, then for lists of numbers, outcomes, events and the whole trace, each by the rule
of the grammar for it. The decoder of the library reads every text of the grammar as its value, so a
decoder gets the trace.

## Strings

Both copies of `push_json_string` escape quotes, backslashes and control characters, and push any
other character as it is, so that a string is lossless whatever characters it has.
-/

namespace MiniLang

/-! ## The writers -/

/-- `{:04x}` -/
def hex4 (n : Nat) : String :=
  let digits := Nat.toDigits 16 n
  String.ofList (List.replicate (4 - digits.length) '0' ++ digits)

/-- What an arm of the match in `push_json_string` pushes. -/
def jsonEscape (ch : Char) : String :=
  if ch = '"' then "\\\""
  else if ch = '\\' then "\\\\"
  else if ch = '\n' then "\\n"
  else if ch = '\r' then "\\r"
  else if ch = '\t' then "\\t"
  else if ch ≤ '\x1f' then "\\u" ++ hex4 ch.toNat
  else String.singleton ch

def pushJsonString (out value : String) : String :=
  (value.toList.foldl (fun out ch ↦ out ++ jsonEscape ch) (out ++ "\"")) ++ "\""

/-- The copy in `fuzz.rs`. -/
def Fuzz.pushJsonString (out value : String) : String :=
  (value.toList.foldl (fun out ch ↦ out ++ jsonEscape ch) (out ++ "\"")) ++ "\""

/-- A loop over `enumerate` that pushes a comma before every item but the first. -/
def pushSeparated {α : Type} (push : String → α → String) : String → List α → String
  | out, [] => out
  | out, value :: values => values.foldl (fun out value ↦ push (out ++ ",") value) (push out value)

def pushI64Array (out : String) (values : List Int) : String :=
  pushSeparated (fun out value ↦ out ++ toString value) (out ++ "[") values ++ "]"

def pushOutcomeJson (out : String) : TraceOutcome → String
  | .continue => out ++ "\x7b\"kind\":\"continue\"\x7d"
  | .jump => out ++ "\x7b\"kind\":\"jump\"\x7d"
  | .exit => out ++ "\x7b\"kind\":\"exit\"\x7d"
  | .trap code message =>
    let out := out ++ "\x7b\"kind\":\"trap\",\"code\":"
    let out := out ++ toString code.toU8.toNat
    let out := out ++ ",\"trap\":"
    let out := pushJsonString out code.debug
    let out := out ++ ",\"message\":"
    let out := pushJsonString out message
    out ++ "\x7d"

def pushEventJson (out : String) (event : TraceEvent) : String :=
  let out := out ++ "\x7b"
  let out := out ++ ("\"cycle\":" ++ toString event.cycle)
  let out := out ++ (",\"pc\":" ++ toString event.pc)
  let out := out ++ ",\"opcode\":"
  let out := pushJsonString out event.opcode
  let out := out ++ (",\"arg1\":" ++ toString event.arg1.toInt)
  let out := out ++ (",\"arg2\":" ++ toString event.arg2.toInt)
  let out := out ++ ",\"stack_before\":"
  let out := pushI64Array out event.stackBefore
  let out := out ++ ",\"stack_after\":"
  let out := pushI64Array out event.stackAfter
  let out := out ++ (",\"frame_depth_before\":" ++ toString event.frameDepthBefore)
  let out := out ++ (",\"frame_depth_after\":" ++ toString event.frameDepthAfter)
  let out := out ++ (",\"next_pc\":" ++ toString event.nextPc)
  let out := out ++ ",\"outcome\":"
  let out := pushOutcomeJson out event.outcome
  out ++ "\x7d"

/-- Serialize trace events as a stable JSON object. -/
def eventsToJson (backend : String) (events : List TraceEvent) : String :=
  let out := "\x7b\n  \"backend\": "
  let out := pushJsonString out backend
  let out := out ++ ",\n  \"events\": ["
  let out := pushSeparated (fun out event ↦ pushEventJson (out ++ "\n    ") event) out events
  out ++ "\n  ]\n\x7d"

/-! ## What is meant -/

def TraceOutcome.json : TraceOutcome → Json
  | .continue => .object [("kind", .string "continue")]
  | .jump => .object [("kind", .string "jump")]
  | .exit => .object [("kind", .string "exit")]
  | .trap code message => .object [("kind", .string "trap"), ("code", .number code.toU8.toNat 0),
      ("trap", .string code.debug), ("message", .string message)]

def stackJson (values : List Int) : Json := .array (values.map fun value ↦ .number value 0)

def TraceEvent.json (event : TraceEvent) : Json :=
  .object [("cycle", .number event.cycle 0), ("pc", .number event.pc 0),
    ("opcode", .string event.opcode), ("arg1", .number event.arg1.toInt 0),
    ("arg2", .number event.arg2.toInt 0), ("stack_before", stackJson event.stackBefore),
    ("stack_after", stackJson event.stackAfter),
    ("frame_depth_before", .number event.frameDepthBefore 0),
    ("frame_depth_after", .number event.frameDepthAfter 0), ("next_pc", .number event.nextPc 0),
    ("outcome", event.outcome.json)]

def traceJson (backend : String) (events : List TraceEvent) : Json :=
  .object [("backend", .string backend), ("events", .array (events.map TraceEvent.json))]

/-! ## Reading back -/

def TrapCode.all : List TrapCode :=
  [.none, .divideByZero, .undefinedLocal, .arrayOutOfBounds, .stackOverflow, .cycleLimit,
    .undefinedFunction, .stackUnderflow, .invalidInstruction]

def TraceOutcome.ofJson (json : Json) : Option TraceOutcome := do
  let kind ← (← json.field? "kind").string?
  if kind = "continue" then some .continue
  else if kind = "jump" then some .jump
  else if kind = "exit" then some .exit
  else
    let code ← (← json.field? "code").int?
    let message ← (← json.field? "message").string?
    some (.trap (← TrapCode.all.find? fun trap ↦ (trap.toU8.toNat : Int) = code) message)

def stackOfJson (json : Json) : Option (List Int) := do (← json.items?).mapM Json.int?

def TraceEvent.ofJson (json : Json) : Option TraceEvent := do
  some {
    cycle := (← (← json.field? "cycle").int?).toNat
    pc := (← (← json.field? "pc").int?).toNat
    opcode := ← (← json.field? "opcode").string?
    arg1 := Int32.ofInt (← (← json.field? "arg1").int?)
    arg2 := Int32.ofInt (← (← json.field? "arg2").int?)
    stackBefore := ← stackOfJson (← json.field? "stack_before")
    stackAfter := ← stackOfJson (← json.field? "stack_after")
    frameDepthBefore := (← (← json.field? "frame_depth_before").int?).toNat
    frameDepthAfter := (← (← json.field? "frame_depth_after").int?).toNat
    nextPc := (← (← json.field? "next_pc").int?).toNat
    outcome := ← TraceOutcome.ofJson (← json.field? "outcome") }

def traceOfJson (json : Json) : Option (String × List TraceEvent) := do
  let backend ← (← json.field? "backend").string?
  let events ← (← (← json.field? "events").items?).mapM TraceEvent.ofJson
  some (backend, events)

theorem mapM_map {α β : Type} {f : α → β} {g : β → Option α} (h : ∀ a, g (f a) = some a)
    (as : List α) : (as.map f).mapM g = some as := by
  induction as with
  | nil => rfl
  | cons a as ih =>
    rw [List.map_cons, List.mapM_cons, h, ih]
    rfl

theorem stackOfJson_json (values : List Int) : stackOfJson (stackJson values) = some values :=
  @mapM_map _ _ _ Json.int? (fun _ ↦ rfl) values

theorem TraceOutcome.ofJson_json (outcome : TraceOutcome) :
    ofJson outcome.json = some outcome := by
  cases outcome with
  | trap code message => cases code <;> rfl
  | _ => rfl

theorem TraceEvent.ofJson_json (event : TraceEvent) : ofJson event.json = some event := by
  obtain ⟨cycle, pc, opcode, arg1, arg2, before, after, depth, depth', next, outcome⟩ := event
  simp [ofJson, json, Json.int?, Json.string?, stackOfJson_json, TraceOutcome.ofJson_json]

theorem traceOfJson_json (backend : String) (events : List TraceEvent) :
    traceOfJson (traceJson backend events) = some (backend, events) := by
  simp [traceOfJson, traceJson, Json.items?, Json.string?, mapM_map TraceEvent.ofJson_json]

/-! ## What is written -/

open Json

/-- A control character as four hexadecimal digits. -/
theorem codeUnit_hex4 : ∀ n < 32, ∃ a b c d, (hex4 n).toList = [a, b, c, d] ∧
    Json.codeUnit a b c d = some n := by
  intro n hn
  have hshort : ∀ n < 32, List.replicate (4 - (Nat.toDigits 16 n).length) '0' ++ Nat.toDigits 16 n =
      ['0', '0', Nat.digitChar (n / 16), Nat.digitChar (n % 16)] ∧
        Json.codeUnit '0' '0' (Nat.digitChar (n / 16)) (Nat.digitChar (n % 16)) = some n := by
    decide
  obtain ⟨hdigits, hcode⟩ := hshort n hn
  exact ⟨_, _, _, _, String.toList_ofList.trans hdigits, hcode⟩

theorem character_jsonEscape (ch : Char) : Character ch (jsonEscape ch).toList := by
  rw [jsonEscape]
  split
  · rename_i h
    exact h ▸ .escape rfl
  split
  · rename_i h
    exact h ▸ .escape rfl
  split
  · rename_i h
    exact h ▸ .escape rfl
  split
  · rename_i h
    exact h ▸ .escape rfl
  split
  · rename_i h
    exact h ▸ .escape rfl
  split
  · rename_i hcontrol
    have hlt : ch.toNat < 32 := Nat.lt_succ_of_le hcontrol
    obtain ⟨a, b, c, d, htext, hcode⟩ := codeUnit_hex4 ch.toNat hlt
    rw [String.toList_append, htext]
    exact .unit hcode
  · rename_i hquote hslash _ _ _ hcontrol
    rw [String.toList_singleton]
    exact .plain (Nat.lt_of_not_le hcontrol) hquote hslash

def charactersText (value : String) : List Char :=
  value.toList.flatMap fun ch ↦ (jsonEscape ch).toList

def quotedText (value : String) : List Char := '"' :: (charactersText value ++ ['"'])

theorem characters_flatMap (chs : List Char) :
    Characters chs (chs.flatMap fun ch ↦ (jsonEscape ch).toList) := by
  induction chs with
  | nil => exact .nil
  | cons ch chs ih => exact .cons (character_jsonEscape ch) ih

theorem quoted_quotedText (value : String) : Quoted value (quotedText value) := by
  have h := Quoted.mk (characters_flatMap value.toList)
  rwa [String.ofList_toList] at h

theorem toList_pushCharacters (out : String) (chs : List Char) :
    (chs.foldl (fun out ch ↦ out ++ jsonEscape ch) out).toList =
      out.toList ++ chs.flatMap fun ch ↦ (jsonEscape ch).toList := by
  induction chs generalizing out with
  | nil => exact (List.append_nil _).symm
  | cons ch chs ih => rw [List.foldl_cons, ih, String.toList_append, List.append_assoc,
      List.flatMap_cons]

theorem toList_pushJsonString (out value : String) :
    (pushJsonString out value).toList = out.toList ++ quotedText value := by
  rw [pushJsonString, String.toList_append, toList_pushCharacters, String.toList_append,
    List.append_assoc, List.append_assoc]
  rfl

/-! ### Lists -/

section

variable {α : Type} {text : α → List Char} {push : String → α → String}

theorem toList_foldl_push (h : ∀ out a, (push out a).toList = out.toList ++ text a) (out : String)
    (as : List α) : (as.foldl (fun out a ↦ push (out ++ ",") a) out).toList =
      out.toList ++ as.flatMap fun a ↦ ',' :: text a := by
  induction as generalizing out with
  | nil => exact (List.append_nil _).symm
  | cons a as ih =>
    rw [List.foldl_cons, ih, h, String.toList_append, List.append_assoc, List.append_assoc,
      List.flatMap_cons]
    rfl

theorem toList_pushSeparated (h : ∀ out a, (push out a).toList = out.toList ++ text a)
    (out : String) (as : List α) :
    (pushSeparated push out as).toList = out.toList ++ separatedText text as := by
  cases as with
  | nil => exact (List.append_nil _).symm
  | cons a as => rw [pushSeparated, toList_foldl_push h, h, List.append_assoc, separatedText]

end

def arrayText (values : List Int) : List Char :=
  '[' :: (separatedText (fun value ↦ (toString value).toList) values ++ [']'])

theorem toList_pushI64Array (out : String) (values : List Int) :
    (pushI64Array out values).toList = out.toList ++ arrayText values := by
  have hpush : ∀ (out : String) (value : Int),
      (out ++ toString value).toList = out.toList ++ (toString value).toList :=
    fun _ _ ↦ String.toList_append
  rw [pushI64Array, String.toList_append, toList_pushSeparated hpush, String.toList_append,
    List.append_assoc, List.append_assoc]
  rfl

theorem value_arrayText (values : List Int) : Value (stackJson values) (arrayText values) := by
  cases values with
  | nil => exact .emptyArray space_nil
  | cons value values =>
    exact .array (separated_separatedText values value fun i _ ↦ (value_int i).element)

/-! ### Events -/

def stringField (key value : String) : Field := ⟨key, .string value, quotedText value⟩

def natField (key : String) (n : Nat) : Field := ⟨key, .number n 0, (toString n).toList⟩

def intField (key : String) (i : Int) : Field := ⟨key, .number i 0, (toString i).toList⟩

def stackField (key : String) (values : List Int) : Field :=
  ⟨key, stackJson values, arrayText values⟩

def outcomeFields : TraceOutcome → List Field
  | .continue => [stringField "kind" "continue"]
  | .jump => [stringField "kind" "jump"]
  | .exit => [stringField "kind" "exit"]
  | .trap code message => [stringField "kind" "trap", natField "code" code.toU8.toNat,
      stringField "trap" code.debug, stringField "message" message]

def eventFields (event : TraceEvent) : List Field :=
  [natField "cycle" event.cycle, natField "pc" event.pc, stringField "opcode" event.opcode,
    intField "arg1" event.arg1.toInt, intField "arg2" event.arg2.toInt,
    stackField "stack_before" event.stackBefore, stackField "stack_after" event.stackAfter,
    natField "frame_depth_before" event.frameDepthBefore,
    natField "frame_depth_after" event.frameDepthAfter, natField "next_pc" event.nextPc,
    ⟨"outcome", event.outcome.json, objectText (outcomeFields event.outcome)⟩]

theorem toList_pushOutcomeJson (out : String) (outcome : TraceOutcome) :
    (pushOutcomeJson out outcome).toList =
      out.toList ++ objectText (outcomeFields outcome) := by
  cases outcome with
  | trap code message =>
    simp only [pushOutcomeJson, String.toList_append, toList_pushJsonString, List.append_assoc]
    simp [outcomeFields, objectText, separatedText, Field.written, stringField, natField]
    rfl
  | _ => exact String.toList_append

theorem toList_pushEventJson (out : String) (event : TraceEvent) :
    (pushEventJson out event).toList = out.toList ++ objectText (eventFields event) := by
  simp only [pushEventJson, String.toList_append, toList_pushJsonString, toList_pushI64Array,
    toList_pushOutcomeJson, List.append_assoc]
  simp [eventFields, objectText, separatedText, Field.written, stringField, natField, intField,
    stackField]

theorem valid_stringField {key : String} (hkey : PlainKey key) (value : String) :
    (stringField key value).Valid :=
  ⟨hkey, .string (quoted_quotedText value)⟩

theorem valid_natField {key : String} (hkey : PlainKey key) (n : Nat) : (natField key n).Valid :=
  ⟨hkey, value_nat n⟩

theorem valid_intField {key : String} (hkey : PlainKey key) (i : Int) : (intField key i).Valid :=
  ⟨hkey, value_int i⟩

theorem valid_stackField {key : String} (hkey : PlainKey key) (values : List Int) :
    (stackField key values).Valid :=
  ⟨hkey, value_arrayText values⟩

theorem valid_outcomeFields (outcome : TraceOutcome) : ∀ f ∈ outcomeFields outcome, f.Valid := by
  cases outcome with
  | trap code message =>
    simp only [outcomeFields, List.forall_mem_cons]
    exact ⟨valid_stringField (by decide) _, valid_natField (by decide) _,
      valid_stringField (by decide) _, valid_stringField (by decide) _, List.forall_mem_nil _⟩
  | _ => exact List.forall_mem_singleton.mpr (valid_stringField (by decide) _)

theorem value_outcome (outcome : TraceOutcome) :
    Value outcome.json (objectText (outcomeFields outcome)) := by
  have h := valid_outcomeFields outcome
  cases outcome with
  | _ => exact value_objectText _ _ h

theorem valid_eventFields (event : TraceEvent) : ∀ f ∈ eventFields event, f.Valid := by
  simp only [eventFields, List.forall_mem_cons]
  exact ⟨valid_natField (by decide) _, valid_natField (by decide) _,
    valid_stringField (by decide) _, valid_intField (by decide) _, valid_intField (by decide) _,
    valid_stackField (by decide) _, valid_stackField (by decide) _, valid_natField (by decide) _,
    valid_natField (by decide) _, valid_natField (by decide) _, ⟨(by decide : PlainKey "outcome"), value_outcome _⟩,
    List.forall_mem_nil _⟩

theorem value_event (event : TraceEvent) : Value event.json (objectText (eventFields event)) :=
  value_objectText _ _ (valid_eventFields event)

/-! ### The whole trace -/

/-- An event on a line of its own. -/
def eventLine (event : TraceEvent) : List Char :=
  "\n    ".toList ++ objectText (eventFields event)

theorem element_eventLine (event : TraceEvent) : Element event.json (eventLine event) := by
  have h := Element.mk (by decide : Space "\n    ".toList) (value_event event) space_nil
  rwa [List.append_nil] at h

theorem value_events (events : List TraceEvent) :
    Value (.array (events.map TraceEvent.json))
      ('[' :: ((separatedText eventLine events ++ "\n  ".toList) ++ [']'])) := by
  cases events with
  | nil => exact .emptyArray (by decide)
  | cons event events =>
    exact .array ((separated_separatedText events event fun e _ ↦ element_eventLine e).element_append
      (by decide))

theorem toList_eventsToJson (backend : String) (events : List TraceEvent) :
    (eventsToJson backend events).toList =
      "\x7b\n  \"backend\": ".toList ++ (quotedText backend ++ (",\n  \"events\": [".toList ++
        (separatedText eventLine events ++ "\n  ]\n\x7d".toList))) := by
  have hpush : ∀ (out : String) (event : TraceEvent),
      (pushEventJson (out ++ "\n    ") event).toList = out.toList ++ eventLine event := by
    intro out event
    rw [toList_pushEventJson, String.toList_append, List.append_assoc]
    rfl
  simp only [eventsToJson, String.toList_append, toList_pushSeparated hpush,
    toList_pushJsonString, List.append_assoc]

theorem element_eventsToJson (backend : String) (events : List TraceEvent) :
    Element (traceJson backend events) (eventsToJson backend events).toList := by
  have hbackend := Member.mk (by decide : Space "\n  ".toList)
    (by decide : PlainKey "backend").quoted space_nil
    (.mk (by decide : Space [' ']) (.string (quoted_quotedText backend)) space_nil)
  have hevents := Member.mk (by decide : Space "\n  ".toList)
    (by decide : PlainKey "events").quoted space_nil
    (.mk (by decide : Space [' ']) (value_events events) (by decide : Space ['\n']))
  have h := (Value.object (.more hbackend (.one hevents))).element
  rw [toList_eventsToJson]
  simpa [traceJson] using h

/-- What a decoder reads of a string that either copy wrote, and of a trace. -/
theorem json_lossless :
    (∀ out value : String, ∃ literal : String, pushJsonString out value = out ++ literal ∧
      Fuzz.pushJsonString out value = out ++ literal ∧ Quoted value literal.toList ∧
      Json.decode literal = some (.string value)) ∧
    ∀ (backend : String) (events : List TraceEvent),
      Element (traceJson backend events) (eventsToJson backend events).toList ∧
      (Json.decode (eventsToJson backend events)).bind traceOfJson = some (backend, events) := by
  constructor
  · intro out value
    have hquoted := quoted_quotedText value
    have htext : pushJsonString out value = out ++ String.ofList (quotedText value) := by
      rw [← String.toList_inj, toList_pushJsonString, String.toList_append, String.toList_ofList]
    refine ⟨String.ofList (quotedText value), htext, htext, ?_, ?_⟩
    · rwa [String.toList_ofList]
    · apply decode_eq
      rw [String.toList_ofList]
      exact (Value.string hquoted).element
  · intro backend events
    have h := element_eventsToJson backend events
    refine ⟨h, ?_⟩
    rw [decode_eq h, Option.bind_some, traceOfJson_json]

end MiniLang
