import MiniLang.Lib.SelfDelimiting
import MiniLang.Bytecode.Trace

/-!
# The fingerprint of a trace

`trace_fingerprint` feeds every field of every event to a byte-wise hash. Every field shows where it
ends, so that the bytes that are fed determine the events: two traces share a fingerprint only when
the hash itself collides.

## The argument

The hasher folds over bytes, so that the hash of a trace is the hash of one list of bytes; the model
keeps that list beside the state of the hash. `SelfDelimiting` says of an encoding that it can be
told from what follows it, and it is closed under the ways in which fields are put together: one
after the other, behind a tag, and as a list behind its length. So there is one lemma for each type
of field, and the trace is put together from them.

The fields of an event have machine sizes, which `Fits` states: a length that does not fit in 64
bits would be fed modulo `2 ^ 64`.
-/

namespace MiniLang

open Encoding

/-- `code as u8` -/
def TrapCode.toU8 : TrapCode → UInt8
  | .none => 0
  | .divideByZero => 1
  | .undefinedLocal => 2
  | .arrayOutOfBounds => 3
  | .stackOverflow => 4
  | .cycleLimit => 5
  | .undefinedFunction => 6
  | .stackUnderflow => 7
  | .invalidInstruction => 8

/-! ## The hasher -/

structure StableHasher where
  state : UInt64
  /-- All bytes so far, which the code does not keep. -/
  fed : List UInt8

namespace StableHasher

def offset : UInt64 := 0xcbf29ce484222325

def prime : UInt64 := 0x00000100000001b3

def new : StableHasher := ⟨offset, []⟩

/-- One turn of the loop in `write_bytes`. -/
def writeByte (state : UInt64) (byte : UInt8) : UInt64 := (state ^^^ byte.toUInt64) * prime

def writeBytes (hasher : StableHasher) (bytes : List UInt8) : StableHasher :=
  ⟨bytes.foldl writeByte hasher.state, hasher.fed ++ bytes⟩

def writeU8 (hasher : StableHasher) (value : UInt8) : StableHasher := hasher.writeBytes [value]

def writeU64 (hasher : StableHasher) (value : Nat) : StableHasher :=
  hasher.writeBytes (leBytes 8 value)

/-- In two's complement. -/
def writeI64 (hasher : StableHasher) (value : Int) : StableHasher :=
  hasher.writeBytes (leBytes 8 (value % 2 ^ 64).toNat)

def writeI32 (hasher : StableHasher) (value : Int32) : StableHasher :=
  hasher.writeBytes (leBytes 4 value.toBitVec.toNat)

def writeUsize (hasher : StableHasher) (value : Nat) : StableHasher := hasher.writeU64 value

def writeString (hasher : StableHasher) (value : String) : StableHasher :=
  (hasher.writeUsize value.utf8ByteSize).writeBytes value.toUTF8.data.toList

def finish (hasher : StableHasher) : UInt64 := hasher.state

end StableHasher

open StableHasher

def hashI64Slice (hasher : StableHasher) (values : List Int) : StableHasher :=
  values.foldl writeI64 (hasher.writeUsize values.length)

def hashOutcome (hasher : StableHasher) : TraceOutcome → StableHasher
  | .continue => hasher.writeU8 0
  | .jump => hasher.writeU8 1
  | .exit => hasher.writeU8 2
  | .trap code message => ((hasher.writeU8 3).writeU8 code.toU8).writeString message

def hashEvent (hasher : StableHasher) (event : TraceEvent) : StableHasher :=
  let hasher := hasher.writeU64 event.cycle
  let hasher := hasher.writeUsize event.pc
  let hasher := hasher.writeString event.opcode
  let hasher := hasher.writeI32 event.arg1
  let hasher := hasher.writeI32 event.arg2
  let hasher := hashI64Slice hasher event.stackBefore
  let hasher := hashI64Slice hasher event.stackAfter
  let hasher := hasher.writeUsize event.frameDepthBefore
  let hasher := hasher.writeUsize event.frameDepthAfter
  let hasher := hasher.writeUsize event.nextPc
  hashOutcome hasher event.outcome

/-- The hasher of `trace_fingerprint` when it is read. -/
def traceHasher (events : List TraceEvent) : StableHasher :=
  let hasher := StableHasher.new.writeBytes "minilang.trace.v1".toUTF8.data.toList
  let hasher := hasher.writeUsize events.length
  events.foldl hashEvent hasher

/-- A deterministic fingerprint over every observable trace field. -/
def traceFingerprint (events : List TraceEvent) : UInt64 := (traceHasher events).finish

/-! ## What is fed -/

def usizeBytes (value : Nat) : List UInt8 := leBytes 8 value

def i64Bytes (value : Int) : List UInt8 := leBytes 8 (value % 2 ^ 64).toNat

def i32Bytes (value : Int32) : List UInt8 := leBytes 4 value.toBitVec.toNat

def stringBytes (value : String) : List UInt8 :=
  usizeBytes value.utf8ByteSize ++ value.toUTF8.data.toList

def i64SliceBytes (values : List Int) : List UInt8 :=
  usizeBytes values.length ++ values.flatMap i64Bytes

def outcomeBytes : TraceOutcome → List UInt8
  | .continue => [0]
  | .jump => [1]
  | .exit => [2]
  | .trap code message => 3 :: code.toU8 :: stringBytes message

def eventBytes (event : TraceEvent) : List UInt8 :=
  usizeBytes event.cycle ++ (usizeBytes event.pc ++ (stringBytes event.opcode ++
    (i32Bytes event.arg1 ++ (i32Bytes event.arg2 ++ (i64SliceBytes event.stackBefore ++
      (i64SliceBytes event.stackAfter ++ (usizeBytes event.frameDepthBefore ++
        (usizeBytes event.frameDepthAfter ++ (usizeBytes event.nextPc ++
          outcomeBytes event.outcome)))))))))

theorem writeBytes_append (hasher : StableHasher) (bytes bytes' : List UInt8) :
    (hasher.writeBytes bytes).writeBytes bytes' = hasher.writeBytes (bytes ++ bytes') := by
  rw [writeBytes, writeBytes, writeBytes, List.foldl_append, List.append_assoc]

theorem writeBytes_nil (hasher : StableHasher) : hasher.writeBytes [] = hasher := by
  rw [writeBytes, List.append_nil]
  rfl

/-- A loop of writes. -/
theorem foldl_writeBytes {α : Type} {write : StableHasher → α → StableHasher}
    {bytes : α → List UInt8} (h : ∀ hasher a, write hasher a = hasher.writeBytes (bytes a))
    (hasher : StableHasher) (as : List α) :
    as.foldl write hasher = hasher.writeBytes (as.flatMap bytes) := by
  induction as generalizing hasher with
  | nil => exact (writeBytes_nil hasher).symm
  | cons a as ih => rw [List.foldl_cons, ih, h, writeBytes_append, List.flatMap_cons]

theorem writeString_eq (hasher : StableHasher) (value : String) :
    hasher.writeString value = hasher.writeBytes (stringBytes value) :=
  writeBytes_append ..

theorem hashI64Slice_eq (hasher : StableHasher) (values : List Int) :
    hashI64Slice hasher values = hasher.writeBytes (i64SliceBytes values) := by
  rw [hashI64Slice, foldl_writeBytes fun hasher value ↦ (rfl : writeI64 hasher value =
    hasher.writeBytes (i64Bytes value)), writeUsize, writeU64, writeBytes_append]
  rfl

theorem hashOutcome_eq (hasher : StableHasher) (outcome : TraceOutcome) :
    hashOutcome hasher outcome = hasher.writeBytes (outcomeBytes outcome) := by
  cases outcome with
  | trap code message =>
    rw [hashOutcome, writeString_eq, writeU8, writeU8, writeBytes_append, writeBytes_append]
    rfl
  | _ => rfl

theorem hashEvent_eq (hasher : StableHasher) (event : TraceEvent) :
    hashEvent hasher event = hasher.writeBytes (eventBytes event) := by
  simp only [hashEvent, hashOutcome_eq, hashI64Slice_eq, writeString_eq, writeUsize, writeU64,
    writeI32, writeBytes_append, eventBytes, usizeBytes, i32Bytes, List.append_assoc]

/-- The bytes of a trace. -/
def traceBytes (events : List TraceEvent) : List UInt8 :=
  "minilang.trace.v1".toUTF8.data.toList ++ (usizeBytes events.length ++ events.flatMap eventBytes)

theorem traceHasher_eq (events : List TraceEvent) :
    traceHasher events = StableHasher.new.writeBytes (traceBytes events) := by
  rw [traceHasher, foldl_writeBytes hashEvent_eq, writeUsize, writeU64, writeBytes_append,
    writeBytes_append]
  rfl

/-! ## Every field shows where it ends -/

theorem selfDelimiting_usize : SelfDelimiting (· < 2 ^ 64) usizeBytes :=
  selfDelimiting_leBytes 8

theorem selfDelimiting_i64 : SelfDelimiting (fun value ↦ -2 ^ 63 ≤ value ∧ value < 2 ^ 63)
    i64Bytes := by
  apply (selfDelimiting_leBytes 8).comp
  · intro value _
    omega
  · intro value value' h h' heq
    omega

theorem selfDelimiting_i32 : SelfDelimiting (fun _ ↦ True) i32Bytes := by
  apply (selfDelimiting_leBytes 4).comp
  · intro value _
    exact value.toBitVec.isLt
  · intro value value' _ _ heq
    exact Int32.toBitVec_inj.mp (BitVec.eq_of_toNat_eq heq)

theorem selfDelimiting_string : SelfDelimiting (fun value ↦ value.utf8ByteSize < 2 ^ 64)
    stringBytes := by
  intro value value' s t h h' heq
  rw [stringBytes, stringBytes, List.append_assoc, List.append_assoc] at heq
  obtain ⟨hsize, hmore⟩ := selfDelimiting_usize h h' heq
  obtain ⟨hbytes, hrest⟩ := List.append_inj hmore hsize
  exact ⟨String.toByteArray_inj.mp (ByteArray.ext (Array.toList_inj.mp hbytes)), hrest⟩

theorem selfDelimiting_i64Slice :
    SelfDelimiting (fun values : List Int ↦ values.length < 2 ^ 64 ∧
      ∀ value ∈ values, -2 ^ 63 ≤ value ∧ value < 2 ^ 63) i64SliceBytes :=
  selfDelimiting_usize.counted selfDelimiting_i64

theorem TrapCode.toU8_inj {code code' : TrapCode} (h : code.toU8 = code'.toU8) : code = code' := by
  cases code <;> cases code' <;> first | rfl | (revert h; decide)

/-- The message has a length that `usize` holds. -/
def TraceOutcome.Fits : TraceOutcome → Prop
  | .trap _ message => message.utf8ByteSize < 2 ^ 64
  | _ => True

/-- The tag comes first. -/
theorem selfDelimiting_outcome : SelfDelimiting TraceOutcome.Fits outcomeBytes := by
  intro outcome outcome' s t h h' heq
  cases outcome with
  | trap code message =>
    cases outcome' with
    | trap code' message' =>
      obtain ⟨hcode, hmore⟩ := List.cons.inj (List.cons.inj heq).2
      obtain ⟨rfl, hrest⟩ := selfDelimiting_string h h' hmore
      exact ⟨congrArg (TraceOutcome.trap · message) (TrapCode.toU8_inj hcode), hrest⟩
    | _ => exact absurd (List.cons.inj heq).1 (by decide)
  | _ =>
    cases outcome' with
    | _ =>
      first
      | exact ⟨rfl, (List.cons.inj heq).2⟩
      | exact absurd (List.cons.inj heq).1 (by decide)

/-- The numbers and lengths of an event are those of the types of its fields. -/
structure TraceEvent.Fits (event : TraceEvent) : Prop where
  cycle : event.cycle < 2 ^ 64
  pc : event.pc < 2 ^ 64
  opcode : event.opcode.utf8ByteSize < 2 ^ 64
  stackBefore : event.stackBefore.length < 2 ^ 64 ∧
    ∀ value ∈ event.stackBefore, -2 ^ 63 ≤ value ∧ value < 2 ^ 63
  stackAfter : event.stackAfter.length < 2 ^ 64 ∧
    ∀ value ∈ event.stackAfter, -2 ^ 63 ≤ value ∧ value < 2 ^ 63
  frameDepthBefore : event.frameDepthBefore < 2 ^ 64
  frameDepthAfter : event.frameDepthAfter < 2 ^ 64
  nextPc : event.nextPc < 2 ^ 64
  outcome : event.outcome.Fits

theorem selfDelimiting_event : SelfDelimiting TraceEvent.Fits eventBytes := by
  intro event event' s t h h' heq
  obtain ⟨cycle, pc, opcode, arg1, arg2, before, after, depth, depth', next, outcome⟩ := event
  obtain ⟨cycle', pc', opcode', arg1', arg2', before', after', depth₁, depth₁', next', outcome'⟩ :=
    event'
  simp only [eventBytes, List.append_assoc] at heq
  obtain ⟨rfl, hpc⟩ := selfDelimiting_usize h.cycle h'.cycle heq
  obtain ⟨rfl, hopcode⟩ := selfDelimiting_usize h.pc h'.pc hpc
  obtain ⟨rfl, harg1⟩ := selfDelimiting_string h.opcode h'.opcode hopcode
  obtain ⟨rfl, harg2⟩ := selfDelimiting_i32 trivial trivial harg1
  obtain ⟨rfl, hbefore⟩ := selfDelimiting_i32 trivial trivial harg2
  obtain ⟨rfl, hafter⟩ := selfDelimiting_i64Slice h.stackBefore h'.stackBefore hbefore
  obtain ⟨rfl, hdepth⟩ := selfDelimiting_i64Slice h.stackAfter h'.stackAfter hafter
  obtain ⟨rfl, hdepth'⟩ := selfDelimiting_usize h.frameDepthBefore h'.frameDepthBefore hdepth
  obtain ⟨rfl, hnext⟩ := selfDelimiting_usize h.frameDepthAfter h'.frameDepthAfter hdepth'
  obtain ⟨rfl, houtcome⟩ := selfDelimiting_usize h.nextPc h'.nextPc hnext
  obtain ⟨rfl, hrest⟩ := selfDelimiting_outcome h.outcome h'.outcome houtcome
  exact ⟨rfl, hrest⟩

/-- As many events as `usize` counts, all of them events of the machine. -/
def TraceFits (events : List TraceEvent) : Prop :=
  events.length < 2 ^ 64 ∧ ∀ event ∈ events, event.Fits

theorem traceBytes_inj {events events' : List TraceEvent} (h : TraceFits events)
    (h' : TraceFits events') (heq : traceBytes events = traceBytes events') : events = events' :=
  (selfDelimiting_usize.counted selfDelimiting_event).inj h h' (List.append_cancel_left heq)

theorem fed_traceHasher (events : List TraceEvent) :
    (traceHasher events).fed = traceBytes events := by
  rw [traceHasher_eq, writeBytes, new, List.nil_append]

/-- The hash function itself, which `write_bytes` runs from the start. -/
def StableHasher.hashOf (bytes : List UInt8) : UInt64 := bytes.foldl writeByte offset

theorem traceFingerprint_eq (events : List TraceEvent) :
    traceFingerprint events = hashOf (traceHasher events).fed := by
  rw [fed_traceHasher, traceFingerprint, traceHasher_eq, writeBytes, new, finish, hashOf]

/-- The bytes that are hashed are those of one trace only, so that two traces with one fingerprint
are a collision of the hash. -/
theorem fingerprint_unambiguous {events events' : List TraceEvent} (h : TraceFits events)
    (h' : TraceFits events') (hne : events ≠ events') :
    (traceHasher events).fed ≠ (traceHasher events').fed ∧
      traceFingerprint events = hashOf (traceHasher events).fed ∧
      traceFingerprint events' = hashOf (traceHasher events').fed := by
  refine ⟨?_, traceFingerprint_eq events, traceFingerprint_eq events'⟩
  rw [fed_traceHasher, fed_traceHasher]
  intro heq
  exact hne (traceBytes_inj h h' heq)

/-- Two stacks that differ in how they are cut. -/
theorem fingerprint_unambiguous_stacks :
    (traceHasher [⟨1, 0, "Add", 0, 0, [1], [], 1, 1, 1, .continue⟩]).fed ≠
      (traceHasher [⟨1, 0, "Add", 0, 0, [], [1], 1, 1, 1, .trap .divideByZero "x"⟩]).fed := by
  refine (fingerprint_unambiguous ⟨by decide, ?_⟩ ⟨by decide, ?_⟩ (by decide)).1
  · rw [List.forall_mem_singleton]
    exact ⟨by decide, by decide, by decide, by decide, by decide, by decide, by decide, by decide,
      trivial⟩
  · rw [List.forall_mem_singleton]
    exact ⟨by decide, by decide, by decide, by decide, by decide, by decide, by decide, by decide,
      (by decide : "x".utf8ByteSize < 2 ^ 64)⟩

end MiniLang
