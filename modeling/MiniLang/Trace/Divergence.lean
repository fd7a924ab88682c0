import Mathlib.Data.List.Chain
import MiniLang.Bytecode.Trace

/-!
# Trace comparators

The first difference between two traces, event by event, and the comparison that does not tell
references to arrays apart by their values. The second one carries what it knows about the operand
stack from event to event; on traces that chain and that allocate no array it finds what the first
one finds.

## The least index

`Finds` says of a result that it has the least index at which two lists differ, or that they are
equal if there is none. The loop compares the events that both traces have and then the lengths, and
each half has its part of this. Two events differ in some field exactly if they are not equal, since
the comparison goes over all fields.

## What the normaliser knows

An allocation leaves a reference on the stack, which a machine is free to number as it likes. The
normaliser marks it as the n-th array allocated, and follows it as long as it stays where it is on
the raw stack. In a trace without allocations nothing is ever marked. `Plain` is the invariant: the
stack it has kept is that of the last event, value by value. On a chain this is also the stack
before the next event, so normalising changes nothing.
-/

namespace MiniLang

/-- First observable mismatch between two traces. -/
structure TraceDivergence where
  eventIndex : Nat
  field : String
  left : String
  right : String
deriving DecidableEq

/-! ## Comparators -/

/-- A value of a normalized stack: an integer, or the array that was allocated at that place in the
order of allocations. -/
inductive NormalizedValue
  | int (value : Int)
  | arrayRef (id : Nat)
deriving DecidableEq

structure NormalizedStackEvent where
  before : List NormalizedValue
  after : List NormalizedValue

/-- The normalizer: the stack after the last event, from the bottom. -/
structure TraceNormalizer where
  stack : List NormalizedValue
  nextArrayRef : Nat

/-- How `Debug` prints a vector. -/
def debugList {α : Type} (debug : α → String) (values : List α) : String :=
  "[" ++ ", ".intercalate (values.map debug) ++ "]"

def NormalizedValue.debug : NormalizedValue → String
  | .int value => s!"Int({value})"
  | .arrayRef id => s!"ArrayRef({id})"

section

-- how `Debug` quotes a string
variable (debugString : String → String)

def TraceOutcome.debug : TraceOutcome → String
  | .continue => "Continue"
  | .jump => "Jump"
  | .exit => "Exit"
  | .trap code message =>
    s!"Trap \x7b code: {code.debug}, message: {debugString message} \x7d"

def fieldDivergence {α : Type} [DecidableEq α] (debug : α → String) (index : Nat) (field : String)
    (left right : α) : Option TraceDivergence :=
  if left = right then none else some ⟨index, field, debug left, debug right⟩

/-- The comparison of two events, whose stacks are given before and after. -/
def compareEventOn {α : Type} [DecidableEq α] (debugStack : α → String)
    (index : Nat) (left right : TraceEvent) (leftBefore rightBefore leftAfter rightAfter : α) :
    Option TraceDivergence :=
  fieldDivergence toString index "cycle" left.cycle right.cycle
    <|> fieldDivergence toString index "pc" left.pc right.pc
    <|> fieldDivergence debugString index "opcode" left.opcode right.opcode
    <|> fieldDivergence toString index "arg1" left.arg1 right.arg1
    <|> fieldDivergence toString index "arg2" left.arg2 right.arg2
    <|> fieldDivergence debugStack index "stack_before" leftBefore rightBefore
    <|> fieldDivergence debugStack index "stack_after" leftAfter rightAfter
    <|> fieldDivergence toString index "frame_depth_before" left.frameDepthBefore
      right.frameDepthBefore
    <|> fieldDivergence toString index "frame_depth_after" left.frameDepthAfter
      right.frameDepthAfter
    <|> fieldDivergence toString index "next_pc" left.nextPc right.nextPc
    <|> fieldDivergence (TraceOutcome.debug debugString) index "outcome" left.outcome right.outcome

def compareEvent (index : Nat) (left right : TraceEvent) : Option TraceDivergence :=
  compareEventOn debugString (debugList toString) index left right left.stackBefore
    right.stackBefore left.stackAfter right.stackAfter

def compareEventSemantic (index : Nat) (left right : TraceEvent)
    (leftStack rightStack : NormalizedStackEvent) : Option TraceDivergence :=
  compareEventOn debugString (debugList NormalizedValue.debug) index left right leftStack.before
    rightStack.before leftStack.after rightStack.after

def summarizeEvent (event : TraceEvent) : String :=
  s!"pc={event.pc} opcode={event.opcode} stack_after={debugList toString event.stackAfter} outcome={event.outcome.debug debugString}"

/-- The mismatch of two traces that agree as far as both go. -/
def lengthDivergence (left right : List TraceEvent) : Option TraceDivergence :=
  match compare left.length right.length with
  | .eq => none
  | .lt => right[left.length]?.map fun event ↦
    ⟨left.length, "length", "<end>", summarizeEvent debugString event⟩
  | .gt => left[right.length]?.map fun event ↦
    ⟨right.length, "length", summarizeEvent debugString event, "<end>"⟩

/-- The loop of `first_trace_divergence`, from event `index` on. -/
def compareEvents (index : Nat) : List (TraceEvent × TraceEvent) → Option TraceDivergence
  | [] => none
  | (left, right) :: events =>
    match compareEvent debugString index left right with
    | some divergence => some divergence
    | none => compareEvents (index + 1) events

/-- Return the first differing field between two instruction traces. -/
def firstTraceDivergence (left right : List TraceEvent) : Option TraceDivergence :=
  match compareEvents debugString 0 (left.zip right) with
  | some divergence => some divergence
  | none => lengthDivergence debugString left right

end

/-- Where the raw stack has not changed, keep what is known about the value. -/
def preserveStackPrefix (rawBefore : List Int) (normalizedBefore : List NormalizedValue)
    (rawAfter : List Int) : List NormalizedValue :=
  rawAfter.mapIdx fun index value ↦
    if rawBefore[index]? = some value then (normalizedBefore[index]?).getD (.int value)
    else .int value

namespace TraceNormalizer

def new : TraceNormalizer := ⟨[], 0⟩

def normalizeBefore (normalizer : TraceNormalizer) (event : TraceEvent) : List NormalizedValue :=
  if normalizer.stack.length = event.stackBefore.length then normalizer.stack
  else event.stackBefore.map .int

/-- The event allocates an array and pushes the reference. -/
def Allocates (event : TraceEvent) : Prop :=
  (event.opcode = "AllocArray" ∨ event.opcode = "ArrayNew") ∧
    event.stackAfter.length = event.stackBefore.length + 1

instance (event : TraceEvent) : Decidable (Allocates event) :=
  inferInstanceAs (Decidable (_ ∧ _))

def normalizeAfter (normalizer : TraceNormalizer) (event : TraceEvent)
    (before : List NormalizedValue) : List NormalizedValue × TraceNormalizer :=
  let after := preserveStackPrefix event.stackBefore before event.stackAfter
  if Allocates event ∧ after ≠ [] then
    (after.dropLast ++ [.arrayRef normalizer.nextArrayRef],
      { normalizer with nextArrayRef := normalizer.nextArrayRef + 1 })
  else (after, normalizer)

def normalizeEvent (normalizer : TraceNormalizer) (event : TraceEvent) :
    NormalizedStackEvent × TraceNormalizer :=
  let before := normalizer.normalizeBefore event
  let (after, normalizer) := normalizer.normalizeAfter event before
  (⟨before, after⟩, { normalizer with stack := after })

end TraceNormalizer

section

variable (debugString : String → String)

/-- The loop of `first_semantic_trace_divergence`, from event `index` on. -/
def compareEventsSemantic (index : Nat) (leftNormalizer rightNormalizer : TraceNormalizer) :
    List (TraceEvent × TraceEvent) → Option TraceDivergence
  | [] => none
  | (left, right) :: events =>
    let (leftStack, leftNormalizer) := leftNormalizer.normalizeEvent left
    let (rightStack, rightNormalizer) := rightNormalizer.normalizeEvent right
    match compareEventSemantic debugString index left right leftStack rightStack with
    | some divergence => some divergence
    | none => compareEventsSemantic (index + 1) leftNormalizer rightNormalizer events

/-- Return the first semantic trace mismatch, normalizing runtime-internal values. -/
def firstSemanticTraceDivergence (left right : List TraceEvent) : Option TraceDivergence :=
  match compareEventsSemantic debugString 0 .new .new (left.zip right) with
  | some divergence => some divergence
  | none => lengthDivergence debugString left right

end

/-! ## Events -/

variable {debugString : String → String} {index : Nat} {left right : TraceEvent}
  {divergence : TraceDivergence} {events : List (TraceEvent × TraceEvent)}

section

variable {α : Type} [DecidableEq α] {debug : α → String} {field : String} {a b : α}

theorem fieldDivergence_eq_none_iff : fieldDivergence debug index field a b = none ↔ a = b := by
  rw [fieldDivergence]
  split
  · next h => exact iff_of_true rfl h
  · next h => exact iff_of_false (Option.some_ne_none _) h

theorem eventIndex_of_fieldDivergence (h : fieldDivergence debug index field a b = some divergence) :
    divergence.eventIndex = index := by
  rw [fieldDivergence] at h
  split at h
  · cases h
  · rw [← Option.some_inj.mp h]

theorem orElse_eq_none_iff {x y : Option TraceDivergence} :
    (x <|> y) = none ↔ x = none ∧ y = none := by
  cases x with
  | none => exact ⟨fun h ↦ ⟨rfl, h⟩, And.right⟩
  | some divergence => exact iff_of_false (Option.some_ne_none _) fun h ↦ nomatch h.1

variable {debugStack : α → String} {leftBefore rightBefore leftAfter rightAfter : α}

theorem compareEventOn_eq_none_iff : compareEventOn debugString debugStack index left right
      leftBefore rightBefore leftAfter rightAfter = none ↔
    left.cycle = right.cycle ∧ left.pc = right.pc ∧ left.opcode = right.opcode ∧
      left.arg1 = right.arg1 ∧ left.arg2 = right.arg2 ∧ leftBefore = rightBefore ∧
      leftAfter = rightAfter ∧ left.frameDepthBefore = right.frameDepthBefore ∧
      left.frameDepthAfter = right.frameDepthAfter ∧ left.nextPc = right.nextPc ∧
      left.outcome = right.outcome := by
  simp only [compareEventOn, orElse_eq_none_iff, fieldDivergence_eq_none_iff]

theorem eventIndex_of_compareEventOn (h : compareEventOn debugString debugStack index left right
    leftBefore rightBefore leftAfter rightAfter = some divergence) :
    divergence.eventIndex = index := by
  have hstep {x y : Option TraceDivergence}
      (hx : ∀ d, x = some d → d.eventIndex = index) (hy : ∀ d, y = some d → d.eventIndex = index) :
      ∀ d, (x <|> y) = some d → d.eventIndex = index := by
    intro d hd
    cases x with
    | none => exact hy d hd
    | some d' => exact hx d hd
  have hfield {γ : Type} [DecidableEq γ] {debug : γ → String} {field : String} {a b : γ} :
      ∀ d, fieldDivergence debug index field a b = some d → d.eventIndex = index :=
    fun _ ↦ eventIndex_of_fieldDivergence
  exact hstep hfield (hstep hfield (hstep hfield (hstep hfield (hstep hfield (hstep hfield
    (hstep hfield (hstep hfield (hstep hfield (hstep hfield hfield))))))))) divergence h

end

/-- Two events are compared field by field. -/
theorem compareEvent_eq_none_iff : compareEvent debugString index left right = none ↔
    left = right := by
  rw [compareEvent, compareEventOn_eq_none_iff]
  constructor
  · rintro ⟨h₁, h₂, h₃, h₄, h₅, h₆, h₇, h₈, h₉, h₁₀, h₁₁⟩
    cases left
    cases right
    simp only [TraceEvent.mk.injEq]
    exact ⟨h₁, h₂, h₃, h₄, h₅, h₆, h₇, h₈, h₉, h₁₀, h₁₁⟩
  · rintro rfl
    exact ⟨rfl, rfl, rfl, rfl, rfl, rfl, rfl, rfl, rfl, rfl, rfl⟩

/-! ## The first difference -/

/-- The lists agree up to `index`, and there they differ. -/
def DifferFirstAt (left right : List TraceEvent) (index : Nat) : Prop :=
  left[index]? ≠ right[index]? ∧ ∀ i < index, left[i]? = right[i]?

theorem DifferFirstAt.cons {ls rs : List TraceEvent} (h : DifferFirstAt ls rs index)
    (event : TraceEvent) : DifferFirstAt (event :: ls) (event :: rs) (index + 1) := by
  refine ⟨h.1, fun i hi ↦ ?_⟩
  cases i with
  | zero => rfl
  | succ i => exact h.2 i (Nat.lt_of_succ_lt_succ hi)

/-- What the comparison of two traces from event `index` on finds. -/
def Finds (left right : List TraceEvent) (index : Nat) : Option TraceDivergence → Prop
  | none => left = right
  | some divergence => ∃ i, divergence.eventIndex = index + i ∧ DifferFirstAt left right i

theorem Finds.eq_none_iff {ls rs : List TraceEvent} {result : Option TraceDivergence}
    (h : Finds ls rs index result) : result = none ↔ ls = rs := by
  cases result with
  | none => exact iff_of_true rfl h
  | some divergence =>
    obtain ⟨i, -, hne, -⟩ := h
    refine iff_of_false (Option.some_ne_none _) ?_
    rintro rfl
    exact hne rfl

/-- The comparison of the lengths, where one trace begins with the other. -/
theorem finds_lengthDivergence {ls rs : List TraceEvent} (hzip : ∀ e ∈ ls.zip rs, e.1 = e.2) :
    Finds ls rs 0 (lengthDivergence debugString ls rs) := by
  have hsame (i : Nat) (hl : i < ls.length) (hr : i < rs.length) : ls[i]? = rs[i]? := by
    have hmem : (ls[i], rs[i]) ∈ ls.zip rs := by
      rw [List.mem_iff_getElem]
      exact ⟨i, by rw [List.length_zip]; omega, List.getElem_zip⟩
    rw [List.getElem?_eq_getElem hl, List.getElem?_eq_getElem hr]
    exact congrArg some (hzip _ hmem)
  rw [lengthDivergence]
  rcases Nat.lt_trichotomy ls.length rs.length with hlt | heq | hgt
  · rw [Nat.compare_eq_lt.mpr hlt, List.getElem?_eq_getElem hlt]
    refine ⟨ls.length, (Nat.zero_add _).symm, ?_, fun i hi ↦ hsame i hi (Nat.lt_trans hi hlt)⟩
    rw [List.getElem?_eq_none le_rfl, List.getElem?_eq_getElem hlt]
    exact (Option.some_ne_none _).symm
  · rw [Nat.compare_eq_eq.mpr heq]
    refine List.ext_getElem? fun i ↦ ?_
    by_cases hi : i < ls.length
    · exact hsame i hi (heq ▸ hi)
    · rw [List.getElem?_eq_none (Nat.not_lt.mp hi), List.getElem?_eq_none (heq ▸ Nat.not_lt.mp hi)]
  · rw [Nat.compare_eq_gt.mpr hgt, List.getElem?_eq_getElem hgt]
    refine ⟨rs.length, (Nat.zero_add _).symm, ?_, fun i hi ↦ hsame i (Nat.lt_trans hi hgt) hi⟩
    rw [List.getElem?_eq_none le_rfl, List.getElem?_eq_getElem hgt]
    exact Option.some_ne_none _

/-- What the loop over the events that both traces have finds. -/
theorem compareEvents_zip (ls rs : List TraceEvent) (index : Nat) :
    match compareEvents debugString index (ls.zip rs) with
    | none => ∀ e ∈ ls.zip rs, e.1 = e.2
    | some divergence => ∃ i, divergence.eventIndex = index + i ∧ DifferFirstAt ls rs i := by
  induction ls generalizing rs index with
  | nil => exact fun e he ↦ absurd he List.not_mem_nil
  | cons l ls ih =>
    cases rs with
    | nil => exact fun e he ↦ absurd he List.not_mem_nil
    | cons r rs =>
      rw [List.zip_cons_cons, compareEvents]
      cases hcompare : compareEvent debugString index l r with
      | some divergence =>
        refine ⟨0, eventIndex_of_compareEventOn hcompare, fun heq ↦ ?_, fun i hi ↦ absurd hi
          (Nat.not_lt_zero i)⟩
        rw [compareEvent_eq_none_iff.mpr (Option.some_inj.mp heq)] at hcompare
        cases hcompare
      | none =>
        obtain rfl := compareEvent_eq_none_iff.mp hcompare
        have hrest := ih rs (index + 1)
        dsimp only
        cases hfind : compareEvents debugString (index + 1) (ls.zip rs) with
        | none =>
          rw [hfind] at hrest
          exact List.forall_mem_cons.mpr ⟨rfl, hrest⟩
        | some divergence =>
          rw [hfind] at hrest
          obtain ⟨i, hindex, hdiffer⟩ := hrest
          exact ⟨i + 1, hindex.trans (Nat.add_right_comm ..), hdiffer.cons l⟩

theorem finds_firstTraceDivergence (ls rs : List TraceEvent) :
    Finds ls rs 0 (firstTraceDivergence debugString ls rs) := by
  have hloop := @compareEvents_zip debugString ls rs 0
  rw [firstTraceDivergence]
  cases hfind : compareEvents debugString 0 (ls.zip rs) with
  | none =>
    rw [hfind] at hloop
    exact finds_lengthDivergence hloop
  | some divergence =>
    rw [hfind] at hloop
    exact hloop

/-! ## Traces without allocations -/

/-- Each event starts with the stack that the one before has left. -/
def Chained (events : List TraceEvent) : Prop :=
  events.IsChain fun event event' ↦ event'.stackBefore = event.stackAfter

/-- The event is not the allocation of an array. -/
def AllocatesNothing (event : TraceEvent) : Prop :=
  event.opcode ≠ "AllocArray" ∧ event.opcode ≠ "ArrayNew"

instance (event : TraceEvent) : Decidable (AllocatesNothing event) :=
  inferInstanceAs (Decidable (_ ∧ _))

theorem preserveStackPrefix_map (rawBefore rawAfter : List Int) :
    preserveStackPrefix rawBefore (rawBefore.map .int) rawAfter = rawAfter.map .int := by
  refine List.ext_getElem? fun i ↦ ?_
  rw [preserveStackPrefix, List.getElem?_mapIdx, @List.getElem?_map _ _ _ rawAfter]
  cases rawAfter[i]? with
  | none => rfl
  | some value =>
    rw [Option.map_some, Option.map_some]
    split
    · next h => rw [List.getElem?_map, h, Option.map_some, Option.getD_some]
    · rfl

namespace TraceNormalizer

variable {normalizer : TraceNormalizer} {event : TraceEvent}

/-- The normalizer takes the stack before the next event for what it is. -/
def Plain (normalizer : TraceNormalizer) (events : List TraceEvent) : Prop :=
  ∀ event ∈ events.head?, normalizer.normalizeBefore event = event.stackBefore.map .int

theorem plain_new (events : List TraceEvent) : Plain new events := by
  intro event _
  rw [normalizeBefore]
  split
  · next h => rw [List.eq_nil_of_length_eq_zero h.symm]; rfl
  · rfl

/-- What an event without allocation does to the normalizer. -/
theorem Plain.normalizeEvent {events : List TraceEvent} (h : Plain normalizer (event :: events))
    (halloc : AllocatesNothing event) : (normalizer.normalizeEvent event).1 =
      ⟨event.stackBefore.map .int, event.stackAfter.map .int⟩ ∧
    (normalizer.normalizeEvent event).2.stack = event.stackAfter.map .int := by
  have hnot : ¬Allocates event := fun h ↦ h.1.elim halloc.1 halloc.2
  have hafter : normalizer.normalizeAfter event (event.stackBefore.map .int) =
      (event.stackAfter.map .int, normalizer) := by
    rw [normalizeAfter, preserveStackPrefix_map]
    exact if_neg fun h ↦ hnot h.1
  rw [TraceNormalizer.normalizeEvent, h event rfl, hafter]
  exact ⟨rfl, rfl⟩

/-- The invariant along a chain. -/
theorem Plain.next {events : List TraceEvent} (h : Plain normalizer (event :: events))
    (halloc : AllocatesNothing event) (hchained : Chained (event :: events)) :
    Plain (normalizer.normalizeEvent event).2 events := by
  intro event' hevent'
  cases events with
  | nil => cases hevent'
  | cons event'' events =>
    obtain rfl := Option.some_inj.mp hevent'
    have hbefore : event''.stackBefore = event.stackAfter := (List.isChain_cons_cons.mp hchained).1
    rw [normalizeBefore, (h.normalizeEvent halloc).2, List.length_map, hbefore, if_pos rfl]

end TraceNormalizer

theorem compareEventSemantic_eq_none_iff :
    compareEventSemantic debugString index left right
      ⟨left.stackBefore.map .int, left.stackAfter.map .int⟩
      ⟨right.stackBefore.map .int, right.stackAfter.map .int⟩ = none ↔
    compareEvent debugString index left right = none := by
  have hinjective : Function.Injective NormalizedValue.int := fun _ _ h ↦ NormalizedValue.int.inj h
  rw [compareEventSemantic, compareEvent, compareEventOn_eq_none_iff, compareEventOn_eq_none_iff,
    List.map_inj_right fun _ _ h ↦ hinjective h, List.map_inj_right fun _ _ h ↦ hinjective h]

/-- **The loops of the two comparators agree** on the index they find. -/
theorem map_eventIndex_compareEventsSemantic {ls rs : List TraceEvent}
    {leftNormalizer rightNormalizer : TraceNormalizer} (hleft : leftNormalizer.Plain ls)
    (hright : rightNormalizer.Plain rs) (hls : Chained ls) (hrs : Chained rs)
    (hlalloc : ∀ event ∈ ls, AllocatesNothing event)
    (hralloc : ∀ event ∈ rs, AllocatesNothing event) (index : Nat) :
    (compareEventsSemantic debugString index leftNormalizer rightNormalizer (ls.zip rs)).map
      TraceDivergence.eventIndex =
    (compareEvents debugString index (ls.zip rs)).map TraceDivergence.eventIndex := by
  induction ls generalizing rs index leftNormalizer rightNormalizer with
  | nil => rfl
  | cons l ls ih =>
    cases rs with
    | nil => rfl
    | cons r rs =>
      obtain ⟨hl, hlalloc⟩ := List.forall_mem_cons.mp hlalloc
      obtain ⟨hr, hralloc⟩ := List.forall_mem_cons.mp hralloc
      rw [List.zip_cons_cons, compareEvents, compareEventsSemantic]
      dsimp only
      rw [(hleft.normalizeEvent hl).1, (hright.normalizeEvent hr).1]
      cases hcompare : compareEvent debugString index l r with
      | none =>
        rw [compareEventSemantic_eq_none_iff.mpr hcompare]
        exact ih (hleft.next hl hls) (hright.next hr hrs) hls.tail hrs.tail hlalloc hralloc _
      | some divergence =>
        cases hsemantic : compareEventSemantic debugString index l r
            ⟨l.stackBefore.map .int, l.stackAfter.map .int⟩
            ⟨r.stackBefore.map .int, r.stackAfter.map .int⟩ with
        | none =>
          rw [compareEventSemantic_eq_none_iff.mp hsemantic] at hcompare
          cases hcompare
        | some divergence' =>
          exact congrArg some ((eventIndex_of_compareEventOn hsemantic).trans
            (eventIndex_of_compareEventOn hcompare).symm)

/-- **The comparators are exact.** The first finds the least index at which the traces differ, and
finds none only if they are equal; on traces that chain and allocate no array, the second finds the
same index. -/
theorem traceDivergence_exact (debugString : String → String) (ls rs : List TraceEvent) :
    (firstTraceDivergence debugString ls rs = none ↔ ls = rs) ∧
    (∀ divergence, firstTraceDivergence debugString ls rs = some divergence →
      DifferFirstAt ls rs divergence.eventIndex) ∧
    (Chained ls → Chained rs → (∀ event ∈ ls, AllocatesNothing event) →
      (∀ event ∈ rs, AllocatesNothing event) →
      (firstSemanticTraceDivergence debugString ls rs).map TraceDivergence.eventIndex =
        (firstTraceDivergence debugString ls rs).map TraceDivergence.eventIndex) := by
  have hfinds := @finds_firstTraceDivergence debugString ls rs
  refine ⟨hfinds.eq_none_iff, fun divergence hfirst ↦ ?_, fun hls hrs hlalloc hralloc ↦ ?_⟩
  · rw [hfirst] at hfinds
    obtain ⟨i, hindex, hdiffer⟩ := hfinds
    rwa [hindex, Nat.zero_add]
  · have hloops := @map_eventIndex_compareEventsSemantic debugString ls rs .new .new
      (TraceNormalizer.plain_new ls) (TraceNormalizer.plain_new rs) hls hrs hlalloc hralloc 0
    rw [firstSemanticTraceDivergence, firstTraceDivergence]
    cases hfirst : compareEvents debugString 0 (ls.zip rs) with
    | none =>
      rw [hfirst] at hloops
      rw [Option.map_eq_none_iff.mp hloops]
    | some divergence =>
      rw [hfirst] at hloops
      obtain ⟨divergence', hsemantic, hindex⟩ := Option.map_eq_some_iff.mp hloops
      rw [hsemantic]
      exact congrArg some hindex

/-- An event that pushes 1, and two that may follow it. -/
def pushesOne : TraceEvent := ⟨1, 0, "LoadConst", 1, 0, [], [1], 1, 1, 1, .continue⟩

def printsOne : TraceEvent := ⟨2, 1, "Print", 0, 0, [1], [], 1, 1, 2, .continue⟩

def popsOne : TraceEvent := ⟨2, 1, "Pop", 0, 0, [1], [], 1, 1, 2, .continue⟩

theorem traceDivergence_exact_printsOne :
    (firstSemanticTraceDivergence id [pushesOne, printsOne] [pushesOne, popsOne]).map
      TraceDivergence.eventIndex = some 1 := by
  refine ((traceDivergence_exact id [pushesOne, printsOne] [pushesOne, popsOne]).2.2 ?_ ?_ ?_ ?_).trans
    (by decide +kernel)
  · exact List.isChain_pair.mpr rfl
  · exact List.isChain_pair.mpr rfl
  · decide
  · decide

end MiniLang
