import MiniLang.Machine.GcHeap
import MiniLang.Machine.ValueRules

/-!
# Variables and the heap

How the garbage-collected machine stores the variables of the value machine. A variable that holds
an array has a reference to an array on the heap, and each array on the heap has at most one
variable that refers to it. An array keeps its elements through a collection as long as a variable
refers to it, and an allocation takes a slot that none refers to.

## Ownership

In the value machine an array is part of the variable that holds it, so writing an element changes
one variable. For the heap to follow, no other variable may have the same reference: `Separate` says
so for two slots, and `Owned` for all slots of a frame, of the globals and of the fresh array
together. It lasts because the value machine gives up where an instruction would copy a reference:
an array is stored once, in the instruction after its allocation, and every other access goes
through the variable.

## Changes

Each lemma about `Owned` is one kind of change: a variable gets a number, takes over the fresh
array, or has an element written; variables come with a call and go with a return; the heap changes
where no variable refers to, which covers the collector.
-/

namespace MiniLang

/-- The variables of a frame, `none` where there is no value. -/
def GcCallFrame.slots (frame : GcCallFrame) : List (Option GcValue) :=
  List.zipWith (fun value flag ↦ if flag then some value else none) frame.locals frame.initFlags

namespace ValueVm

variable {heap heap' : List (Option HeapArray)} {cells new : List LocalValue} {cell : LocalValue}
  {slots newSlots : List (Option GcValue)} {slot : Option GcValue} {data : List Int32}
  {id i j : Nat} {frame : GcCallFrame} {value : GcValue} {vm vm' : GcVm}

/-! ## Frames -/

theorem length_slots (h : frame.initFlags.length = frame.locals.length) :
    frame.slots.length = frame.locals.length := by
  rw [GcCallFrame.slots, List.length_zipWith, h, Nat.min_self]

/-- `get` reads a variable. -/
theorem get_eq (h : frame.slots[i]? = some slot) : frame.get i = slot := by
  rw [GcCallFrame.slots, List.getElem?_zipWith_eq_some] at h
  obtain ⟨v, flag, hv, hflag, rfl⟩ := h
  rw [GcCallFrame.get, hflag, hv]
  cases flag <;> rfl

theorem slots_set (frame : GcCallFrame) (i : Nat) (value : GcValue) :
    (frame.set i value).slots = frame.slots.set i (some value) := by
  apply List.ext_getElem?
  intro j
  rw [GcCallFrame.slots, GcCallFrame.set, GcCallFrame.slots, List.getElem?_zipWith,
    List.getElem?_set, List.getElem?_set, List.getElem?_set, List.getElem?_zipWith,
    List.length_zipWith]
  by_cases hij : i = j
  · subst hij
    by_cases hl : i < frame.locals.length <;> by_cases hf : i < frame.initFlags.length <;>
      simp [hl, hf]
  · simp [hij]

theorem slots_new (count returnPc : Nat) :
    (GcCallFrame.new count returnPc).slots = List.replicate count none := by
  rw [GcCallFrame.slots, GcCallFrame.new, List.zipWith_replicate, Nat.min_self]
  rfl

/-- The parameters are the first variables. -/
theorem slots_initParams {before : List (Option GcValue)} {args : List GcValue} {rest : Nat}
    (h : frame.slots = before ++ List.replicate (args.length + rest) none) :
    (frame.initParams before.length args).slots =
      before ++ args.map some ++ List.replicate rest none := by
  induction args generalizing frame before with
  | nil =>
    rw [GcCallFrame.initParams]
    simpa using h
  | cons arg args ih =>
    have hset : (frame.set before.length arg).slots =
        (before ++ [some arg]) ++ List.replicate (args.length + rest) none := by
      rw [slots_set, h, List.set_append_right _ _ le_rfl, Nat.sub_self, List.length_cons,
        Nat.add_right_comm, List.replicate_succ, List.set_cons_zero, List.append_assoc]
      rfl
    have hrest := ih hset
    rw [List.length_append, List.length_singleton] at hrest
    rw [GcCallFrame.initParams, hrest, List.map_cons, List.append_assoc, List.append_assoc,
      List.append_assoc]
    rfl

/-! ## Ownership -/

/-- The elements of an array. -/
def arrayData (heap : List (Option HeapArray)) (id : Nat) : Option (List Int) :=
  heap[id]?.join.map HeapArray.data

/-- The variable `slot` holds what `cell` says. -/
inductive CellIn (heap : List (Option HeapArray)) : LocalValue → Option GcValue → Prop
  | undefined : CellIn heap .undefined none
  | int (value : Int32) : CellIn heap (.int value) (some (.int value.toInt))
  | array {id : Nat} {data : List Int32} : arrayData heap id = some (data.map Int32.toInt) →
    CellIn heap (.array data) (some (.arrayRef id))

/-- Two variables do not refer to one array. -/
def Separate (slot slot' : Option GcValue) : Prop :=
  ∀ id, slot = some (.arrayRef id) → slot' ≠ some (.arrayRef id)

/-- The variables `slots` hold `cells`, and no two of them refer to one array. -/
structure Owned (heap : List (Option HeapArray)) (cells : List LocalValue)
    (slots : List (Option GcValue)) : Prop where
  cellIn : List.Forall₂ (CellIn heap) cells slots
  separate : slots.Pairwise Separate

theorem Separate.symm {slot slot' : Option GcValue} (h : Separate slot slot') :
    Separate slot' slot := fun id hid hid' ↦ h id hid' hid

/-- A pairwise relation survives a new element that is related to all the others. -/
theorem pairwise_set {α : Type} {R : α → α → Prop} (hsymm : ∀ a b, R a b → R b a) {l : List α}
    (h : l.Pairwise R) {a : α} (ha : ∀ b ∈ l, R a b) (i : Nat) : (l.set i a).Pairwise R := by
  induction h generalizing i with
  | nil => exact .nil
  | cons hb hl ih =>
    obtain ⟨hhead, htail⟩ := List.forall_mem_cons.mp ha
    cases i with
    | zero => exact .cons htail hl
    | succ i =>
      refine .cons (fun c hc ↦ ?_) (ih htail i)
      rcases List.mem_or_eq_of_mem_set hc with hc | rfl
      · exact hb c hc
      · exact hsymm _ _ hhead

theorem forall₂_set {α β : Type} {R : α → β → Prop} {l : List α} {m : List β}
    (h : List.Forall₂ R l m) {a : α} {b : β} (hab : R a b) (i : Nat) :
    List.Forall₂ R (l.set i a) (m.set i b) := by
  induction h generalizing i with
  | nil => exact .nil
  | cons hhead htail ih =>
    cases i with
    | zero => exact .cons hab htail
    | succ i => exact .cons hhead (ih i)

theorem CellIn.congr (h : CellIn heap cell slot)
    (hheap : ∀ id, slot = some (.arrayRef id) → arrayData heap' id = arrayData heap id) :
    CellIn heap' cell slot := by
  cases h with
  | undefined => exact .undefined
  | int value => exact .int value
  | array hdata => exact .array ((hheap _ rfl).trans hdata)

namespace Owned

/-- The heap changes where no variable refers to. -/
theorem congr (h : Owned heap cells slots)
    (hheap : ∀ id, some (.arrayRef id) ∈ slots → arrayData heap' id = arrayData heap id) :
    Owned heap' cells slots := by
  refine ⟨?_, h.separate⟩
  have hcells := h.cellIn
  induction hcells with
  | nil => exact .nil
  | cons hcell _ ih =>
    have hrest : Owned heap _ _ := ⟨(List.forall₂_cons.mp h.cellIn).2, h.separate.of_cons⟩
    refine .cons (hcell.congr fun id hid ↦ hheap id (hid ▸ List.mem_cons_self)) ?_
    exact ih hrest fun id hid ↦ hheap id (List.mem_cons_of_mem _ hid)

/-- The variable with the number of a cell. -/
theorem get (h : Owned heap cells slots) (hcell : cells[i]? = some cell) :
    ∃ slot, slots[i]? = some slot ∧ CellIn heap cell slot := by
  have hlength := h.cellIn.length_eq
  obtain ⟨hi, rfl⟩ := List.getElem?_eq_some_iff.mp hcell
  exact ⟨slots[i], List.getElem?_eq_getElem (hlength ▸ hi), h.cellIn.get hi (hlength ▸ hi)⟩

/-- A variable gets a value that is no array. -/
theorem setScalar (h : Owned heap cells slots) (hcell : CellIn heap cell slot)
    (hscalar : ∀ id, slot ≠ some (.arrayRef id)) (i : Nat) :
    Owned heap (cells.set i cell) (slots.set i slot) where
  cellIn := forall₂_set h.cellIn hcell i
  separate := pairwise_set (fun _ _ ↦ Separate.symm) h.separate
    (fun _ _ id hid ↦ absurd hid (hscalar id)) i

/-- A variable takes over an array. -/
theorem adopt (h : Owned heap (cell :: cells) (slot :: slots)) (i : Nat) :
    Owned heap (cells.set i cell) (slots.set i slot) := by
  obtain ⟨hcell, hcells⟩ := List.forall₂_cons.mp h.cellIn
  obtain ⟨hslot, hslots⟩ := List.pairwise_cons.mp h.separate
  exact ⟨forall₂_set hcells hcell i, pairwise_set (fun _ _ ↦ Separate.symm) hslots hslot i⟩

/-- An element of an array changes, and with it no other array. -/
theorem setElement {arr : HeapArray} (h : Owned heap cells slots)
    (hcell : cells[i]? = some (.array data)) (hslot : slots[i]? = some (some (.arrayRef id)))
    (harr : heap[id]?.join = some arr) (value : Int32) :
    Owned (heap.set id (some { arr with data := arr.data.set j value.toInt }))
      (cells.set i (.array (data.set j value))) slots := by
  refine ⟨?_, h.separate⟩
  have hid : id < heap.length :=
    (List.getElem?_eq_some_iff.mp (Option.join_eq_some_iff.mp harr)).1
  have hdata : arr.data = data.map Int32.toInt := by
    obtain ⟨slot, hslot', hin⟩ := h.get hcell
    obtain rfl := Option.some_inj.mp (hslot.symm.trans hslot')
    cases hin with
    | array hdata =>
      rw [arrayData, harr] at hdata
      exact Option.some_inj.mp hdata
  refine List.forall₂_iff_get.mpr ⟨List.length_set.trans h.cellIn.length_eq, fun k hk hk' ↦ ?_⟩
  rw [List.get_eq_getElem, List.get_eq_getElem, List.getElem_set]
  by_cases hik : i = k
  · subst hik
    obtain ⟨_, hget⟩ := List.getElem?_eq_some_iff.mp hslot
    rw [if_pos rfl, hget]
    apply CellIn.array
    rw [arrayData, List.getElem?_set_self hid, List.map_set, ← hdata]
    rfl
  · rw [if_neg hik]
    have hk'' : k < cells.length := by rwa [List.length_set] at hk
    refine (h.cellIn.get hk'' hk').congr fun id' hid' ↦ ?_
    -- another variable refers to another array
    have hne : id ≠ id' := by
      rintro rfl
      obtain ⟨hi, hget⟩ := List.getElem?_eq_some_iff.mp hslot
      rcases Nat.lt_or_gt_of_ne hik with hlt | hlt
      · exact (List.pairwise_iff_getElem.mp h.separate) i k hi hk' hlt id hget hid'
      · exact (List.pairwise_iff_getElem.mp h.separate) k i hk' hi hlt id hid' hget
    rw [arrayData, arrayData, List.getElem?_set_ne hne]

/-- Two groups of variables with arrays of their own. -/
theorem join (hnew : Owned heap new newSlots) (h : Owned heap cells slots)
    (hseparate : ∀ a ∈ newSlots, ∀ b ∈ slots, Separate a b) :
    Owned heap (new ++ cells) (newSlots ++ slots) :=
  ⟨List.rel_append hnew.cellIn h.cellIn,
    List.pairwise_append.mpr ⟨hnew.separate, h.separate, hseparate⟩⟩

/-- More variables, without arrays. -/
theorem append (h : Owned heap cells slots) (hnew : List.Forall₂ (CellIn heap) new newSlots)
    (hscalar : ∀ id, some (.arrayRef id) ∉ newSlots) :
    Owned heap (new ++ cells) (newSlots ++ slots) := by
  have hseparate {a b : Option GcValue} (ha : a ∈ newSlots) : Separate a b :=
    fun id hid ↦ absurd (hid ▸ ha) (hscalar id)
  refine join ⟨hnew, ?_⟩ h fun a ha b _ ↦ hseparate ha
  exact (List.pairwise_of_forall fun _ _ ↦ trivial).imp_of_mem fun ha _ _ ↦ hseparate ha

/-- Fewer variables. -/
theorem drop (h : Owned heap (new ++ cells) (newSlots ++ slots))
    (hlength : new.length = newSlots.length) : Owned heap cells slots := by
  have hcells := List.forall₂_drop new.length h.cellIn
  rw [List.drop_left, hlength, List.drop_left] at hcells
  exact ⟨hcells, (List.pairwise_append.mp h.separate).2.1⟩

theorem single (hdata : arrayData heap id = some (data.map Int32.toInt)) :
    Owned heap [.array data] [some (.arrayRef id)] :=
  ⟨.cons (.array hdata) .nil, List.pairwise_singleton _ _⟩

theorem separate_fresh (hid : some (.arrayRef id) ∉ slots) :
    ∀ b ∈ slots, Separate (some (.arrayRef id)) b := by
  intro b hb id' heq
  obtain rfl := GcValue.arrayRef.inj (Option.some_inj.mp heq)
  rintro rfl
  exact hid hb

end Owned

/-! ## The collector -/

/-- The free list and the id counter agree with the heap. -/
structure Tidy (vm : GcVm) : Prop where
  tracked : SlotTable.Tracked vm.heapArrays vm.freeArraySlots
  nextArrayId : vm.nextArrayId = vm.heapArrays.length

theorem lt_of_arrayData {elements : List Int} (h : arrayData heap id = some elements) :
    id ∈ SlotTable.occupied heap := by
  rw [SlotTable.mem_occupied]
  rw [arrayData, Option.map_eq_some_iff] at h
  obtain ⟨arr, harr, -⟩ := h
  rw [harr]
  rfl

theorem Tidy.collectGarbage (h : Tidy vm) : Tidy vm.collectGarbage where
  tracked := GcVm.tracked_collectGarbage h.tracked
  nextArrayId := h.nextArrayId.trans (GcVm.length_collectGarbage vm).symm

theorem arrayData_collectGarbage (h : vm.Holds (.arrayRef id)) :
    arrayData vm.collectGarbage.heapArrays id = arrayData vm.heapArrays id :=
  (GcVm.collected_collectGarbage vm).kept id h

/-- What an allocation leaves alone. -/
structure SameBut (vm vm' : GcVm) : Prop where
  stack : vm'.stack = vm.stack
  callStack : vm'.callStack = vm.callStack
  pc : vm'.pc = vm.pc
  cycles : vm'.cycles = vm.cycles
  maxCycles : vm'.maxCycles = vm.maxCycles
  output : vm'.output = vm.output

/-- What an allocation does: there is a new array, with a reference that no other one has. -/
structure Allocates (vm : GcVm) (elements : List Int) (id : Nat) (vm' : GcVm) : Prop where
  same : SameBut vm vm'
  globals : vm'.globals = vm.globals
  tidy : Tidy vm'
  data : arrayData vm'.heapArrays id = some elements
  others : ∀ id' elements', vm.Holds (.arrayRef id') → arrayData vm.heapArrays id' = some elements' →
    id' ≠ id ∧ arrayData vm'.heapArrays id' = some elements'

theorem allocates_takeSlot (h : Tidy vm) (array : HeapArray) :
    Allocates vm array.data (vm.takeSlot array).1 (vm.takeSlot array).2 := by
  rw [GcVm.takeSlot]
  split
  · next slot free hfree =>
    have htracked := h.tracked
    rw [hfree] at htracked
    have hlt := htracked.lt_length List.mem_cons_self
    refine ⟨⟨rfl, rfl, rfl, rfl, rfl, rfl⟩, rfl,
      ⟨htracked.take, h.nextArrayId.trans List.length_set.symm⟩, ?_, ?_⟩
    · rw [arrayData, List.getElem?_set_self hlt]
      rfl
    · intro id' elements' _ hdata
      have hne : id' ≠ slot := by
        rintro rfl
        exact htracked.notMem_occupied List.mem_cons_self (lt_of_arrayData hdata)
      refine ⟨hne, ?_⟩
      rw [arrayData, List.getElem?_set_ne hne.symm]
      exact hdata
  · next hfree =>
    simp only [h.nextArrayId, lt_irrefl, if_false]
    refine ⟨⟨rfl, rfl, rfl, rfl, rfl, rfl⟩, rfl, ⟨h.tracked.extend, ?_⟩, ?_, ?_⟩
    · rw [List.length_append, List.length_singleton]
    · rw [arrayData, List.getElem?_append_right le_rfl, Nat.sub_self]
      rfl
    · intro id' elements' _ hdata
      have hlt := SlotTable.lt_of_mem_occupied (lt_of_arrayData hdata)
      refine ⟨hlt.ne, ?_⟩
      rw [arrayData, List.getElem?_append_left hlt]
      exact hdata

/-- **Allocation**, whether it collects first or not. -/
theorem allocates_allocArray (h : Tidy vm) (size : Nat) :
    Allocates vm (List.replicate size 0) (vm.allocArray size).1 (vm.allocArray size).2 := by
  rw [GcVm.allocArray]
  split
  · have htake := allocates_takeSlot h.collectGarbage (HeapArray.new size)
    refine ⟨{ htake.same with }, htake.globals, htake.tidy, htake.data, fun id' elements' hheld hdata ↦ ?_⟩
    refine htake.others id' elements' hheld ?_
    rw [arrayData_collectGarbage hheld]
    exact hdata
  · exact allocates_takeSlot h (HeapArray.new size)

end ValueVm

end MiniLang
