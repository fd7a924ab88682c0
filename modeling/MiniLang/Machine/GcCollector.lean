import MiniLang.Machine.GcVm
import MiniLang.Lib.SlotTable

/-!
# The collector

What a collection and an allocation do to the heap, stated for an arbitrary machine state: a
collection keeps the arrays some root refers to and frees the others, an allocation hands out a slot
that no root refers to.

## Roots

The source marks from the operand stack, from the globals and from the initialised locals of every
frame. `Holds` says this as a property of values, `rooted` collects the arrays into a finite set,
whose size is what the bound of the heap counts. Arrays hold integers only, so there is nothing to
mark behind a root: one pass over the roots is the whole mark phase.

## The invariant

`HeapInv` has the arrays that may be used, those of the roots and those in the list `held`, among
the occupied slots. The free list has each empty slot once, and the next id is the length of the
heap, hence an allocation that takes a slot from the free list and one that extends the heap both
hand out a reference that no root has.
-/

namespace MiniLang

namespace GcVm

open SlotTable (Tracked occupied mem_occupied)

/-! ## Roots -/

/-- `value` is on the operand stack, in a global, or in an initialised local of some frame. -/
def Holds (vm : GcVm) (value : GcValue) : Prop :=
  value ∈ vm.stack ∨ value ∈ vm.globals ∨ ∃ frame ∈ vm.callStack, ∃ slot, frame.get slot = some value

/-- The arrays some root refers to. -/
def rooted (vm : GcVm) : Finset Nat := vm.idsToMark.toFinset

theorem mem_filterMap_refId? {values : List GcValue} {id : Nat} :
    id ∈ values.filterMap refId? ↔ .arrayRef id ∈ values := by
  rw [List.mem_filterMap]
  constructor
  · rintro ⟨_ | id', h, hid⟩
    · cases hid
    · rwa [← Option.some_inj.mp hid]
  · intro h
    exact ⟨_, h, rfl⟩

theorem mem_initialisedLocals {frame : GcCallFrame} {value : GcValue} :
    value ∈ initialisedLocals frame ↔ ∃ slot, frame.get slot = some value := by
  rw [initialisedLocals, List.mem_filterMap]
  constructor
  · rintro ⟨⟨v, flag⟩, hmem, hflag⟩
    obtain ⟨slot, hslot⟩ := List.mem_iff_getElem?.mp hmem
    obtain ⟨hv, hf⟩ := List.getElem?_zip_eq_some.mp hslot
    cases flag with
    | false => cases hflag
    | true =>
      refine ⟨slot, ?_⟩
      rw [GcCallFrame.get, if_pos hf, hv]
      exact hflag
  · rintro ⟨slot, hslot⟩
    rw [GcCallFrame.get] at hslot
    split at hslot
    · next hf =>
      have hzip : (frame.locals.zip frame.initFlags)[slot]? = some (value, true) :=
        List.getElem?_zip_eq_some.mpr ⟨hslot, hf⟩
      exact ⟨(value, true), List.mem_of_getElem? hzip, rfl⟩
    · cases hslot

/-- The collector finds exactly the roots. -/
theorem mem_rooted {vm : GcVm} {id : Nat} : id ∈ vm.rooted ↔ vm.Holds (.arrayRef id) := by
  rw [rooted, List.mem_toFinset, idsToMark]
  simp only [List.mem_append, List.mem_flatMap, mem_filterMap_refId?, List.mem_reverse,
    mem_initialisedLocals, Holds, or_assoc]

/-! ## Mark and sweep -/

theorem getElem?_clearMarks (heap : List (Option HeapArray)) (i : Nat) :
    (clearMarks heap)[i]? = heap[i]?.map (Option.map fun arr ↦ { arr with marked := false }) :=
  List.getElem?_map

theorem getElem?_markId (heap : List (Option HeapArray)) (id i : Nat) :
    (markId heap id)[i]? = heap[i]?.map
      (Option.map fun arr ↦ { arr with marked := arr.marked || decide (i = id) }) := by
  rw [markId, List.getElem?_modify]
  by_cases h : id = i
  · subst h
    simp
  · rcases heap[i]? with _ | _ | ⟨data, marked⟩ <;> simp [h, Ne.symm h]

theorem getElem?_foldl_markId (ids : List Nat) (heap : List (Option HeapArray)) (i : Nat) :
    (ids.foldl markId heap)[i]? = heap[i]?.map
      (Option.map fun arr ↦ { arr with marked := arr.marked || decide (i ∈ ids) }) := by
  induction ids generalizing heap with
  | nil => rcases h : heap[i]? with _ | _ | arr <;> simp [h]
  | cons id ids ih =>
    rw [List.foldl_cons, ih, getElem?_markId]
    rcases heap[i]? with _ | _ | arr <;> simp [Bool.or_assoc]

theorem getElem?_sweep (k : Nat) (heap : List (Option HeapArray)) (i : Nat) :
    (sweep k heap).1[i]? = heap[i]?.map (Option.filter HeapArray.marked) := by
  induction heap generalizing k i with
  | nil => rfl
  | cons slot heap ih =>
    cases i with
    | zero =>
      rcases slot with _ | arr
      · rfl
      · rw [sweep]
        by_cases h : arr.marked <;> simp [h, Option.filter]
    | succ i =>
      rcases slot with _ | arr
      · exact ih (k + 1) i
      · rw [sweep]
        by_cases h : arr.marked <;> simp [h, ih]

theorem mem_sweep (k : Nat) (heap : List (Option HeapArray)) (j : Nat) :
    j ∈ (sweep k heap).2 ↔
      ∃ i arr, j = k + i ∧ heap[i]? = some (some arr) ∧ arr.marked = false := by
  induction heap generalizing k with
  | nil => simp [sweep]
  | cons slot heap ih =>
    have hcons : (∃ i arr, j = k + i ∧ (slot :: heap)[i]? = some (some arr) ∧ arr.marked = false) ↔
        (∃ arr, j = k ∧ slot = some arr ∧ arr.marked = false) ∨ j ∈ (sweep (k + 1) heap).2 := by
      rw [ih]
      constructor
      · rintro ⟨_ | i, arr, hj, hget, hm⟩
        · exact .inl ⟨arr, hj, Option.some_inj.mp hget, hm⟩
        · exact .inr ⟨i, arr, by omega, hget, hm⟩
      · rintro (⟨arr, hj, hslot, hm⟩ | ⟨i, arr, hj, hget, hm⟩)
        · exact ⟨0, arr, hj, congrArg some hslot, hm⟩
        · exact ⟨i + 1, arr, by omega, hget, hm⟩
    rw [hcons, sweep]
    rcases slot with _ | arr
    · simp
    · by_cases h : arr.marked <;> simp [h]

theorem nodup_sweep (k : Nat) (heap : List (Option HeapArray)) : (sweep k heap).2.Nodup := by
  induction heap generalizing k with
  | nil => exact .nil
  | cons slot heap ih =>
    rw [sweep]
    rcases slot with _ | arr
    · exact ih (k + 1)
    · by_cases h : arr.marked
      · simpa [h] using ih (k + 1)
      · simp only [h, if_false, Bool.false_eq_true]
        refine List.nodup_cons.mpr ⟨?_, ih (k + 1)⟩
        rw [mem_sweep]
        rintro ⟨i, _, hk, _⟩
        omega

/-! ## Collections -/

variable {vm : GcVm} {i id : Nat}

/-- The heap after the mark phase. -/
theorem getElem?_marked (vm : GcVm) (i : Nat) :
    (vm.idsToMark.foldl markId (clearMarks vm.heapArrays))[i]? = vm.heapArrays[i]?.map
      (Option.map fun arr ↦ { arr with marked := decide (i ∈ vm.rooted) }) := by
  rw [getElem?_foldl_markId, getElem?_clearMarks]
  rcases vm.heapArrays[i]? with _ | _ | arr <;> simp [rooted]

theorem getElem?_collectGarbage (vm : GcVm) (i : Nat) :
    vm.collectGarbage.heapArrays[i]? = vm.heapArrays[i]?.map fun slot ↦
      if i ∈ vm.rooted then slot.map fun arr ↦ { arr with marked := true } else none := by
  rw [collectGarbage]
  simp only [getElem?_sweep, getElem?_marked]
  rcases vm.heapArrays[i]? with _ | _ | arr
  · rfl
  · simp
  · by_cases h : i ∈ vm.rooted <;> simp [h]

theorem length_collectGarbage (vm : GcVm) :
    vm.collectGarbage.heapArrays.length = vm.heapArrays.length := by
  have h i : vm.heapArrays.length ≤ i ↔ vm.collectGarbage.heapArrays.length ≤ i := by
    rw [← List.getElem?_eq_none_iff, ← List.getElem?_eq_none_iff, getElem?_collectGarbage,
      Option.map_eq_none_iff]
  exact Nat.le_antisymm ((h _).mp le_rfl) ((h _).mpr le_rfl)

theorem collectGarbage_kept (h : id ∈ vm.rooted) :
    vm.collectGarbage.getArray id = (vm.getArray id).map fun arr ↦ { arr with marked := true } := by
  rw [getArray, getArray, getElem?_collectGarbage]
  rcases vm.heapArrays[id]? with _ | _ | arr <;> simp [h]

theorem collectGarbage_freed (h : id ∉ vm.rooted) : vm.collectGarbage.getArray id = none := by
  rw [getArray, getElem?_collectGarbage]
  rcases vm.heapArrays[id]? with _ | slot <;> simp [h]

theorem tracked_collectGarbage (h : Tracked vm.heapArrays vm.freeArraySlots) :
    Tracked vm.collectGarbage.heapArrays vm.collectGarbage.freeArraySlots := by
  refine h.retain (· ∈ vm.rooted) (getElem?_collectGarbage vm)
    (List.nodup_reverse.mpr (nodup_sweep _ _)) ?_
  intro i
  rw [List.mem_reverse, mem_sweep, mem_occupied]
  simp only [getElem?_marked, Nat.zero_add, exists_and_left, exists_eq_left']
  rcases vm.heapArrays[i]? with _ | _ | arr <;> simp

theorem occupied_collectGarbage (vm : GcVm) :
    occupied vm.collectGarbage.heapArrays = occupied vm.heapArrays ∩ vm.rooted := by
  ext i
  rw [Finset.mem_inter, mem_occupied, mem_occupied, getElem?_collectGarbage]
  rcases vm.heapArrays[i]? with _ | _ | arr
  · simp
  · simp
  · by_cases h : i ∈ vm.rooted <;> simp [h]

/-! ## The heap invariant -/

/-- **The heap invariant.** Every array that a root or one of the values `held` by the instruction
under way refers to is there, the free list lists the empty slots, and the heap is no longer than
`R` rooted arrays, the most at any collection so far, account for. -/
structure HeapInv (R : Nat) (held : List GcValue) (vm : GcVm) : Prop where
  live : ∀ id, .arrayRef id ∈ held ∨ vm.Holds (.arrayRef id) → id ∈ occupied vm.heapArrays
  tracked : Tracked vm.heapArrays vm.freeArraySlots
  nextArrayId : vm.nextArrayId = vm.heapArrays.length
  threshold : vm.gcThreshold = MiniLang.gcThreshold
  bounded : vm.heapArrays.length ≤ max MiniLang.gcThreshold (R + 1)

/-- The number of arrays rooted when the transition from `vm` to `vm'` collected, 0 when it did
not collect. -/
def collectionPeak (vm vm' : GcVm) : Nat :=
  if vm'.gcCollections = vm.gcCollections then 0 else vm.rooted.card

namespace HeapInv

variable {R R' : Nat} {held held' : List GcValue} {size : Nat}

theorem mono (h : HeapInv R held vm) (hR : R ≤ R') (hheld : held' ⊆ held) :
    HeapInv R' held' vm where
  live id hid := h.live id (hid.imp_left fun hmem ↦ hheld hmem)
  tracked := h.tracked
  nextArrayId := h.nextArrayId
  threshold := h.threshold
  bounded := h.bounded.trans (by omega)

theorem rooted_subset (h : HeapInv R held vm) : vm.rooted ⊆ occupied vm.heapArrays := by
  intro id hid
  exact h.live id (.inr (mem_rooted.mp hid))

/-- A collection leaves exactly the rooted arrays. -/
theorem occupied_collectGarbage (h : HeapInv R held vm) :
    occupied vm.collectGarbage.heapArrays = vm.rooted := by
  rw [GcVm.occupied_collectGarbage, Finset.inter_eq_right.mpr h.rooted_subset]

theorem collectGarbage (h : HeapInv R [] vm) : HeapInv R [] vm.collectGarbage where
  live id hid := by
    rw [h.occupied_collectGarbage, mem_rooted]
    exact hid.resolve_left List.not_mem_nil
  tracked := tracked_collectGarbage h.tracked
  nextArrayId := h.nextArrayId.trans (length_collectGarbage vm).symm
  threshold := h.threshold
  bounded := (length_collectGarbage vm).trans_le h.bounded

/-- The slot handed out is an empty one. -/
theorem takeSlot_notMem (h : HeapInv R [] vm) (array : HeapArray) :
    (vm.takeSlot array).1 ∉ occupied vm.heapArrays := by
  rw [takeSlot]
  split
  · next slot free hfree =>
    exact h.tracked.notMem_occupied (hfree ▸ List.mem_cons_self)
  · intro hmem
    have hlt := SlotTable.lt_of_mem_occupied hmem
    rw [h.nextArrayId] at hlt
    exact lt_irrefl _ hlt

theorem takeSlot (h : HeapInv R [] vm) (array : HeapArray)
    (hroom : vm.freeArraySlots = [] → vm.heapArrays.length + 1 ≤ max MiniLang.gcThreshold (R + 1)) :
    HeapInv R [.arrayRef (vm.takeSlot array).1] (vm.takeSlot array).2 := by
  have hroots {id : Nat} (hid : vm.Holds (.arrayRef id)) : id ∈ occupied vm.heapArrays :=
    h.live id (.inr hid)
  rw [GcVm.takeSlot]
  split
  · next slot free hfree =>
    have htracked := h.tracked
    rw [hfree] at htracked
    have hlt := htracked.lt_length List.mem_cons_self
    refine ⟨?_, htracked.take, ?_, h.threshold, ?_⟩
    · intro id hid
      rw [mem_occupied, List.getElem?_set]
      by_cases hslot : slot = id
      · simp [hslot.symm, hlt]
      · rw [if_neg hslot, ← mem_occupied]
        rcases hid with hid | hid
        · exact absurd (GcValue.arrayRef.inj (List.mem_singleton.mp hid)).symm hslot
        · exact hroots hid
    · exact h.nextArrayId.trans List.length_set.symm
    · exact List.length_set.trans_le h.bounded
  · next hfree =>
    simp only [h.nextArrayId, lt_irrefl, if_false]
    refine ⟨?_, h.tracked.extend, ?_, h.threshold, ?_⟩
    · intro id hid
      rw [mem_occupied, List.getElem?_append]
      rcases hid with hid | hid
      · simp [GcValue.arrayRef.inj (List.mem_singleton.mp hid)]
      · rw [if_pos (SlotTable.lt_of_mem_occupied (hroots hid)), ← mem_occupied]
        exact hroots hid
    · simp
    · simpa using hroom hfree

/-- An allocation keeps the invariant, for the bound that takes its collection into account. -/
theorem allocArray (h : HeapInv R [] vm) (size : Nat) :
    HeapInv (max R (collectionPeak vm (vm.allocArray size).2))
      [.arrayRef (vm.allocArray size).1] (vm.allocArray size).2 := by
  have hcount := h.tracked.card_occupied_add
  rw [GcVm.allocArray]
  split
  · -- the arrays left are the rooted ones, so the heap grows past them by one slot at most
    have hc := h.collectGarbage
    have hcount' := hc.tracked.card_occupied_add
    rw [h.occupied_collectGarbage] at hcount'
    have hpeak : collectionPeak vm (vm.collectGarbage.takeSlot (.new size)).2 = vm.rooted.card := by
      rw [collectionPeak, if_neg]
      have hcollections : vm.collectGarbage.gcCollections = vm.gcCollections + 1 := rfl
      rw [GcVm.takeSlot]
      split <;> exact hcollections ▸ Nat.succ_ne_self _
    rw [hpeak]
    refine takeSlot (hc.mono (Nat.le_max_left _ _) (List.Subset.refl _)) _ ?_
    intro hfree
    rw [hfree] at hcount'
    simp only [List.length_nil] at hcount'
    omega
  · next hthreshold =>
    refine takeSlot (h.mono (Nat.le_max_left _ _) (List.Subset.refl _)) _ ?_
    intro hfree
    rw [hfree, h.threshold] at hthreshold
    simp only [List.length_nil] at hthreshold
    omega

/-- The slot an allocation hands out is not referenced by any root. -/
theorem allocArray_fresh (h : HeapInv R [] vm) (size : Nat) :
    ¬vm.Holds (.arrayRef (vm.allocArray size).1) := by
  intro hheld
  rw [GcVm.allocArray] at hheld
  split at hheld
  · refine h.collectGarbage.takeSlot_notMem (.new size) ?_
    rwa [h.occupied_collectGarbage, mem_rooted]
  · exact h.takeSlot_notMem (.new size) (h.live _ (.inr hheld))

end HeapInv

end GcVm

end MiniLang
