import MiniLang.Lib.BlockList
import MiniLang.Runtime.Alignment

/-!
# The slab allocator

`SlabAllocator`: objects of one size, cut from slabs. The objects that are not in use are linked
through their first words, the newest slab in front. Memory is read and written by words, all at
multiples of eight, as every object starts at one and covers a whole number of them.

## The client

A client holds objects, writes to them, returns them in any order, and asks for more; the system
allocator answers the request for a slab with memory that no slab covers, or with null, where the
source panics. The rest of the program may write outside the slabs at any time. Reachable states are
those of any interleaving of these.

## The invariant

Every slot of every slab is either on the free list or held by the client, exactly once. The free
list is a path through memory: the head is the first free object, the word at each free object the
next one. An object that is held may have any word there, since nobody reads it. The counters are
the number of slabs and the number of objects held. A new slab is linked from its last slot to its
first (`Linked` is the invariant of that loop), and then it is in front of what was on the list.

The size of an object is at least that of a link, and a multiple of its alignment, so that the
objects of a slab do not overlap and each has room for what was asked for.
-/

namespace MiniLang.Runtime

open BlockList

structure SlabAllocator where
  objectSize : Nat
  objectsPerSlab : Nat
  slabs : List Nat
  freeList : Nat
  allocationCount : Nat
  /-- The word at each address. -/
  memory : Nat → Nat

namespace SlabAllocator

def new (objectSize objectsPerSlab : UInt64) (memory : Nat → Nat) : SlabAllocator where
  objectSize := (alignUp (max objectSize 8) alignment).toNat
  objectsPerSlab := objectsPerSlab.toNat
  slabs := []
  freeList := 0
  allocationCount := 0
  memory := memory

def slabSize (a : SlabAllocator) : Nat := a.objectSize * a.objectsPerSlab

def store (a : SlabAllocator) (address value : Nat) : SlabAllocator :=
  { a with memory := Function.update a.memory address value }

/-- Where the objects of a slab are. -/
def slot (a : SlabAllocator) (slab i : Nat) : Nat := slab + i * a.objectSize

/-- One turn of the loop that links the objects of a new slab. -/
def linkSlot (slab : Nat) (a : SlabAllocator) (i : Nat) : SlabAllocator :=
  a.store (a.slot slab i)
    (if i < a.objectsPerSlab - 1 then a.slot slab (i + 1) else a.freeList)

/-- A new slab, at the address that the system allocator returns. It panics when the size makes no
layout and when the address is null. -/
def allocateSlab (a : SlabAllocator) (slab : Nat) : Option SlabAllocator :=
  if isizeMax + 1 - alignment.toNat < a.slabSize ∨ slab = 0 then none
  else
    let a := { a with slabs := a.slabs ++ [slab] }
    let a := (List.range a.objectsPerSlab).foldl (linkSlot slab) a
    some { a with freeList := slab }

/-- A new slab, when the free list is empty. -/
def refill (a : SlabAllocator) (slab : Nat) : Option SlabAllocator :=
  if a.freeList = 0 then a.allocateSlab slab else some a

/-- An object, when the next slab would be at `slab`. -/
def alloc (a : SlabAllocator) (slab : Nat) : Option (Option Nat × SlabAllocator) := do
  let a ← a.refill slab
  let obj := a.freeList
  if obj = 0 then return (none, a)
  return (some obj, { a with
    freeList := a.memory obj
    allocationCount := a.allocationCount + 1 })

def free (a : SlabAllocator) (ptr : Nat) : SlabAllocator :=
  let a := a.store ptr a.freeList
  { a with freeList := ptr, allocationCount := a.allocationCount - 1 }

def stats (a : SlabAllocator) : AllocatorStats :=
  let totalObjects := a.slabs.length * a.objectsPerSlab
  let capacity := totalObjects * a.objectSize
  let used := a.allocationCount * a.objectSize
  ⟨capacity, used, capacity - used, a.allocationCount⟩

end SlabAllocator

/-! ## Clients -/

/-- The allocator and the objects in use. -/
structure SlabClient where
  allocator : SlabAllocator
  live : List Nat

namespace SlabAllocator

/-- Two stretches of `size` bytes are disjoint. -/
def Apart (size p q : Nat) : Prop := p + size ≤ q ∨ q + size ≤ p

/-- What the system allocator may return for the next slab. -/
structure Fresh (a : SlabAllocator) (slab : Nat) : Prop where
  ne_null : slab ≠ 0
  aligned : 8 ∣ slab
  apart : ∀ other ∈ a.slabs, Apart a.slabSize slab other

/-- `p` is the address of an object in one of the slabs. -/
def Slot (a : SlabAllocator) (p : Nat) : Prop :=
  ∃ slab ∈ a.slabs, ∃ i < a.objectsPerSlab, p = a.slot slab i

end SlabAllocator

namespace SlabClient

/-- What may happen. A client writes to the objects it has, and the rest of the program to the
memory outside the slabs. -/
inductive Step (s : SlabClient) : SlabClient → Prop
  | alloc {slab ptr : Nat} {a : SlabAllocator}
      (hfresh : s.allocator.freeList = 0 → s.allocator.Fresh slab)
      (h : s.allocator.alloc slab = some (some ptr, a)) : Step s ⟨a, ptr :: s.live⟩
  | refuse {slab : Nat} {a : SlabAllocator}
      (hfresh : s.allocator.freeList = 0 → s.allocator.Fresh slab)
      (h : s.allocator.alloc slab = some (none, a)) : Step s ⟨a, s.live⟩
  | free {ptr : Nat} {before after : List Nat} (hlive : s.live = before ++ ptr :: after) :
      Step s ⟨s.allocator.free ptr, before ++ after⟩
  | write {ptr : Nat} (hlive : ptr ∈ s.live) (address value : Nat) (hlo : ptr ≤ address)
      (hhi : address < ptr + s.allocator.objectSize) (haligned : 8 ∣ address) :
      Step s ⟨s.allocator.store address value, s.live⟩
  | outside (address value : Nat)
      (h : ∀ slab ∈ s.allocator.slabs,
        address < slab ∨ slab + s.allocator.slabSize ≤ address) (haligned : 8 ∣ address) :
      Step s ⟨s.allocator.store address value, s.live⟩

/-- The states reached from a new allocator. -/
inductive Reachable (objectSize objectsPerSlab : UInt64) : SlabClient → Prop
  | new (memory : Nat → Nat) :
      Reachable objectSize objectsPerSlab ⟨.new objectSize objectsPerSlab memory, []⟩
  | step {s s' : SlabClient} (h : Reachable objectSize objectsPerSlab s) (hstep : s.Step s') :
      Reachable objectSize objectsPerSlab s'

/-- What a client may rely on. `free` are the objects on the free list, in its order. -/
structure WellFormed (s : SlabClient) (free : List Nat) : Prop where
  path : LinkPath s.allocator.memory 0 s.allocator.freeList free 0
  nodup : free.Nodup
  free_iff : ∀ p, p ∈ free ↔ s.allocator.Slot p ∧ p ∉ s.live
  live_slot : ∀ p ∈ s.live, ∃ slab ∈ s.allocator.slabs,
    (∃ i < s.allocator.objectsPerSlab, p = s.allocator.slot slab i) ∧
      p + s.allocator.objectSize ≤ slab + s.allocator.slabSize
  disjoint : s.live.Pairwise (SlabAllocator.Apart s.allocator.objectSize)
  count : s.allocator.stats.allocationCount = s.live.length
  free_bytes : s.allocator.stats.free = free.length * s.allocator.objectSize

end SlabClient

/-! ## Slots -/

namespace SlabAllocator

variable {a : SlabAllocator} {slab : Nat}

def slots (a : SlabAllocator) (slab : Nat) : List Nat :=
  (List.range a.objectsPerSlab).map (a.slot slab)

def allSlots (a : SlabAllocator) : List Nat := a.slabs.flatMap a.slots

theorem mem_allSlots {p : Nat} : p ∈ a.allSlots ↔ a.Slot p := by
  simp [allSlots, slots, Slot, eq_comm]

theorem Apart.symm {size p q : Nat} (h : Apart size p q) : Apart size q p := Or.symm h

theorem slot_add_le (slab : Nat) {i j : Nat} (h : i < j) : a.slot slab i + a.objectSize ≤ a.slot slab j := by
  have hmul : (i + 1) * a.objectSize ≤ j * a.objectSize := Nat.mul_le_mul_right _ h
  rw [slot, slot, Nat.add_assoc, ← Nat.succ_mul]
  exact Nat.add_le_add_left hmul slab

theorem slot_add_le_slab (slab : Nat) {i : Nat} (h : i < a.objectsPerSlab) :
    a.slot slab i + a.objectSize ≤ slab + a.slabSize := by
  rw [slabSize, Nat.mul_comm]
  exact slot_add_le slab h

theorem slot_ne_null {i : Nat} (h : slab ≠ 0) : a.slot slab i ≠ 0 := by
  rw [slot]
  omega

/-- Objects of slabs that are apart are apart. -/
theorem apart_allSlots (h : a.slabs.Pairwise (Apart a.slabSize)) :
    a.allSlots.Pairwise (Apart a.objectSize) := by
  refine List.pairwise_flatMap.mpr ⟨fun slab _ ↦ ?_, h.imp fun {slab other} hapart ↦ ?_⟩
  · exact (List.pairwise_map.mpr (List.pairwise_lt_range.imp fun hlt ↦ .inl (slot_add_le slab hlt)))
  · intro p hp q hq
    obtain ⟨i, hi, rfl⟩ := List.mem_map.mp hp
    obtain ⟨j, hj, rfl⟩ := List.mem_map.mp hq
    have hilo : slab ≤ a.slot slab i := Nat.le_add_right ..
    have hjlo : other ≤ a.slot other j := Nat.le_add_right ..
    have hihi := slot_add_le_slab slab (List.mem_range.mp hi)
    have hjhi := slot_add_le_slab other (List.mem_range.mp hj)
    rcases hapart with hapart | hapart
    · exact .inl (by omega)
    · exact .inr (by omega)

theorem slot_injective (hsize : 0 < a.objectSize) {i j : Nat}
    (h : a.slot slab i = a.slot slab j) : i = j := by
  rcases Nat.lt_trichotomy i j with hlt | heq | hlt
  · have hle := slot_add_le (a := a) slab hlt
    omega
  · exact heq
  · have hle := slot_add_le (a := a) slab hlt
    omega

/-! ## A new slab -/

/-- The loop has linked the first `k` objects. -/
structure Linked (slab : Nat) (a a' : SlabAllocator) (k : Nat) : Prop where
  frame : a' = { a with memory := a'.memory }
  slot : ∀ i < k, a'.memory (a.slot slab i) =
    if i < a.objectsPerSlab - 1 then a.slot slab (i + 1) else a.freeList
  other : ∀ p, (∀ i < k, p ≠ a.slot slab i) → a'.memory p = a.memory p

theorem linked_foldl (hsize : 0 < a.objectSize) (slab k : Nat) :
    Linked slab a ((List.range k).foldl (linkSlot slab) a) k := by
  induction k with
  | zero => exact ⟨rfl, nofun, fun _ _ ↦ rfl⟩
  | succ k ih =>
    rw [List.range_succ, List.foldl_append]
    generalize (List.range k).foldl (linkSlot slab) a = a' at ih
    obtain ⟨hframe, hslot, hother⟩ := ih
    have hmemory : (linkSlot slab a' k).memory = Function.update a'.memory (a.slot slab k)
        (if k < a.objectsPerSlab - 1 then a.slot slab (k + 1) else a.freeList) := by
      rw [hframe]
      rfl
    refine ⟨?_, fun i hi ↦ ?_, fun p hp ↦ ?_⟩
    · change linkSlot slab a' k = _
      rw [hframe]
      rfl
    · change (linkSlot slab a' k).memory _ = _
      rw [hmemory]
      rcases Nat.lt_succ_iff_lt_or_eq.mp hi with hlt | rfl
      · rw [Function.update_of_ne fun heq ↦ hlt.ne (slot_injective hsize heq), hslot i hlt]
      · exact Function.update_self ..
    · change (linkSlot slab a' k).memory _ = _
      rw [hmemory, Function.update_of_ne (hp k k.lt_succ_self)]
      exact hother p fun i hi ↦ hp i (Nat.lt_succ_of_lt hi)

theorem Apart.ne {size p q : Nat} (h : Apart size p q) (hsize : 0 < size) : p ≠ q := by
  rintro rfl
  rcases h with h | h <;> omega

/-- What a new slab changes. -/
theorem allocateSlab_eq {a' : SlabAllocator} (hsize : 0 < a.objectSize)
    (h : a.allocateSlab slab = some a') : ∃ memory,
      a' = { a with slabs := a.slabs ++ [slab], freeList := slab, memory := memory } ∧
      (∀ i < a.objectsPerSlab, memory (a.slot slab i) =
        if i + 1 < a.objectsPerSlab then a.slot slab (i + 1) else a.freeList) ∧
      ∀ p ∉ a.slots slab, memory p = a.memory p := by
  rw [allocateSlab] at h
  split at h
  · cases h
  · cases h
    have hlinked := linked_foldl (a := { a with slabs := a.slabs ++ [slab] }) hsize slab
      a.objectsPerSlab
    refine ⟨_, ?_, fun i hi ↦ ?_, fun p hp ↦ hlinked.other p fun i hi heq ↦ hp ?_⟩
    · rw [hlinked.frame]
    · refine (hlinked.slot i hi).trans ?_
      change (if i < a.objectsPerSlab - 1 then a.slot slab (i + 1) else a.freeList) = _
      by_cases hlt : i + 1 < a.objectsPerSlab
      · rw [if_pos hlt, if_pos (by omega)]
      · rw [if_neg hlt, if_neg (by omega)]
    · exact heq ▸ List.mem_map_of_mem (List.mem_range.mpr hi)

end SlabAllocator

/-! ## The invariant -/

open SlabAllocator

/-- For objects of at least `request` bytes. -/
structure SlabClient.Inv (s : SlabClient) (request : Nat) (free : List Nat) : Prop where
  path : LinkPath s.allocator.memory 0 s.allocator.freeList free 0
  perm : (free ++ s.live).Perm s.allocator.allSlots
  apart : s.allocator.slabs.Pairwise (Apart s.allocator.slabSize)
  ne_null : ∀ slab ∈ s.allocator.slabs, slab ≠ 0
  count : s.allocator.allocationCount = s.live.length
  size_pos : 0 < s.allocator.objectSize
  request_le : request ≤ s.allocator.objectSize
  objects_pos : 0 < s.allocator.objectsPerSlab

namespace SlabClient

variable {s s' : SlabClient} {request : Nat} {free : List Nat} {objectSize objectsPerSlab : UInt64} {slab : Nat}

theorem Inv.apart_slots (h : s.Inv request free) :
    (free ++ s.live).Pairwise (Apart s.allocator.objectSize) :=
  h.perm.symm.pairwise (apart_allSlots h.apart) Apart.symm

theorem Inv.nodup (h : s.Inv request free) : (free ++ s.live).Nodup :=
  h.apart_slots.imp fun hapart ↦ hapart.ne h.size_pos

/-- The invariant with a new slab. -/
theorem Inv.allocateSlab (h : s.Inv request free) (hfresh : s.allocator.Fresh slab) {a : SlabAllocator}
    (ha : s.allocator.allocateSlab slab = some a) :
    Inv ⟨a, s.live⟩ request (s.allocator.slots slab ++ free) := by
  obtain ⟨memory, rfl, hslot, hother⟩ := allocateSlab_eq h.size_pos ha
  have hslabs : (s.allocator.slabs ++ [slab]).Pairwise (Apart s.allocator.slabSize) := by
    refine List.pairwise_append.mpr ⟨h.apart, List.pairwise_singleton .., ?_⟩
    intro other hmem new hnew
    rw [List.mem_singleton.mp hnew]
    exact (hfresh.apart other hmem).symm
  have hall : (s.allocator.slabs ++ [slab]).flatMap s.allocator.slots =
      s.allocator.allSlots ++ s.allocator.slots slab := by
    rw [List.flatMap_append, List.flatMap_singleton]
    rfl
  have hnull : ∀ other ∈ s.allocator.slabs ++ [slab], other ≠ 0 := by
    intro other hmem
    rcases List.mem_append.mp hmem with hmem | hmem
    · exact h.ne_null other hmem
    · exact List.mem_singleton.mp hmem ▸ hfresh.ne_null
  refine ⟨?_, ?_, hslabs, hnull, h.count, h.size_pos, h.request_le, h.objects_pos⟩
  · refine LinkPath.append ?_ (h.path.congr fun p hp ↦ hother p ?_)
    · have hrow := @LinkPath.row _ memory 0 s.allocator.freeList (s.allocator.slot slab) _
        (fun i _ ↦ slot_ne_null hfresh.ne_null) hslot
      rw [if_pos h.objects_pos, slot, Nat.zero_mul, Nat.add_zero] at hrow
      exact hrow
    · intro hmem
      have hpair : (s.allocator.allSlots ++ s.allocator.slots slab).Pairwise
          (Apart s.allocator.objectSize) := by
        rw [← hall]
        exact apart_allSlots (a := { s.allocator with slabs := s.allocator.slabs ++ [slab] }) hslabs
      have hp' := h.perm.mem_iff.mp (List.mem_append_left _ hp)
      exact ((List.pairwise_append.mp hpair).2.2 p hp' p hmem).ne h.size_pos rfl
  · change (s.allocator.slots slab ++ free ++ s.live).Perm
      ((s.allocator.slabs ++ [slab]).flatMap s.allocator.slots)
    rw [hall, List.append_assoc]
    exact (h.perm.append_left _).trans List.perm_append_comm

/-- The invariant when the head of the free list is handed out. -/
theorem Inv.pop {p : Nat} {rest : List Nat} (h : s.Inv request (p :: rest)) :
    Inv ⟨{ s.allocator with
      freeList := s.allocator.memory p
      allocationCount := s.allocator.allocationCount + 1 }, p :: s.live⟩ request rest := by
  obtain ⟨-, -, hrest⟩ := h.path
  refine ⟨hrest, List.perm_middle.trans h.perm, h.apart, h.ne_null, ?_, h.size_pos, h.request_le, h.objects_pos⟩
  rw [h.count]
  rfl

/-- A request returns an object, unless no slab is to be had. -/
theorem Inv.alloc (h : s.Inv request free) (hfresh : s.allocator.freeList = 0 → s.allocator.Fresh slab)
    {result : Option Nat × SlabAllocator} (ha : s.allocator.alloc slab = some result) :
    ∃ p free', result.1 = some p ∧ Inv ⟨result.2, p :: s.live⟩ request free' := by
  rw [SlabAllocator.alloc] at ha
  obtain ⟨a, hslab, ha⟩ := Option.bind_eq_some_iff.mp ha
  -- with or without a new slab, the free list has a head
  obtain ⟨p, rest, hinv⟩ : ∃ p rest, Inv ⟨a, s.live⟩ request (p :: rest) := by
    rw [refill] at hslab
    split at hslab
    · next hnull =>
      have hinv := h.allocateSlab (hfresh hnull) hslab
      obtain ⟨n, hn⟩ := Nat.exists_eq_add_one_of_ne_zero h.objects_pos.ne'
      rw [slots, hn, List.range_succ_eq_map, List.map_cons, List.cons_append] at hinv
      exact ⟨_, _, hinv⟩
    · next hne =>
      cases hslab
      cases free with
      | nil => exact absurd h.path hne
      | cons p rest => exact ⟨p, rest, h⟩
  obtain ⟨hhead, hnull, -⟩ := hinv.path
  change a.freeList = p at hhead
  rw [if_neg (hhead ▸ hnull)] at ha
  cases ha
  have hpop := hinv.pop
  rw [← hhead] at hpop
  exact ⟨_, rest, rfl, hpop⟩

theorem Inv.release {ptr : Nat} {before after : List Nat} (h : s.Inv request free)
    (hlive : s.live = before ++ ptr :: after) :
    Inv ⟨s.allocator.free ptr, before ++ after⟩ request (ptr :: free) := by
  have hperm : (ptr :: (free ++ (before ++ after))).Perm s.allocator.allSlots := by
    have hmiddle := h.perm
    rw [hlive, ← List.append_assoc] at hmiddle
    rw [← List.append_assoc]
    exact List.perm_middle.symm.trans hmiddle
  have hnodup : (ptr :: (free ++ (before ++ after))).Nodup :=
    hperm.nodup_iff.mpr (h.perm.nodup_iff.mp h.nodup)
  have hne : ptr ≠ 0 := by
    obtain ⟨slab, hslab, i, -, rfl⟩ := mem_allSlots.mp (hperm.mem_iff.mp List.mem_cons_self)
    exact slot_ne_null (h.ne_null slab hslab)
  refine ⟨⟨rfl, hne, ?_⟩, hperm, h.apart, h.ne_null, ?_, h.size_pos, h.request_le, h.objects_pos⟩
  · rw [SlabAllocator.free, store]
    dsimp only
    rw [Function.update_self]
    refine h.path.congr fun p hp ↦ Function.update_of_ne ?_ ..
    rintro rfl
    exact (List.nodup_cons.mp hnodup).1 (List.mem_append_left _ hp)
  · change s.allocator.allocationCount - 1 = _
    rw [h.count, hlive, List.length_append, List.length_append, List.length_cons]
    rfl

/-- Writing anywhere but to the free objects keeps the invariant. -/
theorem Inv.store (h : s.Inv request free) {address : Nat} (haddress : address ∉ free) (value : Nat) :
    Inv ⟨s.allocator.store address value, s.live⟩ request free :=
  ⟨h.path.congr fun _ hp ↦ Function.update_of_ne (ne_of_mem_of_not_mem hp haddress) .., h.perm,
    h.apart, h.ne_null, h.count, h.size_pos, h.request_le, h.objects_pos⟩

theorem Inv.slot_of_mem (h : s.Inv request free) {p : Nat} (hp : p ∈ free ++ s.live) :
    s.allocator.Slot p :=
  mem_allSlots.mp (h.perm.mem_iff.mp hp)

theorem Inv.step (h : s.Inv request free) (hstep : s.Step s') : ∃ free', s'.Inv request free' := by
  cases hstep with
  | alloc hfresh ha =>
    obtain ⟨p, free', hp, hinv⟩ := h.alloc hfresh ha
    cases hp
    exact ⟨free', hinv⟩
  | refuse hfresh ha =>
    obtain ⟨p, -, hp, -⟩ := h.alloc hfresh ha
    cases hp
  | free hlive => exact ⟨_, h.release hlive⟩
  | write hlive address value hlo hhi _ =>
    refine ⟨free, h.store (fun hmem : address ∈ free ↦ ?_) value⟩
    have hapart := (List.pairwise_append.mp h.apart_slots).2.2 address hmem _ hlive
    have hpos := h.size_pos
    rcases hapart with hapart | hapart <;> omega
  | outside address value hout _ =>
    refine ⟨free, h.store (fun hmem ↦ ?_) value⟩
    obtain ⟨slab, hslab, i, hi, rfl⟩ := h.slot_of_mem (List.mem_append_left _ hmem)
    have hhi := slot_add_le_slab (a := s.allocator) slab hi
    have hlo : slab ≤ s.allocator.slot slab i := Nat.le_add_right ..
    have hpos := h.size_pos
    rcases hout slab hslab with hout | hout <;> omega

/-! ## Sizes -/

/-- An object has room for what was asked for and for a link. -/
theorem objectSize_new (h : nextMultiple (max objectSize.toNat 8) 8 < 2 ^ 64)
    (objectsPerSlab : UInt64) (memory : Nat → Nat) : (SlabAllocator.new objectSize objectsPerSlab memory).objectSize =
      nextMultiple (max objectSize.toNat 8) 8 := by
  have hmax : (max objectSize 8).toNat = max objectSize.toNat 8 := by
    change (if objectSize ≤ 8 then (8 : UInt64) else objectSize).toNat = _
    have hle : objectSize ≤ 8 ↔ objectSize.toNat ≤ 8 := UInt64.le_iff_toNat_le
    split
    · next h8 =>
      rw [Nat.max_eq_right (hle.mp h8)]
      rfl
    · next h8 => rw [Nat.max_eq_left (Nat.le_of_not_le (mt hle.mpr h8))]
  have halign : alignment.toNat = 2 ^ 3 := rfl
  change (alignUp (max objectSize 8) alignment).toNat = _
  rw [toNat_alignUp halign, hmax]
  exact Nat.mod_eq_of_lt h

theorem inv_new (hobjects : 1 ≤ objectsPerSlab.toNat)
    (h : nextMultiple (max objectSize.toNat 8) 8 < 2 ^ 64) (memory : Nat → Nat) :
    Inv ⟨.new objectSize objectsPerSlab memory, []⟩ objectSize.toNat [] := by
  have hsize := objectSize_new h objectsPerSlab memory
  have hle : _ ≤ nextMultiple _ 8 := le_nextMultiple (by decide) (max objectSize.toNat 8)
  refine ⟨rfl, .nil, .nil, nofun, rfl, ?_, ?_, hobjects⟩
  · change 0 < (SlabAllocator.new objectSize objectsPerSlab memory).objectSize
    omega
  · change _ ≤ (SlabAllocator.new objectSize objectsPerSlab memory).objectSize
    omega

theorem Reachable.inv (h : Reachable objectSize objectsPerSlab s)
    (hobjects : 1 ≤ objectsPerSlab.toNat)
    (hsize : nextMultiple (max objectSize.toNat 8) 8 < 2 ^ 64) :
    ∃ free, s.Inv objectSize.toNat free := by
  induction h with
  | new memory => exact ⟨[], inv_new hobjects hsize memory⟩
  | step _ hstep ih =>
    obtain ⟨free, hinv⟩ := ih
    exact hinv.step hstep

/-! ## What the invariant says -/

theorem length_allSlots (a : SlabAllocator) :
    a.allSlots.length = a.slabs.length * a.objectsPerSlab := by
  rw [allSlots, List.length_flatMap]
  simp [slots]

theorem Inv.wellFormed (h : s.Inv request free) : s.WellFormed free where
  path := h.path
  nodup := (List.nodup_append.mp h.nodup).1
  free_iff p := by
    rw [← mem_allSlots, ← h.perm.mem_iff, List.mem_append]
    constructor
    · intro hp
      exact ⟨.inl hp, fun hlive ↦ (List.nodup_append.mp h.nodup).2.2 p hp p hlive rfl⟩
    · rintro ⟨hp | hp, hlive⟩
      · exact hp
      · exact absurd hp hlive
  live_slot p hp := by
    obtain ⟨slab, hslab, i, hi, heq⟩ := h.slot_of_mem (List.mem_append_right free hp)
    exact ⟨slab, hslab, ⟨i, hi, heq⟩, heq ▸ slot_add_le_slab slab hi⟩
  disjoint := (List.pairwise_append.mp h.apart_slots).2.1
  count := h.count
  free_bytes := by
    have hlength := h.perm.length_eq
    rw [List.length_append, length_allSlots] at hlength
    simp only [SlabAllocator.stats, ← hlength, h.count]
    rw [← Nat.sub_mul, Nat.add_sub_cancel]

/-- **The representation invariant of the slab allocator**, in every state that a client reaches,
for objects of any size. While the system allocator has slabs, every request is served. -/
theorem slab_wellFormed (hobjects : 1 ≤ objectsPerSlab.toNat)
    (hproduct : nextMultiple (max objectSize.toNat 8) 8 * objectsPerSlab.toNat < 2 ^ 64)
    (h : Reachable objectSize objectsPerSlab s) :
    (∃ free, s.WellFormed free) ∧ objectSize.toNat ≤ s.allocator.objectSize ∧
      ∀ slab result, (s.allocator.freeList = 0 → s.allocator.Fresh slab) →
        s.allocator.alloc slab = some result → result.1.isSome := by
  have hsize : nextMultiple (max objectSize.toNat 8) 8 < 2 ^ 64 :=
    (Nat.le_mul_of_pos_right _ hobjects).trans_lt hproduct
  obtain ⟨free, hinv⟩ := h.inv hobjects hsize
  refine ⟨⟨free, hinv.wellFormed⟩, hinv.request_le, fun slab result hfresh halloc ↦ ?_⟩
  obtain ⟨p, -, hp, -⟩ := hinv.alloc hfresh halloc
  rw [hp]
  rfl

/-- Two objects of three bytes in slabs for two, the first one returned. -/
def sampleSlabClient : SlabClient :=
  let a := SlabAllocator.new 3 2 fun _ ↦ 0
  ⟨((a.alloc 64).bind fun x ↦ (x.2.alloc 0).map fun y ↦ y.2.free 64).getD a, [72]⟩

theorem sample_slab_reachable : Reachable 3 2 sampleSlabClient :=
  .step (.step (.step (.new fun _ ↦ 0)
    (@Step.alloc _ 64 64 _ (fun _ ↦ ⟨by decide, by decide, nofun⟩) rfl))
    (@Step.alloc _ 0 72 _ (fun h ↦ absurd h (by decide)) rfl))
    (@Step.free _ 64 [72] [] rfl)

theorem slab_wellFormed_sample : ∃ free, sampleSlabClient.WellFormed free :=
  (slab_wellFormed (by decide) (by decide) sample_slab_reachable).1

end SlabClient

end MiniLang.Runtime
