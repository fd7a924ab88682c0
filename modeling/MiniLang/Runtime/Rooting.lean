import MiniLang.Runtime.Collection

/-!
# Roots of runtime values

An array of the runtime is an object of the collector with a header of its own, and `GcArray` points
behind that second header. `gc_roots` returns these pointers, while the collector looks for pointers
behind its own header, so that the roots of a holder protect nothing.

## Three pointers

An object of the collector starts with its header. Behind it is the payload, which is where the base
pointer of an array points, and where `mark_object` expects a root: it subtracts the size of a
header and looks for the object there. Behind the array's own header are its elements, which is
where `GcArray` and hence `gc_ptr` point. With this pointer the subtraction ends in the middle of
the object, and `Session.Inv.ptr_ne_payload` shows that no other object begins there either.

## The law and its condition

`RootingLaw` is what the runtime relies on: with the roots of the holders added, a collection keeps
what they hold. Whether an array survives depends on the root set before, since the pointers that
are added match nothing: it survives if and only if its base pointer is a root already
(`survives_iff`). The condition is on the state before the roots are added, for all held arrays.
-/

namespace MiniLang.Runtime

open BlockList

structure GcArray where
  ptr : Nat
  len : UInt64

inductive Value
  | int (i : Int64)
  | bool (b : Bool)
  | array (arr : GcArray)
  | null

def Value.gcPtr : Value → Option Nat
  | .array arr => some arr.ptr
  | _ => none

/-- `size_of::<ArrayHeader>()`: the length and the capacity. -/
def arrayHeaderSize : UInt64 := 16

namespace GcArray

def new (gc : GarbageCollector) (len : UInt64) (first second : Nat) :
    Except Fault (Option GcArray × GarbageCollector) := do
  let dataSize := len * 8
  match ← gc.alloc (arrayHeaderSize + dataSize) .intArray first second with
  | (none, gc) => return (none, gc)
  | (some raw, gc) => return (some ⟨raw + arrayHeaderSize.toNat, len⟩, gc)

def basePtr (arr : GcArray) : Nat := arr.ptr - arrayHeaderSize.toNat

/-- The header of the array's object. -/
def object (arr : GcArray) : Nat := arr.basePtr - gcHeaderSize.toNat

end GcArray

/-! ## Holders -/

structure ValueStack where
  values : List Value

def ValueStack.gcRoots (stack : ValueStack) : List Nat := stack.values.filterMap Value.gcPtr

structure LocalFrame where
  values : List Value
  initFlags : List Bool

namespace LocalFrame

def get (frame : LocalFrame) (slot : Nat) : Option Value :=
  match frame.values[slot]?, frame.initFlags[slot]? with
  | some value, some true => some value
  | _, _ => none

def gcRoots (frame : LocalFrame) : List Nat :=
  ((frame.values.zip frame.initFlags).filter (·.2)).filterMap (·.1.gcPtr)

end LocalFrame

structure GlobalStore where
  values : List Value

def GlobalStore.gcRoots (store : GlobalStore) : List Nat := store.values.filterMap Value.gcPtr

inductive Holder
  | stack (stack : ValueStack)
  | frame (frame : LocalFrame)
  | globals (store : GlobalStore)

namespace Holder

def gcRoots : Holder → List Nat
  | stack s => s.gcRoots
  | frame f => f.gcRoots
  | globals g => g.gcRoots

/-- The holder gives the array out. -/
def Holds : Holder → GcArray → Prop
  | stack s, arr => .array arr ∈ s.values
  | frame f, arr => ∃ slot, f.get slot = some (.array arr)
  | globals g, arr => .array arr ∈ g.values

end Holder

def Held (holders : List Holder) (arr : GcArray) : Prop := ∃ holder ∈ holders, holder.Holds arr

theorem mem_filterMap_gcPtr {values : List Value} {ptr : Nat} :
    ptr ∈ values.filterMap Value.gcPtr ↔ ∃ arr, .array arr ∈ values ∧ arr.ptr = ptr := by
  rw [List.mem_filterMap]
  constructor
  · rintro ⟨value, hmem, hptr⟩
    cases value with
    | array arr => exact ⟨arr, hmem, Option.some.inj hptr⟩
    | _ => cases hptr
  · rintro ⟨arr, hmem, rfl⟩
    exact ⟨.array arr, hmem, rfl⟩

theorem LocalFrame.get_eq_some_iff {frame : LocalFrame} {slot : Nat} {value : Value} :
    frame.get slot = some value ↔
      frame.values[slot]? = some value ∧ frame.initFlags[slot]? = some true := by
  rw [LocalFrame.get]
  constructor
  · intro h
    split at h
    · rename_i hvalue hflag
      obtain rfl := Option.some.inj h
      exact ⟨hvalue, hflag⟩
    · cases h
  · rintro ⟨hvalue, hflag⟩
    rw [hvalue, hflag]

/-- The roots of a holder are the pointers of the arrays in it. -/
theorem Holder.mem_gcRoots {holder : Holder} {ptr : Nat} :
    ptr ∈ holder.gcRoots ↔ ∃ arr, holder.Holds arr ∧ arr.ptr = ptr := by
  cases holder with
  | stack s => exact mem_filterMap_gcPtr
  | globals g => exact mem_filterMap_gcPtr
  | frame f =>
    rw [Holder.gcRoots, LocalFrame.gcRoots, List.mem_filterMap]
    constructor
    · rintro ⟨⟨value, flag⟩, hmem, hptr⟩
      obtain ⟨hzip, hflag⟩ := List.mem_filter.mp hmem
      obtain ⟨slot, hslot⟩ := List.mem_iff_getElem?.mp hzip
      obtain ⟨hvalue, hinit⟩ := List.getElem?_zip_eq_some.mp hslot
      obtain rfl : flag = true := hflag
      cases value with
      | array arr =>
        exact ⟨arr, ⟨slot, LocalFrame.get_eq_some_iff.mpr ⟨hvalue, hinit⟩⟩, Option.some.inj hptr⟩
      | _ => cases hptr
    · rintro ⟨arr, ⟨slot, hget⟩, rfl⟩
      obtain ⟨hvalue, hinit⟩ := LocalFrame.get_eq_some_iff.mp hget
      refine ⟨(.array arr, true), List.mem_filter.mpr ⟨?_, rfl⟩, rfl⟩
      exact List.mem_iff_getElem?.mpr ⟨slot, List.getElem?_zip_eq_some.mpr ⟨hvalue, hinit⟩⟩

/-! ## Sessions -/

/-- A collector and the arrays created through it. -/
structure Session where
  gc : GarbageCollector
  arrays : List GcArray

namespace Session

/-- Whatever is done with the collector between two points. Sizes do not overflow, and the system
allocator returns fresh blocks. -/
inductive Step (s : Session) : Session → Prop
  | newArray {len : UInt64} {first second : Nat} {arr : Option GcArray} {gc : GarbageCollector}
      (hsize : len.toNat * 8 + 47 < 2 ^ 64)
      (hfresh : s.gc.FreshFor first (arrayHeaderSize + len * 8))
      (h : GcArray.new s.gc len first second = .ok (arr, gc)) :
      Step s ⟨gc, arr.toList ++ s.arrays⟩
  | alloc {size : UInt64} {typeTag : TypeTag} {first second : Nat} {ptr : Option Nat}
      {gc : GarbageCollector} (hsize : size.toNat + 31 < 2 ^ 64)
      (hfresh : s.gc.FreshFor first size)
      (h : s.gc.alloc size typeTag first second = .ok (ptr, gc)) : Step s ⟨gc, s.arrays⟩
  | collect {gc : GarbageCollector} (h : s.gc.collect = .ok gc) : Step s ⟨gc, s.arrays⟩
  | addRoot (ptr : Nat) : Step s ⟨s.gc.addRoot ptr, s.arrays⟩
  | removeRoot (ptr : Nat) : Step s ⟨s.gc.removeRoot ptr, s.arrays⟩
  | clearRoots : Step s ⟨s.gc.clearRoots, s.arrays⟩

inductive Reachable : Session → Prop
  | new (gcThreshold : Nat) (header : Nat → GcHeader) : Reachable ⟨.new gcThreshold header, []⟩
  | step {s s' : Session} (h : Reachable s) (hstep : s.Step s') : Reachable s'

end Session

/-- The objects form a heap, and the arrays point behind two headers. -/
structure Session.Inv (s : Session) (objs : List Nat) : Prop where
  heap : s.gc.Heap objs
  arrays : ∀ arr ∈ s.arrays, arr.ptr = arr.object + 40

variable {s s' : Session} {objs : List Nat} {holders : List Holder}

open GarbageCollector

theorem GarbageCollector.Heap.withRoots {gc : GarbageCollector} (h : gc.Heap objs)
    (roots : List Nat) : Heap { gc with roots := roots } objs :=
  ⟨h.objects, h.apart, h.room, h.unmarked, h.bytes, h.balance, h.count⟩

theorem Session.Inv.step (h : s.Inv objs) (hstep : s.Step s') : ∃ objs', s'.Inv objs' := by
  cases hstep with
  | @newArray len first second arr gc hsize hfresh hnew =>
    have htotal : (arrayHeaderSize + len * 8).toNat = 16 + len.toNat * 8 := by
      have hmul : (len * 8).toNat = len.toNat * 8 := by
        rw [UInt64.toNat_mul, show (8 : UInt64).toNat = 8 from rfl, Nat.mod_eq_of_lt (by omega)]
      rw [UInt64.toNat_add, hmul, show arrayHeaderSize.toNat = 16 from rfl,
        Nat.mod_eq_of_lt (by omega)]
    rw [GcArray.new] at hnew
    cases halloc : s.gc.alloc (arrayHeaderSize + len * 8) .intArray first second with
    | error fault =>
      rw [halloc] at hnew
      cases hnew
    | ok result =>
      obtain ⟨r, gc'⟩ := result
      rw [halloc] at hnew
      obtain ⟨objs', hheap, hptr⟩ := h.heap.alloc (by omega) hfresh halloc
      cases r with
      | none =>
        cases hnew
        exact ⟨objs', hheap, h.arrays⟩
      | some raw =>
        cases hnew
        refine ⟨objs', hheap, List.forall_mem_cons.mpr ⟨?_, h.arrays⟩⟩
        obtain ⟨-, rfl⟩ := hptr raw rfl
        rw [GcArray.object, GcArray.basePtr, Nat.add_sub_cancel, payload, Nat.add_sub_cancel]
        rfl
  | alloc hsize hfresh halloc =>
    obtain ⟨objs', hheap, -⟩ := h.heap.alloc hsize hfresh halloc
    exact ⟨objs', hheap, h.arrays⟩
  | collect hcollect =>
    obtain ⟨gc', hcollect', hcollected⟩ := h.heap.collect
    cases hcollect.symm.trans hcollect'
    exact ⟨_, hcollected.heap, h.arrays⟩
  | addRoot ptr => exact ⟨objs, h.heap.withRoots _, h.arrays⟩
  | removeRoot ptr => exact ⟨objs, h.heap.withRoots _, h.arrays⟩
  | clearRoots => exact ⟨objs, h.heap.withRoots _, h.arrays⟩

theorem Session.Reachable.inv (h : Reachable s) : ∃ objs, s.Inv objs := by
  induction h with
  | new gcThreshold header =>
    have hheap : (GarbageCollector.new gcThreshold header).Heap [] :=
      ⟨rfl, .nil, List.forall_mem_nil _, List.forall_mem_nil _, rfl, rfl, rfl⟩
    exact ⟨[], hheap, List.forall_mem_nil _⟩
  | step _ hstep ih =>
    obtain ⟨objs, hinv⟩ := ih
    exact hinv.step hstep

/-! ## The rooting law -/

/-- The array's object is in the list of objects. -/
def GarbageCollector.Allocated (gc : GarbageCollector) (arr : GcArray) : Prop :=
  ∃ objs, gc.Objects objs ∧ arr.object ∈ objs

/-- The roots of the holders are added, and the garbage is collected. -/
def collectWithRoots (gc : GarbageCollector) (holders : List Holder) :
    Except Fault GarbageCollector :=
  ((holders.flatMap Holder.gcRoots).foldl addRoot gc).collect

/-- A collection with the roots of the holders keeps what they hold and frees nothing else of
theirs. -/
def RootingLaw (gc : GarbageCollector) (holders : List Holder) : Prop :=
  ∃ gc', collectWithRoots gc holders = .ok gc' ∧ (∀ arr, Held holders arr → gc'.Allocated arr) ∧
    ∀ objs objs', gc.Objects objs → gc'.Objects objs' → ∀ o ∈ objs, o ∉ objs' →
      ∀ arr, Held holders arr → arr.object ≠ o

theorem foldl_addRoot (gc : GarbageCollector) (ptrs : List Nat) :
    ∃ roots, ptrs.foldl addRoot gc = { gc with roots := roots } ∧
      ∀ p, p ∈ roots ↔ p ∈ gc.roots ∨ p ∈ ptrs := by
  induction ptrs generalizing gc with
  | nil => exact ⟨gc.roots, rfl, fun p ↦ (or_iff_left List.not_mem_nil).symm⟩
  | cons ptr ptrs ih =>
    obtain ⟨roots, hfold, hmem⟩ := ih (gc.addRoot ptr)
    refine ⟨roots, hfold, fun p ↦ ?_⟩
    rw [hmem, addRoot, List.mem_insert_iff, List.mem_cons]
    tauto

/-- Whether an object survives a collection with the roots of the holders. -/
def Survives (gc : GarbageCollector) (holders : List Holder) (o : Nat) : Prop :=
  payload o ∈ gc.roots ∨ ∃ arr, Held holders arr ∧ arr.ptr = payload o

theorem collectWithRoots_spec {gc : GarbageCollector} (h : gc.Heap objs) (holders : List Holder) :
    ∃ gc' objs', collectWithRoots gc holders = .ok gc' ∧ gc'.Objects objs' ∧
      ∀ o, o ∈ objs' ↔ o ∈ objs ∧ Survives gc holders o := by
  obtain ⟨roots, hfold, hmem⟩ := foldl_addRoot gc (holders.flatMap Holder.gcRoots)
  obtain ⟨gc', hcollect, hcollected⟩ := (h.withRoots roots).collect
  rw [collectWithRoots, hfold]
  refine ⟨gc', _, hcollect, hcollected.heap.objects, fun o ↦ ?_⟩
  rw [rooted, List.mem_filter, decide_eq_true_eq]
  refine and_congr_right fun _ ↦ (hmem (payload o)).trans (or_congr_right ?_)
  rw [List.mem_flatMap]
  constructor
  · rintro ⟨holder, hholder, hptr⟩
    obtain ⟨arr, hholds, hptr⟩ := Holder.mem_gcRoots.mp hptr
    exact ⟨arr, ⟨holder, hholder, hholds⟩, hptr⟩
  · rintro ⟨arr, ⟨holder, hholder, hholds⟩, hptr⟩
    exact ⟨holder, hholder, Holder.mem_gcRoots.mpr ⟨arr, hholds, hptr⟩⟩

/-- The pointer of an array is behind no header of an object. -/
theorem Session.Inv.ptr_ne_payload (h : s.Inv objs) {arr : GcArray} (harr : arr ∈ s.arrays)
    (hobject : arr.object ∈ objs) {o : Nat} (ho : o ∈ objs) : arr.ptr ≠ payload o := by
  intro heq
  have hptr := h.arrays arr harr
  rw [payload, gcHeaderSize_toNat] at heq
  have hne : arr.object ≠ o := by omega
  obtain ⟨before, after, hsplit⟩ := List.append_of_mem hobject
  have hroom := h.heap.room _ hobject
  have hroom' := h.heap.room o ho
  rw [gcHeaderSize_toNat] at hroom hroom'
  have hapart : arr.object + s.gc.total arr.object ≤ o ∨
      o + s.gc.total o ≤ arr.object := by
    have hsymm : ∀ p ∈ objs, ∀ q ∈ objs, p ≠ q →
        p + s.gc.total p ≤ q ∨ q + s.gc.total q ≤ p := by
      have : Std.Symm fun p q ↦ p + s.gc.total p ≤ q ∨ q + s.gc.total q ≤ p :=
        ⟨fun p q hpq ↦ hpq.symm⟩
      exact fun p hp q hq hpq ↦ h.heap.apart.forall hp hq hpq
    exact hsymm _ hobject o ho hne
  omega

/-- A held array survives if and only if its base pointer was a root before. -/
theorem Session.Inv.survives_iff (h : s.Inv objs)
    (hheld : ∀ arr, Held holders arr → arr ∈ s.arrays ∧ arr.object ∈ objs) {arr : GcArray}
    (harr : Held holders arr) : Survives s.gc holders arr.object ↔ arr.basePtr ∈ s.gc.roots := by
  obtain ⟨hcreated, hobject⟩ := hheld arr harr
  have hbase : payload arr.object = arr.basePtr := by
    have hptr := h.arrays arr hcreated
    have hroom : arr.basePtr = arr.ptr - 16 := rfl
    rw [payload, gcHeaderSize_toNat]
    omega
  rw [Survives, hbase]
  refine or_iff_left ?_
  rintro ⟨other, hother, hptr⟩
  obtain ⟨hcreated', hobject'⟩ := hheld other hother
  exact h.ptr_ne_payload hcreated' hobject' hobject (hptr.trans hbase.symm)

theorem Session.Inv.rootingLaw (h : s.Inv objs)
    (hheld : ∀ arr, Held holders arr → arr ∈ s.arrays ∧ arr.object ∈ objs) :
    RootingLaw s.gc holders ↔ ∀ arr, Held holders arr → arr.basePtr ∈ s.gc.roots := by
  obtain ⟨gc', kept, hcollect, hobjects, hsurvive⟩ := collectWithRoots_spec h.heap holders
  have hkept_iff (arr : GcArray) (harr : Held holders arr) :
      arr.object ∈ kept ↔ arr.basePtr ∈ s.gc.roots :=
    (hsurvive _).trans ((and_iff_right (hheld arr harr).2).trans (h.survives_iff hheld harr))
  constructor
  · rintro ⟨gc'', hcollect', hkept, -⟩ arr harr
    cases hcollect.symm.trans hcollect'
    obtain ⟨objs', hobjects', hmem⟩ := hkept arr harr
    rw [← hobjects.unique hobjects'] at hmem
    exact (hkept_iff arr harr).mp hmem
  · intro hroots
    refine ⟨gc', hcollect, fun arr harr ↦ ⟨kept, hobjects, ?_⟩, ?_⟩
    · exact (hkept_iff arr harr).mpr (hroots arr harr)
    · rintro objs₁ objs' - hobjs' o - hgone arr harr rfl
      rw [← hobjects.unique hobjs'] at hgone
      exact hgone ((hkept_iff arr harr).mpr (hroots arr harr))

/-- **Exactly when the roots of the holders suffice**: when the base pointer of each held array is a
root already. -/
theorem rootingLaw_iff (h : Session.Reachable s)
    (hheld : ∀ arr, Held holders arr → arr ∈ s.arrays ∧ s.gc.Allocated arr) :
    RootingLaw s.gc holders ↔ ∀ arr, Held holders arr → arr.basePtr ∈ s.gc.roots := by
  obtain ⟨objs, hinv⟩ := h.inv
  refine hinv.rootingLaw fun arr harr ↦ ?_
  obtain ⟨hcreated, objs', hobjects, hmem⟩ := hheld arr harr
  rw [hobjects.unique hinv.heap.objects] at hmem
  exact ⟨hcreated, hmem⟩

/-! ## One array on the stack -/

/-- A collector with one array, of length 1, whose object is at 4096. -/
def sampleSession : Session :=
  ⟨(GarbageCollector.new 1000 fun _ ↦ ⟨0, false, .blob, 0⟩).initHeader 4096 24 .intArray,
    [⟨4136, 1⟩]⟩

def sampleHolders : List Holder := [.stack ⟨[.array ⟨4136, 1⟩]⟩]

theorem sampleSession_reachable : Session.Reachable sampleSession := by
  have hnew : GcArray.new (GarbageCollector.new 1000 fun _ ↦ ⟨0, false, .blob, 0⟩) 1 4096 0 =
      .ok (some ⟨4136, 1⟩, sampleSession.gc) := rfl
  have hnone : (GarbageCollector.new 1000 fun _ ↦ ⟨0, false, .blob, 0⟩).Objects [] := rfl
  exact .step (.new 1000 _) (.newArray (s := ⟨_, []⟩) (by decide)
    (freshFor_of_objects rfl hnone (by decide) (List.forall_mem_nil _)) hnew)

theorem sampleHolders_held (arr : GcArray) (h : Held sampleHolders arr) : arr = ⟨4136, 1⟩ := by
  obtain ⟨holder, hholder, hholds⟩ := h
  obtain rfl := List.mem_singleton.mp hholder
  exact Value.array.inj (List.mem_singleton.mp hholds)

theorem sampleHolders_allocated (arr : GcArray) (h : Held sampleHolders arr) :
    arr ∈ sampleSession.arrays ∧ sampleSession.gc.Allocated arr := by
  rw [sampleHolders_held arr h]
  exact ⟨List.mem_cons_self, [4096], ⟨rfl, by decide, rfl⟩, List.mem_cons_self⟩

theorem sampleHolders_holds : Held sampleHolders ⟨4136, 1⟩ :=
  ⟨_, List.mem_cons_self, List.mem_cons_self⟩

/-- The array on the stack is freed. -/
theorem not_rootingLaw : ¬∀ s : Session, s.Reachable → ∀ holders,
    (∀ arr, Held holders arr → arr ∈ s.arrays ∧ s.gc.Allocated arr) → RootingLaw s.gc holders := by
  intro h
  obtain ⟨objs, hinv⟩ := sampleSession_reachable.inv
  have hheld (arr : GcArray) (harr : Held sampleHolders arr) :
      arr ∈ sampleSession.arrays ∧ arr.object ∈ objs := by
    obtain ⟨hcreated, objs', hobjects, hmem⟩ := sampleHolders_allocated arr harr
    rw [hobjects.unique hinv.heap.objects] at hmem
    exact ⟨hcreated, hmem⟩
  have hlaw := h sampleSession sampleSession_reachable sampleHolders sampleHolders_allocated
  exact absurd ((hinv.rootingLaw hheld).mp hlaw _ sampleHolders_holds) List.not_mem_nil

/-! ## Three arrays -/

/-- The collector with two more arrays. The first and the last one are rooted by their base
pointers. -/
def rootedSession : Session :=
  ⟨(((sampleSession.gc.initHeader 8192 24 .intArray).initHeader 12288 24 .intArray).addRoot
    4120).addRoot 12312, [⟨12328, 1⟩, ⟨8232, 1⟩, ⟨4136, 1⟩]⟩

def rootedHolders : List Holder :=
  [.stack ⟨[.int 5, .array ⟨4136, 1⟩]⟩, .globals ⟨[.array ⟨12328, 1⟩]⟩]

theorem rootedSession_objects : rootedSession.gc.Objects [12288, 8192, 4096] :=
  ⟨rfl, by decide, rfl, by decide, rfl, by decide, rfl⟩

theorem rootedSession_reachable : Session.Reachable rootedSession := by
  let second := sampleSession.gc.initHeader 8192 24 .intArray
  have hnew : GcArray.new sampleSession.gc 1 8192 0 = .ok (some ⟨8232, 1⟩, second) := rfl
  have hnew' : GcArray.new second 1 12288 0 =
    .ok (some ⟨12328, 1⟩, second.initHeader 12288 24 .intArray) := rfl
  have hobjects : sampleSession.gc.Objects [4096] := ⟨rfl, by decide, rfl⟩
  have hobjects' : second.Objects [8192, 4096] := ⟨rfl, by decide, rfl, by decide, rfl⟩
  have hfresh : sampleSession.gc.FreshFor 8192 (arrayHeaderSize + 1 * 8) :=
    freshFor_of_objects rfl hobjects (by decide) (by decide)
  have hfresh' : second.FreshFor 12288 (arrayHeaderSize + 1 * 8) :=
    freshFor_of_objects rfl hobjects' (by decide) (by decide)
  have hstep := sampleSession_reachable.step (.newArray (by decide) hfresh hnew)
  have hstep' := hstep.step (.newArray (by decide) hfresh' hnew')
  exact (hstep'.step (.addRoot 4120)).step (.addRoot 12312)

/-- Both arrays that are held stay, since their base pointers are roots. -/
theorem rootingLaw_iff_rooted : Session.Reachable rootedSession ∧ Held rootedHolders ⟨4136, 1⟩ ∧
    Held rootedHolders ⟨12328, 1⟩ ∧ RootingLaw rootedSession.gc rootedHolders := by
  have hheld (arr : GcArray) (h : Held rootedHolders arr) : arr = ⟨4136, 1⟩ ∨ arr = ⟨12328, 1⟩ := by
    obtain ⟨holder, hholder, hholds⟩ := h
    rcases List.mem_pair.mp hholder with rfl | rfl
    · rcases List.mem_pair.mp hholds with hvalue | hvalue
      · cases hvalue
      · exact .inl (Value.array.inj hvalue)
    · exact .inr (Value.array.inj (List.mem_singleton.mp hholds))
  refine ⟨rootedSession_reachable, ⟨_, List.mem_cons_self, List.mem_cons_of_mem _ List.mem_cons_self⟩,
    ⟨_, List.mem_cons_of_mem _ List.mem_cons_self, List.mem_cons_self⟩,
    (rootingLaw_iff rootedSession_reachable fun arr harr ↦ ?_).mpr fun arr harr ↦ ?_⟩
  · rcases hheld arr harr with rfl | rfl
    · exact ⟨by simp [rootedSession], _, rootedSession_objects, by decide⟩
    · exact ⟨by simp [rootedSession], _, rootedSession_objects, by decide⟩
  · rcases hheld arr harr with rfl | rfl
    · decide
    · decide

end MiniLang.Runtime
