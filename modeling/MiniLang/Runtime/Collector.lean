import MiniLang.Lib.BlockList
import MiniLang.Runtime.FreeList

/-!
# The mark-and-sweep collector

`GarbageCollector`: objects with a header in front, linked through their headers, and a set of
roots, which are pointers to what follows a header. What the system allocator returns is an argument
of `alloc`, where `0` is the null pointer.
-/

namespace MiniLang.Runtime

inductive TypeTag
  | int
  | bool
  | intArray
  | closure
  | blob
  deriving DecidableEq, Repr

structure GcHeader where
  size : UInt64
  marked : Bool
  typeTag : TypeTag
  next : Nat

/-- `size_of::<GcHeader>()` -/
def gcHeaderSize : UInt64 := 24

structure GcStats where
  bytesAllocated : Nat
  bytesFreed : Nat
  objectsAllocated : Nat
  objectsFreed : Nat
  gcCycles : Nat

structure GarbageCollector where
  allObjects : Nat
  roots : List Nat
  gcThreshold : Nat
  bytesAllocated : Nat
  stats : GcStats
  /-- The header at each address. -/
  header : Nat → GcHeader

/-- What cannot happen in a safe run. -/
inductive Fault
  /-- A header is written through the null pointer. -/
  | nullWrite
  /-- A loop over the objects has not ended after as many steps as there are objects. -/
  | unending
  deriving DecidableEq, Repr

/-- The bytes of an object, with its header. -/
def totalSize (size : UInt64) : Nat := (alignUp (gcHeaderSize + size) alignment).toNat

namespace GarbageCollector

def new (gcThreshold : Nat) (header : Nat → GcHeader) : GarbageCollector :=
  ⟨0, [], gcThreshold, 0, ⟨0, 0, 0, 0, 0⟩, header⟩

/-- `(*p).next` -/
def next (gc : GarbageCollector) (p : Nat) : Nat := (gc.header p).next

def setHeader (gc : GarbageCollector) (p : Nat) (header : GcHeader) : GarbageCollector :=
  { gc with header := Function.update gc.header p header }

/-- The steps that a loop over the objects may take. -/
def listFuel (gc : GarbageCollector) : Nat :=
  gc.stats.objectsAllocated - gc.stats.objectsFreed + 1

def addRoot (gc : GarbageCollector) (ptr : Nat) : GarbageCollector :=
  { gc with roots := gc.roots.insert ptr }

def removeRoot (gc : GarbageCollector) (ptr : Nat) : GarbageCollector :=
  { gc with roots := gc.roots.filter (· ≠ ptr) }

def clearRoots (gc : GarbageCollector) : GarbageCollector := { gc with roots := [] }

/-- Whether `header` is in the list from `current` on. -/
def isGcObject (gc : GarbageCollector) (header : Nat) : Nat → Nat → Except Fault Bool
  | 0, _ => throw .unending
  | fuel + 1, current =>
    if current = 0 then pure false
    else if current = header then pure true
    else isGcObject gc header fuel (gc.next current)

/-- No type of object has children. -/
def markObject (gc : GarbageCollector) (ptr : Nat) : Except Fault GarbageCollector := do
  if ptr = 0 then return gc
  let header := ptr - gcHeaderSize.toNat
  if !(← gc.isGcObject header gc.listFuel gc.allObjects) then return gc
  if (gc.header header).marked then return gc
  return gc.setHeader header { gc.header header with marked := true }

def mark (gc : GarbageCollector) : Except Fault GarbageCollector :=
  gc.roots.foldlM markObject gc

/-- Unlink the object at `current`, which follows `prev`, and free it. -/
def release (gc : GarbageCollector) (prev current : Nat) : GarbageCollector :=
  let next := gc.next current
  let totalSize := totalSize (gc.header current).size
  let gc :=
    if prev = 0 then { gc with allObjects := next }
    else gc.setHeader prev { gc.header prev with next := next }
  { gc with
    bytesAllocated := gc.bytesAllocated - totalSize
    stats := { gc.stats with
      bytesFreed := gc.stats.bytesFreed + totalSize
      objectsFreed := gc.stats.objectsFreed + 1 } }

def sweepFrom (gc : GarbageCollector) : Nat → Nat → Nat → Except Fault GarbageCollector
  | 0, _, _ => throw .unending
  | fuel + 1, prev, current =>
    if current = 0 then pure gc
    else
      let next := gc.next current
      if (gc.header current).marked then
        sweepFrom (gc.setHeader current { gc.header current with marked := false }) fuel current next
      else sweepFrom (gc.release prev current) fuel prev next

def sweep (gc : GarbageCollector) : Except Fault GarbageCollector :=
  gc.sweepFrom gc.listFuel 0 gc.allObjects

def collect (gc : GarbageCollector) : Except Fault GarbageCollector := do
  let gc ← gc.mark
  let gc ← gc.sweep
  return { gc with stats := { gc.stats with gcCycles := gc.stats.gcCycles + 1 } }

/-- The new object at `ptr`, in front of the others. -/
def initHeader (gc : GarbageCollector) (ptr : Nat) (size : UInt64) (typeTag : TypeTag) :
    GarbageCollector :=
  let gc := gc.setHeader ptr ⟨size, false, typeTag, gc.allObjects⟩
  { gc with
    allObjects := ptr
    bytesAllocated := gc.bytesAllocated + totalSize size
    stats := { gc.stats with
      bytesAllocated := gc.stats.bytesAllocated + totalSize size
      objectsAllocated := gc.stats.objectsAllocated + 1 } }

/-- A collection before an allocation that would exceed the threshold. -/
def collectIfFull (gc : GarbageCollector) (size : UInt64) : Except Fault GarbageCollector :=
  if gc.gcThreshold < gc.bytesAllocated + size.toNat then gc.collect else pure gc

/-- The pointer behind the header of a new object. The system allocator returns `first`, and
`second` when it is asked again; the second pointer is not the one that is written to. -/
def alloc (gc : GarbageCollector) (size : UInt64) (typeTag : TypeTag) (first second : Nat) :
    Except Fault (Option Nat × GarbageCollector) := do
  let gc ← gc.collectIfFull size
  -- `Layout::from_size_align` refuses what does not fit in an `isize`
  if isizeMax - 7 < totalSize size then return (none, gc)
  if first = 0 then
    let gc ← gc.collect
    if second = 0 then return (none, gc)
    throw .nullWrite
  return (some (first + gcHeaderSize.toNat), gc.initHeader first size typeTag)

end GarbageCollector

end MiniLang.Runtime
