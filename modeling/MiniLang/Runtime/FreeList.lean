import Mathlib.Data.BitVec
import Mathlib.Logic.Function.Basic

/-!
# The free-list allocator

`FreeListAllocator`: a region of memory whose free blocks are linked through their headers, in
address order. Memory is read and written by words, all at multiples of eight, so that a header is
the two words at its address. Pointers are numbers and `0` is the null pointer.
-/

namespace MiniLang.Runtime

def alignment : UInt64 := 8

/-- `size_of::<BlockHeader>()`: the size and the next pointer. -/
def headerSize : UInt64 := 16

def minBlockSize : UInt64 := headerSize + alignment

def alignUp (size align : UInt64) : UInt64 := (size + align - 1) &&& ~~~(align - 1)

/-- `isize::MAX` -/
def isizeMax : Nat := 2 ^ 63 - 1

/-- What the allocators report. -/
structure AllocatorStats where
  capacity : Nat
  used : Nat
  free : Nat
  allocationCount : Nat
deriving DecidableEq

structure FreeListAllocator where
  start : Nat
  size : Nat
  freeList : Nat
  allocationCount : Nat
  bytesAllocated : Nat
  /-- The word at each address. -/
  memory : Nat → Nat

namespace FreeListAllocator

/-- `(*p).size` -/
def blockSize (a : FreeListAllocator) (p : Nat) : Nat := a.memory p

/-- `(*p).next` -/
def next (a : FreeListAllocator) (p : Nat) : Nat := a.memory (p + 8)

def store (a : FreeListAllocator) (address value : Nat) : FreeListAllocator :=
  { a with memory := Function.update a.memory address value }

def setSize (a : FreeListAllocator) (p size : Nat) : FreeListAllocator := a.store p size

def setNext (a : FreeListAllocator) (p target : Nat) : FreeListAllocator := a.store (p + 8) target

/-- The region is one free block. -/
def new (start size : Nat) (memory : Nat → Nat) : FreeListAllocator :=
  setNext (setSize ⟨start, size, start, 0, 0, memory⟩ start size) start 0

/-- The list reaches `target` after `prev`, or at its head when `prev` is null. -/
def link (a : FreeListAllocator) (prev target : Nat) : FreeListAllocator :=
  if prev = 0 then { a with freeList := target } else a.setNext prev target

/-- The size of the block for a request of `size` bytes. -/
def requestSize (size : UInt64) : Nat :=
  max (alignUp (size + headerSize) alignment).toNat minBlockSize.toNat

/-- The first-fit search: the first block of at least `minSize` bytes and the one before it, or
nothing at the end of the list. It has not ended when `fuel` is used up. -/
def firstFit (a : FreeListAllocator) (minSize : Nat) : Nat → Nat → Nat → Option (Option (Nat × Nat))
  | 0, _, _ => none
  | fuel + 1, prev, current =>
    if current = 0 then some none
    else if minSize ≤ a.blockSize current then some (some (prev, current))
    else firstFit a minSize fuel current (a.next current)

/-- Split the block at `current` after its first `minSize` bytes. -/
def split (a : FreeListAllocator) (minSize current : Nat) : FreeListAllocator :=
  let newBlock := current + minSize
  let a := a.setSize newBlock (a.blockSize current - minSize)
  let a := a.setNext newBlock (a.next current)
  a.setSize current minSize

/-- Take the block at `current` off the list, less what it has over `minSize` when that is enough
for a block. -/
def take (a : FreeListAllocator) (minSize prev current : Nat) : FreeListAllocator :=
  let remaining := a.blockSize current - minSize
  let a :=
    if minBlockSize.toNat ≤ remaining then (a.split minSize current).link prev (current + minSize)
    else a.link prev (a.next current)
  let a := a.setNext current 0
  { a with
    allocationCount := a.allocationCount + 1
    bytesAllocated := a.bytesAllocated + a.blockSize current }

/-- The pointer to the new block, if there is room, and the allocator afterwards. -/
def alloc (a : FreeListAllocator) (size : UInt64) : Option (Option Nat × FreeListAllocator) :=
  match a.firstFit (requestSize size) (a.size + 1) 0 a.freeList with
  | none => none
  | some none => some (none, a)
  | some (some (prev, current)) =>
    some (some (current + headerSize.toNat), a.take (requestSize size) prev current)

/-- The last free block before `header` and the first one from there on. -/
def locate (a : FreeListAllocator) (header : Nat) : Nat → Nat → Nat → Option (Nat × Nat)
  | 0, _, _ => none
  | fuel + 1, prev, current =>
    if current ≠ 0 ∧ current < header then locate a header fuel current (a.next current)
    else some (prev, current)

/-- Give `header` the size and the link of a free block before `current`, joined with it when it
follows immediately. -/
def joinNext (a : FreeListAllocator) (header current : Nat) : FreeListAllocator :=
  if header + a.blockSize header = current then
    let a := a.setSize header (a.blockSize header + a.blockSize current)
    a.setNext header (a.next current)
  else a.setNext header current

/-- Put `header` into the list after `prev`, joined with it when it follows immediately. -/
def joinPrev (a : FreeListAllocator) (prev header : Nat) : FreeListAllocator :=
  if prev ≠ 0 ∧ prev + a.blockSize prev = header then
    let a := a.setSize prev (a.blockSize prev + a.blockSize header)
    a.setNext prev (a.next header)
  else a.link prev header

def free (a : FreeListAllocator) (ptr : Nat) : Option FreeListAllocator :=
  let header := ptr - headerSize.toNat
  let a := { a with
    allocationCount := a.allocationCount - 1
    bytesAllocated := a.bytesAllocated - a.blockSize header }
  match a.locate header (a.size + 1) 0 a.freeList with
  | none => none
  | some (prev, current) => some ((a.joinNext header current).joinPrev prev header)

end FreeListAllocator

end MiniLang.Runtime
