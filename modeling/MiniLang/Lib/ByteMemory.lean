import Mathlib.Data.BitVec
import Mathlib.Tactic.Common

/-!
# Byte-addressed memory

Memory of a 64-bit machine, read and written in little-endian words, and the words at multiples of
eight below a fixed address: writing one of them leaves the others alone.
-/

namespace ByteMemory

abbrev Byte := BitVec 8

abbrev Word := BitVec 64

/-- Memory gives the byte at each address. -/
abbrev Memory := Word → Byte

/-- The word at `address`, lowest byte first. -/
def read (mem : Memory) (address : Word) : Word :=
  mem (address + 7) ++ mem (address + 6) ++ mem (address + 5) ++ mem (address + 4) ++
    mem (address + 3) ++ mem (address + 2) ++ mem (address + 1) ++ mem (address + 0)

def write (mem : Memory) (address value : Word) : Memory := fun x ↦
  if (x - address).toNat < 8 then value.extractLsb' (8 * (x - address).toNat) 8 else mem x

variable {mem : Memory} {address base value : Word} {i j : Nat}

theorem write_offset {k : Word} (hk : k.toNat < 8) (mem : Memory) (address value : Word) :
    write mem address value (address + k) = value.extractLsb' (8 * k.toNat) 8 := by
  rw [write, BitVec.add_comm, BitVec.add_sub_cancel, if_pos hk]

theorem read_write_self (mem : Memory) (address value : Word) :
    read (write mem address value) address = value := by
  rw [read]
  simp only [write_offset (show (7 : Word).toNat < 8 by decide),
    write_offset (show (6 : Word).toNat < 8 by decide),
    write_offset (show (5 : Word).toNat < 8 by decide),
    write_offset (show (4 : Word).toNat < 8 by decide),
    write_offset (show (3 : Word).toNat < 8 by decide),
    write_offset (show (2 : Word).toNat < 8 by decide),
    write_offset (show (1 : Word).toNat < 8 by decide),
    write_offset (show (0 : Word).toNat < 8 by decide)]
  refine BitVec.eq_of_getLsbD_eq fun i hi ↦ ?_
  grind

/-- The `k`-th word below `base`. -/
def cell (base : Word) (k : Nat) : Word := base - BitVec.ofNat 64 (8 * k)

@[simp] theorem cell_zero (base : Word) : cell base 0 = base := by simp [cell]

theorem cell_cell (base : Word) (i j : Nat) : cell (cell base i) j = cell base (i + j) := by
  rw [cell, cell, cell, BitVec.sub_sub, ← BitVec.ofNat_add, Nat.mul_add]

theorem cell_succ (base : Word) (k : Nat) : cell base (k + 1) = cell base k - 8 := by
  rw [← cell_cell]
  rfl

theorem cell_succ_add (base : Word) (k : Nat) : cell base (k + 1) + 8 = cell base k := by
  rw [cell_succ, BitVec.sub_add_cancel]

theorem sub_cell (base : Word) (k : Nat) : base - cell base k = BitVec.ofNat 64 (8 * k) := by
  rw [BitVec.sub_eq_iff_eq_add, cell, BitVec.add_comm, BitVec.sub_add_cancel]

theorem read_write_cell (mem : Memory) (base value : Word) (hij : i ≠ j) (hi : i < 2 ^ 60)
    (hj : j < 2 ^ 60) :
    read (write mem (cell base i) value) (cell base j) = read mem (cell base j) := by
  have hapart (k : Word) (hk : k.toNat < 8) :
      write mem (cell base i) value (cell base j + k) = mem (cell base j + k) := by
    have := base.isLt
    rw [write, if_neg]
    rw [cell, cell]
    simp only [BitVec.toNat_sub, BitVec.toNat_add, BitVec.toNat_ofNat]
    omega
  rw [read, read]
  simp only [hapart 7 (by decide), hapart 6 (by decide), hapart 5 (by decide), hapart 4 (by decide),
    hapart 3 (by decide), hapart 2 (by decide), hapart 1 (by decide), hapart 0 (by decide)]

/-- `x` is one of the eight bytes of the word at `address`. -/
def InWord (address x : Word) : Prop := (x - address).toNat < 8

/-- How far below `base` the bytes of a word are. -/
theorem InWord.depth {x : Word} (h : InWord (cell base (i + 1)) x) (hi : i < 2 ^ 60) :
    8 * i < (base - x).toNat ∧ (base - x).toNat ≤ 8 * (i + 1) := by
  have := base.isLt
  have := x.isLt
  rw [InWord, cell] at h
  simp only [BitVec.toNat_sub, BitVec.toNat_ofNat] at h ⊢
  omega

/-- The words below `base` do not overlap. -/
theorem InWord.cell_inj {x : Word} (h : InWord (cell base i) x) (h' : InWord (cell base j) x)
    (hi : i < 2 ^ 60) (hj : j < 2 ^ 60) : i = j := by
  have := base.isLt
  have := x.isLt
  rw [InWord, cell] at h h'
  simp only [BitVec.toNat_sub, BitVec.toNat_ofNat] at h h'
  omega

end ByteMemory
