import Mathlib.Data.BitVec
import Mathlib.Tactic.Common

/-!
# Blocks of a flat memory

A memory is a list of words, a block a run of consecutive ones with known contents. Writing a word
changes the one block it is in; a memory that grows at its end keeps its blocks.
-/

namespace FlatMemory

variable {ω : Type} {mem mem' : List ω} {base base' addr i : Nat} {data : List ω} {w : ω}

/-- The words of `mem` from `base` on are `data`. -/
structure Block (mem : List ω) (base : Nat) (data : List ω) : Prop where
  inside : base + data.length ≤ mem.length
  get : ∀ (i : Nat) (w : ω), data[i]? = some w → mem[base + i]? = some w

/-- `base..base + size` and `base'..base' + size'` have no word in common. -/
def Apart (base size base' size' : Nat) : Prop := base + size ≤ base' ∨ base' + size' ≤ base

namespace Block

/-- A block depends on its own words only. -/
theorem congr (h : Block mem base data) (hlength : mem.length ≤ mem'.length)
    (hwords : ∀ i < data.length, mem'[base + i]? = mem[base + i]?) : Block mem' base data where
  inside := h.inside.trans hlength
  get i w hi := (hwords i (List.getElem?_eq_some_iff.mp hi).1).trans (h.get i w hi)

theorem set_outside (h : Block mem base data) (haddr : addr < base ∨ base + data.length ≤ addr)
    (w : ω) : Block (mem.set addr w) base data := by
  apply h.congr List.length_set.ge
  intro i hi
  exact List.getElem?_set_ne (by omega)

theorem set_inside (h : Block mem base data) (w : ω) :
    Block (mem.set (base + i) w) base (data.set i w) where
  inside := by
    rw [List.length_set, List.length_set]
    exact h.inside
  get j v hj := by
    by_cases hij : i = j
    · subst hij
      obtain ⟨hlt, hv⟩ := List.getElem?_eq_some_iff.mp hj
      rw [List.length_set] at hlt
      have hinside := h.inside
      rw [List.getElem_set_self] at hv
      rw [List.getElem?_set_self (by omega), hv]
    · rw [List.getElem?_set_ne hij] at hj
      rw [List.getElem?_set_ne (by omega)]
      exact h.get j v hj

/-- The words a memory has grown by. -/
theorem grown (mem data : List ω) : Block (mem ++ data) mem.length data where
  inside := List.length_append.ge
  get i w hi := by
    rw [List.getElem?_append_right (Nat.le_add_right ..), Nat.add_sub_cancel_left]
    exact hi

end Block

end FlatMemory
