import Mathlib.Data.BitVec
import Mathlib.Data.Finset.Card
import Mathlib.Data.List.Nodup
import Mathlib.Tactic.Common

/-!
# Slot tables

A table of numbered slots, each empty or occupied, together with a list of the empty ones. This is
the data structure under a pool or a heap that recycles its slots: taking a slot empties the list
by one or makes the table longer by one, and a retention pass empties the slots nobody needs.
-/

namespace SlotTable

variable {α : Type} {slots : List (Option α)} {free : List Nat} {a : α} {i : Nat}

/-- `free` lists exactly the empty slots, each once. -/
structure Tracked (slots : List (Option α)) (free : List Nat) : Prop where
  nodup : free.Nodup
  mem_iff : ∀ i, i ∈ free ↔ slots[i]? = some none

/-- The occupied slots. -/
def occupied (slots : List (Option α)) : Finset Nat :=
  (Finset.range slots.length).filter fun i ↦ (slots[i]?.join).isSome

theorem mem_occupied : i ∈ occupied slots ↔ (slots[i]?.join).isSome := by
  rw [occupied, Finset.mem_filter, Finset.mem_range, and_iff_right_iff_imp]
  intro h
  by_contra hlt
  rw [List.getElem?_eq_none (Nat.le_of_not_lt hlt)] at h
  cases h

theorem getElem?_of_mem_occupied (h : i ∈ occupied slots) : ∃ a, slots[i]? = some (some a) := by
  obtain ⟨a, ha⟩ := Option.isSome_iff_exists.mp (mem_occupied.mp h)
  exact ⟨a, Option.join_eq_some_iff.mp ha⟩

theorem lt_of_mem_occupied (h : i ∈ occupied slots) : i < slots.length :=
  Finset.mem_range.mp (Finset.mem_filter.mp h).1

namespace Tracked

theorem nil : Tracked ([] : List (Option α)) [] where
  nodup := .nil
  mem_iff i := by simp

theorem lt_length (h : Tracked slots free) (hi : i ∈ free) : i < slots.length := by
  by_contra hlt
  have := (h.mem_iff i).mp hi
  rw [List.getElem?_eq_none (Nat.le_of_not_lt hlt)] at this
  cases this

theorem notMem_occupied (h : Tracked slots free) (hi : i ∈ free) : i ∉ occupied slots := by
  rw [mem_occupied, (h.mem_iff i).mp hi]
  exact Bool.false_ne_true

/-- Every slot is occupied or listed as empty. -/
theorem card_occupied_add (h : Tracked slots free) :
    (occupied slots).card + free.length = slots.length := by
  have hdisj : Disjoint (occupied slots) free.toFinset := by
    rw [Finset.disjoint_right]
    intro i hi
    exact h.notMem_occupied (List.mem_toFinset.mp hi)
  have hunion : occupied slots ∪ free.toFinset = Finset.range slots.length := by
    ext i
    rw [Finset.mem_union, List.mem_toFinset, Finset.mem_range]
    constructor
    · rintro (hi | hi)
      · exact lt_of_mem_occupied hi
      · exact h.lt_length hi
    · intro hi
      rw [mem_occupied, h.mem_iff]
      rcases hs : slots[i]? with _ | _ | a
      · rw [List.getElem?_eq_none_iff] at hs
        omega
      · exact .inr rfl
      · exact .inl rfl
  have hcard := Finset.card_union_of_disjoint hdisj
  rw [hunion, Finset.card_range, List.toFinset_card_of_nodup h.nodup] at hcard
  exact hcard.symm

/-- Occupying the first listed slot. -/
theorem take (h : Tracked slots (i :: free)) : Tracked (slots.set i (some a)) free where
  nodup := (List.nodup_cons.mp h.nodup).2
  mem_iff j := by
    have hi : i < slots.length := h.lt_length List.mem_cons_self
    rw [List.getElem?_set]
    by_cases hij : i = j
    · subst hij
      simp only [if_true, hi, Option.some.injEq, reduceCtorEq, iff_false]
      exact (List.nodup_cons.mp h.nodup).1
    · rw [if_neg hij, ← h.mem_iff, List.mem_cons, or_iff_right (Ne.symm hij)]

/-- Occupying a new slot at the end. -/
theorem extend (h : Tracked slots free) : Tracked (slots ++ [some a]) free where
  nodup := h.nodup
  mem_iff j := by
    rw [h.mem_iff, List.getElem?_append]
    split
    · rfl
    · next hj =>
      rw [List.getElem?_eq_none (Nat.le_of_not_lt hj)]
      cases j - slots.length <;> simp

/-- Overwriting an occupied slot. -/
theorem overwrite (h : Tracked slots free) (hi : i ∈ occupied slots) :
    Tracked (slots.set i (some a)) free where
  nodup := h.nodup
  mem_iff j := by
    rw [h.mem_iff, List.getElem?_set]
    by_cases hij : i = j
    · subst hij
      obtain ⟨b, hb⟩ := getElem?_of_mem_occupied hi
      rw [hb]
      simp [lt_of_mem_occupied hi]
    · rw [if_neg hij]

/-- A pass that keeps the slots satisfying `keep` and empties the others keeps track if it lists
what it empties. -/
theorem retain {slots' : List (Option α)} {freed : List Nat} {f : α → α}
    (h : Tracked slots free) (keep : Nat → Prop) [DecidablePred keep]
    (hslots : ∀ i, slots'[i]? = slots[i]?.map fun s ↦ if keep i then s.map f else none)
    (hnodup : freed.Nodup) (hfreed : ∀ i, i ∈ freed ↔ i ∈ occupied slots ∧ ¬keep i) :
    Tracked slots' (freed ++ free) where
  nodup := by
    refine List.Nodup.append hnodup h.nodup ?_
    intro i hi hi'
    exact h.notMem_occupied hi' ((hfreed i).mp hi).1
  mem_iff i := by
    rw [List.mem_append, hfreed, h.mem_iff, mem_occupied, hslots]
    rcases slots[i]? with _ | _ | a
    · simp
    · simp
    · by_cases hk : keep i <;> simp [hk]

end Tracked

end SlotTable
