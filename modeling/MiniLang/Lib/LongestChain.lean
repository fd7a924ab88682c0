import Mathlib.Data.BitVec
import Mathlib.Data.List.Chain
import Mathlib.Logic.Relation
import Mathlib.Tactic.Common

/-!
# Longest chains of a relation

The number of elements on a longest chain that starts at a given element. It exists only where no
cycle can be reached, and it is one more than the greatest number among the successors.
-/

namespace LongestChain

variable {α : Type*} {r : α → α → Prop} {a b : α} {n m : ℕ}

/-- `n` is the number of elements on a longest chain from `a`. -/
structure IsLongest (r : α → α → Prop) (a : α) (n : ℕ) : Prop where
  attained : ∃ l : List α, (a :: l).IsChain r ∧ l.length + 1 = n
  bound : ∀ l : List α, (a :: l).IsChain r → l.length + 1 ≤ n

/-- A cycle can be reached from `a`. -/
def ReachesCycle (r : α → α → Prop) (a : α) : Prop :=
  ∃ b, Relation.ReflTransGen r a b ∧ Relation.TransGen r b b

theorem IsLongest.unique (h : IsLongest r a n) (h' : IsLongest r a m) : n = m := by
  obtain ⟨l, hl, rfl⟩ := h.attained
  obtain ⟨l', hl', rfl⟩ := h'.attained
  exact le_antisymm (h'.bound l hl) (h.bound l' hl')

/-- One more than the greatest number among the successors. -/
theorem IsLongest.succ (hle : ∀ b, r a b → ∃ n ≤ m, IsLongest r b n)
    (hm : m = 0 ∨ ∃ b, r a b ∧ IsLongest r b m) : IsLongest r a (m + 1) where
  attained := by
    rcases hm with rfl | ⟨b, hb, hlongest⟩
    · exact ⟨[], .singleton a, rfl⟩
    · obtain ⟨l, hl, rfl⟩ := hlongest.attained
      exact ⟨b :: l, .cons_cons hb hl, rfl⟩
  bound l hl := by
    cases l with
    | nil => exact Nat.succ_le_succ (Nat.zero_le m)
    | cons b l =>
      rw [List.isChain_cons_cons] at hl
      obtain ⟨n, hn, hlongest⟩ := hle b hl.1
      exact Nat.succ_le_succ ((hlongest.bound l hl.2).trans hn)

theorem exists_isChain_of_reflTransGen (h : Relation.ReflTransGen r a b) {l : List α}
    (hl : (b :: l).IsChain r) : ∃ l', (a :: l').IsChain r ∧ l.length ≤ l'.length := by
  induction h using Relation.ReflTransGen.head_induction_on with
  | refl => exact ⟨l, hl, le_rfl⟩
  | head hac _ ih =>
    obtain ⟨l', hl', hle⟩ := ih
    exact ⟨_ :: l', .cons_cons hac hl', hle.trans (Nat.le_succ _)⟩

/-- Around a cycle there are chains of any length. -/
theorem exists_isChain_of_transGen (h : Relation.TransGen r b b) (n : ℕ) :
    ∃ l, (b :: l).IsChain r ∧ n ≤ l.length := by
  induction n with
  | zero => exact ⟨[], .singleton b, le_rfl⟩
  | succ n ih =>
    obtain ⟨l, hl, hn⟩ := ih
    obtain ⟨c, hbc, hcb⟩ := Relation.TransGen.head'_iff.mp h
    obtain ⟨l', hl', hle⟩ := exists_isChain_of_reflTransGen hcb hl
    exact ⟨c :: l', .cons_cons hbc hl', Nat.succ_le_succ (hn.trans hle)⟩

theorem IsLongest.not_reachesCycle (h : IsLongest r a n) : ¬ReachesCycle r a := by
  rintro ⟨b, hab, hb⟩
  obtain ⟨l, hl, hn⟩ := exists_isChain_of_transGen hb n
  obtain ⟨l', hl', hle⟩ := exists_isChain_of_reflTransGen hab hl
  have hbound := h.bound l' hl'
  omega

/-! ## The stack of a depth-first search -/

/-- `a` is being visited, and below it on the stack the elements of `stack`, down to `root`. -/
inductive Visiting (r : α → α → Prop) (root : α) : α → List α → Prop
  | root : Visiting r root root []
  | next {a b : α} {stack : List α} : Visiting r root a stack → r a b →
    Visiting r root b (a :: stack)

variable {root : α} {stack : List α}

theorem Visiting.reaches (h : Visiting r root a stack) : Relation.ReflTransGen r root a := by
  induction h with
  | root => exact .refl
  | next _ hr ih => exact ih.tail hr

theorem Visiting.reaches_mem (h : Visiting r root a stack) (hb : b ∈ stack) :
    Relation.ReflTransGen r root b ∧ Relation.TransGen r b a := by
  induction h with
  | root => cases hb
  | next hvisiting hr ih =>
    rcases List.mem_cons.mp hb with rfl | hb
    · exact ⟨hvisiting.reaches, .single hr⟩
    · exact ⟨(ih hb).1, (ih hb).2.tail hr⟩

/-- A chain from `a` extends the stack, from its root on, to a chain. -/
theorem Visiting.exists_isChain (h : Visiting r root a stack) {l : List α}
    (hl : (a :: l).IsChain r) :
    ∃ l', (root :: l').IsChain r ∧ l'.length = stack.length + l.length := by
  induction h generalizing l with
  | root => exact ⟨l, hl, (Nat.zero_add _).symm⟩
  | next _ hr ih =>
    obtain ⟨l', hl', hlength⟩ := ih (.cons_cons hr hl)
    refine ⟨l', hl', hlength.trans ?_⟩
    rw [List.length_cons, List.length_cons]
    omega

/-- An element that is met again while it is being visited is on a cycle. -/
theorem Visiting.reachesCycle (h : Visiting r root a stack) (ha : a ∈ stack) :
    ReachesCycle r root := ⟨a, h.reaches, (h.reaches_mem ha).2⟩

end LongestChain
