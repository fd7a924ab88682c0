import Mathlib.Data.BitVec
import Mathlib.Order.Basic
import Mathlib.Tactic.Common

/-!
# Flow-sensitive typing of stack code

A typing gives an abstract state to each address of a piece of code. States are ordered by what is
known in them, `s ≤ s'` where everything that `s` says holds in `s'`, too, so a jump may lead to any
address whose state says no more than what is known at the jump. A piece of code is typed from the
state at its entry to the state at its exit; jumps may also lead to labels outside of the piece.

## Weakening

Two ways that meet know different things. So the state at an exit may be weakened, and the entry of a
piece may ask for less than what is known there. These are the only places where the order is used:
no instruction has to be monotone.
-/

namespace FlowTyping

/-- What the instructions of a machine do to abstract states. -/
structure Isa (ι σ : Type) where
  /-- The instruction may be executed in the state. -/
  ok : ι → σ → Prop
  after : ι → σ → σ
  /-- Where the instruction at an address may lead. -/
  successors : Nat → ι → List Nat

/-- What has to be known for a jump to an address outside of a piece of code. -/
abbrev Labels (σ : Type) := Nat → σ → Prop

variable {ι σ : Type} [Preorder σ] {isa : Isa ι σ} {ext ext' : Labels σ} {base : Nat}
  {code code' : List ι} {instr : ι} {s s' m : σ}

/-- `state` gives the state at each address of the code and at its exit. -/
def Isa.States (isa : Isa ι σ) (ext : Labels σ) (base : Nat) (code : List ι) (state : Nat → σ) :
    Prop :=
  ∀ (i : Nat) (instr : ι), code[i]? = some instr → isa.ok instr (state (base + i)) ∧
    ∀ t ∈ isa.successors (base + i) instr,
      base ≤ t ∧ t ≤ base + code.length ∧ state t ≤ isa.after instr (state (base + i)) ∨
        ext t (isa.after instr (state (base + i)))

/-- The code is entered in a state that knows `s`, and left in `s'`. -/
def Isa.Flows (isa : Isa ι σ) (ext : Labels σ) (base : Nat) (code : List ι) (s s' : σ) : Prop :=
  ∃ state, state base ≤ s ∧ state (base + code.length) = s' ∧ isa.States ext base code state

namespace Isa.Flows

theorem nil (s : σ) : isa.Flows ext base [] s s :=
  ⟨fun _ ↦ s, le_rfl, rfl, fun _ _ hi ↦ absurd hi (by simp)⟩

/-- Only what the labels say is used of them. -/
theorem mono (h : isa.Flows ext base code s s') (hext : ∀ t d, ext t d → ext' t d) :
    isa.Flows ext' base code s s' := by
  obtain ⟨state, hentry, hexit, hstates⟩ := h
  refine ⟨state, hentry, hexit, fun i instr hi ↦ ⟨(hstates i instr hi).1, fun t ht ↦ ?_⟩⟩
  exact ((hstates i instr hi).2 t ht).imp_right (hext t _)

/-- Less may be asked at the exit. -/
theorem weaken (h : isa.Flows ext base code s m) (hm : s' ≤ m) :
    isa.Flows ext base code s s' := by
  obtain ⟨state, hentry, rfl, hstates⟩ := h
  have hbelow (t : Nat) : Function.update state (base + code.length) s' t ≤ state t := by
    by_cases heq : t = base + code.length
    · subst heq
      rw [Function.update_self]
      exact hm
    · rw [Function.update_of_ne heq]
  refine ⟨Function.update state (base + code.length) s', (hbelow base).trans hentry,
    Function.update_self .., fun i instr hi ↦ ?_⟩
  have hlt := (List.getElem?_eq_some_iff.mp hi).1
  rw [Function.update_of_ne (show base + i ≠ base + code.length by omega)]
  refine ⟨(hstates i instr hi).1, fun t ht ↦ ?_⟩
  refine ((hstates i instr hi).2 t ht).imp_left fun ⟨hle, hle', hstate⟩ ↦ ?_
  exact ⟨hle, hle', (hbelow t).trans hstate⟩

theorem append (h : isa.Flows ext base code s m)
    (h' : isa.Flows ext (base + code.length) code' m s') :
    isa.Flows ext base (code ++ code') s s' := by
  obtain ⟨state, hentry, rfl, hstates⟩ := h
  obtain ⟨state', hentry', rfl, hstates'⟩ := h'
  -- at the seam, the second piece may ask for less than the first one leaves
  have hlow {pc : Nat} (hpc : pc < base + code.length) :
      (if pc < base + code.length then state pc else state' pc) = state pc := if_pos hpc
  have hhigh {pc : Nat} (hpc : base + code.length ≤ pc) :
      (if pc < base + code.length then state pc else state' pc) = state' pc :=
    if_neg (Nat.not_lt.mpr hpc)
  have hseam {pc : Nat} (hpc : pc ≤ base + code.length) :
      (if pc < base + code.length then state pc else state' pc) ≤ state pc := by
    rcases Nat.lt_or_eq_of_le hpc with hlt | rfl
    · exact (hlow hlt).le
    · rw [hhigh le_rfl]
      exact hentry'
  refine ⟨fun pc ↦ if pc < base + code.length then state pc else state' pc,
    (hseam (Nat.le_add_right ..)).trans hentry, ?_, fun i instr hi ↦ ?_⟩
  · rw [List.length_append, ← Nat.add_assoc]
    exact hhigh (Nat.le_add_right ..)
  rw [List.length_append]
  dsimp only
  rcases Nat.lt_or_ge i code.length with hlt | hge
  · rw [List.getElem?_append_left hlt] at hi
    rw [hlow (Nat.add_lt_add_left hlt base)]
    refine ⟨(hstates i instr hi).1, fun t ht ↦ ?_⟩
    refine ((hstates i instr hi).2 t ht).imp_left fun ⟨hle, hle', hstate⟩ ↦ ?_
    exact ⟨hle, by omega, (hseam hle').trans hstate⟩
  · obtain ⟨j, rfl⟩ := Nat.exists_eq_add_of_le hge
    rw [List.getElem?_append_right hge, Nat.add_sub_cancel_left] at hi
    rw [← Nat.add_assoc, hhigh (Nat.le_add_right ..)]
    refine ⟨(hstates' j instr hi).1, fun t ht ↦ ?_⟩
    refine ((hstates' j instr hi).2 t ht).imp_left fun ⟨hle, hle', hstate⟩ ↦ ?_
    rw [hhigh hle]
    exact ⟨by omega, by omega, hstate⟩

/-- The second piece is at `base'`. -/
theorem appendAt {base' : Nat} (h : isa.Flows ext base code s m)
    (h' : isa.Flows ext base' code' m s') (hbase : base' = base + code.length) :
    isa.Flows ext base (code ++ code') s s' :=
  h.append (hbase ▸ h')

/-- One instruction. Where it does not lead to the next one, any state will do there. -/
theorem single (hok : isa.ok instr s) (hnext : ∀ t ∈ isa.successors base instr,
      t = base + 1 ∧ s' ≤ isa.after instr s ∨ ext t (isa.after instr s)) :
    isa.Flows ext base [instr] s s' := by
  refine ⟨fun pc ↦ if pc = base then s else s', (if_pos rfl).le, if_neg (Nat.succ_ne_self base),
    fun i instr' hi ↦ ?_⟩
  obtain ⟨hlt, rfl⟩ := List.getElem?_eq_some_iff.mp hi
  obtain rfl : i = 0 := Nat.lt_one_iff.mp hlt
  dsimp only [List.getElem_singleton]
  rw [Nat.add_zero, if_pos rfl]
  refine ⟨hok, fun t ht ↦ (hnext t ht).imp_left ?_⟩
  rintro ⟨rfl, hle⟩
  rw [if_neg (Nat.succ_ne_self base)]
  exact ⟨Nat.le_succ base, le_rfl, hle⟩

/-- Labels for the entry and the exit of the code. -/
theorem close (ext' : Labels σ) (h : isa.Flows ext' base code s s')
    (hext : ∀ t d, ext' t d → ext t d ∨ t = base ∧ s ≤ d ∨ t = base + code.length ∧ s' ≤ d) :
    isa.Flows ext base code s s' := by
  obtain ⟨state, hentry, rfl, hstates⟩ := h
  refine ⟨state, hentry, rfl, fun i instr hi ↦ ⟨(hstates i instr hi).1, fun t ht ↦ ?_⟩⟩
  rcases (hstates i instr hi).2 t ht with hinside | houtside
  · exact .inl hinside
  · rcases hext t _ houtside with houtside | ⟨rfl, hle⟩ | ⟨rfl, hle⟩
    · exact .inr houtside
    · exact .inl ⟨le_rfl, Nat.le_add_right .., hentry.trans hle⟩
    · exact .inl ⟨Nat.le_add_right .., le_rfl, hle⟩

/-- Code without jumps to the outside stays inside when its last instruction leads nowhere. -/
theorem exists_closed (h : isa.Flows (fun _ _ ↦ False) base code s s') (hok : isa.ok instr s')
    (hlast : isa.successors (base + code.length) instr = []) :
    ∃ state : Nat → σ, state base ≤ s ∧ ∀ (i : Nat) (instr' : ι), (code ++ [instr])[i]? = some instr' →
      isa.ok instr' (state (base + i)) ∧ ∀ t ∈ isa.successors (base + i) instr',
        base ≤ t ∧ t < base + (code ++ [instr]).length ∧
          state t ≤ isa.after instr' (state (base + i)) := by
  obtain ⟨state, hentry, rfl, hstates⟩ := h
  refine ⟨state, hentry, fun i instr' hi ↦ ?_⟩
  rw [List.length_append, List.length_singleton]
  rcases Nat.lt_or_ge i code.length with hlt | hge
  · rw [List.getElem?_append_left hlt] at hi
    refine ⟨(hstates i instr' hi).1, fun t ht ↦ ?_⟩
    obtain ⟨hle, hle', hstate⟩ := ((hstates i instr' hi).2 t ht).resolve_right id
    exact ⟨hle, by omega, hstate⟩
  · rw [List.getElem?_append_right hge] at hi
    obtain ⟨hzero, rfl⟩ := List.getElem?_eq_some_iff.mp hi
    obtain rfl : i = code.length := by
      rw [List.length_singleton] at hzero
      omega
    rw [List.getElem_singleton, hlast]
    exact ⟨hok, fun t ht ↦ absurd ht List.not_mem_nil⟩

end Isa.Flows

end FlowTyping
