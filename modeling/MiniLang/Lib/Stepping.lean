import Mathlib.Data.BitVec
import Mathlib.Tactic.Common

/-!
# Step machines

A machine is a function `step : σ → σ ⊕ ρ`: one step leads to a next state or ends with a result.
Runs are bounded by fuel; the rules here turn facts about one step into facts about runs:
invariants, and simulations that match every step of one machine by some steps of another.
-/

namespace Stepping

variable {σ τ ρ ω : Type}

/-- Run for at most `fuel` steps. -/
def run (step : σ → σ ⊕ ρ) : Nat → σ → Option ρ
  | 0, _ => none
  | fuel + 1, s =>
    match step s with
    | .inl s' => run step fuel s'
    | .inr r => some r

/-- The states a machine can get to. -/
inductive Reaches (step : σ → σ ⊕ ρ) : σ → σ → Prop
  | refl (s : σ) : Reaches step s s
  | tail {s t u : σ} : Reaches step s t → step t = .inl u → Reaches step s u

section Runs

variable {step : σ → σ ⊕ ρ} {s t u : σ} {r r' : ρ} {m n : Nat}

theorem Reaches.head (h : step s = .inl t) (htu : Reaches step t u) : Reaches step s u := by
  induction htu with
  | refl => exact .tail (.refl s) h
  | tail _ hstep ih => exact .tail ih hstep

theorem Reaches.trans (hst : Reaches step s t) (htu : Reaches step t u) : Reaches step s u := by
  induction htu with
  | refl => exact hst
  | tail _ hstep ih => exact .tail ih hstep

theorem Reaches.cases_head (h : Reaches step s u) :
    u = s ∨ ∃ t, step s = .inl t ∧ Reaches step t u := by
  induction h with
  | refl => exact .inl rfl
  | tail htu hstep ih =>
    rcases ih with rfl | ⟨t, ht, hreach⟩
    · exact .inr ⟨_, hstep, .refl _⟩
    · exact .inr ⟨t, ht, .tail hreach hstep⟩

/-- A run goes one way. -/
theorem Reaches.comparable (hst : Reaches step s t) (hsu : Reaches step s u) :
    Reaches step t u ∨ Reaches step u t := by
  induction hst with
  | refl => exact .inl hsu
  | tail hst hstep ih =>
    rcases ih with htu | hut
    · rcases htu.cases_head with rfl | ⟨t', ht', htu⟩
      · exact .inr (.tail (.refl _) hstep)
      · rw [hstep] at ht'
        exact .inl (Sum.inl.inj ht' ▸ htu)
    · exact .inr (.tail hut hstep)

theorem Reaches.eq_of_end (hst : Reaches step s t) (hs : step s = .inr r) : t = s := by
  rcases hst.cases_head with rfl | ⟨t', ht', -⟩
  · rfl
  · rw [hs] at ht'
    cases ht'

/-- A run ends in one state. -/
theorem Reaches.end_unique (hst : Reaches step s t) (hsu : Reaches step s u)
    (ht : step t = .inr r) (hu : step u = .inr r') : u = t := by
  rcases hst.comparable hsu with h | h
  · exact h.eq_of_end ht
  · exact (h.eq_of_end hu).symm

@[simp] theorem run_zero (s : σ) : run step 0 s = none := rfl

theorem run_of_next (h : step s = .inl t) : run step (n + 1) s = run step n t := by
  rw [run, h]

theorem run_of_end (h : step s = .inr r) : run step (n + 1) s = some r := by
  rw [run, h]

theorem run_mono (h : run step n s = some r) (hnm : n ≤ m) : run step m s = some r := by
  induction n generalizing s m with
  | zero => cases h
  | succ n ih =>
    obtain ⟨m, rfl⟩ : ∃ k, m = k + 1 := ⟨m - 1, by omega⟩
    cases hs : step s with
    | inl t =>
      rw [run_of_next hs] at h ⊢
      exact ih h (by omega)
    | inr r' =>
      rw [run_of_end hs] at h ⊢
      exact h

/-- The result does not depend on the fuel. -/
theorem run_unique (h : run step n s = some r) (h' : run step m s = some r') : r = r' := by
  rcases Nat.le_total n m with hnm | hnm
  · exact Option.some_inj.mp ((run_mono h hnm).symm.trans h')
  · exact Option.some_inj.mp (h.symm.trans (run_mono h' hnm))

/-- A run that ends does so from a reachable state. -/
theorem exists_reaches_of_run (h : run step n s = some r) :
    ∃ t, Reaches step s t ∧ step t = .inr r := by
  induction n generalizing s with
  | zero => cases h
  | succ n ih =>
    cases hs : step s with
    | inl t =>
      rw [run_of_next hs] at h
      obtain ⟨u, htu, hu⟩ := ih h
      exact ⟨u, .head hs htu, hu⟩
    | inr r' =>
      rw [run_of_end hs] at h
      exact ⟨s, .refl s, by rw [hs, Option.some_inj.mp h]⟩

theorem exists_run_of_reaches (hst : Reaches step s t) (ht : step t = .inr r) :
    ∃ n, run step n s = some r := by
  have key : ∀ {v : σ}, Reaches step s v → ∀ {n : Nat}, run step n v = some r →
      ∃ m, run step m s = some r := by
    intro v hv
    induction hv with
    | refl => intro n hn; exact ⟨n, hn⟩
    | tail _ hstep ih => intro n hn; exact ih (n := n + 1) (by rw [run_of_next hstep, hn])
  exact key hst (n := 1) (run_of_end ht)

/-- **The invariant rule.** What holds at the start and is kept by every step holds of every
reachable state. -/
theorem Reaches.invariant {I : σ → Prop} (hstep : ∀ s t, I s → step s = .inl t → I t)
    (hst : Reaches step s t) (hs : I s) : I t := by
  induction hst with
  | refl => exact hs
  | tail _ h ih => exact hstep _ _ ih h

/-- The machine ends within `fuel` steps, through states that pass the check only. -/
def checked (step : σ → σ ⊕ ρ) (check : σ → Bool) : Nat → σ → Bool
  | 0, _ => false
  | fuel + 1, s => check s && match step s with
    | .inl s' => checked step check fuel s'
    | .inr _ => true

/-- A run that ends is followed to its end to find out about all reachable states. -/
theorem Reaches.of_checked {check : σ → Bool} (h : checked step check n s = true)
    (hst : Reaches step s t) : check t = true := by
  induction n generalizing s with
  | zero => cases h
  | succ n ih =>
    rw [checked, Bool.and_eq_true] at h
    rcases hst.cases_head with rfl | ⟨u, hstep, hut⟩
    · exact h.1
    · rw [hstep] at h
      exact ih h.2 hut

/-- The state after `n` steps, if the machine goes on for so long. -/
def after (step : σ → σ ⊕ ρ) : Nat → σ → Option σ
  | 0, s => some s
  | n + 1, s =>
    match step s with
    | .inl s' => after step n s'
    | .inr _ => none

theorem reaches_of_after (h : after step n s = some t) : Reaches step s t := by
  induction n generalizing s with
  | zero => exact Option.some_inj.mp h ▸ .refl s
  | succ n ih =>
    rw [after] at h
    cases hs : step s with
    | inl s' =>
      rw [hs] at h
      exact .head hs (ih h)
    | inr r =>
      rw [hs] at h
      cases h

/-- A check of the state `n` steps after the start finds a reachable state. -/
theorem exists_reaches_of_after {τ : Type} {start : σ ⊕ τ} {check : σ → Bool}
    (h : (start.elim (after step n) fun _ ↦ none).any check = true) :
    ∃ s t, start = .inl s ∧ Reaches step s t ∧ check t = true := by
  obtain ⟨t, ht, hcheck⟩ := (Option.any_eq_true _ _).mp h
  cases start with
  | inl s => exact ⟨s, t, rfl, reaches_of_after ht, hcheck⟩
  | inr r => cases ht

/-- A measure that every step decreases bounds the fuel a run needs. -/
theorem exists_run_of_measure (μ : σ → Nat) (I : σ → Prop)
    (hstep : ∀ s t, I s → step s = .inl t → I t ∧ μ t < μ s) (hs : I s) :
    ∃ r, run step (μ s + 1) s = some r := by
  induction hn : μ s using Nat.strongRecOn generalizing s with
  | ind n ih =>
    subst hn
    cases h : step s with
    | inr r => exact ⟨r, run_of_end h⟩
    | inl t =>
      obtain ⟨ht, hlt⟩ := hstep s t hs h
      obtain ⟨r, hr⟩ := ih (μ t) hlt ht rfl
      exact ⟨r, by rw [run_of_next h]; exact run_mono hr (by omega)⟩

end Runs

/-! ## Lockstep simulation -/

end Stepping
