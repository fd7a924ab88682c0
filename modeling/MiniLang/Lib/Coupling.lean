import MiniLang.Lib.StateExcept
import MiniLang.Lib.Stepping

/-!
# Two computations side by side

A relational triple for computations that may stop early. The first computation is the
specification: wherever it goes, the second one goes along, so that related states lead to related
outcomes. A specification may also stop for a reason that leaves the second computation free; this
is how it says that it need not be followed from there.

The relations before and after are independent of each other, so that a step may break a relation
between the states that a later step restores. The rules take the two computations apart together,
or one of them alone where only that one has something to do.
-/

namespace EStateM

variable {ε σ τ α β γ δ : Type}

/-- Matching outcomes: both end normally within `Q`, or both stop for the same reason within `E`.
Nothing is asked where the first one stops for a reason that is `free`. -/
def Result.Matches (free : ε → Prop) (Q : α → β → σ → τ → Prop) (E : σ → τ → Prop) :
    Result ε σ α → Result ε τ β → Prop
  | .ok a s, .ok b t => Q a b s t
  | .error e s, .error e' t => free e ∨ e = e' ∧ E s t
  | .error e _, .ok _ _ => free e
  | .ok _ _, .error _ _ => False

/-- `y` follows `x` from states related by `P`. -/
def Follows (free : ε → Prop) (E : σ → τ → Prop) (P : σ → τ → Prop) (x : EStateM ε σ α)
    (y : EStateM ε τ β) (Q : α → β → σ → τ → Prop) : Prop :=
  ∀ s t, P s t → (x.run s).Matches free Q E (y.run t)

variable {free : ε → Prop} {E P P' : σ → τ → Prop} {Q Q' : α → β → σ → τ → Prop}
  {R : γ → δ → σ → τ → Prop} {x : EStateM ε σ α} {y : EStateM ε τ β} {f : α → EStateM ε σ γ}
  {g : β → EStateM ε τ δ} {a : α} {b : β} {e : ε}

namespace Result

theorem Matches.mono {r : Result ε σ α} {r' : Result ε τ β} (h : r.Matches free Q E r')
    (hQ : ∀ a b s t, Q a b s t → Q' a b s t) : r.Matches free Q' E r' := by
  cases r with
  | ok a s =>
    cases r' with
    | ok b t => exact hQ a b s t h
    | error e t => exact h
  | error e s =>
    cases r' with
    | ok b t => exact h
    | error e' t => exact h

theorem matches_of_free {s : σ} {r : Result ε τ β} (h : free e) :
    (Result.error e s : Result ε σ α).Matches free Q E r := by
  cases r with
  | ok b t => exact h
  | error e' t => exact .inl h

/-- What matches a normal end. -/
theorem Matches.ok_inv {s : σ} {r : Result ε τ β} (h : (Result.ok a s).Matches free Q E r) :
    ∃ b t, r = .ok b t ∧ Q a b s t := by
  cases r with
  | ok b t => exact ⟨b, t, rfl, h⟩
  | error e t => exact h.elim

/-- What matches a stop that has to be followed. -/
theorem Matches.error_inv {s : σ} {r : Result ε τ β} (hfree : ¬free e)
    (h : (Result.error e s : Result ε σ α).Matches free Q E r) : ∃ t, r = .error e t ∧ E s t := by
  cases r with
  | ok b t => exact absurd h hfree
  | error e' t =>
    obtain ⟨rfl, hE⟩ := Or.resolve_left h hfree
    exact ⟨t, rfl, hE⟩

/-- A step of the first computation alone. -/
theorem Matches.bind_left {s s' : σ} {r : Result ε τ β} {f : α → EStateM ε σ γ}
    {Q : γ → β → σ → τ → Prop} (hx : x.run s = .ok a s') (h : ((f a).run s').Matches free Q E r) :
    ((x >>= f).run s).Matches free Q E r := by
  rw [run_bind, hx]
  exact h

/-- A step of the second computation alone. -/
theorem Matches.bind_right {t t' : τ} {r : Result ε σ α} {g : β → EStateM ε τ δ}
    {Q : α → δ → σ → τ → Prop} (hy : y.run t = .ok b t') (h : r.Matches free Q E ((g b).run t')) :
    r.Matches free Q E ((y >>= g).run t) := by
  rw [run_bind, hy]
  exact h

/-- The first computation gives up. -/
theorem matches_bind_of_free {s s' : σ} {r : Result ε τ β} {f : α → EStateM ε σ γ}
    {Q : γ → β → σ → τ → Prop} (hx : x.run s = .error e s') (h : free e) :
    ((x >>= f).run s).Matches free Q E r := by
  rw [run_bind, hx]
  exact matches_of_free h

end Result

namespace Follows

theorem pure (h : ∀ s t, P s t → Q a b s t) :
    Follows free E P (Pure.pure a) (Pure.pure b) Q :=
  fun s t hst ↦ h s t hst

theorem stop (h : ∀ s t, P s t → E s t) :
    Follows free E P (throw e : EStateM ε σ α) (throw e : EStateM ε τ β) Q :=
  fun s t hst ↦ .inr ⟨rfl, h s t hst⟩

/-- The specification gives up. -/
theorem giveUp (h : free e) : Follows free E P (throw e) y Q :=
  fun _ _ _ ↦ Result.matches_of_free h

theorem bind (hx : Follows free E P x y Q)
    (hf : ∀ a b, Follows free E (Q a b) (f a) (g b) R) :
    Follows free E P (x >>= f) (y >>= g) R := by
  intro s t hst
  have h := hx s t hst
  rw [run_bind, run_bind]
  cases hr : x.run s with
  | ok a s' =>
    rw [hr] at h
    obtain ⟨b, t', hr', hQ⟩ := h.ok_inv
    rw [hr']
    exact hf a b s' t' hQ
  | error e s' =>
    rw [hr] at h
    by_cases hfree : free e
    · exact Result.matches_of_free hfree
    · obtain ⟨t', hr', hE⟩ := h.error_inv hfree
      rw [hr']
      exact .inr ⟨rfl, hE⟩

theorem consequence (hx : Follows free E P x y Q) (hP : ∀ s t, P' s t → P s t)
    (hQ : ∀ a b s t, Q a b s t → Q' a b s t) : Follows free E P' x y Q' :=
  fun s t hst ↦ (hx s t (hP s t hst)).mono hQ

/-- The other computation does something with the value it returns. -/
theorem map_right {h : β → δ} {T : α → δ → σ → τ → Prop} (hx : Follows free E P x y Q)
    (hT : ∀ a b s t, Q a b s t → T a (h b) s t) :
    Follows free E P x (do return h (← y)) T := by
  rw [← bind_pure x]
  exact hx.bind fun a b ↦ pure fun s t hst ↦ hT a b s t hst

theorem weaken (hx : Follows free E P x y Q) (hP : ∀ s t, P' s t → P s t) :
    Follows free E P' x y Q :=
  hx.consequence hP fun _ _ _ _ ↦ id

/-- What the relation says of the values only. -/
theorem assuming {p : Prop} (h : p → Follows free E P x y Q) :
    Follows free E (fun s t ↦ p ∧ P s t) x y Q :=
  fun s t hst ↦ h hst.1 s t hst.2

theorem ite {p q : Prop} [Decidable p] [Decidable q] {x' : EStateM ε σ α} {y' : EStateM ε τ β}
    (hpq : p ↔ q) (h : p → Follows free E P x y Q) (h' : ¬p → Follows free E P x' y' Q) :
    Follows free E P (if p then x else x') (if q then y else y') Q := by
  by_cases hp : p
  · rw [if_pos hp, if_pos (hpq.mp hp)]
    exact h hp
  · rw [if_neg hp, if_neg (mt hpq.mpr hp)]
    exact h' hp

/-! ### The state -/

theorem get_bind {f : σ → EStateM ε σ α} {g : τ → EStateM ε τ β}
    (h : ∀ s t, P s t → Follows free E (fun s' t' ↦ s' = s ∧ t' = t) (f s) (g t) Q) :
    Follows free E P (get >>= f) (get >>= g) Q :=
  fun s t hst ↦ h s t hst s t ⟨rfl, rfl⟩

/-! ### One computation alone -/

/-- The specification looks at its state, or gives up. -/
theorem reads_left {z : EStateM ε σ α} {f : α → EStateM ε σ γ} {y : EStateM ε τ δ}
    (hz : ∀ s t, P s t → (∃ a, z.run s = .ok a s) ∨ ∃ e s', z.run s = .error e s' ∧ free e)
    (hf : ∀ a, Follows free E P (f a) y R) : Follows free E P (z >>= f) y R := by
  intro s t hst
  rcases hz s t hst with ⟨a, hrun⟩ | ⟨e, s', hrun, hfree⟩
  · exact .bind_left hrun (hf a s t hst)
  · exact Result.matches_bind_of_free hrun hfree

/-- The other computation looks at its state. -/
theorem reads_right {z : EStateM ε τ β} {x : EStateM ε σ γ} {g : β → EStateM ε τ δ}
    (hz : ∀ s t, P s t → z.run t = .ok b t) (hg : Follows free E P x (g b) R) :
    Follows free E P x (z >>= g) R := by
  intro s t hst
  exact .bind_right (hz s t hst) (hg s t hst)

end Follows

end EStateM

/-! ## Runs -/

namespace Stepping

variable {σ τ ρ ω : Type}

/-- If related states step to related states, or end with related results, the runs of two machines
end alike. Nothing is asked of the second machine from where the first one ends with a result that
is `free`. -/
theorem run_follows {step : σ → σ ⊕ ρ} {step' : τ → τ ⊕ ω} {R : σ → τ → Prop} {E : ρ → ω → Prop}
    {free : ρ → Prop}
    (hstep : ∀ s t, R s t →
      (∃ s' t', step s = .inl s' ∧ step' t = .inl t' ∧ R s' t') ∨
      ∃ r, step s = .inr r ∧ (free r ∨ ∃ w, step' t = .inr w ∧ E r w))
    {s : σ} {t : τ} (hR : R s t) (n : Nat) :
    run step n s = none ∧ run step' n t = none ∨
      ∃ r, run step n s = some r ∧ (free r ∨ ∃ w, run step' n t = some w ∧ E r w) := by
  induction n generalizing s t with
  | zero => exact .inl ⟨rfl, rfl⟩
  | succ n ih =>
    rcases hstep s t hR with ⟨s', t', hs, ht, hR'⟩ | ⟨r, hs, hfree | ⟨w, ht, hE⟩⟩
    · rw [run_of_next hs, run_of_next ht]
      exact ih hR'
    · exact .inr ⟨r, run_of_end hs, .inl hfree⟩
    · exact .inr ⟨r, run_of_end hs, .inr ⟨w, run_of_end ht, hE⟩⟩

/-- Then every state that the second machine reaches is related to one that the first machine
reaches, where that never ends with a free result. -/
theorem Reaches.follows {step : σ → σ ⊕ ρ} {step' : τ → τ ⊕ ω} {R : σ → τ → Prop}
    {E : ρ → ω → Prop} {free : ρ → Prop}
    (hstep : ∀ s t, R s t →
      (∃ s' t', step s = .inl s' ∧ step' t = .inl t' ∧ R s' t') ∨
      ∃ r, step s = .inr r ∧ (free r ∨ ∃ w, step' t = .inr w ∧ E r w))
    {s₀ : σ} {t₀ t : τ} (hfree : ∀ s r, Reaches step s₀ s → step s = .inr r → ¬free r)
    (hR : R s₀ t₀) (h : Reaches step' t₀ t) : ∃ s, Reaches step s₀ s ∧ R s t := by
  induction h with
  | refl => exact ⟨s₀, .refl s₀, hR⟩
  | @tail t u _ hnext ih =>
    obtain ⟨s, hs, hst⟩ := ih
    rcases hstep s t hst with ⟨s', u', hs', hu', hsu⟩ | ⟨r, hend, hr | ⟨w, hw, -⟩⟩
    · rw [hnext] at hu'
      exact ⟨s', .tail hs hs', Sum.inl.inj hu' ▸ hsu⟩
    · exact absurd hr (hfree s r hs hend)
    · rw [hnext] at hw
      cases hw

end Stepping
