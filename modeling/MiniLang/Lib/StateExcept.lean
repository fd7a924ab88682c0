import Mathlib.Data.BitVec
import Mathlib.Tactic.Common

/-!
# Computations that may stop early

`EStateM ε σ` computations keep their state when they stop. This file adds to the core simp set
the evaluation rule for `throw` at any type, and a partial-correctness triple with separate
postconditions for a normal end and for a stop.
-/

namespace EStateM

variable {ε σ α β : Type}

@[simp] theorem run_throw_any (e : ε) (s : σ) :
    EStateM.run (throw e : EStateM ε σ α) s = .error e s := rfl

/-- A computation that ended normally did so within `Q`, one that stopped within `E`. -/
def Result.Post (Q : α → σ → Prop) (E : ε → σ → Prop) : Result ε σ α → Prop
  | .ok a s => Q a s
  | .error e s => E e s

theorem Result.Post.mono {Q Q' : α → σ → Prop} {E E' : ε → σ → Prop} {r : Result ε σ α}
    (h : r.Post Q E) (hQ : ∀ a s, Q a s → Q' a s) (hE : ∀ e s, E e s → E' e s) : r.Post Q' E' := by
  cases r with
  | ok a s => exact hQ a s h
  | error e s => exact hE e s h

/-- `x`, started in a state satisfying `P`, ends normally within `Q` or stops within `E`. -/
def Triple (P : σ → Prop) (x : EStateM ε σ α) (Q : α → σ → Prop) (E : ε → σ → Prop) : Prop :=
  ∀ s, P s → (x.run s).Post Q E

namespace Triple

variable {P P' : σ → Prop} {Q Q' : α → σ → Prop} {R : β → σ → Prop} {E E' : ε → σ → Prop}
  {x : EStateM ε σ α} {f : α → EStateM ε σ β}

theorem bind (hx : Triple P x Q E) (hf : ∀ a, Triple (Q a) (f a) R E) :
    Triple P (x >>= f) R E := by
  intro s hs
  have h := hx s hs
  rw [run_bind]
  cases hr : x.run s with
  | ok a s' => rw [hr] at h; exact hf a s' h
  | error e s' => rw [hr] at h; exact h

theorem pure {a : α} (h : ∀ s, P s → Q a s) : Triple P (Pure.pure a : EStateM ε σ α) Q E :=
  fun s hs ↦ h s hs

theorem throw {e : ε} (h : ∀ s, P s → E e s) :
    Triple P (MonadExcept.throw e : EStateM ε σ α) Q E :=
  fun s hs ↦ h s hs

theorem consequence (hx : Triple P x Q E) (hP : ∀ s, P' s → P s) (hQ : ∀ a s, Q a s → Q' a s)
    (hE : ∀ e s, E e s → E' e s) : Triple P' x Q' E' := by
  intro s hs
  have h := hx s (hP s hs)
  cases hr : x.run s with
  | ok a s' => rw [hr] at h; exact hQ a s' h
  | error e s' => rw [hr] at h; exact hE e s' h

end Triple

/-! ## Invariants -/

/-- `x` keeps `I`, whether it ends normally or stops. -/
def Keeps (I : σ → Prop) (x : EStateM ε σ α) : Prop := Triple I x (fun _ ↦ I) fun _ ↦ I

namespace Keeps

variable {I : σ → Prop} {x : EStateM ε σ α} {f : α → EStateM ε σ β}

theorem bind (hx : Keeps I x) (hf : ∀ a, Keeps I (f a)) : Keeps I (x >>= f) := Triple.bind hx hf

theorem pure (a : α) : Keeps I (Pure.pure a : EStateM ε σ α) := Triple.pure fun _ hs ↦ hs

theorem throw (e : ε) : Keeps I (MonadExcept.throw e : EStateM ε σ α) := Triple.throw fun _ hs ↦ hs

theorem get_bind {f : σ → EStateM ε σ β} (h : ∀ s, I s → ((f s).run s).Post (fun _ ↦ I) fun _ ↦ I) :
    Keeps I (get >>= f) :=
  fun s hs ↦ h s hs

theorem update {g : σ → σ} (h : ∀ s, I s → I (g s)) :
    Keeps I (modify g : EStateM ε σ PUnit) :=
  fun s hs ↦ h s hs

theorem ite {p : Prop} [Decidable p] {y : EStateM ε σ α} (hx : Keeps I x) (hy : Keeps I y) :
    Keeps I (if p then x else y) := by
  split
  · exact hx
  · exact hy

end Keeps

/-! ## Commutation -/

def Result.mapState (u : σ → σ) : Result ε σ α → Result ε σ α
  | .ok a s => .ok a (u s)
  | .error e s => .error e (u s)

/-- `y` does to a changed state what `x` does to the state itself. -/
def Commutes (u : σ → σ) (x y : EStateM ε σ α) : Prop := ∀ s, y.run (u s) = (x.run s).mapState u

/-- What comes after `x` has to commute only where `x` may end. -/
theorem Commutes.run_bind {u : σ → σ} {x y : EStateM ε σ α} {f g : α → EStateM ε σ β} {s : σ}
    (h : Commutes u x y)
    (hf : ∀ a s', x.run s = .ok a s' → (g a).run (u s') = ((f a).run s').mapState u) :
    (y >>= g).run (u s) = ((x >>= f).run s).mapState u := by
  rw [EStateM.run_bind, EStateM.run_bind, h s]
  cases hx : x.run s with
  | ok a s' => exact hf a s' hx
  | error e s' => rfl

namespace Commutes

variable {u : σ → σ} {x y : EStateM ε σ α} {f g : α → EStateM ε σ β}

theorem bind (h : Commutes u x y) (hf : ∀ a, Commutes u (f a) (g a)) :
    Commutes u (x >>= f) (y >>= g) :=
  fun _ ↦ h.run_bind fun a s' _ ↦ hf a s'

theorem get_bind {f g : σ → EStateM ε σ β} (h : ∀ s, Commutes u (f s) (g (u s))) :
    Commutes u (get >>= f) (get >>= g) :=
  fun s ↦ h s s

theorem modify {p q : σ → σ} (h : ∀ s, q (u s) = u (p s)) :
    Commutes u (modify p : EStateM ε σ PUnit) (modify q) := by
  intro s
  change Result.ok PUnit.unit (q (u s)) = .ok PUnit.unit (u (p s))
  rw [h]

theorem ite {p : Prop} [Decidable p] {x' y' : EStateM ε σ α} (h : Commutes u x y)
    (h' : Commutes u x' y') : Commutes u (if p then x else x') (if p then y else y') := by
  split
  · exact h
  · exact h'

end Commutes

/-! ## Blindness -/

/-- `x` does not see the change `u` of the state, and does not undo it. -/
def Blind (u : σ → σ) (x : EStateM ε σ α) : Prop := ∀ s, x.run (u s) = (x.run s).mapState u

namespace Blind

variable {u : σ → σ} {x : EStateM ε σ α} {f : α → EStateM ε σ β}

theorem bind (hx : Blind u x) (hf : ∀ a, Blind u (f a)) : Blind u (x >>= f) := Commutes.bind hx hf

theorem pure (a : α) : Blind u (Pure.pure a : EStateM ε σ α) := fun _ ↦ rfl

theorem throw (e : ε) : Blind u (MonadExcept.throw e : EStateM ε σ α) := fun _ ↦ rfl

theorem get_bind {f : σ → EStateM ε σ β} (h : ∀ s, f (u s) = f s) (hf : ∀ s, Blind u (f s)) :
    Blind u (get >>= f) :=
  Commutes.get_bind fun s ↦ (h s).symm ▸ hf s

theorem modify {g : σ → σ} (h : ∀ s, g (u s) = u (g s)) :
    Blind u (modify g : EStateM ε σ PUnit) := Commutes.modify h

theorem modifyGet {g : σ → α × σ} (h : ∀ s, g (u s) = ((g s).1, u (g s).2)) :
    Blind u (modifyGet g : EStateM ε σ α) := by
  intro s
  change Result.ok (g (u s)).1 (g (u s)).2 = .ok (g s).1 (u (g s).2)
  rw [h]

/-- A computation keeps what it does not see. -/
theorem post (h : Blind u x) {s : σ} (hs : u s = s) :
    (x.run s).Post (fun _ s' ↦ u s' = s') fun _ s' ↦ u s' = s' := by
  have hrun := h s
  rw [hs] at hrun
  cases hr : x.run s with
  | ok a s' =>
    rw [hr] at hrun
    exact (Result.ok.inj hrun).2.symm
  | error e s' =>
    rw [hr] at hrun
    exact (Result.error.inj hrun).2.symm

theorem ite {p : Prop} [Decidable p] {y : EStateM ε σ α} (hx : Blind u x) (hy : Blind u y) :
    Blind u (if p then x else y) := Commutes.ite hx hy

end Blind

end EStateM
