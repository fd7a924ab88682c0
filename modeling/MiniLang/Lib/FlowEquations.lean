import Mathlib.Data.BitVec
import Mathlib.Data.Set.Basic
import Mathlib.Logic.Function.Basic
import Mathlib.Order.Bounds.Basic

/-!
# Flow equations

Equations for the states of a data-flow analysis. A partial assignment gives a state to some nodes;
along the flow, states arrive at other nodes, and each node's state is to be the meet of what
arrives there. A node where nothing arrives has no state, which counts as the top of the order. An
assignment that covers what arrives, and is above every other one that does, is the greatest
solution of the equations, and there is only one.
-/

namespace FlowEquations

variable {ν σ : Type*}

/-- What arrives at a node from outside, and what a node in a given state sends to another. -/
structure System (ν σ : Type*) where
  entry : ν → σ → Prop
  flow : ν → σ → ν → σ → Prop

/-- `y` arrives at `n` when the nodes are in the states `S`. -/
def Arrives (E : System ν σ) (S : ν → Option σ) (n : ν) (y : σ) : Prop :=
  E.entry n y ∨ ∃ m x, S m = some x ∧ E.flow m x n y

variable [PartialOrder σ] {E : System ν σ} {S T : ν → Option σ} {n : ν} {y : σ}

/-- Lower states send lower ones. -/
def Monotone (E : System ν σ) : Prop :=
  ∀ ⦃m x x' n y⦄, E.flow m x n y → x' ≤ x → ∃ y' ≤ y, E.flow m x' n y'

/-- Where `S` has a state, `T` has one that is not above it. -/
def Below (T S : ν → Option σ) : Prop := ∀ n x, S n = some x → ∃ y ≤ x, T n = some y

/-- The state of a node is not above anything that arrives there. -/
def Covers (E : System ν σ) (S : ν → Option σ) : Prop :=
  ∀ n y, Arrives E S n y → ∃ x ≤ y, S n = some x

/-- `S` solves the equations: each state is the meet of what arrives. -/
structure Solves (E : System ν σ) (S : ν → Option σ) : Prop where
  unreached : ∀ n, S n = none → ∀ y, ¬Arrives E S n y
  reached : ∀ n x, S n = some x → ∃ y, Arrives E S n y
  meet : ∀ n x, S n = some x → IsGLB {y | Arrives E S n y} x

/-- `S` is the greatest solution. -/
structure IsGreatest (E : System ν σ) (S : ν → Option σ) : Prop where
  solves : Solves E S
  greatest : ∀ T, Solves E T → Below T S

theorem Solves.covers (h : Solves E S) : Covers E S := by
  intro n y hy
  cases hn : S n with
  | none => exact absurd hy (h.unreached n hn y)
  | some x => exact ⟨x, (h.meet n x hn).1 hy, rfl⟩

theorem Below.antisymm (h : Below S T) (h' : Below T S) : S = T := by
  funext n
  cases hS : S n with
  | none =>
    cases hT : T n with
    | none => rfl
    | some y =>
      obtain ⟨x, -, hx⟩ := h n y hT
      rw [hS] at hx
      cases hx
  | some x =>
    obtain ⟨y, hyx, hT⟩ := h' n x hS
    obtain ⟨x', hxy, hS'⟩ := h n y hT
    obtain rfl := Option.some_inj.mp (hS.symm.trans hS')
    rw [hT, le_antisymm hyx hxy]

/-- There is one greatest solution. -/
theorem IsGreatest.unique (h : IsGreatest E S) (h' : IsGreatest E T) : S = T :=
  Below.antisymm (h'.greatest S h.solves) (h.greatest T h'.solves)

/-- What arrives above a covering assignment is covered by it. -/
theorem Below.of_arrives (hmono : Monotone E) (hT : Covers E T) (h : Below T S)
    (hy : Arrives E S n y) : ∃ t ≤ y, T n = some t := by
  rcases hy with hentry | ⟨m, x, hx, hflow⟩
  · exact hT n y (.inl hentry)
  · obtain ⟨x', hle, hx'⟩ := h m x hx
    obtain ⟨y', hy', hflow'⟩ := hmono hflow hle
    obtain ⟨t, ht, hn⟩ := hT n y' (.inr ⟨m, x', hx', hflow'⟩)
    exact ⟨t, ht.trans hy', hn⟩

/-- Raising the state of one node keeps an assignment covering, as long as the new state is not
above anything that arrives. -/
theorem Covers.update [DecidableEq ν] (hmono : Monotone E) (hS : Covers E S) {x : Option σ}
    (hle : ∀ z, x = some z → ∃ w ≤ z, S n = some w)
    (hx : ∀ y, Arrives E S n y → ∃ z ≤ y, x = some z) : Covers E (Function.update S n x) := by
  have hbelow : Below S (Function.update S n x) := by
    intro m z hz
    by_cases hm : m = n
    · subst hm
      rw [Function.update_self] at hz
      exact hle z hz
    · rw [Function.update_of_ne hm] at hz
      exact ⟨z, le_rfl, hz⟩
  intro m y hy
  by_cases hm : m = n
  · subst hm
    rw [Function.update_self]
    rcases hy with hentry | ⟨k, w, hw, hflow⟩
    · exact hx y (.inl hentry)
    · obtain ⟨w', hle', hw'⟩ := hbelow k w hw
      obtain ⟨y', hy', hflow'⟩ := hmono hflow hle'
      obtain ⟨z, hz, hxz⟩ := hx y' (.inr ⟨k, w', hw', hflow'⟩)
      exact ⟨z, hz.trans hy', hxz⟩
  · rw [Function.update_of_ne hm]
    exact hbelow.of_arrives hmono hS hy

/-- **The greatest covering assignment is the greatest solution.** -/
theorem isGreatest_of_covers [DecidableEq ν] (hmono : Monotone E)
    (hmeet : ∀ A : Set σ, A.Nonempty → BddBelow A → ∃ g, IsGLB A g) (hS : Covers E S)
    (h : ∀ T, Covers E T → Below T S) : IsGreatest E S := by
  have hreached : ∀ n x, S n = some x → ∃ y, Arrives E S n y := by
    intro n x hx
    by_contra hnone
    have hcovers : Covers E (Function.update S n none) :=
      hS.update hmono nofun fun y hy ↦ absurd ⟨y, hy⟩ hnone
    obtain ⟨y, -, hy⟩ := h _ hcovers n x hx
    rw [Function.update_self] at hy
    cases hy
  refine ⟨⟨fun n hn y hy ↦ ?_, hreached, fun n x hx ↦ ?_⟩, fun T hT ↦ h T hT.covers⟩
  · obtain ⟨x, -, hx⟩ := hS n y hy
    rw [hn] at hx
    cases hx
  · have hlower : x ∈ lowerBounds {y | Arrives E S n y} := by
      intro y hy
      obtain ⟨x', hle, hx'⟩ := hS n y hy
      obtain rfl := Option.some_inj.mp (hx.symm.trans hx')
      exact hle
    obtain ⟨g, hg⟩ := hmeet _ (hreached n x hx) ⟨x, hlower⟩
    have hxg : x ≤ g := hg.2 hlower
    have hcovers : Covers E (Function.update S n (some g)) := by
      refine hS.update hmono (fun z hz ↦ ?_) fun y hy ↦ ⟨g, hg.1 hy, rfl⟩
      obtain rfl := Option.some_inj.mp hz
      exact ⟨x, hxg, hx⟩
    obtain ⟨z, hle, hz⟩ := h _ hcovers n x hx
    rw [Function.update_self] at hz
    obtain rfl := Option.some_inj.mp hz
    rwa [le_antisymm hxg hle]

end FlowEquations
