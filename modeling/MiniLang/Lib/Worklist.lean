import Mathlib.Data.BitVec
import Mathlib.Data.Finset.Card
import Mathlib.Data.Finset.SDiff
import Mathlib.Data.List.Infix
import Mathlib.Logic.Relation
import Mathlib.Tactic.Common

/-!
# Worklist search

A search of a graph from a list of nodes that are still to be visited. Its nodes are the values with
a list of successors; what has none is dropped from the worklist. With enough fuel the search finds
exactly the nodes that can be reached.

## The argument

What has been seen can be reached, since the search only follows edges. For the other direction the
invariant is `Closed`: every successor of a node that was seen has been seen or is still on the
worklist. When the worklist is empty, what was seen is closed under edges.

The fuel pays for each entry of the worklist. A node that is visited adds at most as many entries as
it has successors, and is visited once; so a bound on the number of successors and one on the number
of nodes give the fuel that is enough.
-/

namespace Worklist

variable {α : Type*} {next : α → Option (List α)} {x y : α} {xs work seen : List α}

/-- One can go from `x` to `y` in the graph. -/
def Edge (next : α → Option (List α)) (x y : α) : Prop := ∃ xs, next x = some xs ∧ y ∈ xs

/-- `x` is a node that can be reached from one of `starts`. -/
def Found (next : α → Option (List α)) (starts : List α) (x : α) : Prop :=
  (next x).isSome ∧ ∃ s ∈ starts, Relation.ReflTransGen (Edge next) s x

/-- A property of the starts that goes along the edges holds of all that is found. -/
theorem Found.induction {P : α → Prop} {starts : List α} (h : Found next starts x)
    (hstart : ∀ s ∈ starts, P s) (hedge : ∀ x y, P x → Edge next x y → P y) : P x := by
  obtain ⟨-, s, hs, hpath⟩ := h
  induction hpath with
  | refl => exact hstart s hs
  | tail _ hxy ih => exact hedge _ _ ih hxy

/-! ## Closure -/

/-- Every node that an edge leads to from a seen one is seen or in the worklist. -/
def Closed (next : α → Option (List α)) (work seen : List α) : Prop :=
  ∀ x ∈ seen, ∀ y, Edge next x y → (next y).isSome → y ∈ seen ∨ y ∈ work

theorem Closed.skip (h : Closed next (x :: work) seen) (hx : x ∈ seen ∨ next x = none) :
    Closed next work seen := by
  intro y hy z hyz hz
  rcases h y hy z hyz hz with hmem | hmem
  · exact .inl hmem
  rcases List.mem_cons.mp hmem with rfl | hmem
  · rcases hx with hx | hx
    · exact .inl hx
    · rw [hx] at hz
      cases hz
  · exact .inr hmem

theorem Closed.visit (h : Closed next (x :: work) seen) (hx : next x = some xs) :
    Closed next (xs ++ work) (x :: seen) := by
  intro y hy z hyz hz
  rcases List.mem_cons.mp hy with rfl | hy
  · obtain ⟨ys, hys, hmem⟩ := hyz
    obtain rfl := Option.some_inj.mp (hx.symm.trans hys)
    exact .inr (List.mem_append_left _ hmem)
  · rcases h y hy z hyz hz with hmem | hmem
    · exact .inl (List.mem_cons_of_mem _ hmem)
    rcases List.mem_cons.mp hmem with rfl | hmem
    · exact .inl List.mem_cons_self
    · exact .inr (List.mem_append_right _ hmem)

/-! ## The search -/

section

variable [DecidableEq α]

/-- Visit the nodes of the worklist, the first one first; the nodes seen are in the second list. -/
def sweep (next : α → Option (List α)) : ℕ → List α → List α → List α
  | 0, _, seen => seen
  | _ + 1, [], seen => seen
  | fuel + 1, x :: work, seen =>
    if x ∈ seen then sweep next fuel work seen
    else
      match next x with
      | none => sweep next fuel work seen
      | some xs => sweep next fuel (xs ++ work) (x :: seen)

/-! ## What a step does -/

theorem sweep_seen {fuel : ℕ} (h : x ∈ seen) :
    sweep next (fuel + 1) (x :: work) seen = sweep next fuel work seen := by
  rw [sweep, if_pos h]

theorem sweep_none {fuel : ℕ} (hx : next x = none) :
    sweep next (fuel + 1) (x :: work) seen = sweep next fuel work seen := by
  rw [sweep, hx]
  split <;> rfl

theorem sweep_some {fuel : ℕ} (h : x ∉ seen) (hx : next x = some xs) :
    sweep next (fuel + 1) (x :: work) seen = sweep next fuel (xs ++ work) (x :: seen) := by
  rw [sweep, if_neg h, hx]

/-- The steps of a search: a node is skipped, or visited. -/
theorem sweep_induction (next : α → Option (List α)) {motive : ℕ → List α → List α → Prop}
    (hzero : ∀ work seen, motive 0 work seen)
    (hnil : ∀ fuel seen, motive (fuel + 1) [] seen)
    (hskip : ∀ fuel x work seen, x ∈ seen ∨ next x = none → motive fuel work seen →
      motive (fuel + 1) (x :: work) seen)
    (hvisit : ∀ fuel x work seen xs, x ∉ seen → next x = some xs →
      motive fuel (xs ++ work) (x :: seen) → motive (fuel + 1) (x :: work) seen)
    (fuel : ℕ) (work seen : List α) : motive fuel work seen := by
  induction fuel generalizing work seen with
  | zero => exact hzero work seen
  | succ fuel ih =>
    cases work with
    | nil => exact hnil fuel seen
    | cons x work =>
      by_cases hseen : x ∈ seen
      · exact hskip fuel x work seen (.inl hseen) (ih work seen)
      · cases hx : next x with
        | none => exact hskip fuel x work seen (.inr hx) (ih work seen)
        | some xs => exact hvisit fuel x work seen xs hseen hx (ih _ _)

theorem sweep_skip {fuel : ℕ} (h : x ∈ seen ∨ next x = none) :
    sweep next (fuel + 1) (x :: work) seen = sweep next fuel work seen := by
  rcases h with h | h
  · exact sweep_seen h
  · exact sweep_none h

/-- No node is seen twice. -/
theorem nodup_sweep {fuel : ℕ} (h : seen.Nodup) : (sweep next fuel work seen).Nodup := by
  induction fuel, work, seen using sweep_induction next with
  | hzero => exact h
  | hnil => exact h
  | hskip fuel x work seen hx ih =>
    rw [sweep_skip hx]
    exact ih h
  | hvisit fuel x work seen xs hseen hx ih =>
    rw [sweep_some hseen hx]
    exact ih (List.nodup_cons.mpr ⟨hseen, h⟩)

/-! ## Soundness -/

theorem found_of_mem_sweep {starts : List α} {fuel : ℕ} (hseen : ∀ y ∈ seen, Found next starts y)
    (hwork : ∀ y ∈ work, ∃ s ∈ starts, Relation.ReflTransGen (Edge next) s y)
    (h : x ∈ sweep next fuel work seen) : Found next starts x := by
  induction fuel, work, seen using sweep_induction next with
  | hzero => exact hseen x h
  | hnil => exact hseen x h
  | hskip fuel y work seen hy ih =>
    rw [sweep_skip hy] at h
    exact ih hseen (fun z hz ↦ hwork z (List.mem_cons_of_mem _ hz)) h
  | hvisit fuel y work seen xs hnew hy ih =>
    rw [sweep_some hnew hy] at h
    have hpath := hwork y List.mem_cons_self
    refine ih (List.forall_mem_cons.mpr ⟨⟨by rw [hy]; rfl, hpath⟩, hseen⟩) (fun z hz ↦ ?_) h
    rcases List.mem_append.mp hz with hz | hz
    · obtain ⟨s, hs, hpath⟩ := hpath
      exact ⟨s, hs, hpath.tail ⟨xs, hy, hz⟩⟩
    · exact hwork z (List.mem_cons_of_mem _ hz)

/-! ## Completeness -/

variable {nodes : Finset α} {k : ℕ}

/-- A bound on the steps that are left: each visit of one of `nodes` puts at most `k` on the
worklist. -/
def bound (nodes : Finset α) (k : ℕ) (work seen : List α) : ℕ :=
  work.length + k * (nodes \ seen.toFinset).card

theorem bound_visit (hnodes : x ∈ nodes) (hseen : x ∉ seen) (hk : xs.length ≤ k) :
    bound nodes k (xs ++ work) (x :: seen) < bound nodes k (x :: work) seen := by
  have hmem : x ∈ nodes \ seen.toFinset :=
    Finset.mem_sdiff.mpr ⟨hnodes, fun h ↦ hseen (List.mem_toFinset.mp h)⟩
  have hcard : (nodes \ (x :: seen).toFinset).card + 1 = (nodes \ seen.toFinset).card := by
    rw [List.toFinset_cons, Finset.sdiff_insert, Finset.card_erase_of_mem hmem]
    exact Nat.sub_add_cancel (Finset.card_pos.mpr ⟨x, hmem⟩)
  rw [bound, bound, List.length_append, List.length_cons, ← hcard, Nat.mul_add, Nat.mul_one]
  omega

/-- With enough fuel the search keeps what it has seen, sees the worklist and ends up closed. -/
theorem closed_sweep (hnodes : ∀ x, (next x).isSome → x ∈ nodes)
    (hk : ∀ x xs, next x = some xs → xs.length ≤ k) {fuel : ℕ}
    (hfuel : bound nodes k work seen ≤ fuel) (h : Closed next work seen) :
    Closed next [] (sweep next fuel work seen) ∧ (∀ x ∈ seen, x ∈ sweep next fuel work seen) ∧
      ∀ x ∈ work, (next x).isSome → x ∈ sweep next fuel work seen := by
  induction fuel, work, seen using sweep_induction next with
  | hzero work seen =>
    obtain rfl : work = [] := List.eq_nil_of_length_eq_zero (by rw [bound] at hfuel; omega)
    exact ⟨h, fun _ hx ↦ hx, fun _ hx ↦ absurd hx List.not_mem_nil⟩
  | hnil => exact ⟨h, fun _ hx ↦ hx, fun _ hx ↦ absurd hx List.not_mem_nil⟩
  | hskip fuel x work seen hx ih =>
    rw [bound, List.length_cons] at hfuel
    obtain ⟨hclosed, hseen, hwork⟩ := ih (by rw [bound]; omega) (h.skip hx)
    rw [sweep_skip hx]
    refine ⟨hclosed, hseen, List.forall_mem_cons.mpr ⟨fun hsome ↦ ?_, hwork⟩⟩
    rcases hx with hx | hx
    · exact hseen x hx
    · rw [hx] at hsome
      cases hsome
  | hvisit fuel x work seen xs hnew hx ih =>
    have hmem : x ∈ nodes := hnodes x (by rw [hx]; rfl)
    have hlt := @bound_visit _ x xs work seen _ nodes k hmem hnew (hk x xs hx)
    obtain ⟨hclosed, hseen, hwork⟩ := ih (by omega) (h.visit hx)
    rw [sweep_some hnew hx]
    refine ⟨hclosed, fun y hy ↦ hseen y (List.mem_cons_of_mem _ hy),
      List.forall_mem_cons.mpr ⟨fun _ ↦ hseen x List.mem_cons_self, fun y hy ↦ ?_⟩⟩
    exact hwork y (List.mem_append_right _ hy)

/-- **The search finds exactly what can be reached.** -/
theorem mem_sweep (hnodes : ∀ x, (next x).isSome → x ∈ nodes)
    (hk : ∀ x xs, next x = some xs → xs.length ≤ k) {fuel : ℕ} {starts : List α}
    (hfuel : starts.length + k * nodes.card ≤ fuel) :
    x ∈ sweep next fuel starts [] ↔ Found next starts x := by
  constructor
  · refine found_of_mem_sweep (fun _ h ↦ absurd h List.not_mem_nil) fun y hy ↦ ?_
    exact ⟨y, hy, .refl⟩
  · intro h
    have hbound : bound nodes k starts [] ≤ fuel := by
      rw [bound, List.toFinset_nil, Finset.sdiff_empty]
      exact hfuel
    obtain ⟨hclosed, -, hwork⟩ :=
      closed_sweep hnodes hk hbound fun _ h ↦ absurd h List.not_mem_nil
    have hpath : (next x).isSome → x ∈ sweep next fuel starts [] := by
      refine h.induction hwork fun y z hy hyz hz ↦ ?_
      have hsome : (next y).isSome := by
        obtain ⟨ys, hys, -⟩ := hyz
        rw [hys]
        rfl
      exact (hclosed y (hy hsome) z hyz hz).resolve_right List.not_mem_nil
    exact hpath h.1

end

end Worklist
