import MiniLang.Lib.Stepping

/-!
# Peephole rewriting

A peephole pass goes through straight-line code once, from left to right. Where a rule matches the
code ahead, what it matched is replaced and the pass goes on behind it; elsewhere the next item stays.
The pass looks at the old code only, never at what it has already written.

What a pass does is recorded as a relation between the old code and the new: items that stay, blocks
that are replaced, and anything at all behind an item that control never leaves. Positions correspond
where the rest of the old code is so related to the rest of the new. This is all that a simulation
needs to know, whichever pass it was.

Replaced blocks become shorter, never longer, and so do runs. The last rule of this file compares the
results of two machines of which the second one is at most as slow.
-/

namespace Peephole

variable {ι : Type}

/-! ## The pass -/

/-- Apply `rule` from left to right. At a position, it may replace the items ahead: `some (new, n)`
puts `new` for the first `n` of them. The next `skip` items have been replaced already. The second
component counts the replacements. -/
def scan (rule : Nat → List ι → Option (List ι × Nat)) : Nat → Nat → List ι → List ι × Nat
  | _, _, [] => ([], 0)
  | pos, skip + 1, _ :: code => scan rule (pos + 1) skip code
  | pos, 0, i :: code =>
    match rule pos (i :: code) with
    | some (new, n) =>
      let (result, count) := scan rule (pos + 1) (n - 1) code
      (new ++ result, count + 1)
    | none =>
      let (result, count) := scan rule (pos + 1) 0 code
      (i :: result, count)

/-- The new code for the old. A block that is replaced satisfies `R`, an item that control does not
leave satisfies `stop`. -/
inductive Rewrites (R : List ι → List ι → Prop) (stop : ι → Prop) : List ι → List ι → Prop
  | nil : Rewrites R stop [] []
  | keep (i : ι) {code code' : List ι} :
    Rewrites R stop code code' → Rewrites R stop (i :: code) (i :: code')
  | block {old new code code' : List ι} :
    R old new → Rewrites R stop code code' → Rewrites R stop (old ++ code) (new ++ code')
  | stop {i : ι} {code code' : List ι} : stop i → Rewrites R stop (i :: code) (i :: code')

variable {R : List ι → List ι → Prop} {stop : ι → Prop} {code code' : List ι}
  {rule : Nat → List ι → Option (List ι × Nat)} {pc pc' : Nat}

theorem Rewrites.refl (code : List ι) : Rewrites R stop code code := by
  induction code with
  | nil => exact .nil
  | cons i code ih => exact .keep i ih

/-- More may stop. -/
theorem Rewrites.mono {stop' : ι → Prop} (h : Rewrites R stop code code')
    (hstop : ∀ i, stop i → stop' i) : Rewrites R stop' code code' := by
  induction h with
  | nil => exact .nil
  | keep i _ ih => exact .keep i ih
  | block hR _ ih => exact .block hR ih
  | stop h => exact .stop (hstop _ h)

theorem scan_skip (pos skip : Nat) (code : List ι) :
    scan rule pos skip code = scan rule (pos + skip) 0 (code.drop skip) := by
  induction code generalizing pos skip with
  | nil =>
    rw [List.drop_nil]
    cases skip with
    | zero => rfl
    | succ skip => rfl
  | cons i code ih =>
    cases skip with
    | zero => rfl
    | succ skip => rw [scan, ih, List.drop_succ_cons, Nat.add_right_comm, Nat.add_assoc]

/-- **A pass rewrites the code**, if its rule replaces blocks as `R` says, at least in code whose items
are all `p`. -/
theorem rewrites_scan {p : ι → Prop}
    (hrule : ∀ pos code new n, (∀ i ∈ code, p i) → rule pos code = some (new, n) →
      ∃ old rest, code = old ++ rest ∧ old.length = n ∧ 0 < n ∧ R old new)
    (pos : Nat) (code : List ι) (hp : ∀ i ∈ code, p i) :
    Rewrites R stop code (scan rule pos 0 code).1 := by
  induction hlength : code.length using Nat.strongRecOn generalizing pos code with
  | ind length ih =>
    subst hlength
    cases code with
    | nil => exact .nil
    | cons i code =>
      rw [scan]
      cases hmatch : rule pos (i :: code) with
      | none =>
        exact .keep i (ih _ (Nat.lt_succ_self _) (pos + 1) code
          (fun i hi ↦ hp i (List.mem_cons_of_mem _ hi)) rfl)
      | some replaced =>
        obtain ⟨new, n⟩ := replaced
        obtain ⟨old, rest, heq, hn, hpos, hR⟩ := hrule pos (i :: code) new n hp hmatch
        have hrest : code.drop (n - 1) = rest := by
          obtain ⟨m, rfl⟩ := Nat.exists_eq_succ_of_ne_zero hpos.ne'
          have hdrop := congrArg (List.drop (m + 1)) heq
          rwa [List.drop_succ_cons, List.drop_left' hn] at hdrop
        have hshorter : rest.length < (i :: code).length := by
          rw [heq, List.length_append, hn]
          exact Nat.lt_add_of_pos_left hpos
        rw [heq] at hp
        dsimp only
        rw [scan_skip, hrest, heq]
        exact .block hR (ih _ hshorter _ rest
          (fun i hi ↦ hp i (List.mem_append_right _ hi)) rfl)

/-- What is true of all items stays so, where nothing stops. -/
theorem Rewrites.forall_mem {p : ι → Prop} (h : Rewrites R (fun _ ↦ False) code code')
    (hR : ∀ old new, R old new → ∀ i ∈ new, p i) (hp : ∀ i ∈ code, p i) : ∀ i ∈ code', p i := by
  induction h with
  | nil => exact hp
  | keep i _ ih =>
    intro j hj
    rcases List.mem_cons.mp hj with rfl | hj
    · exact hp j List.mem_cons_self
    · exact ih (fun i hi ↦ hp i (List.mem_cons_of_mem _ hi)) j hj
  | block hold _ ih =>
    intro j hj
    rcases List.mem_append.mp hj with hj | hj
    · exact hR _ _ hold j hj
    · exact ih (fun i hi ↦ hp i (List.mem_append_right _ hi)) j hj
  | stop hstop => exact hstop.elim

/-! ## Positions -/

/-- The rest of the old code from `pc` on became the rest of the new code from `pc'` on. -/
def Meets (R : List ι → List ι → Prop) (stop : ι → Prop) (code code' : List ι) (pc pc' : Nat) :
    Prop :=
  Rewrites R stop (code.drop pc) (code'.drop pc')

theorem Meets.start (h : Rewrites R stop code code') : Meets R stop code code' 0 0 := h

/-- Positions outside of the code. -/
theorem Meets.outside (h : code.length ≤ pc) (h' : code'.length ≤ pc') :
    Meets R stop code code' pc pc' := by
  rw [Meets, List.drop_eq_nil_of_le h, List.drop_eq_nil_of_le h']
  exact .nil

/-- **What is at corresponding positions**: the end of the code, an item that stayed, or a block and
its replacement. -/
theorem Meets.cases (h : Meets R stop code code' pc pc') :
    code[pc]? = none ∧ code'[pc']? = none ∨
    (∃ i, code[pc]? = some i ∧ code'[pc']? = some i ∧
      (stop i ∨ Meets R stop code code' (pc + 1) (pc' + 1))) ∨
    ∃ old new, R old new ∧ old <+: code.drop pc ∧ new <+: code'.drop pc' ∧
      Meets R stop code code' (pc + old.length) (pc' + new.length) := by
  rw [Meets] at h
  rw [← List.head?_drop, ← List.head?_drop]
  generalize hback : code.drop pc = back at h
  generalize hback' : code'.drop pc' = back' at h
  cases h with
  | nil => exact .inl ⟨rfl, rfl⟩
  | @keep i rest rest' hrest =>
    refine .inr (.inl ⟨i, rfl, rfl, .inr ?_⟩)
    rw [Meets, ← List.drop_drop, ← List.drop_drop, hback, hback']
    exact hrest
  | @block old new rest rest' hR hrest =>
    refine .inr (.inr ⟨old, new, hR, List.prefix_append old rest, List.prefix_append new rest', ?_⟩)
    rw [Meets, ← List.drop_drop, ← List.drop_drop, hback, hback', List.drop_left, List.drop_left]
    exact hrest
  | @stop i rest rest' hstop => exact .inr (.inl ⟨i, rfl, rfl, .inl hstop⟩)

/-- The block at a position, item by item. -/
theorem getElem?_of_prefix {i : ι} {block : List ι} (h : i :: block <+: code.drop pc) :
    code[pc]? = some i ∧ block <+: code.drop (pc + 1) := by
  obtain ⟨rest, hrest⟩ := h
  rw [List.cons_append] at hrest
  refine ⟨?_, rest, ?_⟩
  · rw [← List.head?_drop, ← hrest]
    rfl
  · rw [← List.drop_drop, ← hrest]
    rfl

end Peephole

/-! ## Runs that become shorter -/

namespace Stepping

variable {σ τ ρ ω : Type}

/-- From related states the first machine makes some steps, and the second one at most as many, to
related states again, or the first one ends and the second one does so no later. Nothing is asked of
the second machine where the result of the first is `free`. Then it ends wherever the first one ends
with a result that is not free, within the same number of steps. -/
theorem run_shorter {step : σ → σ ⊕ ρ} {step' : τ → τ ⊕ ω} {R : σ → τ → Prop} {E : ρ → ω → Prop}
    {free : ρ → Prop}
    (hstep : ∀ s t, R s t →
      (∃ k j s' t', 0 < k ∧ j ≤ k ∧ (∀ n, run step (n + k) s = run step n s') ∧
        (∀ n, run step' (n + j) t = run step' n t') ∧ R s' t') ∨
      ∃ k r, (∀ n, run step (n + k) s = some r) ∧
        (free r ∨ ∃ w, step' t = .inr w ∧ E r w))
    {s : σ} {t : τ} (hR : R s t) {n : Nat} {r : ρ} (h : run step n s = some r) :
    free r ∨ ∃ w, run step' n t = some w ∧ E r w := by
  induction n using Nat.strongRecOn generalizing s t with
  | ind n ih =>
    rcases hstep s t hR with ⟨k, j, s', t', hpos, hjk, hs, ht, hR'⟩ | ⟨k, r', hs, hend⟩
    · -- a run of fewer steps would not have ended
      have hkn : k ≤ n := by
        by_contra hlt
        have hshort := run_mono h (Nat.le_of_lt (Nat.lt_of_not_le hlt))
        rw [← Nat.zero_add k, hs 0] at hshort
        cases hshort
      obtain ⟨m, rfl⟩ := Nat.exists_eq_add_of_le' hkn
      rw [hs m] at h
      rcases ih m (Nat.lt_add_of_pos_right hpos) hR' h with hfree | ⟨w, hw, hE⟩
      · exact .inl hfree
      · refine .inr ⟨w, run_mono (n := m + j) ?_ (Nat.add_le_add_left hjk m), hE⟩
        rw [ht m]
        exact hw
    · obtain rfl := run_unique (hs 0) h
      rcases hend with hfree | ⟨w, hw, hE⟩
      · exact .inl hfree
      · refine .inr ⟨w, ?_, hE⟩
        cases n with
        | zero => cases h
        | succ n => exact run_of_end hw

end Stepping
