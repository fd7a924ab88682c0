import Mathlib.Tactic.Ring
import MiniLang.Bytecode.Verified
import MiniLang.Lib.LongestChain

/-!
# The call graph of the verifier

The edges `verify` collects are the calls in the code it reaches, and `maxFrameDepth` measures the
graph they form: it finds the number of functions on a longest chain of calls from `main`, and none
exactly when a cycle can be reached.

## Edges

An edge is recorded when a call is visited. A state once set at an instruction is only lowered,
never removed, so an edge recorded early belongs to an instruction that has a state in the end; and
at the end every instruction with a state is settled, its call recorded. The edges are exactly the
calls at instructions with a state.

## The search

The search remembers the depths of functions that are done, and the functions on the path from the
root to the one that is being visited. `Known` says that the remembered depths are those of longest
chains. `VisitPost` and `ChildrenPost` are what a visit and the loop over its callees come to: a
depth, with the memory extended, or none because there is a cycle through a function below. The
mutual recursion is taken apart in two lemmas that assume the other half for less fuel, and
`search_spec` closes the circle. The fuel decreases with the functions that are not on the path.
-/

namespace MiniLang

namespace Verifier

open LongestChain

variable {program : CompiledProgram} {range : FunctionRange} {pc : Nat} {s : LoopState}

/-! ## The edges -/

/-- The function `caller` calls `callee` in code that the verifier reaches. -/
def Calls (program : CompiledProgram) (caller callee : Nat) : Prop :=
  ∃ range ∈ ranges program, range.id = caller ∧ ∃ (pc : Nat) (st : AbstractState)
    (instr : Instruction), (verifyFunction program range).states pc = some st ∧
      program.instructions[pc]? = some instr ∧ instr.opcode = .call ∧ asUsize instr.arg1 = callee

/-- Every edge collected so far belongs to an instruction with a state. -/
def EdgesReached (program : CompiledProgram) (range : FunctionRange) (s : LoopState) : Prop :=
  ∀ edge ∈ s.callEdges, ∃ (pc : Nat) (st : AbstractState) (instr : Instruction),
    s.states pc = some st ∧ program.instructions[pc]? = some instr ∧ edge ∈ callEdges range instr

theorem callEdges_propagate (range : FunctionRange) (pc : Nat) (st : AbstractState)
    (s : LoopState) (succ : Nat) : (propagate range pc st s succ).callEdges = s.callEdges := by
  rw [propagate]
  split
  · split
    · split
      · rfl
      · dsimp only
        split <;> rfl
    · rfl
  · rfl

theorem callEdges_foldl_propagate (range : FunctionRange) (pc : Nat) (st : AbstractState)
    (succs : List Nat) (s : LoopState) :
    (succs.foldl (propagate range pc st) s).callEdges = s.callEdges := by
  induction succs generalizing s with
  | nil => rfl
  | cons succ succs ih => rw [List.foldl_cons, ih, callEdges_propagate]

theorem callEdges_finishStep (range : FunctionRange) (pc : Nat) (s : LoopState) (step : Step) :
    (finishStep range pc s step).callEdges = s.callEdges ++ step.callEdges := by
  rw [finishStep, callEdges_foldl_propagate]
  split <;> rfl

/-- States are only ever lowered. -/
theorem EdgesReached.of_advances {s' : LoopState} (h : EdgesReached program range s)
    (hadv : Advances s s') {edges : List (Nat × Nat)} (hedges : s'.callEdges = s.callEdges ++ edges)
    (hnew : ∀ edge ∈ edges, ∃ (pc : Nat) (st : AbstractState) (instr : Instruction),
      s.states pc = some st ∧ program.instructions[pc]? = some instr ∧
        edge ∈ callEdges range instr) : EdgesReached program range s' := by
  intro edge hedge
  rw [hedges, List.mem_append] at hedge
  obtain ⟨pc, st, instr, hst, hinstr, hmem⟩ := hedge.elim (h edge) (hnew edge)
  obtain ⟨st', hst', -⟩ := hadv.lowered pc st hst
  exact ⟨pc, st', instr, hst', hinstr, hmem⟩

theorem EdgesReached.visit (h : EdgesReached program range s) (pc : Nat) :
    EdgesReached program range (visit program range pc s) := by
  rw [Verifier.visit]
  split
  · cases hst : s.states pc with
    | none => exact h
    | some st =>
      cases hinstr : program.instructions[pc]? with
      | none => exact h
      | some instr =>
        by_cases hok : OperandsOk program range instr ∧ pops instr ≤ st.stackDepth
        · simp only [run_stepInstruction hok.1 hok.2]
          obtain ⟨s', heq, hadv, hstates, hworklist, -⟩ := finishStep_eq range pc
            { s with
              reachable := if pc ∈ s.reachable then s.reachable else pc :: s.reachable
              maxStackDepth := max s.maxStackDepth st.stackDepth
              diagnostics := s.diagnostics.addTraps (recordedTraps pc instr st) }
            ⟨after instr st, successors pc instr, callEdges range instr⟩
          have hedges := callEdges_finishStep range pc
            { s with
              reachable := if pc ∈ s.reachable then s.reachable else pc :: s.reachable
              maxStackDepth := max s.maxStackDepth st.stackDepth
              diagnostics := s.diagnostics.addTraps (recordedTraps pc instr st) }
            ⟨after instr st, successors pc instr, callEdges range instr⟩
          rw [heq] at hedges ⊢
          refine EdgesReached.of_advances (s := { s with
              reachable := if pc ∈ s.reachable then s.reachable else pc :: s.reachable
              maxStackDepth := max s.maxStackDepth st.stackDepth
              diagnostics := s.diagnostics.addTraps (recordedTraps pc instr st) }) h
            (hadv.trans (advances_foldl_propagate ..).1) hedges fun edge hedge ↦ ?_
          exact ⟨pc, st, instr, hst, hinstr, hedge⟩
        · obtain ⟨d', hrun, -⟩ := fails_stepInstruction pc hok s.diagnostics
          simp only [hrun]
          exact h
  · exact h

theorem EdgesReached.loop {fuel : Nat} (h : EdgesReached program range s) :
    EdgesReached program range (loop program range fuel s) := by
  induction fuel generalizing s with
  | zero => exact h
  | succ fuel ih =>
    rw [Verifier.loop]
    split
    · exact h
    · next pc rest _ => exact ih (EdgesReached.visit (s := { s with worklist := rest }) h pc)

theorem mem_callEdges {instr : Instruction} {caller callee : Nat} :
    (caller, callee) ∈ callEdges range instr ↔
      range.id = caller ∧ instr.opcode = .call ∧ asUsize instr.arg1 = callee := by
  rw [callEdges]
  split
  · next hop => simp [hop, eq_comm]
  · next hop => simp [hop]

/-- **The edges are the calls in reached code.** -/
theorem mem_callGraph (hvalid : (verify program).valid = true) {caller callee : Nat} :
    (caller, callee) ∈ callGraph program ↔ Calls program caller callee := by
  constructor
  · intro h
    obtain ⟨range, hrange, hedge⟩ := List.mem_flatMap.mp h
    have hinit : EdgesReached program range (initialLoop range) :=
      fun edge hedge ↦ absurd hedge List.not_mem_nil
    obtain ⟨pc, st, instr, hst, hinstr, hmem⟩ := hinit.loop _ hedge
    obtain ⟨hid, hop, harg⟩ := mem_callEdges.mp hmem
    exact ⟨range, hrange, hid, pc, st, instr, hst, hinstr, hop, harg⟩
  · rintro ⟨range, hrange, hid, pc, st, instr, hst, hinstr, hop, harg⟩
    have herrors : (verify program).errors = [] := List.isEmpty_iff.mp hvalid
    rw [errors_verify, List.append_eq_nil_iff, functionRanges_eq_nil] at herrors
    obtain ⟨⟨-, hfunctions⟩, hchecks⟩ := herrors
    obtain ⟨-, -, hlt, hstop⟩ := mem_ranges hfunctions hrange
    have hcert := verifyFunction_certified hlt hstop
      (List.flatMap_eq_nil_iff.mp hchecks range hrange)
    obtain ⟨instr', hinstr', -, -, -, -, -, hedges⟩ := hcert.step pc st hst
    obtain rfl := Option.some_inj.mp (hinstr.symm.trans hinstr')
    exact List.mem_flatMap.mpr
      ⟨range, hrange, hedges _ (mem_callEdges.mpr ⟨hid, hop, harg⟩)⟩

/-! ## The depth-first search -/

section Search

variable {callees : Nat → List Nat} {root : Nat} {limit : Nat}

/-- The depths that are known are right. -/
def Known (callees : Nat → List Nat) (s : DepthState) : Prop :=
  ∀ f depth, s.memo f = some depth →
    ∃ n, depth = some n ∧ IsLongest (fun f g ↦ g ∈ callees f) f n

/-- `limit` bounds the callees of a function, and the functions with callees. -/
structure Limited (callees : Nat → List Nat) (limit : Nat) : Prop where
  length_le : ∀ f, (callees f).length ≤ limit
  callers : ∀ fs : List Nat, fs.Nodup → (∀ f ∈ fs, callees f ≠ []) → fs.length ≤ limit

/-- The search gets to `f` in the state `s`. -/
structure Entered (callees : Nat → List Nat) (root f : Nat) (s : DepthState) : Prop where
  known : Known callees s
  visiting : Visiting (fun f g ↦ g ∈ callees f) root f s.visiting
  nodup : s.visiting.Nodup
  callers : ∀ g ∈ s.visiting, callees g ≠ []

/-- What the visit of `f` in the state `s` comes to. -/
def VisitPost (callees : Nat → List Nat) (root f : Nat) (s : DepthState) :
    Option Nat × DepthState → Prop
  | (none, _) => ReachesCycle (fun f g ↦ g ∈ callees f) root
  | (some n, s') => IsLongest (fun f g ↦ g ∈ callees f) f n ∧ Known callees s' ∧
      s'.visiting = s.visiting

/-- What the loop over `fs` in the state `s` comes to when it has found `depth` before. -/
def ChildrenPost (callees : Nat → List Nat) (root : Nat) (fs : List Nat) (depth : Nat)
    (s : DepthState) : Option Nat × DepthState → Prop
  | (none, _) => ReachesCycle (fun f g ↦ g ∈ callees f) root
  | (some n, s') => depth ≤ n ∧
      (∀ f ∈ fs, ∃ m ≤ n, IsLongest (fun f g ↦ g ∈ callees f) f m) ∧
      (n = depth ∨ ∃ f ∈ fs, IsLongest (fun f g ↦ g ∈ callees f) f n) ∧
      Known callees s' ∧ s'.visiting = s.visiting

/-- Fuel for the visits below `count` functions that are being visited. -/
def searchFuel (limit count : Nat) : Nat := (limit + 1 - count) * (limit + 2)

theorem searchFuel_succ {count : Nat} (h : count + 1 ≤ limit) :
    searchFuel limit count = searchFuel limit (count + 1) + limit + 2 := by
  rw [searchFuel, searchFuel, show limit + 1 - count = limit + 1 - (count + 1) + 1 by omega]
  ring

theorem Known.update {s : DepthState} (h : Known callees s) {f n : Nat}
    (hn : IsLongest (fun f g ↦ g ∈ callees f) f n) (visiting : List Nat) :
    Known callees ⟨visiting, Function.update s.memo f (some (some n))⟩ := by
  intro g depth hg
  have hg : Function.update s.memo f (some (some n)) g = some depth := hg
  by_cases heq : g = f
  · subst heq
    rw [Function.update_self] at hg
    exact ⟨n, (Option.some_inj.mp hg).symm, hn⟩
  · rw [Function.update_of_ne heq] at hg
    exact h g depth hg

theorem Entered.of_post {s s' : DepthState} {f : Nat} (h : Entered callees root f s)
    (hknown : Known callees s') (hvisiting : s'.visiting = s.visiting) :
    Entered callees root f s' where
  known := hknown
  visiting := hvisiting ▸ h.visiting
  nodup := hvisiting ▸ h.nodup
  callers := hvisiting ▸ h.callers

theorem run_depthChildren (callees : Nat → List Nat) (fuel f : Nat) (fs : List Nat) (depth : Nat)
    (s : DepthState) : (depthChildren callees (fuel + 1) (f :: fs) depth).run s =
      match (depthVisit callees fuel f).run s with
      | (none, s') => (none, s')
      | (some n, s') => (depthChildren callees fuel fs (max depth n)).run s' := by
  rw [depthChildren, StateT.run_bind]
  generalize (depthVisit callees fuel f).run s = r
  obtain ⟨n | n, s'⟩ := r <;> rfl

theorem run_get_bind (s : DepthState) (x : DepthState → StateM DepthState (Option Nat)) :
    (get >>= x).run s = (x s).run s := rfl

theorem run_depthVisit_known (callees : Nat → List Nat) (fuel : Nat) {f : Nat} {s : DepthState}
    {depth : Option Nat} (hmemo : s.memo f = some depth) :
    (depthVisit callees (fuel + 1) f).run s = (depth, s) := by
  rw [depthVisit, run_get_bind, hmemo]
  rfl

theorem run_depthVisit_again (callees : Nat → List Nat) (fuel : Nat) {f : Nat} {s : DepthState}
    (hmemo : s.memo f = none) (hmem : f ∈ s.visiting) :
    (depthVisit callees (fuel + 1) f).run s =
      (none, { s with memo := Function.update s.memo f (some none) }) := by
  rw [depthVisit, run_get_bind, hmemo]
  dsimp only
  rw [if_pos hmem]
  rfl

theorem run_depthVisit (callees : Nat → List Nat) (fuel : Nat) {f : Nat} {s : DepthState}
    (hmemo : s.memo f = none) (hmem : f ∉ s.visiting) :
    (depthVisit callees (fuel + 1) f).run s =
      match (depthChildren callees fuel (callees f) 0).run
        { s with visiting := f :: s.visiting } with
      | (none, s') => (none, s')
      | (some n, s') => (some (n + 1),
          ⟨s'.visiting.erase f, Function.update s'.memo f (some (some (n + 1)))⟩) := by
  rw [depthVisit, run_get_bind, hmemo]
  dsimp only
  rw [if_neg hmem, StateT.run_bind, StateT.run_modify]
  change StateT.run (depthChildren callees fuel (callees f) 0 >>= _) _ = _
  rw [StateT.run_bind]
  generalize (depthChildren callees fuel (callees f) 0).run
    { s with visiting := f :: s.visiting } = r
  obtain ⟨n | n, s'⟩ := r <;> rfl

/-- The loop over the callees of `f`, given that visits with less fuel are right. -/
theorem children_spec {fuel : Nat} {f : Nat}
    (ihVisit : ∀ g s, Entered callees root g s → searchFuel limit s.visiting.length + 1 ≤ fuel →
      VisitPost callees root g s ((depthVisit callees fuel g).run s))
    (ihChildren : ∀ fs depth s, (∀ g ∈ fs, Entered callees root g s) → Known callees s →
      (fs ≠ [] → fs.length + searchFuel limit s.visiting.length + 1 ≤ fuel) →
      ChildrenPost callees root fs depth s ((depthChildren callees fuel fs depth).run s))
    {fs : List Nat} {depth : Nat} {s : DepthState}
    (hentered : ∀ g ∈ f :: fs, Entered callees root g s)
    (hfuel : fs.length + searchFuel limit s.visiting.length + 1 ≤ fuel) :
    ChildrenPost callees root (f :: fs) depth s
      ((depthChildren callees (fuel + 1) (f :: fs) depth).run s) := by
  have hpost := ihVisit f s (hentered f List.mem_cons_self) (by omega)
  rw [run_depthChildren]
  revert hpost
  generalize (depthVisit callees fuel f).run s = r
  -- a cycle found below `f` is the result; else the other callees are visited
  obtain ⟨n | n, s'⟩ := r
  · exact fun hcycle ↦ hcycle
  · rintro ⟨hn, hknown, hvisiting⟩
    have hrest := ihChildren fs (max depth n) s'
      (fun g hg ↦ (hentered g (List.mem_cons_of_mem _ hg)).of_post hknown hvisiting) hknown
      fun _ ↦ by rw [hvisiting]; exact hfuel
    revert hrest
    dsimp only
    generalize (depthChildren callees fuel fs (max depth n)).run s' = r
    obtain ⟨m | m, s''⟩ := r
    · exact fun hcycle ↦ hcycle
    · rintro ⟨hle, hall, hsome, hknown', hvisiting'⟩
      refine ⟨(le_max_left _ _).trans hle, fun g hg ↦ ?_, ?_, hknown', hvisiting'.trans hvisiting⟩
      · rcases List.mem_cons.mp hg with rfl | hg
        · exact ⟨n, (le_max_right _ _).trans hle, hn⟩
        · exact hall g hg
      · rcases hsome with heq | ⟨g, hg, hm⟩
        · rcases le_total depth n with h | h
          · rw [max_eq_right h] at heq
            exact .inr ⟨f, List.mem_cons_self, heq ▸ hn⟩
          · rw [max_eq_left h] at heq
            exact .inl heq
        · exact .inr ⟨g, List.mem_cons_of_mem _ hg, hm⟩

/-- A visit of `f`, given that loops over callees with less fuel are right. -/
theorem visit_spec (hlimit : Limited callees limit) {fuel : Nat} {f : Nat} {s : DepthState}
    (ihChildren : ∀ fs depth s, (∀ g ∈ fs, Entered callees root g s) → Known callees s →
      (fs ≠ [] → fs.length + searchFuel limit s.visiting.length + 1 ≤ fuel) →
      ChildrenPost callees root fs depth s ((depthChildren callees fuel fs depth).run s))
    (hs : Entered callees root f s) (hfuel : searchFuel limit s.visiting.length + 1 ≤ fuel + 1) :
    VisitPost callees root f s ((depthVisit callees (fuel + 1) f).run s) := by
  cases hmemo : s.memo f with
  | some depth =>
    obtain ⟨n, rfl, hn⟩ := hs.known f depth hmemo
    rw [run_depthVisit_known callees fuel hmemo]
    exact ⟨hn, hs.known, rfl⟩
  | none =>
    by_cases hmem : f ∈ s.visiting
    -- `f` is on the path already: a cycle
    · rw [run_depthVisit_again callees fuel hmemo hmem]
      exact hs.visiting.reachesCycle hmem
    -- `f` is new, and goes on the path while its callees are visited
    · have hnodup := List.nodup_cons.mpr ⟨hmem, hs.nodup⟩
      have hchildren := ihChildren (callees f) 0 { s with visiting := f :: s.visiting }
        (fun g hg ↦ ⟨hs.known, hs.visiting.next hg, hnodup,
          List.forall_mem_cons.mpr ⟨List.ne_nil_of_mem hg, hs.callers⟩⟩) hs.known
        fun hne ↦ by
          have hcount := hlimit.callers (f :: s.visiting) hnodup
            (List.forall_mem_cons.mpr ⟨hne, hs.callers⟩)
          have hstep := searchFuel_succ hcount
          have hlength := hlimit.length_le f
          rw [List.length_cons]
          omega
      rw [run_depthVisit callees fuel hmemo hmem]
      revert hchildren
      generalize (depthChildren callees fuel (callees f) 0).run
        { s with visiting := f :: s.visiting } = r
      obtain ⟨n | n, s'⟩ := r
      · exact fun hcycle ↦ hcycle
      · rintro ⟨-, hall, hsome, hknown, hvisiting⟩
        have hlongest : IsLongest (fun f g ↦ g ∈ callees f) f (n + 1) := .succ hall hsome
        refine ⟨hlongest, hknown.update hlongest _, ?_⟩
        change s'.visiting.erase f = s.visiting
        rw [hvisiting, List.erase_cons_head]

/-- **The search is right**, for visits and for loops over callees, by induction on the fuel. -/
theorem search_spec (hlimit : Limited callees limit) (fuel : Nat) :
    (∀ f s, Entered callees root f s → searchFuel limit s.visiting.length + 1 ≤ fuel →
      VisitPost callees root f s ((depthVisit callees fuel f).run s)) ∧
    ∀ fs depth s, (∀ g ∈ fs, Entered callees root g s) → Known callees s →
      (fs ≠ [] → fs.length + searchFuel limit s.visiting.length + 1 ≤ fuel) →
      ChildrenPost callees root fs depth s ((depthChildren callees fuel fs depth).run s) := by
  have hnil (fuel depth : Nat) {s : DepthState} (hknown : Known callees s) :
      ChildrenPost callees root [] depth s ((depthChildren callees fuel [] depth).run s) := by
    rw [depthChildren]
    exact ⟨le_rfl, fun _ h ↦ absurd h List.not_mem_nil, .inl rfl, hknown, rfl⟩
  induction fuel with
  | zero =>
    refine ⟨fun f s _ hfuel ↦ absurd hfuel (by omega), fun fs depth s _ hknown hfuel ↦ ?_⟩
    cases fs with
    | nil => exact hnil 0 depth hknown
    | cons g fs => exact absurd (hfuel (List.cons_ne_nil _ _)) (by omega)
  | succ fuel ih =>
    refine ⟨fun f s hs hfuel ↦ visit_spec hlimit ih.2 hs hfuel, fun fs depth s hs hknown hfuel ↦ ?_⟩
    cases fs with
    | nil => exact hnil (fuel + 1) depth hknown
    | cons g fs =>
      have hfuel := hfuel (List.cons_ne_nil _ _)
      rw [List.length_cons] at hfuel
      exact children_spec ih.1 ih.2 hs (by omega)

end Search

/-! ## The depth of the frames -/

variable {edges : List (Nat × Nat)} {f g main n : Nat}

theorem mem_calleesOf : g ∈ calleesOf edges f ↔ (f, g) ∈ edges := by
  rw [calleesOf, List.mem_filterMap]
  constructor
  · rintro ⟨⟨caller, callee⟩, hmem, heq⟩
    split at heq
    · next hcaller =>
      obtain rfl : caller = f := hcaller
      obtain rfl := Option.some_inj.mp heq
      exact hmem
    · cases heq
  · exact fun h ↦ ⟨(f, g), h, if_pos rfl⟩

theorem limited_calleesOf (edges : List (Nat × Nat)) : Limited (calleesOf edges) edges.length where
  length_le _ := List.length_filterMap_le ..
  callers fs hnodup hfs := by
    have hsub : fs ⊆ edges.map Prod.fst := by
      intro f hf
      obtain ⟨g, hg⟩ := List.exists_mem_of_ne_nil _ (hfs f hf)
      exact List.mem_map.mpr ⟨(f, g), mem_calleesOf.mp hg, rfl⟩
    exact (hnodup.subperm hsub).length_le.trans_eq (List.length_map _)

theorem maxFrameDepth_spec (main : Nat) (edges : List (Nat × Nat)) :
    match maxFrameDepth main edges with
    | none => ReachesCycle (fun f g ↦ (f, g) ∈ edges) main
    | some n => IsLongest (fun f g ↦ (f, g) ∈ edges) main n := by
  have hentered : Entered (calleesOf edges) main main ⟨[], fun _ ↦ none⟩ :=
    ⟨nofun, .root, List.nodup_nil, fun _ h ↦ absurd h List.not_mem_nil⟩
  have hfuel : searchFuel edges.length 0 + 1 ≤ 2 * (edges.length + 1) * (edges.length + 2) := by
    rw [searchFuel, Nat.sub_zero, Nat.mul_assoc, Nat.two_mul]
    exact Nat.add_le_add_left (Nat.mul_pos (Nat.succ_pos _) (Nat.succ_pos _)) _
  have hpost := (search_spec (limited_calleesOf edges) _).1 main _ hentered hfuel
  have hcalls : (fun f g ↦ g ∈ calleesOf edges f) = fun f g ↦ (f, g) ∈ edges :=
    funext fun f ↦ funext fun g ↦ propext mem_calleesOf
  rw [maxFrameDepth]
  revert hpost
  generalize (depthVisit (calleesOf edges) (2 * (edges.length + 1) * (edges.length + 2)) main).run
    ⟨[], fun _ ↦ none⟩ = r
  obtain ⟨n | n, s'⟩ := r
  · exact fun h ↦ hcalls ▸ h
  · exact fun h ↦ hcalls ▸ h.1

theorem maxFrameDepth_eq_none :
    maxFrameDepth main edges = none ↔ ReachesCycle (fun f g ↦ (f, g) ∈ edges) main := by
  have hspec := maxFrameDepth_spec main edges
  cases h : maxFrameDepth main edges with
  | none =>
    rw [h] at hspec
    exact iff_of_true rfl hspec
  | some n =>
    rw [h] at hspec
    exact iff_of_false nofun hspec.not_reachesCycle

theorem maxFrameDepth_eq_some :
    maxFrameDepth main edges = some n ↔ IsLongest (fun f g ↦ (f, g) ∈ edges) main n := by
  have hspec := maxFrameDepth_spec main edges
  cases h : maxFrameDepth main edges with
  | none =>
    rw [h] at hspec
    exact iff_of_false nofun fun hn ↦ hn.not_reachesCycle hspec
  | some m =>
    rw [h] at hspec
    rw [Option.some_inj]
    exact ⟨fun heq ↦ heq ▸ hspec, fun hn ↦ hspec.unique hn⟩

/-- The report's frame depth is that of the calls in reached code. -/
theorem maxFrameDepth_verify (program : CompiledProgram) :
    (verify program).maxFrameDepth = maxFrameDepth program.mainFuncId (callGraph program) := by
  rw [verify, callGraph, ranges]
  simp only [List.flatMap_map]

end Verifier

end MiniLang
