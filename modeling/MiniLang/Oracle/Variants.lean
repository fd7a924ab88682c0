import MiniLang.Oracle.Comparison

/-!
# The variants of the oracle that matter

The source traps at a negative index before it evaluates the value that is assigned, and the machine
after it has. On the machine the globals are initialized in the frame of `main`, so that one frame
less is left for the calls of initial values.

Two variants stand between the choices of the source, `early`, and those of the machine, `late`, and
are compared with both:

* `between` refuses to go on at an assignment that shows when its index is checked, and has the
  machine's limits of frames. As long as it does not refuse, the other two end alike, unless a limit
  is in the way.
* `guarded` refuses to go on at a step that might call more deeply on one side than on the other: a
  call of an initial value beyond the machine's limit, or an assignment at a negative index of a
  value that calls functions. As long as it does not refuse, it does what the source does, and the
  call stack overflows with the machine's choices where it does with those of the source.
-/

namespace MiniLang

namespace AstOracle

open MiniLang (maxFrames)

/-- The choices of the source, with a limit of ticks. -/
def early (limit : Nat) : Rules := { source with maxCycles := limit }

/-- The choices of the machine, where `main` takes a frame from the start. -/
def late (limit : Nat) : Rules := ⟨limit, ⟨maxFrames, false⟩, ⟨maxFrames - 1, false⟩, .late⟩

/-- The machine's limits, and a refusal where the two orders could be told apart. -/
def between (limit : Nat) : Rules := ⟨limit, ⟨maxFrames, false⟩, ⟨maxFrames - 1, false⟩, .refuse⟩

/-- A refusal before each step that might call more deeply with one choice than with another. -/
def guarded (limit : Nat) : Rules := ⟨limit, ⟨maxFrames, false⟩, ⟨maxFrames - 1, true⟩, .guard⟩

variable {α β : Type} {e e' : Stop} {oracle oracle' : AstOracle} {limit limit' : Nat}
  {code : TrapCode} {message : String}

theorem Stop.Is.unique {code' : TrapCode} (h : e.Is code) (h' : e.Is code') : code = code' := by
  obtain ⟨message, rfl⟩ := h
  obtain ⟨message', heq⟩ := h'
  exact (Stop.trap.inj heq).1

theorem Stop.Is.ne_refused (h : e.Is code) : e ≠ .refused := by
  obtain ⟨message, rfl⟩ := h
  exact nofun

/-- The check of a negative index has failed. -/
def Stop.Negative (e : Stop) : Prop :=
  ∃ index < (0 : Int), e = .trap .arrayOutOfBounds s!"Array index {index} out of bounds"

theorem Stop.Negative.bounds (h : e.Negative) : e.Is .arrayOutOfBounds := by
  obtain ⟨index, -, rfl⟩ := h
  exact ⟨_, rfl⟩

/-! ## Assignments at a negative index -/

/-- An end of the value that does not show. -/
inductive Hidden (oracle : AstOracle) : EStateM.Result Stop AstOracle Int → Prop
  | ok (value : Int) {oracle' : AstOracle} (h : ¬Shows .arrayOutOfBounds oracle oracle') :
    Hidden oracle (.ok value oracle')
  | trap {code : TrapCode} (message : String) {oracle' : AstOracle} (hcode : code ≠ .cycleLimit)
    (h : ¬Shows code oracle oracle') : Hidden oracle (.error (.trap code message) oracle')

/-- An end of the value that shows. -/
inductive Shown (oracle : AstOracle) : EStateM.Result Stop AstOracle Int → Prop
  | ok (value : Int) {oracle' : AstOracle} (h : Shows .arrayOutOfBounds oracle oracle') :
    Shown oracle (.ok value oracle')
  | trap {code : TrapCode} (message : String) {oracle' : AstOracle} (hcode : code ≠ .cycleLimit)
    (h : Shows code oracle oracle') : Shown oracle (.error (.trap code message) oracle')
  | refused (oracle' : AstOracle) : Shown oracle (.error .refused oracle')

/-- An end of the value that is the end of the run. -/
inductive Stop.Closes : Stop → Prop
  | cycleLimit (message : String) : Closes (.trap .cycleLimit message)
  | panic : Closes .panic
  | outOfFuel : Closes .outOfFuel

/-- An assignment that refuses to choose, at a negative index. -/
inductive Refusal (x : OracleM Int) (oracle : AstOracle) : Prop
  | hidden (h : Hidden oracle (x.run oracle))
    (hrun : (refuseShown x).run oracle = .ok () oracle)
  | shown (h : Shown oracle (x.run oracle))
    (hrun : (refuseShown x).run oracle = .error .refused oracle)
  | closes {e : Stop} (h : e.Closes) (oracle' : AstOracle) (hx : x.run oracle = .error e oracle')
    (hrun : (refuseShown x).run oracle = .error e oracle')

theorem refusal_cases (x : OracleM Int) (oracle : AstOracle) :
    Refusal x oracle := by
  have hrun : (refuseShown x).run oracle = refuseShown x oracle := rfl
  rw [refuseShown] at hrun
  cases hx : x.run oracle with
  | ok value oracle' =>
    rw [hx] at hrun
    dsimp only at hrun
    split at hrun
    · next h => exact .shown (hx ▸ .ok value h) hrun
    · next h => exact .hidden (hx ▸ .ok value h) hrun
  | error e oracle' =>
    rw [hx] at hrun
    cases e with
    | trap code message =>
      dsimp only at hrun
      split at hrun
      · next hcode =>
        subst hcode
        exact .closes (.cycleLimit message) oracle' hx hrun
      · next hcode =>
        split at hrun
        · next h => exact .shown (hx ▸ .trap message hcode h) hrun
        · next h => exact .hidden (hx ▸ .trap message hcode h) hrun
    | panic => exact .closes .panic oracle' hx hrun
    | refused => exact .shown (hx ▸ .refused oracle') hrun
    | outOfFuel => exact .closes .outOfFuel oracle' hx hrun

/-- The check of a negative index. -/
theorem checkedArrayIndex_bind {index : Int} (h : index < 0) (f : Nat → OracleM α) :
    (checkedArrayIndex index >>= f) =
      trap .arrayOutOfBounds s!"Array index {index} out of bounds" := by
  rw [checkedArrayIndex, if_pos h]
  rfl

theorem checkedArrayIndex_bind_pure {index : Int} (h : ¬index < 0) (f : Nat → OracleM α) :
    (checkedArrayIndex index >>= f) = f index.toNat := by
  rw [checkedArrayIndex, if_neg h, pure_bind]

/-- An assignment that refuses to choose, at a negative index: the value does not show. -/
theorem run_hidden {value : OracleM Int} {index : Int} (h : index < 0) (f : Nat → OracleM α)
    (hrun : (refuseShown value).run oracle = .ok () oracle) :
    (do refuseShown value; let index ← checkedArrayIndex index; f index).run oracle =
      .error (.trap .arrayOutOfBounds s!"Array index {index} out of bounds") oracle := by
  rw [EStateM.run_bind, hrun]
  dsimp only
  rw [checkedArrayIndex_bind h]
  rfl

theorem run_shown {value : OracleM Int} {index : Int} (f : Nat → OracleM α)
    (hrun : (refuseShown value).run oracle = .error e oracle') :
    (do refuseShown value; let index ← checkedArrayIndex index; f index).run oracle =
      .error e oracle' := by
  rw [EStateM.run_bind, hrun]

/-! ## The source and the variant between -/

/-- Where the variant between refuses, or ends with the value, the source traps. -/
def earlyTolerance (limit limit' : Nat) : Tolerance where
  alike e oracle e' oracle' := e = .panic ∧ e' = .panic ∨
    (∃ code, e.Is code ∧ e'.Is code ∧ oracle.output = oracle'.output) ∨
    e.Negative ∧ (e' = .refused ∧ oracle.output = oracle'.output ∨
      e' = .panic ∨ e'.Is .cycleLimit)
  left e := e = .outOfFuel ∨ limit < limit' ∧ e.Is .cycleLimit
  right e := e = .outOfFuel ∨ e.Is .stackOverflow
  alike_trap code message _ := .inr (.inl ⟨code, ⟨message, rfl⟩, ⟨message, rfl⟩, rfl⟩)
  alike_panic _ := .inl ⟨rfl, rfl⟩
  left_outOfFuel := .inl rfl
  right_outOfFuel := .inl rfl

theorem early_element {target : String} {calls : Bool} {index index' value value' : OracleM Int}
    (hindex : Compares (earlyTolerance limit limit') index index')
    (hvalue : Compares (earlyTolerance limit limit') value value') :
    Compares (earlyTolerance limit limit') (assignElement .early target calls index value)
      (assignElement .refuse target calls index' value') := by
  refine .bind hindex fun a ↦ ?_
  by_cases ha : a < 0
  · rw [if_pos ha, checkedArrayIndex_bind ha]
    intro oracle
    change Alike _ _ (.error _ oracle) _
    have hnegative : Stop.Negative
        (.trap .arrayOutOfBounds s!"Array index {a} out of bounds") := ⟨a, ha, rfl⟩
    have hbounds := hnegative.bounds
    rcases refusal_cases value' oracle with ⟨-, hrun⟩ | ⟨-, hrun⟩ | ⟨hcloses, oracle', -, hrun⟩
    · rw [run_hidden ha _ hrun]
      exact .error (.inr (.inl ⟨_, hbounds, hbounds, rfl⟩)) (List.prefix_refl _) nofun
    · rw [run_shown _ hrun]
      exact .error (.inr (.inr ⟨hnegative, .inl ⟨rfl, rfl⟩⟩)) (List.prefix_refl _)
        fun _ ↦ List.prefix_refl _
    · rw [run_shown _ hrun]
      cases hcloses with
      | cycleLimit message =>
        exact .error (.inr (.inr ⟨hnegative, .inr (.inr ⟨message, rfl⟩)⟩)) (List.prefix_refl _) nofun
      | panic => exact .error (.inr (.inr ⟨hnegative, .inr (.inl rfl)⟩)) (List.prefix_refl _) nofun
      | outOfFuel => exact .right (earlyTolerance ..).right_outOfFuel oracle' _
  · rw [if_neg ha]
    exact .bind (compares_checkedArrayIndex a) fun i ↦
      .bind hvalue fun b ↦ compares_assignArray target i b

theorem early_comparable (hlimit : limit ≤ limit') :
    Comparable (earlyTolerance limit limit') (early limit) (between limit') where
  tick := compares_tick hlimit fun hne message ↦ .inr ⟨by
    have hne : limit' ≠ limit := hne
    omega, message, rfl⟩
  frames := FrameLimit.comparable_self maxFrames
  initFrames := .inr ⟨Nat.sub_le maxFrames 1, .inr ⟨_, rfl⟩⟩
  element _ _ _ _ _ _ hindex hvalue _ := early_element hindex hvalue

/-! ## The machine's choices and the variant between -/

/-- Where the variant between refuses, it shows that the value has been evaluated. -/
def lateTolerance : Tolerance where
  alike e oracle e' oracle' := e = .panic ∧ e' = .panic ∨ ∃ code, e.Is code ∧
    (e'.Is code ∧ oracle.output = oracle'.output ∨
      e' = .refused ∧ code ≠ .cycleLimit ∧ Shows code oracle' oracle ∧
        oracle'.output <+: oracle.output)
  left e := e = .outOfFuel
  right e := e = .outOfFuel
  alike_trap code message _ := .inr ⟨code, ⟨message, rfl⟩, .inl ⟨⟨message, rfl⟩, rfl⟩⟩
  alike_panic _ := .inl ⟨rfl, rfl⟩
  left_outOfFuel := rfl
  right_outOfFuel := rfl

/-- What shows after less output shows after more. -/
theorem Shows.mono {before : AstOracle} (h : Shows code oracle' oracle)
    (hbefore : before.output <+: oracle'.output) (houtput : oracle'.output <+: oracle.output) :
    Shows code before oracle := by
  rintro ⟨hcode, hsame⟩
  refine h ⟨hcode, ?_⟩
  rw [hsame] at houtput ⊢
  exact hbefore.eq_of_length_le houtput.length_le

/-- A value that does not show. -/
theorem alike_hidden (he : e.Is code) (he' : e'.Is .arrayOutOfBounds)
    (h : ¬Shows code oracle oracle') : lateTolerance.alike e oracle' e' oracle := by
  obtain ⟨rfl, houtput⟩ := not_not.mp h
  exact .inr ⟨_, he, .inl ⟨he', houtput⟩⟩

/-- A value that shows. -/
theorem alike_shown (he : e.Is code) (hcode : code ≠ .cycleLimit)
    (h : Shows code oracle oracle') (houtput : oracle.output <+: oracle'.output) :
    lateTolerance.alike e oracle' .refused oracle :=
  .inr ⟨code, he, .inr ⟨rfl, hcode, h, houtput⟩⟩

/-- An assignment at a negative index. -/
theorem late_negative {value value' : OracleM Int} (hvalue : Compares lateTolerance value value')
    {bounds : Stop} (hbounds : bounds.Is .arrayOutOfBounds) :
    Compares lateTolerance (do let _ ← value; throw bounds : OracleM Unit)
      (do refuseShown value'; throw bounds) := by
  intro oracle
  rw [EStateM.run_bind, EStateM.run_bind]
  have halike := hvalue oracle
  -- what the value does decides whether the refusal shows
  have hrefusal := refusal_cases value' oracle
  generalize hx : value.run oracle = r at halike
  generalize hy : value'.run oracle = r' at halike
  cases halike with
  | ok b h =>
    rcases hrefusal with ⟨hhidden, hrun⟩ | ⟨hshown, hrun⟩ | ⟨-, _, hclosed, -⟩
    -- the value has shown nothing, so both trap at the index
    · rw [hy] at hhidden
      rw [hrun]
      cases hhidden with
      | ok _ hshows =>
        exact .error (alike_hidden hbounds hbounds hshows) h fun _ ↦ List.prefix_refl _
    -- the value has printed or trapped: one variant refuses, the other goes on to the index
    · rw [hy] at hshown
      rw [hrun]
      cases hshown with
      | ok _ hshows => exact .error (alike_shown hbounds (by decide) hshows h) h fun _ ↦ List.prefix_refl _
    · rw [hy] at hclosed
      cases hclosed
  | @error e e' o o' halike hleft hright =>
    dsimp only
    rcases hrefusal with ⟨hhidden, hrun⟩ | ⟨hshown, hrun⟩ | ⟨hcloses, _, hclosed, hrun⟩
    · rw [hy] at hhidden
      rw [hrun]
      cases hhidden with
      | @trap code message _ hcode hshows =>
        rcases halike with ⟨-, ⟨⟩⟩ | ⟨code', he, ⟨he', houtput⟩ | ⟨⟨⟩, -⟩⟩
        obtain rfl := he'.unique ⟨message, rfl⟩
        refine .error (alike_hidden he hbounds ?_) hleft fun _ ↦ List.prefix_refl _
        rwa [Shows, houtput]
    · rw [hy] at hshown
      rw [hrun]
      cases hshown with
      | @trap code message _ hcode hshows =>
        rcases halike with ⟨-, ⟨⟩⟩ | ⟨code', he, ⟨he', houtput⟩ | ⟨⟨⟩, -⟩⟩
        obtain rfl := he'.unique ⟨message, rfl⟩
        refine .error (alike_shown he hcode ?_ hleft) hleft fun _ ↦ List.prefix_refl _
        rwa [Shows, houtput]
      | refused =>
        rcases halike with ⟨-, ⟨⟩⟩ | ⟨code', he, ⟨⟨_, ⟨⟩⟩, -⟩ | ⟨-, hlimit, hshows, houtput⟩⟩
        exact .error (alike_shown he hlimit (hshows.mono (hright rfl) houtput) hleft) hleft
          fun _ ↦ List.prefix_refl _
    -- the value itself ends in a way that is passed on
    · rw [hy] at hclosed
      cases hclosed
      rw [hrun]
      exact .error halike hleft hright
  | left h o r' => exact .left h o _
  | right h o r =>
    obtain rfl : _ = Stop.outOfFuel := h
    rcases hrefusal with ⟨hhidden, -⟩ | ⟨hshown, -⟩ | ⟨-, _, hclosed, hrun⟩
    · rw [hy] at hhidden
      cases hhidden
    · rw [hy] at hshown
      cases hshown
    · rw [hy] at hclosed
      cases hclosed
      rw [hrun]
      exact .right rfl _ _

theorem late_element {target : String} {calls : Bool} {index index' value value' : OracleM Int}
    (hindex : Compares lateTolerance index index')
    (hvalue : Compares lateTolerance value value') :
    Compares lateTolerance (assignElement .late target calls index value)
      (assignElement .refuse target calls index' value') := by
  refine .bind hindex fun a ↦ ?_
  by_cases ha : a < 0
  · rw [if_pos ha]
    simp only [checkedArrayIndex_bind ha]
    exact late_negative hvalue ⟨_, rfl⟩
  · rw [if_neg ha]
    simp only [checkedArrayIndex_bind_pure ha]
    exact .bind hvalue fun b ↦ compares_assignArray target a.toNat b

theorem late_comparable : Comparable lateTolerance (late limit) (between limit) where
  tick := compares_tick le_rfl fun hne ↦ absurd rfl hne
  frames := FrameLimit.comparable_self maxFrames
  initFrames := FrameLimit.comparable_self (maxFrames - 1)
  element _ _ _ _ _ _ hindex hvalue _ := late_element hindex hvalue

/-! ## More ticks -/

/-- A run that is not cut off does not change with more ticks. -/
def longerTolerance : Tolerance where
  alike e oracle e' oracle' := e = e' ∧ oracle = oracle'
  left e := e = .outOfFuel ∨ e.Is .cycleLimit
  right e := e = .outOfFuel
  alike_trap _ _ _ := ⟨rfl, rfl⟩
  alike_panic _ := ⟨rfl, rfl⟩
  left_outOfFuel := .inl rfl
  right_outOfFuel := rfl

theorem refuseShown_congr {x y : OracleM Int} (h : x.run oracle = y.run oracle) :
    (refuseShown x).run oracle = (refuseShown y).run oracle := by
  have hx : (refuseShown x).run oracle = refuseShown x oracle := rfl
  have hy : (refuseShown y).run oracle = refuseShown y oracle := rfl
  rw [hx, hy, refuseShown, refuseShown, h]

theorem longer_refuseShown {value value' : OracleM Int} (h : Compares longerTolerance value value') :
    Compares longerTolerance (refuseShown value) (refuseShown value') := by
  intro oracle
  have halike := h oracle
  generalize hx : value.run oracle = r at halike
  generalize hy : value'.run oracle = r' at halike
  -- the same end of the value
  have hsame (heq : r = r') (hstart : ∀ e o, r = .error e o → oracle.output <+: o.output) :
      Alike longerTolerance oracle.output ((refuseShown value).run oracle)
        ((refuseShown value').run oracle) := by
    rw [← refuseShown_congr (hx.trans (heq.trans hy.symm))]
    rcases refusal_cases value oracle with ⟨-, hrun⟩ | ⟨-, hrun⟩ | ⟨-, o, hclosed, hrun⟩
    · rw [hrun]
      exact .ok () (List.prefix_refl _)
    · rw [hrun]
      exact .error ⟨rfl, rfl⟩ (List.prefix_refl _) fun _ ↦ List.prefix_refl _
    · have houtput := hstart _ o (hx.symm.trans hclosed)
      rw [hrun]
      exact .error ⟨rfl, rfl⟩ houtput fun _ ↦ houtput
  cases halike with
  | ok b h => exact hsame rfl fun e o heq ↦ nomatch heq
  | error halike hleft hright =>
    obtain ⟨rfl, rfl⟩ := halike
    refine hsame rfl fun e o heq ↦ ?_
    cases heq
    exact hleft
  | left hleft o _ =>
    have hclosed := refusal_cases value oracle
    rcases hclosed with ⟨hhidden, -⟩ | ⟨hshown, -⟩ | ⟨-, o', hclosed, hrun⟩
    · rw [hx] at hhidden
      cases hhidden with
      | trap message hcode =>
        rcases hleft with ⟨⟨⟩⟩ | ⟨_, ⟨⟩⟩
        exact absurd rfl hcode
    · rw [hx] at hshown
      cases hshown with
      | trap message hcode =>
        rcases hleft with ⟨⟨⟩⟩ | ⟨_, ⟨⟩⟩
        exact absurd rfl hcode
      | refused => rcases hleft with ⟨⟨⟩⟩ | ⟨_, ⟨⟩⟩
    · rw [hrun]
      rw [hx] at hclosed
      cases hclosed
      exact .left hleft _ _
  | right hright o _ =>
    obtain rfl : _ = Stop.outOfFuel := hright
    rcases refusal_cases value' oracle with ⟨hhidden, -⟩ | ⟨hshown, -⟩ | ⟨-, o', hclosed, hrun⟩
    · rw [hy] at hhidden
      cases hhidden
    · rw [hy] at hshown
      cases hshown
    · rw [hrun]
      rw [hy] at hclosed
      cases hclosed
      exact .right rfl _ _

theorem longer_comparable (h : limit ≤ limit') :
    Comparable longerTolerance (between limit) (between limit') where
  tick := compares_tick h fun _ message ↦ .inr ⟨message, rfl⟩
  frames := FrameLimit.comparable_self maxFrames
  initFrames := FrameLimit.comparable_self (maxFrames - 1)
  element target _ index index' value value' hindex hvalue _ := by
    refine .bind hindex fun a ↦ ?_
    have hrest := Compares.bind (compares_checkedArrayIndex (T := longerTolerance) a) fun i ↦
      .bind hvalue fun b ↦ compares_assignArray target i b
    exact .ite (.bind (longer_refuseShown hvalue) fun _ ↦ hrest) hrest

/-! ## Guarded steps -/

end AstOracle

end MiniLang
