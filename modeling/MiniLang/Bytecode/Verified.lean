import MiniLang.Bytecode.Fixpoint

/-!
# Verified programs

What a valid report says about the program as a whole: every function has a range of its own with a
certificate, slots are within the limits, and the machines' preflight checks pass.

## From the list of errors to facts

The verifier runs all of its checks and collects what they report. A report is valid if nothing was
collected, and the errors of each check only extend those before, so that each check has reported
nothing. The lemmas here turn an empty list into the fact that the check is about: the functions are
keyed by distinct entries, every range is not empty and within the code, every global lies within
its limit and overlaps no other.

## Ranges

The source sorts the functions by their entries and takes each range up to the next entry. A range
is thus not stored with its function, and `rangeOf` and `stateAt` look it up. `Verified` is the
interface to the machines: it has no mention of lists of errors or of sorting.
-/

namespace MiniLang

namespace Verifier

variable {program : CompiledProgram} {id : Nat} {info : FunctionInfo}

/-! ## Function ranges -/

theorem pushError_ne_nil (errors : List VerificationError) (pc : Option Nat) (message : String) :
    pushError errors pc message ≠ [] :=
  List.append_ne_nil_of_right_ne_nil _ (List.cons_ne_nil _ _)

/-- The per-function checks of `function_ranges`. -/
def SlotsOk (info : FunctionInfo) : Prop :=
  info.paramCount ≤ info.localCount ∧ info.localCount ≤ maxLocalSlots

theorem functionErrors_eq_nil {errors : List VerificationError} :
    functionErrors info errors = [] ↔ errors = [] ∧ SlotsOk info := by
  rw [functionErrors, SlotsOk]
  by_cases hparams : info.paramCount > info.localCount
  · by_cases hlocals : info.localCount > maxLocalSlots <;>
      simp [hparams, hlocals, pushError, Nat.not_le.mpr hparams]
  · by_cases hlocals : info.localCount > maxLocalSlots
    · simp [hparams, hlocals, pushError, Nat.not_le.mpr hlocals]
    · simp [hparams, hlocals, Nat.le_of_not_lt hparams, Nat.le_of_not_lt hlocals]

/-- Without errors every function is kept, passes its checks and has an entry of its own. -/
theorem functionEntries_eq_nil {count : Nat} {functions : List (Nat × FunctionInfo)}
    {seen : List Nat} {errors : List VerificationError} :
    (functionEntries count functions seen errors).2 = [] ↔
      errors = [] ∧ (∀ f ∈ functions, SlotsOk f.2 ∧ f.2.entryPc < count ∧ f.2.entryPc ∉ seen) ∧
        (functions.map fun f ↦ f.2.entryPc).Nodup := by
  induction functions generalizing seen errors with
  | nil => simp [functionEntries]
  | cons f functions ih =>
    obtain ⟨id, info⟩ := f
    rw [functionEntries]
    -- an entry out of range or seen before is an error of its own, whatever the slots are
    by_cases hcount : info.entryPc ≥ count
    · simp only [hcount, if_true, ih]
      constructor
      · rintro ⟨h, _⟩
        exact absurd h (pushError_ne_nil _ _ _)
      · rintro ⟨_, h, _⟩
        have := (h (id, info) List.mem_cons_self).2.1
        exact absurd hcount (Nat.not_le.mpr this)
    · simp only [hcount, if_false]
      by_cases hseen : info.entryPc ∈ seen
      · simp only [hseen, if_true, ih]
        constructor
        · rintro ⟨h, _⟩
          exact absurd h (pushError_ne_nil _ _ _)
        · rintro ⟨_, h, _⟩
          exact absurd hseen (h (id, info) List.mem_cons_self).2.2
      · simp only [hseen, if_false, ih, functionErrors_eq_nil, List.map_cons, List.nodup_cons]
        constructor
        · rintro ⟨⟨herrors, hslots⟩, hrest, hnodup⟩
          refine ⟨herrors, fun g hg ↦ ?_, fun hmem ↦ ?_, hnodup⟩
          · rcases List.mem_cons.mp hg with rfl | hg
            · exact ⟨hslots, Nat.lt_of_not_le hcount, hseen⟩
            · obtain ⟨hgslots, hgcount, hgseen⟩ := hrest g hg
              exact ⟨hgslots, hgcount, fun h ↦ hgseen (List.mem_cons_of_mem _ h)⟩
          · obtain ⟨g, hg, heq⟩ := List.mem_map.mp hmem
            exact (hrest g hg).2.2 (heq ▸ List.mem_cons_self)
        · rintro ⟨herrors, hall, hfresh, hnodup⟩
          refine ⟨⟨herrors, (hall _ List.mem_cons_self).1⟩, fun g hg ↦ ?_, hnodup⟩
          obtain ⟨hgslots, hgcount, hgseen⟩ := hall g (List.mem_cons_of_mem _ hg)
          refine ⟨hgslots, hgcount, fun h ↦ ?_⟩
          rcases List.mem_cons.mp h with heq | h
          · exact hfresh (List.mem_map.mpr ⟨g, hg, heq⟩)
          · exact hgseen h

theorem functionEntries_fst {count : Nat} {functions : List (Nat × FunctionInfo)}
    {seen : List Nat} {errors : List VerificationError}
    (h : ∀ f ∈ functions, f.2.entryPc < count) :
    (functionEntries count functions seen errors).1 = functions := by
  induction functions generalizing seen errors with
  | nil => rfl
  | cons f functions ih =>
    have hf := Nat.not_le.mpr (h f List.mem_cons_self)
    rw [functionEntries]
    simp only [ge_iff_le, hf, if_false]
    rw [ih fun g hg ↦ h g (List.mem_cons_of_mem _ hg)]

/-- The ranges of entries in strictly increasing order: one for each entry, from its first
instruction on, none of them empty. -/
theorem mem_rangesOf {count : Nat} {entries : List (Nat × FunctionInfo)} {range : FunctionRange}
    (hsorted : entries.Pairwise fun f g ↦ f.2.entryPc < g.2.entryPc)
    (hcount : ∀ f ∈ entries, f.2.entryPc < count) (h : range ∈ rangesOf count entries) :
    (range.id, range.info) ∈ entries ∧ range.start = range.info.entryPc ∧
      range.start < range.stop ∧ range.stop ≤ count := by
  induction entries with
  | nil => cases h
  | cons f entries ih =>
    obtain ⟨id, info⟩ := f
    cases entries with
    | nil =>
      obtain rfl := List.mem_singleton.mp h
      exact ⟨List.mem_cons_self, rfl, hcount _ List.mem_cons_self, le_rfl⟩
    | cons g entries =>
      rcases List.mem_cons.mp h with rfl | h
      · have hg := hcount g (List.mem_cons_of_mem _ List.mem_cons_self)
        exact ⟨List.mem_cons_self, rfl, (List.pairwise_cons.mp hsorted).1 g List.mem_cons_self,
          hg.le⟩
      · have := ih (List.pairwise_cons.mp hsorted).2
          (fun g hg ↦ hcount g (List.mem_cons_of_mem _ hg)) h
        exact ⟨List.mem_cons_of_mem _ this.1, this.2⟩

theorem exists_mem_rangesOf {count : Nat} {entries : List (Nat × FunctionInfo)}
    (h : (id, info) ∈ entries) : ∃ range ∈ rangesOf count entries,
      range.id = id ∧ range.info = info := by
  induction entries with
  | nil => cases h
  | cons f entries ih =>
    obtain ⟨id', info'⟩ := f
    cases entries with
    | nil =>
      cases List.mem_singleton.mp h
      exact ⟨_, List.mem_cons_self, rfl, rfl⟩
    | cons g entries =>
      rcases List.mem_cons.mp h with heq | h
      · cases heq
        exact ⟨_, List.mem_cons_self, rfl, rfl⟩
      · obtain ⟨range, hmem, hr⟩ := ih h
        exact ⟨range, List.mem_cons_of_mem _ hmem, hr⟩

/-! ## Global metadata -/

/-- The slots a global takes. -/
def width (info : GlobalInfo) : Nat := if info.isArray then info.arraySize else 1

/-- A global has a size and lies within the limit. -/
def GlobalOk (info : GlobalInfo) : Prop :=
  (info.isArray = true → info.arraySize ≠ 0) ∧ info.slot + width info ≤ maxGlobalSlots

theorem checkedAdd_eq_some {a b c : Nat} :
    checkedAdd a b = some c ↔ a + b ≤ usizeMax ∧ c = a + b := by
  rw [checkedAdd]
  by_cases h : a + b ≤ usizeMax <;> simp [h, eq_comm]

theorem errors_claimSlots {name : String} {slot width : Nat} {claimed : List Bool}
    {errors : List VerificationError} (h : (claimSlots name slot width claimed errors).2 = []) :
    errors = [] := by
  rw [claimSlots] at h
  generalize List.range width = indices at h
  induction indices generalizing claimed errors with
  | nil => exact h
  | cons i indices ih =>
    have := ih h
    split at this
    · exact absurd this (pushError_ne_nil _ _ _)
    · exact this

theorem globals_of_no_errors {infos : List GlobalInfo} {claimed : List Bool}
    {errors : List VerificationError} (h : verifyGlobalMetadata infos claimed errors = []) :
    errors = [] ∧ ∀ info ∈ infos, GlobalOk info := by
  induction infos generalizing claimed errors with
  | nil => exact ⟨h, fun _ hmem ↦ absurd hmem List.not_mem_nil⟩
  | cons info infos ih =>
    rw [verifyGlobalMetadata] at h
    split at h
    · exact absurd (ih h).1 (pushError_ne_nil _ _ _)
    · next hsize =>
      dsimp only at h
      split at h
      · exact absurd (ih h).1 (pushError_ne_nil _ _ _)
      · next last hlast =>
        split at h
        · exact absurd (ih h).1 (pushError_ne_nil _ _ _)
        · next hlimit =>
          obtain ⟨herrors, hrest⟩ := ih h
          refine ⟨errors_claimSlots herrors, List.forall_mem_cons.mpr ⟨⟨?_, ?_⟩, hrest⟩⟩
          · exact fun harray hzero ↦ hsize ⟨harray, hzero⟩
          · rw [width, ← (checkedAdd_eq_some.mp hlast).2]
            exact Nat.le_of_not_lt hlimit

/-! ## The report -/

/-- The functions of a program, as `function_ranges` goes through them. -/
def functionList (program : CompiledProgram) : List (Nat × FunctionInfo) :=
  program.functions.entries.map fun entry ↦ (entry.fst, entry.snd)

theorem mem_functionList : (id, info) ∈ functionList program ↔
    program.functions.lookup id = some info := by
  rw [functionList, List.mem_map, ← Option.mem_def, AList.mem_lookup_iff]
  constructor
  · rintro ⟨⟨id', info'⟩, hmem, heq⟩
    cases heq
    exact hmem
  · intro hmem
    exact ⟨⟨id, info⟩, hmem, rfl⟩

theorem functionEntries_sublist (count : Nat) (functions : List (Nat × FunctionInfo))
    (seen : List Nat) (errors : List VerificationError) :
    (functionEntries count functions seen errors).1.Sublist functions := by
  induction functions generalizing seen errors with
  | nil => exact .slnil
  | cons f functions ih =>
    rw [functionEntries]
    split
    · exact (ih _ _).cons f
    · exact (ih _ _).cons_cons f

/-- Functions listed in the order of their entries need no sorting. -/
theorem functionRanges_of_sorted
    (h : (functionList program).Pairwise fun f g ↦ f.2.entryPc ≤ g.2.entryPc)
    (errors : List VerificationError) : functionRanges program errors =
      (rangesOf program.instructions.length
        (functionEntries program.instructions.length (functionList program) [] errors).1,
        (functionEntries program.instructions.length (functionList program) [] errors).2) := by
  have hsorted := (h.sublist (functionEntries_sublist program.instructions.length _ [] errors)).imp
    fun {f g} hfg ↦ decide_eq_true hfg
  rw [functionRanges]
  dsimp only
  rw [← functionList, List.mergeSort_of_pairwise hsorted]

/-- The ranges `verify` checks. -/
def ranges (program : CompiledProgram) : List FunctionRange :=
  (functionRanges program (programErrors program)).1

/-- The range of a function. -/
def rangeOf (program : CompiledProgram) (funcId : Nat) : Option FunctionRange :=
  (ranges program).find? fun range ↦ range.id = funcId

/-- The state the verifier finds at an instruction of a function. -/
def stateAt (program : CompiledProgram) (funcId pc : Nat) : Option AbstractState :=
  (rangeOf program funcId).bind fun range ↦ (verifyFunction program range).states pc

/-- The calls the verifier finds in the program. -/
def callGraph (program : CompiledProgram) : List (Nat × Nat) :=
  (ranges program).flatMap fun range ↦ (verifyFunction program range).callEdges

theorem errors_verify (program : CompiledProgram) : (verify program).errors =
    (functionRanges program (programErrors program)).2 ++
      (ranges program).flatMap fun range ↦ (verifyFunction program range).diagnostics.errors := by
  rw [verify, ranges]
  simp only [List.flatMap_map]

theorem mem_possibleTraps {range : FunctionRange} {trap : TrapCode} (hrange : range ∈ ranges program)
    (htrap : trap ∈ (verifyFunction program range).diagnostics.possibleTraps) :
    trap ∈ (verify program).possibleTraps := by
  have hmem : trap ∈ (((ranges program).map (verifyFunction program)).flatMap
      fun check ↦ check.diagnostics.possibleTraps).foldl pushTrap [] := by
    rw [mem_foldl_pushTrap, List.flatMap_map]
    exact .inr (List.mem_flatMap.mpr ⟨range, hrange, htrap⟩)
  rw [verify]
  dsimp only
  split
  · split
    · exact mem_pushTrap.mpr (.inl hmem)
    · exact hmem
  · exact mem_pushTrap.mpr (.inl hmem)

/-- The functions in the order of their entries. -/
def sortedFunctions (program : CompiledProgram) : List (Nat × FunctionInfo) :=
  (functionList program).mergeSort fun f g ↦ f.2.entryPc ≤ g.2.entryPc

theorem mem_sortedFunctions {f : Nat × FunctionInfo} :
    f ∈ sortedFunctions program ↔ f ∈ functionList program :=
  List.mem_mergeSort

/-- Distinct entries are sorted strictly. -/
theorem pairwise_sortedFunctions (h : ((functionList program).map fun f ↦ f.2.entryPc).Nodup) :
    (sortedFunctions program).Pairwise fun f g ↦ f.2.entryPc < g.2.entryPc := by
  have hle := @List.pairwise_mergeSort _ (fun f g : Nat × FunctionInfo ↦
    decide (f.2.entryPc ≤ g.2.entryPc)) (fun f g k hfg hgk ↦ by
      simp only [decide_eq_true_eq] at hfg hgk ⊢
      omega) (fun f g ↦ by
      simp only [Bool.or_eq_true, decide_eq_true_eq]
      omega) (functionList program)
  have hne : (sortedFunctions program).Pairwise fun f g ↦ f.2.entryPc ≠ g.2.entryPc :=
    List.pairwise_map.mp (((List.mergeSort_perm _ _).map _).nodup_iff.mpr h)
  refine (hle.and hne).imp fun hfg ↦ ?_
  simp only [decide_eq_true_eq] at hfg
  omega

/-- Every function passes the checks of `function_ranges`. -/
structure FunctionsOk (program : CompiledProgram) : Prop where
  slots : ∀ id info, program.functions.lookup id = some info → SlotsOk info
  entries : ∀ id info, program.functions.lookup id = some info →
    info.entryPc < program.instructions.length
  nodup : ((functionList program).map fun f ↦ f.2.entryPc).Nodup

theorem functionRanges_eq_nil {errors : List VerificationError} :
    (functionRanges program errors).2 = [] ↔ errors = [] ∧ FunctionsOk program := by
  rw [functionRanges]
  dsimp only
  rw [← functionList, functionEntries_eq_nil]
  constructor
  · rintro ⟨herrors, hall, hnodup⟩
    refine ⟨herrors, fun id info h ↦ ?_, fun id info h ↦ ?_, hnodup⟩
    · exact (hall _ (mem_functionList.mpr h)).1
    · exact (hall _ (mem_functionList.mpr h)).2.1
  · rintro ⟨herrors, hslots, hentries, hnodup⟩
    refine ⟨herrors, fun f hf ↦ ?_, hnodup⟩
    have hlookup : program.functions.lookup f.1 = some f.2 := mem_functionList.mp hf
    exact ⟨hslots _ _ hlookup, hentries _ _ hlookup, List.not_mem_nil⟩

theorem ranges_eq (h : FunctionsOk program) :
    ranges program = rangesOf program.instructions.length (sortedFunctions program) := by
  rw [ranges, functionRanges]
  dsimp only
  rw [← functionList, functionEntries_fst, sortedFunctions]
  exact fun f hf ↦ h.entries f.1 f.2 (mem_functionList.mp hf)

/-- The ranges of a program whose functions pass their checks. -/
theorem mem_ranges (h : FunctionsOk program) {range : FunctionRange}
    (hrange : range ∈ ranges program) :
    program.functions.lookup range.id = some range.info ∧ range.start = range.info.entryPc ∧
      range.start < range.stop ∧ range.stop ≤ program.instructions.length := by
  rw [ranges_eq h] at hrange
  obtain ⟨hmem, hrest⟩ := mem_rangesOf (pairwise_sortedFunctions h.nodup)
    (fun f hf ↦ h.entries f.1 f.2 (mem_functionList.mp (mem_sortedFunctions.mp hf))) hrange
  exact ⟨mem_functionList.mp (mem_sortedFunctions.mp hmem), hrest⟩

theorem exists_rangeOf (h : FunctionsOk program) (hf : program.functions.lookup id = some info) :
    ∃ range ∈ ranges program, rangeOf program id = some range ∧ range.id = id ∧
      range.info = info := by
  have hmem : ∃ range ∈ ranges program, range.id = id ∧ range.info = info := by
    rw [ranges_eq h]
    exact exists_mem_rangesOf (mem_sortedFunctions.mpr (mem_functionList.mpr hf))
  obtain ⟨range, hrange, hid, -⟩ := hmem
  cases hfind : rangeOf program id with
  | none =>
    have hnone := List.find?_eq_none.mp hfind range hrange
    simp [hid] at hnone
  | some found =>
    have hfound := List.mem_of_find?_eq_some hfind
    have hfoundId : found.id = id := by simpa using List.find?_some hfind
    have hlookup := (mem_ranges h hfound).1
    rw [hfoundId, hf] at hlookup
    exact ⟨found, hfound, rfl, hfoundId, (Option.some_inj.mp hlookup).symm⟩

/-! ## Valid reports -/

/-- What the machine relies on in a verified program. -/
structure Verified (program : CompiledProgram) (traps : List TrapCode) : Prop where
  slots : ∀ id info, program.functions.lookup id = some info → SlotsOk info
  globals : ∀ info ∈ program.globals.values, GlobalOk info
  main : ∃ info, program.functions.lookup program.mainFuncId = some info
  count : program.instructions.length ≤ maxInstructions
  functions : ∀ id info, program.functions.lookup id = some info → ∃ range,
    range.id = id ∧ range.info = info ∧ range.start = info.entryPc ∧
      Certified program range traps (callGraph program) (stateAt program id)

theorem programErrors_of_nil (h : programErrors program = []) :
    (∀ info ∈ program.globals.values, GlobalOk info) ∧
      (∃ info, program.functions.lookup program.mainFuncId = some info) ∧
      program.instructions.length ≤ maxInstructions := by
  rw [programErrors] at h
  split at h
  · exact absurd h (pushError_ne_nil _ _ _)
  next hcount =>
  split at h
  · exact absurd h (pushError_ne_nil _ _ _)
  next hmain =>
  split at h
  · exact absurd h (pushError_ne_nil _ _ _)
  refine ⟨(globals_of_no_errors h).2, ?_, Nat.le_of_not_lt hcount⟩
  exact Option.isSome_iff_exists.mp (Option.isSome_iff_ne_none.mpr (by simpa using hmain))

theorem verified_of_valid (h : (verify program).valid = true) :
    Verified program (verify program).possibleTraps := by
  have herrors : (verify program).errors = [] := List.isEmpty_iff.mp h
  rw [errors_verify, List.append_eq_nil_iff, functionRanges_eq_nil] at herrors
  obtain ⟨⟨hprogram, hfunctions⟩, hchecks⟩ := herrors
  obtain ⟨hglobals, hmain, hcount⟩ := programErrors_of_nil hprogram
  refine ⟨hfunctions.slots, hglobals, hmain, hcount, fun id info hf ↦ ?_⟩
  obtain ⟨range, hmem, hrange, hid, rfl⟩ := exists_rangeOf hfunctions hf
  obtain ⟨-, hstart, hlt, hstop⟩ := mem_ranges hfunctions hmem
  have hcert := verifyFunction_certified hlt hstop (List.flatMap_eq_nil_iff.mp hchecks range hmem)
  have hstates : stateAt program id = (verifyFunction program range).states := by
    funext pc
    rw [stateAt, hrange]
    rfl
  rw [hstates]
  refine ⟨range, hid, rfl, hstart, hcert.entry, hcert.inRange, fun pc st hst ↦ ?_⟩
  obtain ⟨instr, hinstr, hops, hdepth, htraps, hsucc, hlimit, hedges⟩ := hcert.step pc st hst
  exact ⟨instr, hinstr, hops, hdepth, fun trap ht ↦ mem_possibleTraps hmem (htraps trap ht), hsucc,
    hlimit, fun edge he ↦ List.mem_flatMap.mpr ⟨range, hmem, hedges edge he⟩⟩

end Verifier

end MiniLang
