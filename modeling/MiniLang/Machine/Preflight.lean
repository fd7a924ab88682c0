import MiniLang.Machine.GcTotality
import MiniLang.Machine.ValueVm

/-!
# The preflight of the machines

What both machines know of a program that they start to run: its length is bounded, each function
fits into the vector of locals, and each global array lies in the global slots.
-/

namespace MiniLang

/-- The global arrays lie in the global slots. -/
def ArraysFit (program : CompiledProgram) : Prop :=
  ∀ slot size, ArrayGlobal program slot size → 0 < size ∧ slot + size ≤ maxGlobalSlots

/-- What the preflight checks. -/
structure Preflight (program : CompiledProgram) : Prop where
  count : program.instructions.length ≤ maxInstructions
  locals : ∀ id func, program.functions.lookup id = some func → func.localCount ≤ maxLocalSlots
  arrays : ArraysFit program

theorem requiredGlobalSlots_ge {infos : List GlobalInfo} {maxSlot slots : Nat}
    (h : requiredGlobalSlots infos maxSlot = .ok slots) : maxSlot ≤ slots ∧
      ∀ info ∈ infos, info.isArray = true →
        0 < info.arraySize ∧ info.slot + info.arraySize ≤ slots := by
  induction infos generalizing maxSlot with
  | nil =>
    cases h
    exact ⟨le_rfl, fun _ hmem ↦ absurd hmem List.not_mem_nil⟩
  | cons info infos ih =>
    rw [requiredGlobalSlots] at h
    split at h
    · cases h
    next hzero =>
    split at h
    · cases h
    next last hlast =>
    obtain ⟨hmax, hrest⟩ := ih h
    refine ⟨(le_max_left _ _).trans hmax, List.forall_mem_cons.mpr ⟨fun harray ↦ ?_, hrest⟩⟩
    rw [if_pos harray, checkedAdd] at hlast
    split at hlast
    · obtain rfl := Option.some_inj.mp hlast
      exact ⟨Nat.pos_of_ne_zero fun h ↦ hzero ⟨harray, h⟩, (le_max_right _ _).trans hmax⟩
    · cases hlast

theorem preflight_of_validate {program : CompiledProgram} (h : program.validate = .ok ()) :
    Preflight program := by
  have hlocals := (GcVm.of_validate h).1
  rw [CompiledProgram.validate] at h
  split at h
  · cases h
  next hcount =>
  cases hfunctions : validateFunctions program.functions.values with
  | error e =>
    rw [hfunctions] at h
    cases h
  | ok u =>
    rw [hfunctions] at h
    cases hslots : requiredGlobalSlots program.globals.values 0 with
    | error e =>
      rw [hslots] at h
      cases h
    | ok slots =>
      rw [hslots] at h
      have hle : slots ≤ maxGlobalSlots := by
        change (if slots > maxGlobalSlots then _ else _) = _ at h
        split at h
        · cases h
        next hslots => exact Nat.le_of_not_lt hslots
      constructor
      · exact Nat.le_of_not_lt hcount
      · intro id func hlookup
        exact (hlocals id func hlookup).2
      · rintro slot size ⟨info, hmem, harray, rfl, rfl⟩
        obtain ⟨hpos, hlast⟩ := (requiredGlobalSlots_ge hslots).2 info hmem harray
        exact ⟨hpos, hlast.trans hle⟩

end MiniLang
