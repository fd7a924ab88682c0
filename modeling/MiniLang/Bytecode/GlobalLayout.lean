import MiniLang.Bytecode.FrontEnd

/-!
# Layout of global variables

Globals take consecutive slots in source order. An accepted program has room for all of them.
-/

namespace MiniLang

namespace Compiler

/-- The metadata of globals laid out from `slot` on. -/
def globalInfos : List GlobalVar → Nat → List GlobalInfo
  | [], _ => []
  | glob :: globs, slot =>
    ⟨glob.name, slot, glob.arraySize.isSome, (glob.arraySize.map arrayUsize).getD 0⟩ ::
      globalInfos globs (slot + glob.slots)

/-- The entries of a table of globals. -/
def globalEntries (infos : List GlobalInfo) : List (Sigma fun _ : String ↦ GlobalInfo) :=
  infos.reverse.map fun info ↦ ⟨info.name, info⟩

variable {c : Compiler} {globs : List GlobalVar} {slot : Nat}

theorem collectGlobals_cons (c : Compiler) (glob : GlobalVar) (globs : List GlobalVar) :
    c.collectGlobals (glob :: globs) = collectGlobals { c with
      nextGlobalSlot := c.nextGlobalSlot + glob.slots
      globals := c.globals.insert glob.name ⟨glob.name, c.nextGlobalSlot, glob.arraySize.isSome,
        (glob.arraySize.map arrayUsize).getD 0⟩ } globs := by
  rw [collectGlobals, GlobalVar.slots]
  cases glob.arraySize with
  | none => rfl
  | some size => rfl

/-- The compiler enters the globals in its table. -/
theorem entries_collectGlobals (hnodup : (globs.map GlobalVar.name).Nodup)
    (hnew : ∀ glob ∈ globs, glob.name ∉ c.globals) : (c.collectGlobals globs).globals.entries =
      globalEntries (globalInfos globs c.nextGlobalSlot) ++ c.globals.entries := by
  induction globs generalizing c with
  | nil => rfl
  | cons glob globs ih =>
    obtain ⟨hname, hnodup⟩ := List.nodup_cons.mp (List.map_cons ▸ hnodup)
    obtain ⟨hglob, hglobs⟩ := List.forall_mem_cons.mp hnew
    rw [collectGlobals_cons, ih hnodup, AList.entries_insert_of_notMem hglob, globalInfos,
      globalEntries, globalEntries, List.reverse_cons, List.map_append, List.append_assoc]
    · rfl
    · intro glob' hmem
      rw [AList.mem_insert, not_or]
      refine ⟨fun heq ↦ hname ?_, hglobs glob' hmem⟩
      exact heq ▸ List.mem_map_of_mem hmem

theorem mem_globalInfos {info : GlobalInfo} (h : info ∈ globalInfos globs slot) :
    ∃ glob ∈ globs, info.name = glob.name ∧ info.isArray = glob.arraySize.isSome ∧
      info.arraySize = (glob.arraySize.map arrayUsize).getD 0 ∧ slot ≤ info.slot ∧
      info.slot + glob.slots ≤ slot + (globs.map GlobalVar.slots).sum := by
  induction globs generalizing slot with
  | nil => cases h
  | cons glob globs ih =>
    rw [List.map_cons, List.sum_cons]
    rcases List.mem_cons.mp h with rfl | h
    · exact ⟨glob, List.mem_cons_self, rfl, rfl, rfl, le_rfl, by dsimp only; omega⟩
    · obtain ⟨glob', hmem, hname, harray, hsize, hle, hle'⟩ := ih h
      exact ⟨glob', List.mem_cons_of_mem _ hmem, hname, harray, hsize, by omega, by omega⟩

theorem exists_mem_globalInfos {glob : GlobalVar} (h : glob ∈ globs) (slot : Nat) :
    ∃ info ∈ globalInfos globs slot, info.name = glob.name := by
  induction globs generalizing slot with
  | nil => cases h
  | cons glob' globs ih =>
    rcases List.mem_cons.mp h with rfl | h
    · exact ⟨_, List.mem_cons_self, rfl⟩
    · obtain ⟨info, hmem, hname⟩ := ih h _
      exact ⟨info, List.mem_cons_of_mem _ hmem, hname⟩

end Compiler

end MiniLang
