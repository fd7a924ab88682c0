import MiniLang.Machine.Preflight
import MiniLang.Machine.ShapedCode

/-!
# Compiled programs have shapes

`WellShaped` is what the value machine asks of a program: every function has shapes at its
instructions, from its entry on. The compiled program of an accepted one in which the declarations
of a local name agree is well-shaped.

## Sizes

Whether a slot holds an array is a property of the declarations of its function, and `arraySizes`
reads it off the compiler's table of locals. This is where agreement of the declarations is used: a
name that is declared twice, once as an array, has one slot and no one size.

## The argument

The shapes of a function are those that `ShapedCode` gives to the code of its body, behind the code
of the global initializers in the case of `main`. The initializers see the names of the globals and
functions alone, and allocate no array. What remains is to fit the code of each function into that
of the program: where it starts and stops, and that the entries of its calls are those of the
callees.
-/

namespace MiniLang

open Compiler Verifier StackCode

/-- The code of a function runs up to `stop`, and has a shape at every instruction. -/
structure ShapedFunction (program : CompiledProgram) (info : FunctionInfo) (stop : Nat)
    (sizes : Nat → Option Nat) (shape : Nat → Shape) : Prop where
  entry_lt : info.entryPc < stop
  stop_le : stop ≤ program.instructions.length
  entry : shape info.entryPc ≤ ⟨0, none, ∅⟩
  paramCount_le : info.paramCount ≤ info.localCount
  params : ∀ slot < info.paramCount, sizes slot = none
  fits : ∀ (pc : Nat) (instr : Instruction), info.entryPc ≤ pc → pc < stop →
    program.instructions[pc]? = some instr → Fits program info sizes instr (shape pc)
  next : ∀ (pc : Nat) (instr : Instruction), info.entryPc ≤ pc → pc < stop →
    program.instructions[pc]? = some instr → ∀ t ∈ successors pc instr,
      info.entryPc ≤ t ∧ t < stop ∧ shape t ≤ (shape pc).after instr

/-- Every function has shapes, where `table` has the sizes of the array variables of each. -/
def WellShaped (program : CompiledProgram) (table : Nat → Nat → Option Nat) : Prop :=
  ∀ id info, program.functions.lookup id = some info →
    info.id = id ∧ ∃ stop shape, ShapedFunction program info stop (table id) shape

variable {program : CompiledProgram} {info : FunctionInfo} {sizes : Nat → Option Nat} {base : Nat}
  {R : Set Nat} {S : Env} {T Γ Γ' : Names} {size : String → Option Int32} {source : List UInt8}
  {p : Program}

/-! ## Array variables -/

/-- The size of the array variable in a slot. -/
def sizesOf (S : Env) (slot : Nat) : Option Nat :=
  (S.locals.entries.find? (·.snd.slot = slot)).bind fun entry ↦
    if entry.snd.isArray then some entry.snd.arraySize else none

/-- The size of the array that the function numbered `id` declares in a slot. -/
def arraySizes (p : Program) (id slot : Nat) : Option Nat :=
  (p.functions[id]?).bind fun func ↦
    sizesOf (((globalEnv p).ofFunction func).afterStmts func.body) slot

theorem sizesOf_spec (hS : S.SlotsApart) : SizesOf (sizesOf S) S := by
  intro name loc hloc
  rw [sizesOf]
  cases hfind : S.locals.entries.find? (·.snd.slot = loc.slot) with
  | none =>
    have hmem := AList.mem_lookup_iff.mp (Option.mem_def.mpr hloc)
    exact absurd (decide_eq_true rfl) (List.find?_eq_none.mp hfind _ hmem)
  | some entry =>
    obtain ⟨name', loc'⟩ := entry
    have hslot : loc'.slot = loc.slot := by simpa using List.find?_some hfind
    have hloc' : S.locals.lookup name' = some loc' :=
      AList.mem_lookup_iff.mpr (List.mem_of_find?_eq_some hfind)
    obtain rfl := hS.apart name' name loc' loc hloc' hloc hslot
    obtain rfl := Option.some_inj.mp (hloc'.symm.trans hloc)
    rfl

/-- No parameter is an array. -/
theorem isArray_withParams {params : List Param}
    (hS : ∀ name loc, S.locals.lookup name = some loc → loc.isArray = false) {name : String}
    {loc : LocalVar} (hloc : (S.withParams params).locals.lookup name = some loc) :
    loc.isArray = false := by
  induction params generalizing S with
  | nil => exact hS name loc hloc
  | cons param params ih =>
    refine ih (fun name' loc' hloc' ↦ ?_) hloc
    by_cases heq : name' = param.name
    · subst heq
      obtain rfl := Option.some_inj.mp ((AList.lookup_insert _).symm.trans hloc')
      rfl
    · exact hS name' loc' ((AList.lookup_insert_ne heq).symm.trans hloc')

theorem isArray_ofFunction {func : Function} {name : String} {loc : LocalVar}
    (hloc : (S.ofFunction func).locals.lookup name = some loc) : loc.isArray = false := by
  refine isArray_withParams (fun name' loc' hloc' ↦ ?_) hloc
  rw [AList.lookup_empty] at hloc'
  cases hloc'

/-- At the entry of a function, no variable holds an array. -/
theorem readySlots_ofFunction {func : Function} (hS : Tracks T size Γ (S.ofFunction func)) :
    readySlots Γ (S.ofFunction func) = ∅ := by
  refine Set.eq_empty_of_forall_notMem ?_
  rintro slot ⟨name, t, loc, hname, hloc, -⟩
  obtain ⟨htop, harray, -⟩ := hS.declared name loc hloc
  rcases hS.visible name _ hname with hname | ⟨-, u, hentity⟩
  · rw [htop] at hname
    cases hname
  · rw [varEntity, if_neg] at hentity
    · cases hentity
    · rw [← harray, isArray_ofFunction hloc]
      exact Bool.false_ne_true

/-! ## Global variables -/

/-- The code of the initializers of scalar globals. -/
theorem quiet_globalInits {globs : List GlobalVar} (hS : Resolves program info Γ S)
    (hshapes : Shapes program sizes R Γ S) (hglobs : ∀ glob ∈ globs, ∀ init, glob.initExpr = some init →
      HasType Γ init glob.varType ∧ Γ glob.name = some (.scalar glob.varType) ∧
        S.locals.lookup glob.name = none) (base : Nat) :
    ∀ instr ∈ S.globalInitsCode globs base, Quiet program sizes R instr := by
  induction globs generalizing base with
  | nil => exact fun _ hinstr ↦ absurd hinstr List.not_mem_nil
  | cons glob globs ih =>
    obtain ⟨hglob, hglobs⟩ := List.forall_mem_cons.mp hglobs
    rw [Env.globalInitsCode]
    cases hexpr : glob.initExpr with
    | none => exact ih hglobs base
    | some init =>
      obtain ⟨htype, hname, hnone⟩ := hglob init hexpr
      obtain ⟨-, entry, hentry, hscalar⟩ := (hshapes.scalar _ _ hname).resolve_left (by simp [hnone])
      rw [hentry]
      refine List.forall_mem_append.mpr ⟨List.forall_mem_append.mpr
        ⟨quiet_expr hS hshapes base init htype, List.forall_mem_singleton.mpr ?_⟩, ih hglobs _⟩
      have hlimit : maxGlobalSlots = 256 := rfl
      have hlt := hscalar.1
      change ScalarGlobal program (asUsize (asI32 entry.slot))
      rwa [asUsize_asI32 (by omega)]

namespace Accepted

/-- The metadata of a global. -/
theorem exists_globalInfo (h : Accepted source p) {glob : GlobalVar} (hglob : glob ∈ p.globals) :
    ∃ info, (globalEnv p).globals.lookup glob.name = some info ∧
      info ∈ (compile p).globals.values ∧ info.isArray = glob.arraySize.isSome ∧
      info.slot + glob.slots ≤ maxGlobalSlots := by
  obtain ⟨info, hmem, hname⟩ := exists_mem_globalInfos hglob 0
  obtain ⟨glob', hglob', hname', harray, -, -, hle⟩ := mem_globalInfos hmem
  have heq : glob' = glob := by
    refine List.inj_on_of_nodup_map h.nodup_globals hglob' hglob ?_
    rw [← hname', hname]
  subst heq
  refine ⟨info, ?_, ?_, harray, ?_⟩
  · rw [← Option.mem_def, AList.mem_lookup_iff, h.globals_eq, globalEntries]
    exact List.mem_map.mpr ⟨info, List.mem_reverse.mpr hmem, by rw [hname]⟩
  · rw [h.globals_values]
    exact List.mem_reverse.mpr hmem
  · rw [Nat.zero_add] at hle
    exact hle.trans h.wellFormed.globalSlots

/-- No array takes the slot of a scalar global. -/
theorem scalarGlobal (h : Accepted source p) {glob : GlobalVar} (hglob : glob ∈ p.globals)
    (hsize : glob.arraySize = none) : ∃ info, (globalEnv p).globals.lookup glob.name = some info ∧
      ScalarGlobal (compile p) info.slot := by
  obtain ⟨info, hlookup, hmem, hscalar, hle⟩ := h.exists_globalInfo hglob
  rw [hsize] at hscalar
  have hwidth : width info = 1 := if_neg (by rw [hscalar]; exact Bool.false_ne_true)
  refine ⟨info, hlookup, ?_, fun info' hmem' harray' ↦ ?_⟩
  · rw [GlobalVar.slots, hsize] at hle
    exact hle
  · have hne : info ≠ info' := by
      rintro rfl
      rw [hscalar] at harray'
      cases harray'
    have hwidth' : width info' = info'.arraySize := if_pos harray'
    have hsymm : Std.Symm Apart := ⟨fun _ _ hab ↦ hab.symm⟩
    have hapart := h.apart_globals.forall hmem hmem' hne
    rw [Apart, hwidth, hwidth'] at hapart
    omega

theorem topShapes (h : Accepted source p) : TopShapes (compile p) p.topLevel (globalEnv p) := by
  constructor
  · intro name t hname
    rcases topLevel_cases hname with ⟨glob, hglob, rfl, hentity⟩ | ⟨func, -, -, hentity⟩
    · refine h.scalarGlobal hglob ?_
      rw [varEntity] at hentity
      split at hentity
      · cases hentity
      · next hnone => exact Option.not_isSome_iff_eq_none.mp hnone
    · cases hentity
  · intro name t hname
    rcases topLevel_cases hname with ⟨glob, hglob, rfl, hentity⟩ | ⟨func, -, -, hentity⟩
    · obtain ⟨info, hlookup, hmem, harray, -⟩ := h.exists_globalInfo hglob
      rw [varEntity] at hentity
      split at hentity
      · next hsome => exact ⟨info, hlookup, info, hmem, harray.trans hsome, rfl, rfl⟩
      · cases hentity
    · cases hentity

/-- The code of the global initializers has shapes. -/
theorem flows_inits (h : Accepted source p) (hcount : (compile p).instructions.length < 2 ^ 31)
    {func : Function} (hfunc : func ∈ p.functions) (hmain : func.name = "main")
    (sizes : Nat → Option Nat) (id base : Nat)
    (hbound : base + (((globalEnv p).ofFunction func).globalInitsCode p.globals base).length < 2 ^ 31) :
    Flows (compile p) ((globalEnv p).functionInfo func id base) sizes (fun _ _ ↦ False) base
      (((globalEnv p).ofFunction func).globalInitsCode p.globals base) ⟨0, none, ∅⟩ ⟨0, none, ∅⟩ := by
  obtain ⟨main, hmem, hname, hparams⟩ := h.wellFormed.main
  obtain rfl := h.eq_of_name_eq hfunc hmem (hmain.trans hname.symm)
  -- `main` has no parameters, so no local is visible
  have henv : (globalEnv p).ofFunction func = { globalEnv p with locals := ∅, nextLocalSlot := 0 } := by
    rw [Env.ofFunction, hparams]
    rfl
  have htop : Tracks p.topLevel (fun _ ↦ none) p.topLevel ((globalEnv p).ofFunction func) := by
    rw [henv]
    exact .empty _ _ _
  have hnone (name : String) : ((globalEnv p).ofFunction func).locals.lookup name = none := by
    rw [henv]
    exact AList.lookup_empty name
  have hsizes : SizesOf sizes ((globalEnv p).ofFunction func) := by
    intro name loc hloc
    rw [hnone] at hloc
    cases hloc
  have hshapes := htop.shapes (h.topShapes.congr (Env.globals_withParams _ func.params)) hsizes
  rw [readySlots_ofFunction htop] at hshapes
  have hresolves := (h.ready hcount hfunc id base htop).resolves
    (((globalEnv p).ofFunction func).extends_afterStmts func.body).slot_le
  refine flows_of_typed (typed_globalInits hresolves (fun glob hglob ↦ ?_) hbound)
    (quiet_globalInits hresolves hshapes (fun glob hglob init hinit ↦ ?_) base)
  · obtain ⟨entry, hentry, -, -, hle⟩ := h.exists_globalInfo hglob
    refine ⟨h.wellFormed.inits glob hglob, entry, ?_, ?_⟩
    · rw [henv]
      exact hentry
    · have hpos := SemanticAnalyzer.GlobalVar.slots_pos (h.wellFormed.sizes glob hglob)
      omega
  -- the grammar has no initial values for arrays
  · have hscalar : glob.arraySize = none := by
      have hplain := (h.parsed.sourceForm.globals glob hglob).plain
      cases hsize : glob.arraySize with
      | none => rfl
      | some n =>
        rw [hsize, hinit] at hplain
        cases hplain rfl
    refine ⟨h.wellFormed.inits glob hglob init hinit, ?_, hnone glob.name⟩
    have hfind : p.globals.find? (·.name = glob.name) = some glob := by
      cases hfind : p.globals.find? (·.name = glob.name) with
      | none => exact absurd (decide_eq_true rfl) (List.find?_eq_none.mp hfind glob hglob)
      | some glob' =>
        have hname' : glob'.name = glob.name := by simpa using List.find?_some hfind
        exact congrArg some (List.inj_on_of_nodup_map h.nodup_globals
          (List.mem_of_find?_eq_some hfind) hglob hname')
    rw [Program.topLevel, hfind, Option.map_some, varEntity, hscalar]
    rfl

/-- The code of a function has shapes, up to its last instruction. -/
theorem flows_function (h : Accepted source p) (hagree : p.DeclsAgree)
    (hcount : (compile p).instructions.length < 2 ^ 31) {func : Function}
    (hfunc : func ∈ p.functions) (id base : Nat)
    (hbound : base + ((globalEnv p).functionCode p.globals func base).length < 2 ^ 31) :
    ∃ code R, (globalEnv p).functionCode p.globals func base = code ++ [.simple .return] ∧
      Flows (compile p) ((globalEnv p).functionInfo func id base)
        (sizesOf (((globalEnv p).ofFunction func).afterStmts func.body)) (fun _ _ ↦ False) base code
        ⟨0, none, ∅⟩ ⟨1, none, R⟩ := by
  obtain ⟨Γ, Γ', hbody, htracks⟩ := h.tracks hfunc
  have hready := h.ready hcount hfunc id base htracks
  have htop := h.topShapes.congr (Env.globals_withParams
    { globalEnv p with locals := ∅, nextLocalSlot := 0 } func.params)
  rw [Env.functionCode] at hbound
  rw [List.length_append, List.length_append, List.length_cons, List.length_singleton] at hbound
  generalize hcode : (if func.name = "main" then
    ((globalEnv p).ofFunction func).globalInitsCode p.globals base else []) = inits at hbound
  have hinits : Flows (compile p) ((globalEnv p).functionInfo func id base)
      (sizesOf (((globalEnv p).ofFunction func).afterStmts func.body)) (fun _ _ ↦ False) base inits
      ⟨0, none, ∅⟩ ⟨0, none, readySlots Γ ((globalEnv p).ofFunction func)⟩ := by
    rw [readySlots_ofFunction htracks, ← hcode]
    split
    · next hmain =>
      rw [if_pos hmain] at hcode
      exact h.flows_inits hcount hfunc hmain _ id base (by rw [hcode]; omega)
    · exact .nil _
  have hstmts := @flows_stmts _ _ _ _ _ _ _ _ (fun _ _ ↦ False) hready htop (base + inits.length)
    func.body hbody (fun d hd ↦ declaredSize_eq (hagree func hfunc) hd) le_rfl (by omega)
    (sizesOf_spec ((Env.SlotsApart.ofFunction (globalEnv p) func).afterStmts func.body))
  have hzero (base : Nat) (R : Set Nat) : Flows (compile p) ((globalEnv p).functionInfo func id base)
      (sizesOf (((globalEnv p).ofFunction func).afterStmts func.body)) (fun _ _ ↦ False) base
      [⟨.loadConst, 0, 0⟩] ⟨0, none, R⟩ ⟨1, none, R⟩ :=
    .single ⟨trivial, Nat.zero_le _, rfl, trivial⟩ fun t ht ↦ .inl ⟨List.mem_singleton.mp ht, le_rfl⟩
  refine ⟨inits ++ _ ++ [⟨.loadConst, 0, 0⟩], _, ?_, (hinits.append hstmts).append (hzero _ _)⟩
  rw [Env.functionCode, hcode, List.append_assoc _ [_] [_]]
  rfl

theorem shapedFunction (h : Accepted source p) (hagree : p.DeclsAgree)
    (hcount : (compile p).instructions.length < 2 ^ 31) {func : Function} {id : Nat}
    (hfunc : p.functions[id]? = some func) : ∃ stop shape, ShapedFunction (compile p)
      ((globalEnv p).functionInfo func id (entryPc p id)) stop (arraySizes p id) shape := by
  have htable : arraySizes p id =
      sizesOf (((globalEnv p).ofFunction func).afterStmts func.body) := by
    funext slot
    rw [arraySizes, hfunc, Option.bind_some]
  rw [htable]
  have hmem := List.mem_of_getElem? hfunc
  obtain ⟨rest, hdrop⟩ := drop_compile h.nodup hfunc
  have hbound : entryPc p id +
      ((globalEnv p).functionCode p.globals func (entryPc p id)).length < 2 ^ 31 := by
    have hlength := congrArg List.length hdrop
    have hle := (entryPc_length h.nodup).le
    rw [List.length_drop, List.length_append] at hlength
    have hentry : entryPc p id < (compile p).instructions.length := by
      rw [← entryPc_length h.nodup]
      exact entryPc_lt (List.getElem?_eq_some_iff.mp hfunc).1 le_rfl
    omega
  obtain ⟨code, R, hcode, hflows⟩ := h.flows_function hagree hcount hmem id (entryPc p id) hbound
  have hreturn : Fits (compile p) ((globalEnv p).functionInfo func id (entryPc p id))
      (sizesOf (((globalEnv p).ofFunction func).afterStmts func.body)) (.simple .return)
      ⟨1, none, R⟩ := ⟨trivial, le_rfl, rfl, rfl⟩
  obtain ⟨shape, hentry, hclosed⟩ := hflows.exists_closed hreturn rfl
  rw [hcode] at hdrop
  -- the instructions at the addresses of the function are its code
  have hfetch {pc : Nat} {instr : Instruction} (hle : entryPc p id ≤ pc)
      (hlt : pc < entryPc p id + (code ++ [Instruction.simple .return]).length)
      (hinstr : (compile p).instructions[pc]? = some instr) :
      ∃ i, pc = entryPc p id + i ∧ (code ++ [.simple .return])[i]? = some instr := by
    obtain ⟨i, rfl⟩ := Nat.exists_eq_add_of_le hle
    refine ⟨i, rfl, ?_⟩
    rw [← List.getElem?_drop, hdrop, List.getElem?_append_left (by omega)] at hinstr
    exact hinstr
  obtain ⟨Γ, Γ', hparams, -⟩ := (h.wellFormed.functions func hmem).body
  have hapart := (Env.SlotsApart.ofFunction (globalEnv p) func).afterStmts func.body
  refine ⟨entryPc p id + (code ++ [Instruction.simple .return]).length, shape, ?_, ?_, hentry,
    (globalEnv p).paramCount_le_localCount func, fun slot hslot ↦ ?_,
    fun pc instr hle hlt hinstr ↦ ?_, fun pc instr hle hlt hinstr t ht ↦ ?_⟩
  · exact Nat.lt_add_of_pos_right (by simp)
  · have hlength := congrArg List.length hdrop
    rw [List.length_drop, List.length_append] at hlength
    have hpos : 0 < (code ++ [Instruction.simple .return]).length := by simp
    omega
  · have hparam := List.getElem?_eq_getElem hslot
    have hlookup := Env.lookup_withParams (S := { globalEnv p with locals := ∅, nextLocalSlot := 0 })
      hparams.nodup hparam
    have hsize := sizesOf_spec hapart _ _ (Env.lookup_afterStmts hlookup func.body)
    rw [Nat.zero_add] at hsize
    exact hsize
  · obtain ⟨i, rfl, hi⟩ := hfetch hle hlt hinstr
    exact (hclosed i instr hi).1
  · obtain ⟨i, rfl, hi⟩ := hfetch hle hlt hinstr
    exact (hclosed i instr hi).2 t ht

/-- Declared arrays have elements. -/
theorem arraySizes_pos (h : Accepted source p) (hagree : p.DeclsAgree) {id slot size : Nat}
    (hsize : arraySizes p id slot = some size) : 0 < size := by
  obtain ⟨func, hfunc, hsize⟩ := Option.bind_eq_some_iff.mp hsize
  have hmem := List.mem_of_getElem? hfunc
  obtain ⟨Γ, Γ', hbody, htracks⟩ := h.tracks hmem
  have hafter := htracks.afterStmts func.body hbody fun d hd ↦ declaredSize_eq (hagree func hmem) hd
  obtain ⟨⟨name, loc⟩, hfind, hentry⟩ := Option.bind_eq_some_iff.mp hsize
  obtain ⟨-, harray, hloc, hpos⟩ := hafter.declared name loc
    (AList.mem_lookup_iff.mpr (List.mem_of_find?_eq_some hfind))
  dsimp only at hentry
  cases hdeclared : declaredSize (declsList func.body) name with
  | none =>
    rw [harray, hdeclared, Option.isSome_none, if_neg Bool.false_ne_true] at hentry
    cases hentry
  | some n =>
    rw [harray, hdeclared, Option.isSome_some, if_pos rfl, hloc, hdeclared] at hentry
    obtain rfl := Option.some_inj.mp hentry
    have hn := Int32.lt_iff_toInt_lt.mp (hpos n hdeclared)
    have hlt := n.toInt_lt
    rw [Int32.toInt_zero] at hn
    change 0 < asUsize n
    rw [asUsize]
    omega

/-- **Compiled programs are well-shaped.** -/
theorem wellShaped (h : Accepted source p) (hagree : p.DeclsAgree)
    (hcount : (compile p).instructions.length < 2 ^ 31) :
    WellShaped (compile p) (arraySizes p) := by
  intro id info hinfo
  obtain ⟨func, hfunc, rfl⟩ := h.lookup_iff.mp hinfo
  exact ⟨rfl, h.shapedFunction hagree hcount hfunc⟩

/-- A program that is too long does not pass the preflight. -/
theorem wellShaped_of_validate (h : Accepted source p) (hagree : p.DeclsAgree)
    (hvalidate : (compile p).validate = .ok ()) : WellShaped (compile p) (arraySizes p) := by
  have hcount := (preflight_of_validate hvalidate).count
  have hlimit : maxInstructions < 2 ^ 31 := by decide
  exact h.wellShaped hagree (hcount.trans_lt hlimit)

end Accepted

end MiniLang
