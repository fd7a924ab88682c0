import MiniLang.Oracle.Functions

/-!
# Programs

The run of a compiled program against that of the oracle. The machine initializes the globals in the
frame of `main`, the oracle before it calls `main`; apart from the frame, they do the same.

## Two activations of one frame

The machine enters `main` once, before the first initializer. The oracle has no frame while it
evaluates initial values, and pushes one for `main` afterwards. The frame of the machine is
therefore described by two activations: `initActivation` knows no local, and the activation of
`main` takes its place where the oracle calls. Since no initializer writes a local, the cells still
have their marks then. The difference of one frame is in the setting, as a limit of frames for each
phase.

## The end

A return from `main` ends the run of the machine, and whatever the oracle computes for `main` is the
result of the run. `sim_execute` puts the three parts together: the initializers in order, the call
of `main`, and the return.
-/

namespace MiniLang

open Compiler

namespace AstOracle

open Vm
open Verifier (width Apart)

variable {source : List UInt8} {S : Setting} {A : Activation} {scope : HashMap String Slot}
  {oracle oracle' : AstOracle} {vm vm' : Vm} {name : String} {stack : List Int}

/-! ## The start -/

theorem lookup_collectGlobals_of_notMem {slots : HashMap String Slot} {globs : List GlobalVar}
    (h : name ∉ globs.map GlobalVar.name) :
    (AstOracle.collectGlobals slots globs).lookup name = slots.lookup name := by
  induction globs generalizing slots with
  | nil => rfl
  | cons glob globs ih =>
    obtain ⟨hne, hrest⟩ := List.ne_and_not_mem_of_not_mem_cons (List.map_cons ▸ h)
    exact (ih hrest).trans (AList.lookup_insert_ne hne)

theorem lookup_collectGlobals {slots : HashMap String Slot} {globs : List GlobalVar}
    (hnodup : (globs.map GlobalVar.name).Nodup) {glob : GlobalVar} (hglob : glob ∈ globs) :
    (AstOracle.collectGlobals slots globs).lookup glob.name = some (globalSlot glob.arraySize) := by
  induction globs generalizing slots with
  | nil => cases hglob
  | cons glob' globs ih =>
    obtain ⟨hnew, hnodup⟩ := List.nodup_cons.mp (List.map_cons ▸ hnodup)
    rcases List.mem_cons.mp hglob with rfl | hglob
    · exact (lookup_collectGlobals_of_notMem hnew).trans (AList.lookup_insert _)
    · exact ih hnodup hglob

/-- The global that metadata are about. -/
theorem exists_global_of_lookup {p : Program} (h : Accepted source p) {info : GlobalInfo}
    (hinfo : (globalEnv p).globals.lookup name = some info) : ∃ glob ∈ p.globals, glob.name = name ∧
      info.isArray = glob.arraySize.isSome ∧
      info.arraySize = (glob.arraySize.map arrayUsize).getD 0 := by
  have hmem := AList.mem_lookup_iff.mp (Option.mem_def.mpr hinfo)
  rw [h.globals_eq, globalEntries] at hmem
  obtain ⟨info', hinfo', heq⟩ := List.mem_map.mp hmem
  obtain ⟨hname, hheq⟩ := Sigma.mk.inj heq
  obtain rfl := eq_of_heq hheq
  obtain ⟨glob, hglob, hname', harray, hsize, -⟩ := mem_globalInfos (List.mem_reverse.mp hinfo')
  exact ⟨glob, hglob, hname'.symm.trans hname, harray, hsize⟩

/-- All globals are zero at the start. -/
theorem globalsMatch_new {p : Program} (h : Accepted source p) :
    GlobalsMatch (globalEnv p).globals (new p).globals (List.replicate maxGlobalSlots 0) where
  length := List.length_replicate
  known name hname := by
    have hmem : name ∈ p.globals.map GlobalVar.name := by
      by_contra hmem
      have hnone : (new p).globals.lookup name = none := lookup_collectGlobals_of_notMem hmem
      exact AList.lookup_eq_none.mp hnone hname
    obtain ⟨glob, hglob, rfl⟩ := List.mem_map.mp hmem
    obtain ⟨info, hinfo, -⟩ := exists_globalInfo h hglob
    exact AList.lookup_isSome.mp (by rw [hinfo]; rfl)
  holds name info hinfo := by
    obtain ⟨glob, hglob, rfl, harray, hsize⟩ := exists_global_of_lookup h hinfo
    have hslot : (new p).globals.lookup glob.name = some (globalSlot glob.arraySize) :=
      lookup_collectGlobals h.nodup_globals hglob
    have hle := (globalsLaid h).le glob.name info hinfo
    have hzero (cell : Nat) (hcell : cell < maxGlobalSlots) :
        (List.replicate maxGlobalSlots (0 : Int))[cell]? = some 0 :=
      List.getElem?_replicate_of_lt hcell
    rw [hslot]
    unfold globalSlot
    cases hn : glob.arraySize with
    | none =>
      rw [hn] at harray
      rw [width, show info.isArray = false from harray] at hle
      exact ⟨harray, ⟨by decide, by decide⟩, hzero _ hle⟩
    | some n =>
      rw [hn] at harray hsize
      rw [width, if_pos (show info.isArray = true from harray),
        show info.arraySize = arrayUsize n from hsize, arrayUsize] at hle
      refine ⟨harray, List.length_replicate.trans hsize.symm, fun v hv ↦ ?_, fun i v hv ↦ ?_⟩
      · rw [List.eq_of_mem_replicate hv]
        exact ⟨by decide, by decide⟩
      · have hi := (List.getElem?_eq_some_iff.mp hv).1
        rw [List.length_replicate] at hi
        rw [List.getElem?_replicate_of_lt hi] at hv
        rw [← hv]
        exact hzero _ (by omega)

/-- The frame of `main`. -/
def mainFrame (p : Program) : CallFrame := ⟨usizeMax, 0, (compile p).mainFuncId⟩

/-- The state in which the machine starts, without a limit of cycles. -/
def startState (p : Program) : Vm :=
  { Vm.new with
    pc := entryPc p (compile p).mainFuncId
    callStack := [mainFrame p]
    maxCycles := 0 }

/-- The activation of `main` while the globals are initialized: no local is known. -/
def initActivation (p : Program) (main : Function) : Activation where
  locals := ∅
  base := 0
  count := (globalEnv p).localCount main
  low := maxLocalSlots
  callStack := [mainFrame p]

/-- The states correspond at the start. -/
theorem matches_start (hfits : S.Fits source) (main : Function) (hframes : S.rules.frameLimit.frames + 1 = maxFrames) :
    Matches S (initActivation S.program main) ∅ (new S.program) (startState S.program) where
  plain := ⟨rfl, rfl⟩
  bound := by
    rw [CellsBound, startState, Vm.new, List.length_replicate]
    exact Nat.le_add_right ..
  pace := Nat.le_refl 0
  budget := Nat.zero_le _
  callStack := rfl
  depth := by
    change 1 + S.rules.frameLimit.frames = 0 + maxFrames
    omega
  output_eq := rfl
  globals := globalsMatch_new hfits.accepted
  low := List.length_replicate.ge
  inScope := .outside
  locals := {
    known := fun name hname ↦ absurd hname (AList.notMem_empty name)
    holds := fun name loc hloc ↦ by rw [initActivation, AList.lookup_empty] at hloc; cases hloc
    apart := fun name name' loc loc' values values' first first' _ hloc ↦ by
      rw [initActivation, AList.lookup_empty] at hloc
      cases hloc }

section

variable {main : Function} (hfits : S.Fits source)
  (hmain : S.program.functions[(compile S.program).mainFuncId]? = some main)
include hfits hmain

/-- The frame of `main` while it runs. -/
theorem current_main : Current S.code [mainFrame S.program] 0
    ((globalEnv S.program).localCount main) where
  frame := ⟨_, _, _, rfl, rfl, hfits.accepted.lookup_iff.mpr ⟨main, hmain, rfl⟩, rfl⟩
  limit := by
    rw [Nat.zero_add]
    exact ((globalEnv S.program).localCount_le_localSlots main).trans
      (hfits.accepted.wellFormed.functions main (List.mem_of_getElem? hmain)).slots

theorem laid_initActivation : (initActivation S.program main).Laid S where
  slot_lt name loc hloc := by rw [initActivation, AList.lookup_empty] at hloc; cases hloc
  size_lt name loc hloc := by rw [initActivation, AList.lookup_empty] at hloc; cases hloc
  distinct name name' loc loc' hloc := by rw [initActivation, AList.lookup_empty] at hloc; cases hloc
  hidden name hname := absurd hname (AList.notMem_empty name)
  current := current_main hfits hmain
  low_ge := le_rfl

end

/-! ## Initializers -/

/-- The environment of the initializers. -/
def initEnv (p : Program) (main : Function) : Env := (globalEnv p).ofFunction main

/-- The credit covers every initializer. -/
def Setting.CoversInits (S : Setting) (globs : List GlobalVar) (oracle : AstOracle) (vm : Vm) :
    Prop :=
  ∀ glob ∈ globs, ∀ init ∈ glob.initExpr, Covered S init.nodes oracle vm

/-- What the initialization of globals comes to. -/
structure Initialized (S : Setting) (A : Activation) (stack : List Int) (pc : Nat)
    (oracle : AstOracle) (vm : Vm) (_ : Unit) (oracle' : AstOracle) (vm' : Vm) : Prop where
  stack_eq : vm'.stack = stack
  pc_eq : vm'.pc = pc
  matched : Matches S A ∅ oracle' vm'
  undisturbed : Undisturbed A vm.locals vm'.locals
  spent : Spent S 0 0 oracle vm oracle' vm'

/-- The assignment to a global of its initial value. -/
theorem sim_assignGlobalScalar (hlaid : A.Laid S) (hS : S.Ok) {info : GlobalInfo}
    (hinfo : S.globals.lookup name = some info) (hscalar : info.isArray = false)
    (hm : Matches S A scope oracle vm) (hpace : vm.cycles < 3 * oracle.cycles) {value : Int}
    (hvalue : IsI32 value) (hstack : vm.stack = value :: stack)
    (hcode : CodeAt S vm.pc [⟨.storeGlobal, asI32 info.slot, 0⟩]) :
    Sim S (assignGlobalScalar name value) (fun _ oracle' vm' ↦ vm'.stack = stack ∧
      vm'.pc = vm.pc + 1 ∧ Matches S A scope oracle' vm' ∧ vm'.locals = vm.locals ∧
      oracle'.cycles = oracle.cycles ∧ vm'.cycles = vm.cycles + 1) oracle vm := by
  obtain ⟨old, hold, -, -⟩ := hm.globals.scalar hinfo hscalar
  have hle := hS.laid.le name info hinfo
  rw [width, hscalar] at hle
  have hslot : info.slot < maxGlobalSlots := hle
  refine .step (step_storeGlobal (hm.fetches hlaid hcode) hstack hm.globals.length hslot) ?_
  rw [assignGlobalScalar]
  refine .get_bind ?_
  rw [hold]
  refine .update ⟨rfl, rfl, hm.withGlobals hpace ?_, rfl, rfl, rfl⟩
  rw [normalizeI32_eq hvalue]
  refine hm.globals.write hS.laid hinfo (i := 0) ?_ ⟨hscalar, hvalue, ?_⟩
  · rw [width, hscalar]
    exact Nat.one_pos
  · exact List.getElem?_set_self (hm.globals.length ▸ hslot)

theorem Setting.CoversInits.kept {globs : List GlobalVar} {slack : Nat}
    (h : S.CoversInits globs oracle vm) (hspent : Spent S slack 0 oracle vm oracle' vm') :
    S.CoversInits globs oracle' vm' :=
  fun glob hglob init hinit ↦ (h glob hglob init hinit).kept hspent

/-- **The initialization of the globals.** -/
theorem sim_initializeGlobals (hfits : S.Fits source) {main : Function}
    (hlaid : A.Laid S) (hparams : main.params = []) (fuel : Nat) {globs : List GlobalVar}
    (hglobs : ∀ glob ∈ globs, glob ∈ S.program.globals) (hm : Matches S A ∅ oracle vm)
    (hcode : CodeAt S vm.pc ((initEnv S.program main).globalInitsCode globs vm.pc))
    (hcovers : S.CoversInits globs oracle vm) :
    Sim S (initializeGlobals S.rules S.program fuel globs)
      (Initialized S A vm.stack
        (vm.pc + ((initEnv S.program main).globalInitsCode globs vm.pc).length) oracle vm)
      oracle vm := by
  have hempty : initEnv S.program main =
      { globalEnv S.program with locals := ∅, nextLocalSlot := 0 } := by
    rw [initEnv, Env.ofFunction, hparams, Env.withParams]
  induction globs generalizing oracle vm with
  | nil => exact .pure ⟨rfl, rfl, hm, .refl .., by omega, by omega⟩
  | cons glob globs ih =>
    obtain ⟨hglob, hglobs⟩ := List.forall_mem_cons.mp hglobs
    obtain ⟨hcover, hcovers⟩ : S.CoversInits [glob] oracle vm ∧ S.CoversInits globs oracle vm :=
      ⟨fun g hg ↦ hcovers g (List.mem_singleton.mp hg ▸ List.mem_cons_self),
        fun g hg ↦ hcovers g (List.mem_cons_of_mem _ hg)⟩
    rw [initializeGlobals]
    rw [Env.globalInitsCode] at hcode ⊢
    cases hinit : glob.initExpr with
    | none =>
      rw [hinit] at hcode
      exact ih hglobs hm hcode hcovers
    | some init =>
      rw [hinit] at hcode
      dsimp only at hcode ⊢
      obtain ⟨info, hinfo, harray, -⟩ := exists_globalInfo hfits.accepted hglob
      have hglobals : (initEnv S.program main).globals = S.globals := by rw [hempty]; rfl
      -- the grammar has no initial values for arrays
      have hscalar : info.isArray = false := by
        have hplain := (hfits.accepted.parsed.sourceForm.globals glob hglob).plain
        cases hsize : glob.arraySize with
        | none => rw [harray, hsize]; rfl
        | some n =>
          rw [hplain (by rw [hsize]; rfl)] at hinit
          cases hinit
      -- an initial value sees the globals and functions of the program, and no local
      have hsees : Sees S A ∅ S.program.topLevel (initEnv S.program main) := by
        rw [hempty]
        refine Live.sees hfits.ok ⟨rfl, rfl, fun _ _ hloc ↦ ?_⟩
          (Tracks.empty S.program.topLevel (fun _ ↦ none) (globalEnv S.program))
          (fun _ _ hname ↦ .inl hname) fun name hname ↦ absurd hname (AList.notMem_empty name)
        rw [AList.lookup_empty] at hloc
        cases hloc
      have hinfo' : S.globals.lookup glob.name = some info := hinfo
      rw [hglobals, hinfo', Option.map_some, Option.getD_some] at hcode ⊢
      refine .bind (evaluates_expr hfits.ok hlaid (callsOk hfits fuel) hsees init
        (hfits.accepted.wellFormed.inits glob hglob init hinit)
        (hfits.quiet.inits glob hglob init hinit) oracle vm hm hcode.left.left
        (hcover glob List.mem_cons_self init hinit)) fun value oracle₁ vm₁ hyields ↦ ?_
      obtain ⟨hsteps, hticks⟩ := hyields.spent
      have hpace := hm.pace
      have hstore := hcode.left.right
      rw [← hyields.pc_eq] at hstore
      refine .bind (sim_assignGlobalScalar hlaid hfits.ok hinfo hscalar hyields.matched (by omega)
        hyields.isI32 hyields.stack_eq hstore) ?_
      rintro _ oracle₂ vm₂ ⟨hstack₂, hpc₂, hm₂, hlocals, hcycles, hcycles'⟩
      -- the tick of the store is paid for by its step
      have hspent₂ : Spent S 0 0 oracle vm oracle₂ vm₂ := by
        refine ⟨by omega, ?_⟩
        rw [hcycles', Nat.mul_succ]
        omega
      have hpc : vm₂.pc = vm.pc + (((initEnv S.program main).exprCode init vm.pc).length + 1) := by
        rw [hpc₂, hyields.pc_eq, Nat.add_assoc]
      have hrest := hcode.right
      rw [List.length_append, List.length_singleton, ← hpc] at hrest
      refine (ih hglobs hm₂ hrest (hcovers.kept hspent₂)).mono fun _ oracle₃ vm₃ h ↦ ?_
      refine ⟨h.stack_eq.trans hstack₂, ?_, h.matched,
        (hlocals ▸ hyields.undisturbed).trans h.undisturbed, hspent₂.trans h.spent⟩
      rw [h.pc_eq]
      simp only [List.length_append, List.length_singleton, ← hpc, Nat.add_assoc]
      rw [hpc]
      omega

/-! ## Programs -/

/-- The machine, run from `vm` on, succeeds as the oracle has. -/
structure Succeeds (S : Setting) (value : Int) (oracle : AstOracle) (vm : Vm) (result : VmResult) :
    Prop where
  ends : Halts S.code vm result
  success : result.success = true
  returnValue : result.returnValue = value
  trapCode : result.trapCode = .none
  output_eq : result.output = oracle.output
  pace : result.cycles ≤ 3 * S.rules.maxCycles
  paid : oracle.cycles ≤ S.credit + S.rate * result.cycles

/-- The run of the machine ends with the value of `main`. -/
def Ended (S : Setting) (value : Int) (oracle : AstOracle) (vm : Vm) : Prop :=
  ∃ result, Succeeds S value oracle vm result

/-- The end of `main`. -/
theorem sim_endMain {value : Int} {frame : CallFrame} (hlaid : A.Laid S)
    (hm : Matches S A scope oracle vm) (hcallStack : A.callStack = [frame])
    (hpc : frame.returnPc = usizeMax) (hvalue : IsI32 value) (hstack : vm.stack = value :: stack)
    (hcode : CodeAt S vm.pc [.simple .return]) (hpace : vm.cycles < 3 * oracle.cycles)
    (hcovered : Covered S 0 oracle vm) :
    Sim S (do
      modify fun oracle ↦ { oracle with frames := oracle.frames.tail }
      return normalizeI32 value) (Ended S) oracle vm := by
  rcases ends_return (hm.fetches hlaid hcode) hstack (hm.callStack.trans hcallStack) hpc with
    hshort | ⟨result, hhalts, hsuccess, hreturn, htrap, houtput, hcycles⟩
  · exact .inl (hshort.mono (hm.cycles_lt hpace))
  refine .bind (.update (Q := fun _ oracle' vm' ↦
    oracle' = { oracle with frames := oracle.frames.tail } ∧ vm' = vm) ⟨rfl, rfl⟩) ?_
  rintro _ _ _ ⟨rfl, rfl⟩
  rw [normalizeI32_eq hvalue]
  rw [Covered] at hcovered
  have hlimit := hm.cycles_lt hpace
  refine .pure ⟨result, hhalts, hsuccess, hreturn, htrap, houtput.trans hm.output_eq, ?_, ?_⟩
  · omega
  · dsimp only
    rw [hcycles, Nat.mul_succ]
    omega

/-- What the body of `main` comes to, the run ends with. -/
theorem sim_mainEnd {root : HashMap String Slot} {Γ' : Names} {frames : List Frame}
    {nodes pc : Nat} {oracle₁ : AstOracle} {vm₁ : Vm} {control : Control} {frame : CallFrame}
    (hlaid : A.Laid S) (hcallStack : A.callStack = [frame]) (hpc : frame.returnPc = usizeMax)
    (hcode : CodeAt S pc [⟨.loadConst, 0, 0⟩, .simple .return])
    (hbody : Finishes S A frames root Γ' nodes stack pc oracle₁ vm₁ control oracle vm)
    (hpace : vm.cycles + 1 < 3 * oracle.cycles) (hcovered : Covered S 0 oracle vm) :
    Sim S (do
      modify fun oracle ↦ { oracle with frames := oracle.frames.tail }
      return normalizeI32 control.value) (Ended S) oracle vm := by
  obtain ⟨scope', hran, hrest⟩ := hbody
  cases control with
  | «continue» =>
    obtain ⟨-, -, rfl⟩ := hrest
    refine .advance (puts_loadConst (hran.matched.fetches hlaid hcode)).advances
      (hran.matched.cycles_lt (by omega)) ?_
    refine sim_endMain hlaid (hran.matched.next (by omega)) hcallStack hpc
      ⟨by decide, by decide⟩ rfl hcode.tail hpace ?_
    rw [Covered] at hcovered ⊢
    dsimp only
    rw [Nat.mul_succ]
    omega
  | «return» value =>
    obtain ⟨hvalue, hstack, hcode'⟩ := hrest
    exact sim_endMain hlaid hran.matched hcallStack hpc hvalue hstack hcode' (by omega) hcovered

section

variable {main : Function} (hfits : S.Fits source)
  (hmain : S.program.functions[(compile S.program).mainFuncId]? = some main)
  (hname : main.name = "main")
include hfits hmain hname

/-- The address of the body of `main`. -/
def bodyPc (p : Program) (main : Function) : Nat :=
  entryPc p (compile p).mainFuncId +
    ((initEnv p main).globalInitsCode p.globals (entryPc p (compile p).mainFuncId)).length

theorem codeAt_main : CodeAt S (entryPc S.program (compile S.program).mainFuncId)
      ((initEnv S.program main).globalInitsCode S.program.globals
        (entryPc S.program (compile S.program).mainFuncId)) ∧
    CodeAt S (bodyPc S.program main)
      ((initEnv S.program main).stmtsCode main.body (bodyPc S.program main) ++
        [⟨.loadConst, 0, 0⟩, .simple .return]) := by
  have hcode := codeAt_function hfits.accepted hmain
  rw [Env.functionCode, if_pos hname, List.append_assoc] at hcode
  exact ⟨hcode.left, hcode.right⟩

/-- The call of `main`, which the machine is in from the start. -/
theorem sim_callMain (hparams : main.params = []) (hframes : S.rules.frameLimit.frames = maxFrames)
    (fuel : Nat) (hcount : oracle.frames = []) (hplain : Plain vm) (hbound : CellsBound vm)
    (hpace : vm.cycles ≤ 3 * oracle.cycles) (hcallStack : vm.callStack = [mainFrame S.program])
    (houtput : vm.output = oracle.output)
    (hglobals : GlobalsMatch S.globals oracle.globals vm.globals)
    (hlow : maxLocalSlots ≤ vm.locals.length)
    (hcells : ∀ i < (globalEnv S.program).localCount main, vm.locals[i]? = some i64Min)
    (hstack : vm.stack = []) (hpc : vm.pc = bodyPc S.program main)
    (hcovered : Covered S (nodesList main.body + 1) oracle vm) :
    Sim S (callFunction S.rules S.program fuel "main" []) (Ended S) oracle vm := by
  have h := hfits.accepted
  have hmem := List.mem_of_getElem? hmain
  cases fuel with
  | zero => exact .outOfFuel
  | succ fuel =>
    rw [callFunction]
    rw [Covered] at hcovered
    -- the oracle ticks for the call and pushes a frame; the machine is in the frame already
    refine .bind (.tick (by omega) (Q := fun _ oracle' vm' ↦
      oracle.cycles + 1 ≤ S.rules.maxCycles ∧
        oracle' = { oracle with cycles := oracle.cycles + 1 } ∧ vm' = vm) (⟨·, rfl, rfl⟩)) ?_
    rintro _ oracle₁ vm₁ ⟨hbudget, horacle, hvm₁⟩
    subst hvm₁
    refine .get_bind ?_
    have hnone : oracle₁.frames = [] := by rw [horacle, hcount]
    have hlookup : (collectFunctions ∅ S.program.functions).lookup "main" = some main :=
      hname ▸ lookup_collectFunctions h.nodup hmem
    rw [hnone, if_neg (by rw [hframes]; decide), hlookup]
    dsimp only
    rw [hparams, if_neg (show ¬([] : List Int).length ≠ ([] : List Param).length from not_not.mpr rfl)]
    refine .bind (.update (Q := fun _ oracle' vm' ↦ oracle' = { oracle₁ with
      frames := ⟨[∅]⟩ :: oracle₁.frames } ∧ vm' = vm₁) ⟨rfl, rfl⟩) ?_
    rintro _ oracle₂ vm₂ ⟨horacle₂, hvm₂⟩
    subst hvm₂
    rw [hnone] at horacle₂
    obtain ⟨Γ, Γ₀, hbody, htracks⟩ := h.tracks hmem
    have hlaid := laid_activation h hmem hfits.agree rfl (current_main hfits hmain) le_rfl
    have hroot : rootScope ∅ main.params [] = ∅ := by rw [hparams]; rfl
    -- no parameter and no local has a value yet, on either side
    have hlocals : LocalsMatch (activation S.program main 0 maxLocalSlots [mainFrame S.program])
        (rootScope ∅ main.params []) vm₂.locals :=
      localsMatch_rootScope h hmem (hparams ▸ rfl) (fun _ hvalue ↦ absurd hvalue List.not_mem_nil)
        (fun i value hvalue ↦ by cases hvalue)
        fun i _ hi ↦ by rw [Nat.zero_add]; exact hcells i hi
    have hlive : Live S.program.topLevel Γ (rootScope ∅ main.params []) :=
      live_rootScope h hmem htracks (hparams ▸ rfl)
    rw [hroot] at hlocals hlive
    have hcycles : oracle₂.cycles = oracle.cycles + 1 := by rw [horacle₂, horacle]
    have hm : Matches S (activation S.program main 0 maxLocalSlots [mainFrame S.program]) ∅ oracle₂
        vm₂ := by
      refine ⟨hplain, hbound, by omega, by omega, hcallStack, ?_, ?_, ?_, hlow, ?_, hlocals⟩
      · rw [hcallStack, horacle₂, hframes]
        exact Nat.add_comm ..
      · rw [horacle₂, horacle]
        exact houtput
      · rw [horacle₂, horacle]
        exact hglobals
      · rw [horacle₂]
        exact .inside ∅ []
    have hcode := (codeAt_main hfits hmain hname).2
    rw [← hpc, initEnv] at hcode
    have hcovered₂ : Covered S (nodesList main.body) oracle₂ vm₂ := by
      rw [Covered]
      omega
    obtain ⟨Γ', hrun⟩ := executes_body hfits (callsOk hfits fuel) hmem hlaid ⟨Γ₀, hbody⟩ htracks
    refine (hrun ∅ oracle₂ vm₂ hm (by rw [horacle₂]) hlive hcode.left hcovered₂).bind
      fun control oracle₃ vm₃ hfinishes ↦ ?_
    obtain ⟨scope₃, hran⟩ := hfinishes.ran
    have hsteps := hran.spent.steps
    have hcovered₃ : Covered S 0 oracle₃ vm₃ := by
      have hticks := hran.spent.ticks
      rw [Covered] at hcovered₂ ⊢
      omega
    exact sim_mainEnd hlaid rfl rfl hcode.right hfinishes (by omega) hcovered₃

end

/-! ## The whole run -/

/-- The ticks of an initializer. -/
def initNodes (glob : GlobalVar) : Nat := (glob.initExpr.map Expr.nodes).getD 0

/-- The ticks of one pass through the body of a function, and the two of a call. -/
def functionNodes (func : Function) : Nat := nodesList func.body + 2

/-- The setting in which a program is simulated. -/
def settingOf (p : Program) (rules : Rules) : Setting where
  program := p
  rules := rules
  rate := (p.functions.map functionNodes).sum
  credit := (p.functions.map functionNodes).sum + (p.globals.map initNodes).sum

theorem functionNodes_le {p : Program} (rules : Rules) {func : Function} (h : func ∈ p.functions) :
    functionNodes func ≤ (settingOf p rules).rate :=
  List.le_sum_of_mem (List.mem_map_of_mem h)

theorem pays_settingOf (p : Program) (rules : Rules) : (settingOf p rules).Pays :=
  fun _ hfunc ↦ functionNodes_le rules hfunc

theorem coversInits_settingOf (p : Program) (rules : Rules) :
    (settingOf p rules).CoversInits p.globals (new p) (startState p) := by
  intro glob hglob init hinit
  have hle : initNodes glob ≤ (p.globals.map initNodes).sum :=
    List.le_sum_of_mem (List.mem_map_of_mem hglob)
  rw [initNodes, show glob.initExpr = some init from hinit, Option.map_some, Option.getD_some] at hle
  have hcredit : (settingOf p rules).credit = (settingOf p rules).rate +
      (p.globals.map initNodes).sum := rfl
  have hnew : (new p).cycles = 0 := rfl
  rw [Covered]
  omega

/-- **The machine does what the oracle does**, from the start to the end: it may run short of
something, or else it succeeds where the oracle does, and with the same outcome, it traps where the
oracle does, and it takes as many steps as it takes the oracle to use up its ticks. -/
theorem sim_execute {p : Program} {rules : Rules} (hfits : (settingOf p rules).Fits source)
    (hmax : rules.frameLimit.frames = maxFrames)
    (hinit : rules.initFrameLimit.frames + 1 = maxFrames)
    (hoverflows : rules.initFrameLimit.refuses = false) (fuel : Nat) :
    Sim (settingOf p rules) (execute rules p fuel) (Ended (settingOf p rules)) (new p)
      (startState p) := by
  obtain ⟨main, hmain, hname, hparams⟩ := hfits.accepted.exists_main
  have hmem := List.mem_of_getElem? hmain
  -- the setting while the globals are initialized
  let S' : Setting := settingOf p { rules with frameLimit := rules.initFrameLimit }
  have hfits' : S'.Fits source := { hfits with pays := pays_settingOf p _, overflows := hoverflows }
  obtain ⟨hinits, -⟩ := codeAt_main hfits' hmain hname
  have hstart := matches_start hfits' main hinit
  have hlaid := laid_initActivation hfits' hmain
  rw [execute]
  refine .bind (sim_initializeGlobals hfits' hlaid hparams fuel (fun _ ↦ id) hstart hinits
    (coversInits_settingOf p _)) fun _ oracle vm h ↦ ?_
  have hm := h.matched
  have hframes : oracle.frames = [] := by
    have hdepth := hm.depth
    have hone : vm.callStack.length = 1 := congrArg List.length hm.callStack
    have hrules : S'.rules.frameLimit.frames = rules.initFrameLimit.frames := rfl
    exact List.eq_nil_of_length_eq_zero (by omega)
  have hcells (i : Nat) (hi : i < (globalEnv p).localCount main) : vm.locals[i]? = some i64Min := by
    have hlimit := hlaid.current.limit
    have hcount : (0 : Nat) + (globalEnv p).localCount main ≤ maxLocalSlots := hlimit
    rw [h.undisturbed.slots i ((Nat.zero_add _).symm ▸ hi)]
    exact List.getElem?_replicate_of_lt (by omega)
  have hcovered : Covered (settingOf p rules) (nodesList main.body + 1) oracle vm := by
    have hle := @functionNodes_le p rules main hmem
    have hticks := h.spent.ticks
    have hstart : (new p).cycles = 0 := rfl
    have hsteps : (startState p).cycles = 0 := rfl
    have hrate : S'.rate = (settingOf p rules).rate := rfl
    have hcredit : (settingOf p rules).credit = (settingOf p rules).rate +
      (p.globals.map initNodes).sum := rfl
    rw [hstart, hsteps, hrate] at hticks
    rw [functionNodes] at hle
    rw [Covered]
    omega
  exact sim_callMain hfits hmain hname hparams hmax fuel hframes hm.plain hm.bound hm.pace
    hm.callStack hm.output_eq hm.globals hm.low hcells h.stack_eq h.pc_eq hcovered

end AstOracle

end MiniLang
