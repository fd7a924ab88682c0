import MiniLang.Oracle.Statements

/-!
# Functions

The activation that a call enters, and what a call comes to: the code of a function does what the
oracle does with the function. From calls of less depth follow those of more.

## Entering a function

The arguments are the last operands of the caller; the machine pops them into the first cells of the
new window and marks the others. On the oracle's side the root scope has the parameters and nothing
else. `matches_callee` says that the two agree, with all names of the function known to the
activation and only the parameters visible, which is where the simulation of the body starts.

## Leaving it

A body that runs to its end falls into the instructions behind it, which return 0; one that returns
has its value on the stack. In both cases a return instruction follows (`sim_bodyEnd`), and the
caller finds its cells and arrays undisturbed, because the callee's window lies above its own and
the callee's arrays were appended.

## The depth of calls

Recursion of the program is not structural, so the induction is on the fuel of the oracle. Without
fuel there is nothing to match. With fuel a call either meets the limit of frames, where both sides
trap alike, or enters a body whose calls have less fuel. That the fuel does not run out is shown
elsewhere, from the limit of ticks.
-/

namespace MiniLang

open Compiler

/-- No expression of the program calls `main`. -/
structure Program.NoMainCalls (p : Program) : Prop where
  bodies : ∀ func ∈ p.functions, "main" ∉ calleesList func.body
  inits : ∀ glob ∈ p.globals, ∀ init ∈ glob.initExpr, "main" ∉ init.callees

namespace AstOracle

open Vm
open Verifier (Apart)

variable {source : List UInt8} {S : Setting} {A : Activation} {scope : HashMap String Slot}
  {oracle oracle' : AstOracle} {vm vm' : Vm} {name : String} {stack : List Int}

/-! ## Accepted programs -/

/-- A step pays for the ticks of one pass through the body of a function, and for the two ticks of a
call. -/
def Setting.Pays (S : Setting) : Prop :=
  ∀ func ∈ S.program.functions, nodesList func.body + 2 ≤ S.rate

/-- The program of the simulation is accepted and small, the declarations of each name agree, and
the oracle follows the machine where it has a choice. -/
structure Setting.Fits (S : Setting) (source : List UInt8) : Prop where
  accepted : Accepted source S.program
  agree : S.program.DeclsAgree
  quiet : S.program.NoMainCalls
  small : S.code.instructions.length < 2 ^ 31
  late : S.rules.indexCheck = .late
  overflows : S.rules.frameLimit.refuses = false
  pays : S.Pays

theorem globalsLaid {p : Program} (h : Accepted source p) : GlobalsLaid (globalEnv p).globals := by
  have hglobals : (compile p).globals = (globalEnv p).globals := (compile_eq h.nodup).2.2.1
  have hvalues {name : String} {info : GlobalInfo}
      (hinfo : (globalEnv p).globals.lookup name = some info) :
      info ∈ (compile p).globals.values ∧ info.name = name := by
    have hmem := AList.mem_lookup_iff.mp (Option.mem_def.mpr hinfo)
    refine ⟨hglobals ▸ List.mem_map_of_mem hmem, ?_⟩
    rw [h.globals_eq, globalEntries] at hmem
    obtain ⟨info', -, heq⟩ := List.mem_map.mp hmem
    obtain ⟨rfl, hinfo'⟩ := Sigma.mk.inj heq
    rw [eq_of_heq hinfo']
  constructor
  · exact fun name info hinfo ↦ (h.globalOk info (hvalues hinfo).1).2
  · exact fun name info hinfo harray ↦
      Nat.pos_of_ne_zero ((h.globalOk info (hvalues hinfo).1).1 harray)
  · intro name name' info info' hne hinfo hinfo'
    have hsymm : Std.Symm Apart := ⟨fun _ _ ↦ Or.symm⟩
    refine h.apart_globals.forall (hvalues hinfo).1 (hvalues hinfo').1 ?_
    rintro rfl
    exact hne ((hvalues hinfo).2.symm.trans (hvalues hinfo').2)

/-- The metadata of a global. -/
theorem exists_globalInfo {p : Program} (h : Accepted source p) {glob : GlobalVar}
    (hglob : glob ∈ p.globals) : ∃ info, (globalEnv p).globals.lookup glob.name = some info ∧
      info.isArray = glob.arraySize.isSome ∧
      info.arraySize = (glob.arraySize.map arrayUsize).getD 0 := by
  obtain ⟨info, hmem, hname⟩ := exists_mem_globalInfos hglob 0
  obtain ⟨glob', hglob', hname', harray, hsize, -⟩ := mem_globalInfos hmem
  obtain rfl : glob' = glob :=
    List.inj_on_of_nodup_map h.nodup_globals hglob' hglob (hname'.symm.trans hname)
  refine ⟨info, ?_, harray, hsize⟩
  rw [← Option.mem_def, AList.mem_lookup_iff, h.globals_eq, globalEntries]
  exact List.mem_map.mpr ⟨info, List.mem_reverse.mpr hmem, by rw [hname]⟩

theorem Setting.Fits.ok (h : S.Fits source) : S.Ok where
  small := h.small
  laid := globalsLaid h.accepted
  rate := by
    obtain ⟨main, hmain, -⟩ := h.accepted.wellFormed.main
    exact (Nat.le_add_left 2 _).trans (h.pays main hmain)
  late := h.late
  scalar name t hname := by
    rcases topLevel_cases hname with ⟨glob, hglob, rfl, hentity⟩ | ⟨func, -, -, hentity⟩
    · obtain ⟨info, hinfo, harray, -⟩ := exists_globalInfo h.accepted hglob
      refine ⟨info, hinfo, harray.trans ?_⟩
      cases hsize : glob.arraySize with
      | none => rfl
      | some n =>
        rw [hsize] at hentity
        cases hentity
    · cases hentity
  array name t hname := by
    rcases topLevel_cases hname with ⟨glob, hglob, rfl, hentity⟩ | ⟨func, -, -, hentity⟩
    · obtain ⟨info, hinfo, harray, -⟩ := exists_globalInfo h.accepted hglob
      refine ⟨info, hinfo, harray.trans ?_⟩
      cases hsize : glob.arraySize with
      | none =>
        rw [hsize] at hentity
        cases hentity
      | some n => rfl
    · cases hentity
  function name params hname := by
    rcases topLevel_cases hname with ⟨glob, -, -, hentity⟩ | ⟨func, hfunc, rfl, hentity⟩
    · rw [varEntity] at hentity
      split at hentity <;> cases hentity
    · obtain rfl := Entity.function.inj hentity
      exact ⟨func, hfunc, rfl, (List.length_map _).symm⟩

/-! ## The scope of the parameters -/

theorem lookup_rootScope_of_notMem {params : List Param} (values : List Int)
    (h : name ∉ params.map Param.name) : (rootScope scope params values).lookup name =
      scope.lookup name := by
  induction params generalizing scope values with
  | nil => rfl
  | cons param params ih =>
    obtain ⟨hne, hrest⟩ := List.ne_and_not_mem_of_not_mem_cons (List.map_cons ▸ h)
    cases values with
    | nil => rfl
    | cons value values => exact (ih values hrest).trans (AList.lookup_insert_ne hne)

theorem lookup_rootScope {params : List Param} (hnodup : (params.map Param.name).Nodup)
    {values : List Int} (hlength : values.length = params.length) {i : Nat} {param : Param}
    (hparam : params[i]? = some param) : ∃ value, values[i]? = some value ∧
      (rootScope scope params values).lookup param.name =
        some (.scalar (some (normalizeI32 value))) := by
  induction params generalizing scope values i with
  | nil => cases hparam
  | cons param' params ih =>
    obtain ⟨hnew, hnodup⟩ := List.nodup_cons.mp (List.map_cons ▸ hnodup)
    cases values with
    | nil => cases hlength
    | cons value values =>
      cases i with
      | zero =>
        obtain rfl := Option.some_inj.mp hparam
        refine ⟨value, rfl, ?_⟩
        rw [rootScope, lookup_rootScope_of_notMem values hnew, AList.lookup_insert]
      | succ i => exact ih hnodup (Nat.succ_inj.mp hlength) hparam

/-- A name of the root scope is that of a parameter. -/
theorem mem_of_mem_rootScope {params : List Param} {values : List Int}
    (h : name ∈ rootScope ∅ params values) : name ∈ params.map Param.name := by
  by_contra hname
  rw [← AList.lookup_isSome, lookup_rootScope_of_notMem values hname, AList.lookup_empty] at h
  cases h

/-! ## Activations of functions -/

/-- The environment at the end of a function, where all of its names have slots. -/
def finalEnv (p : Program) (func : Function) : Env :=
  ((globalEnv p).ofFunction func).afterStmts func.body

/-- An activation of a function. -/
def activation (p : Program) (func : Function) (base low : Nat) (callStack : List CallFrame) :
    Activation where
  locals := (finalEnv p func).locals
  base := base
  count := (globalEnv p).localCount func
  low := low
  callStack := callStack

section

variable {p : Program} {func : Function} (h : Accepted source p) (hfunc : func ∈ p.functions)
include h hfunc

/-- The locals where a function is entered. -/
theorem localsMatch_rootScope {base low : Nat} {callStack : List CallFrame} {values : List Int}
    (hlength : values.length = func.params.length) (hi32 : ∀ value ∈ values, IsI32 value)
    {cells : List Int} (hgiven : ∀ i value, values[i]? = some value → cells[base + i]? = some value)
    (hrest : ∀ i, values.length ≤ i → i < (globalEnv p).localCount func →
      cells[base + i]? = some i64Min) :
    LocalsMatch (activation p func base low callStack) (rootScope ∅ func.params values) cells := by
  obtain ⟨Γ, Γ', hparams, -⟩ := (h.wellFormed.functions func hfunc).body
  have hnodup := hparams.nodup
  have hapart : (finalEnv p func).SlotsApart :=
    (Env.SlotsApart.ofFunction _ func).afterStmts func.body
  -- the slot of a parameter is its position, to the end of the body
  have hslot (i : Nat) (param : Param) (hparam : func.params[i]? = some param) :
      (finalEnv p func).locals.lookup param.name = some ⟨i, false, 0⟩ := by
    have hlookup := @Env.lookup_withParams { globalEnv p with locals := ∅, nextLocalSlot := 0 }
      func.params hnodup i param hparam
    rw [Nat.zero_add] at hlookup
    exact Env.lookup_afterStmts hlookup func.body
  have hvalue (i : Nat) (param : Param) (hparam : func.params[i]? = some param) :
      ∃ value, values[i]? = some value ∧ (rootScope ∅ func.params values).lookup param.name =
        some (.scalar (some (normalizeI32 value))) := lookup_rootScope hnodup hlength hparam
  have hparam_of_mem {name : String} (hname : name ∈ func.params.map Param.name) :
      ∃ (i : Nat) (param : Param), func.params[i]? = some param ∧ param.name = name := by
    obtain ⟨param, hmem, hname⟩ := List.mem_map.mp hname
    obtain ⟨i, hi⟩ := List.mem_iff_getElem?.mp hmem
    exact ⟨i, param, hi, hname⟩
  constructor
  · intro name hname
    obtain ⟨i, param, hparam, rfl⟩ := hparam_of_mem (mem_of_mem_rootScope hname)
    exact AList.lookup_isSome.mp (by rw [activation, hslot i param hparam]; rfl)
  · intro name loc hloc
    by_cases hname : name ∈ func.params.map Param.name
    · obtain ⟨i, param, hparam, rfl⟩ := hparam_of_mem hname
      obtain rfl := Option.some_inj.mp (hloc.symm.trans (hslot i param hparam))
      obtain ⟨value, hvalue, hscope⟩ := hvalue i param hparam
      have hvalue32 := hi32 value (List.mem_of_getElem? hvalue)
      rw [hscope, normalizeI32_eq hvalue32]
      exact ⟨rfl, fun v hv ↦ Option.some_inj.mp hv ▸ hvalue32, hgiven i value hvalue⟩
    -- any other slot is behind the parameters, where the cells have no value yet
    · rw [lookup_rootScope_of_notMem values hname, AList.lookup_empty]
      refine hrest loc.slot ?_ (hapart.below.lt hloc)
      by_contra hlt
      rw [hlength, Nat.not_le] at hlt
      have hslots : ((globalEnv p).ofFunction func).nextLocalSlot = func.params.length := by
        rw [Env.ofFunction, Env.withParams_nextLocalSlot, Nat.zero_add]
      have hlookup := (Env.extends_afterStmts _ func.body).lookup_of_lt hloc (hslots ▸ hlt)
      rw [Env.ofFunction, Env.lookup_withParams_of_notMem hname, AList.lookup_empty] at hlookup
      cases hlookup
  · intro name₁ name₂ loc₁ loc₂ values₁ values₂ first₁ first₂ _ _ _ hslot₁
    have hname := mem_of_mem_rootScope (AList.lookup_isSome.mp (by rw [hslot₁]; rfl))
    obtain ⟨i, param, hparam, rfl⟩ := hparam_of_mem hname
    obtain ⟨value, -, hscope⟩ := hvalue i param hparam
    rw [hscope] at hslot₁
    cases hslot₁

/-- The names that are visible where a function is entered. -/
theorem live_rootScope {Γ : Names} {size : String → Option Int32} {values : List Int}
    (htracks : Tracks p.topLevel size Γ ((globalEnv p).ofFunction func))
    (hlength : values.length = func.params.length) :
    Live p.topLevel Γ (rootScope ∅ func.params values) := by
  obtain ⟨Γ₀, Γ', hparams, -⟩ := (h.wellFormed.functions func hfunc).body
  intro name entity hname
  refine (htracks.visible name entity hname).imp_right fun ⟨hmem, _⟩ ↦ ?_
  have hparam : name ∈ func.params.map Param.name := by
    by_contra hparam
    rw [← AList.lookup_isSome, Env.ofFunction, Env.lookup_withParams_of_notMem hparam,
      AList.lookup_empty] at hmem
    cases hmem
  obtain ⟨param, hmem', rfl⟩ := List.mem_map.mp hparam
  obtain ⟨i, hi⟩ := List.mem_iff_getElem?.mp hmem'
  have hscope : ∃ value, values[i]? = some value ∧
      (rootScope ∅ func.params values).lookup param.name =
        some (.scalar (some (normalizeI32 value))) := lookup_rootScope hparams.nodup hlength hi
  obtain ⟨value, -, hscope⟩ := hscope
  exact AList.lookup_isSome.mp (by rw [hscope]; rfl)

variable (hagree : p.DeclsAgree)
include hagree

/-- What is visible at the end of a function has its slots. -/
theorem tracks_finalEnv : ∃ Γ, Tracks p.topLevel (declaredSize (declsList func.body)) Γ
    (finalEnv p func) := by
  obtain ⟨Γ, Γ', hbody, htracks⟩ := h.tracks hfunc
  exact ⟨Γ', htracks.afterStmts func.body hbody
    fun d hd ↦ declaredSize_eq (hagree func hfunc) hd⟩

/-- The names of a function are not those of globals. -/
theorem notMem_globals (hname : name ∈ (finalEnv p func).locals) :
    name ∉ (globalEnv p).globals := by
  intro hglobal
  obtain ⟨loc, hloc⟩ := Option.isSome_iff_exists.mp (AList.lookup_isSome.mpr hname)
  obtain ⟨info, hinfo⟩ := Option.isSome_iff_exists.mp (AList.lookup_isSome.mpr hglobal)
  obtain ⟨Γ, htracks⟩ := tracks_finalEnv h hfunc hagree
  have hnone := (htracks.declared name loc hloc).1
  have hmem := AList.mem_lookup_iff.mp (Option.mem_def.mpr hinfo)
  rw [h.globals_eq, globalEntries] at hmem
  obtain ⟨info', hinfo', heq⟩ := List.mem_map.mp hmem
  obtain ⟨glob, hglob, hname', -⟩ := mem_globalInfos (List.mem_reverse.mp hinfo')
  have hfind : (p.globals.find? (·.name = name)).isSome := by
    rw [List.find?_isSome]
    refine ⟨glob, hglob, ?_⟩
    rw [← hname', (Sigma.mk.inj heq).1]
    exact decide_eq_true rfl
  obtain ⟨glob', hglob'⟩ := Option.isSome_iff_exists.mp hfind
  rw [Program.topLevel, hglob'] at hnone
  cases hnone

theorem laid_activation {base low : Nat} {callStack : List CallFrame}
    (hprogram : S.program = p)
    (hcurrent : Current (compile p) callStack base ((globalEnv p).localCount func))
    (hlow : maxLocalSlots ≤ low) : (activation p func base low callStack).Laid S := by
  subst hprogram
  obtain ⟨Γ, htracks⟩ := tracks_finalEnv h hfunc hagree
  have hapart : (finalEnv S.program func).SlotsApart :=
    (Env.SlotsApart.ofFunction _ func).afterStmts func.body
  constructor
  · exact fun name loc hloc ↦ hapart.below.lt hloc
  · intro name loc hloc
    obtain ⟨-, -, hsize, hpos⟩ := htracks.declared name loc hloc
    rw [hsize]
    cases hn : declaredSize (declsList func.body) name with
    | none => exact Nat.two_pow_pos 31
    | some n => exact (arrayUsize_lt n (hpos n hn)).2
  · exact hapart.apart
  · exact fun name hname ↦ notMem_globals h hfunc hagree hname
  · exact hcurrent
  · exact hlow

end

/-! ## Calls -/

theorem lookup_collectFunctions_of_notMem {functions : HashMap String Function}
    {funcs : List Function} (h : name ∉ funcs.map Function.name) :
    (collectFunctions functions funcs).lookup name = functions.lookup name := by
  induction funcs generalizing functions with
  | nil => rfl
  | cons func funcs ih =>
    obtain ⟨hne, hrest⟩ := List.ne_and_not_mem_of_not_mem_cons (List.map_cons ▸ h)
    exact (ih hrest).trans (AList.lookup_insert_ne hne)

/-- The oracle finds the functions of the program. -/
theorem lookup_collectFunctions {functions : HashMap String Function} {funcs : List Function}
    (hnodup : (funcs.map Function.name).Nodup) {func : Function} (hfunc : func ∈ funcs) :
    (collectFunctions functions funcs).lookup func.name = some func := by
  induction funcs generalizing functions with
  | nil => cases hfunc
  | cons func' funcs ih =>
    obtain ⟨hnew, hnodup⟩ := List.nodup_cons.mp (List.map_cons ▸ hnodup)
    rcases List.mem_cons.mp hfunc with rfl | hfunc
    · exact (lookup_collectFunctions_of_notMem hnew).trans (AList.lookup_insert _)
    · exact ih hnodup hfunc

theorem codeAt_function (h : Accepted source S.program) {i : Nat} {func : Function}
    (hfunc : S.program.functions[i]? = some func) : CodeAt S (entryPc S.program i)
      ((globalEnv S.program).functionCode S.program.globals func (entryPc S.program i)) := by
  obtain ⟨rest, hrest⟩ := drop_compile h.nodup hfunc
  rw [CodeAt, Setting.code, hrest]
  exact List.prefix_append _ rest

/-- What a call instruction of the program finds. -/
theorem calls_callOf (hfits : S.Fits source) {func : Function} {i : Nat}
    (hfunc : S.program.functions[i]? = some func) {values : List Int}
    (hlength : values.length = func.params.length) (hstack : vm.stack = values.reverse ++ stack) :
    Calls S.code vm i ((globalEnv S.program).functionInfo func i (entryPc S.program i)) values
      stack := by
  have hmem := List.mem_of_getElem? hfunc
  have hlt := (List.getElem?_eq_some_iff.mp hfunc).1
  have hcount := (globalEnv S.program).length_le_functionsCode S.program.globals
    S.program.functions 0
  rw [← instructions_compile hfits.accepted.nodup] at hcount
  have hsmall : (compile S.program).instructions.length < 2 ^ 31 := hfits.small
  have hparams := (globalEnv S.program).paramCount_le_localCount func
  have hlocals := (hfits.accepted.wellFormed.functions func hmem).slots
  have hslots := (globalEnv S.program).localCount_le_localSlots func
  have hmax : maxLocalSlots = 1024 := rfl
  refine ⟨by omega, hfits.accepted.lookup_iff.mpr ⟨func, hfunc, rfl⟩, by omega, hlength.symm,
    hlength ▸ hparams, hslots.trans hlocals, hstack⟩

/-- The value that the code of a function hands back. -/
theorem sim_handBack {A' : Activation} {value : Int} {extra : Nat}
    {frame : CallFrame} {oracle₀ : AstOracle} {vm₀ : Vm} (hlaid : A.Laid S) (hlaid' : A'.Laid S)
    (hm₀ : Matches S A scope oracle₀ vm₀) (hcallStack : A'.callStack = frame :: vm₀.callStack)
    (hpc : frame.returnPc = vm₀.pc + 1) (hsmall : vm₀.pc + 1 < usizeMax)
    {scope' : HashMap String Slot} (hm : Matches S A' scope' oracle vm)
    (hframes : oracle.frames = ⟨[scope']⟩ :: oracle₀.frames) (hvalue : IsI32 value)
    (hstack : vm.stack = value :: stack) (hcode : CodeAt S vm.pc [.simple .return])
    (hundisturbed : Undisturbed A vm₀.locals vm.locals)
    (hspent : Spent S 1 extra oracle₀ vm₀ oracle vm) (hover : extra + 1 ≤ S.rate) :
    Sim S (do
      modify fun oracle ↦ { oracle with frames := oracle.frames.tail }
      return value) (Returned S A scope stack oracle₀ vm₀) oracle vm := by
  obtain ⟨hsteps, hticks⟩ := hspent
  have hpace := hm₀.pace
  have hcaller : vm₀.callStack ≠ [] := by
    obtain ⟨frame, frames, -, hframes, -⟩ := hlaid.current.frame
    rw [hm₀.callStack, hframes]
    exact List.cons_ne_nil _ _
  have hdepth := hm.depth
  rw [hframes, hm.callStack, hcallStack, List.length_cons, List.length_cons] at hdepth
  refine .advance (advances_return (hm.fetches hlaid' hcode) hstack
    (hm.callStack.trans hcallStack) hcaller (by rw [hpc]; exact hsmall.ne))
    (hm.cycles_lt (by omega)) ?_
  refine .bind (.update (Q := fun _ oracle' vm' ↦
    oracle' = { oracle with frames := oracle.frames.tail } ∧ vm' = _) ⟨rfl, rfl⟩) ?_
  rintro _ _ _ ⟨rfl, rfl⟩
  rw [hframes, List.tail_cons]
  refine .pure ⟨⟨hvalue, rfl, hpc, ?_, rfl, hundisturbed, ?_, ?_⟩, ?_⟩
  · refine ⟨⟨hm.plain.unlimited, hm.plain.untraced⟩, hm.bound.mono le_rfl (Nat.le_succ _), ?_,
      hm.budget, hm₀.callStack, ?_, hm.output_eq, hm.globals, hm₀.low.trans hundisturbed.length, hm₀.inScope,
      hm₀.locals.undisturbed hlaid hundisturbed⟩
    · dsimp only
      omega
    · dsimp only
      omega
  all_goals
    dsimp only
    try rw [Nat.mul_succ]
    omega

/-- After a call, nothing of the caller has changed. -/
theorem undisturbed_of_call {A' : Activation} {cells cells' cells'' : List Int} {args : List Int}
    (hbase : A'.base = A.base + A.count) (hlow : A'.low = cells.length)
    (hlimit : A'.base + A'.count ≤ maxLocalSlots)
    (hentered : Entered cells cells' A'.base args A'.count) (huntouched : Untouched A' cells' cells'') :
    Undisturbed A cells cells'' where
  length := hentered.length.ge.trans huntouched.length
  slots cell hlt := by
    rw [huntouched.slots cell (hbase ▸ hlt), hentered.outside cell (.inl (hbase ▸ hlt))]
  arrays cell hle hlt := by
    rw [huntouched.arrays cell hle (hlow ▸ hlt), hentered.outside cell (.inr (hlimit.trans hle))]

/-! ### The body of a function -/

section

variable {func : Function} {i : Nat} {values : List Int} {frames : List Frame}

/-- The activation that a call enters. -/
def Activation.callee (A : Activation) (p : Program) (func : Function) (i : Nat) (vm : Vm) :
    Activation :=
  activation p func (A.base + A.count) vm.locals.length
    (⟨vm.pc + 1, A.base + A.count, i⟩ :: vm.callStack)

/-- Where the body starts, the parameters are matched and nothing else is visible. -/
theorem matches_callee (h : Accepted source S.program) (hfunc : func ∈ S.program.functions)
    (hlength : values.length = func.params.length) (hi32 : ∀ value ∈ values, IsI32 value)
    (hm : Matches S A scope oracle vm) (hpace : vm.cycles < 3 * oracle.cycles) {locals' : List Int}
    {info : FunctionInfo} (hentered : Entered vm.locals locals' (A.base + A.count) values
      ((globalEnv S.program).localCount func)) :
    Matches S (A.callee S.program func i vm) (rootScope ∅ func.params values)
      { oracle with frames := ⟨[rootScope ∅ func.params values]⟩ :: oracle.frames }
      (vm.enter stack locals' (A.base + A.count) i info) where
  plain := ⟨hm.plain.unlimited, hm.plain.untraced⟩
  bound := hm.bound.mono hentered.length.le (Nat.le_succ _)
  pace := hpace
  budget := hm.budget
  callStack := rfl
  depth := by
    have hdepth := hm.depth
    change vm.callStack.length + 1 + S.rules.frameLimit.frames = oracle.frames.length + 1 + maxFrames
    omega
  output_eq := hm.output_eq
  globals := hm.globals
  low := hentered.length.ge
  inScope := .inside _ oracle.frames
  locals := localsMatch_rootScope h hfunc hlength hi32 hentered.given hentered.rest

/-- The code of a body stands at the entry of its function, and a return of 0 behind it. -/
theorem codeAt_body (h : Accepted source S.program) (hi : S.program.functions[i]? = some func)
    (hmain : func.name ≠ "main") : CodeAt S (entryPc S.program i)
      (((globalEnv S.program).ofFunction func).stmtsCode func.body (entryPc S.program i) ++
        [⟨.loadConst, 0, 0⟩, .simple .return]) := by
  have hcode := codeAt_function h hi
  rwa [Env.functionCode, if_neg hmain, List.nil_append, List.length_nil, Nat.add_zero] at hcode

/-- The body does what the oracle does with it, if calls do. -/
theorem executes_body (hfits : S.Fits source) {fuel : Nat}
    (ih : CallsOk S (callFunction S.rules S.program fuel)) (hfunc : func ∈ S.program.functions)
    {base low : Nat} {callStack : List CallFrame}
    (hlaid : (activation S.program func base low callStack).Laid S) {Γ : Names}
    (hok : ∃ Γ', StmtsOk Γ func.body Γ') (htracks : Tracks S.program.topLevel
      (declaredSize (declsList func.body)) Γ ((globalEnv S.program).ofFunction func)) :
    ∃ Γ', Executes S (activation S.program func base low callStack) frames Γ Γ'
      (nodesList func.body)
      (execBlock S.rules (callFunction S.rules S.program fuel) fuel func.body)
      (((globalEnv S.program).ofFunction func).stmtsCode func.body) := by
  obtain ⟨Γ', hbody⟩ := hok
  have hwithin : Within S (activation S.program func base low callStack)
      (((globalEnv S.program).ofFunction func).afterStmts func.body) := by
    refine ⟨?_, ?_, fun _ _ ↦ id⟩
    · exact (Env.globals_afterStmts _ _).trans (Env.globals_withParams _ _)
    · exact (Env.funcNameToId_afterStmts _ _).trans (Env.funcNameToId_withParams _ _)
  have hbodies := hfits.pays func hfunc
  exact ⟨Γ', executes_stmts hfits.ok hlaid ih fuel htracks func.body hbody
    (fun d hd ↦ declaredSize_eq (hfits.agree func hfunc) hd) hwithin
    (hfits.quiet.bodies func hfunc) (by omega)⟩

/-- **The end of a body.** A value that it returns is on the stack; where it runs to its end, 0 is
put there. -/
theorem sim_bodyEnd {A' : Activation} {frame : CallFrame} {root : HashMap String Slot} {Γ' : Names}
    {nodes pc : Nat} {oracle₀ oracle₁ : AstOracle} {vm₀ vm₁ : Vm} {control : Control}
    (hlaid : A.Laid S) (hlaid' : A'.Laid S) (hm₀ : Matches S A scope oracle₀ vm₀)
    (hcallStack : A'.callStack = frame :: vm₀.callStack) (hpc : frame.returnPc = vm₀.pc + 1)
    (hsmall : vm₀.pc + 1 < usizeMax) (hrate : 1 ≤ S.rate)
    (hcode : CodeAt S pc [⟨.loadConst, 0, 0⟩, .simple .return])
    (hbody : Finishes S A' oracle₀.frames root Γ' nodes stack pc oracle₁ vm₁ control oracle vm)
    (hundisturbed : Undisturbed A vm₀.locals vm.locals)
    (hspent : Spent S 2 0 oracle₀ vm₀ oracle vm) :
    Sim S (do
      modify fun oracle ↦ { oracle with frames := oracle.frames.tail }
      return normalizeI32 control.value) (Returned S A scope stack oracle₀ vm₀) oracle vm := by
  obtain ⟨scope', hran, hrest⟩ := hbody
  obtain ⟨hsteps, hticks⟩ := hspent
  have hpace := hm₀.pace
  cases control with
  | «continue» =>
    obtain ⟨-, hstack, rfl⟩ := hrest
    refine .advance (puts_loadConst (hran.matched.fetches hlaid' hcode)).advances
      (hran.matched.cycles_lt (by omega)) ?_
    have hspent' : Spent S 1 0 oracle₀ vm₀ oracle
        { vm with stack := 0 :: vm.stack, pc := vm.pc + 1, cycles := vm.cycles + 1 } := by
      constructor
      · dsimp only
        omega
      · dsimp only
        rw [Nat.mul_succ]
        omega
    exact sim_handBack hlaid hlaid' hm₀ hcallStack hpc hsmall (hran.matched.next (by omega))
      hran.frames ⟨by decide, by decide⟩ (congrArg (List.cons 0) hstack) hcode.tail hundisturbed
      hspent' hrate
  | «return» value =>
    obtain ⟨hvalue, hstack, hcode'⟩ := hrest
    rw [Control.value, normalizeI32_eq hvalue]
    exact sim_handBack hlaid hlaid' hm₀ hcallStack hpc hsmall hran.matched hran.frames hvalue hstack
      hcode' hundisturbed ⟨by omega, by omega⟩ hrate

end

/-- **Calls of more depth** do what the oracle does if calls of less depth do. -/
theorem callsOk_succ (hfits : S.Fits source) (fuel : Nat)
    (ih : CallsOk S (callFunction S.rules S.program fuel)) :
    CallsOk S (callFunction S.rules S.program (fuel + 1)) := by
  intro A scope func values stack oracle vm hlaid hfunc hmain hlength hi32 hm hstack hfetch hcovered
  have h := hfits.accepted
  obtain ⟨i, hi⟩ := List.mem_iff_getElem?.mp hfunc
  rw [Setting.callOf, h.lookup_funcNameToId hi, Option.getD_some] at hfetch
  have hcalls := calls_callOf hfits hi hlength hstack
  rw [callFunction]
  refine Evaluates.afterTick hcovered hm fun oracle₁ horacle hm₁ hcovered₁ ↦ .get_bind ?_
  have hcycles := Ticked.cycles_eq horacle
  have hpace := hm.pace
  have hdepth₁ := hm₁.depth
  by_cases hdepth : vm.callStack.length ≥ maxFrames
  · obtain ⟨result, htraps, hresult, -⟩ :=
      traps_call hfetch hcalls (hm₁.current hlaid) hdepth
    rw [if_pos (by omega), FrameLimit.beyond, hfits.overflows]
    have hlimit := hm₁.cycles_lt (by omega)
    exact .trap (by decide) ⟨result, hm₁.output_eq ▸ htraps, by omega⟩
  rw [if_neg (by omega), lookup_collectFunctions h.nodup hfunc]
  dsimp only
  rw [if_neg (not_not.mpr hlength)]
  have hge := hlaid.low_ge
  have hlow := hm.low
  rcases advances_call hfetch hcalls (hm₁.current hlaid) (by omega) (by omega) with
    hshort | ⟨hlimit, locals', hentered, hstep⟩
  · exact .inl (hshort.mono (hm₁.cycles_lt (by omega)))
  -- both have entered the function: the machine with a step, the oracle with a frame
  refine .step hstep (.bind (.update (Q := fun _ oracle' vm' ↦ oracle' = { oracle₁ with
    frames := ⟨[rootScope ∅ func.params values]⟩ :: oracle₁.frames } ∧ vm' = _) ⟨rfl, rfl⟩) ?_)
  rintro _ oracle₂ vm₂ ⟨horacle₂, hvm₂⟩
  have hlaid' : (A.callee S.program func i vm).Laid S :=
    laid_activation h hfunc hfits.agree rfl ⟨⟨_, _, _, rfl, rfl, hcalls.lookup, rfl⟩, hlimit⟩
      (hge.trans hlow)
  have hm₂ : Matches S (A.callee S.program func i vm) (rootScope ∅ func.params values) oracle₂ vm₂ := by
    rw [horacle₂, hvm₂]
    exact matches_callee h hfunc hlength hi32 hm₁ (by omega) hentered
  have hcycles₂ : oracle₂.cycles = oracle.cycles + 1 := by rw [horacle₂, ← hcycles]
  have hsteps₂ : vm₂.cycles = vm.cycles + 1 := by rw [hvm₂]; rfl
  have hbodies := hfits.pays func hfunc
  have hcovered₂ : Covered S (nodesList func.body) oracle₂ vm₂ := by
    rw [Covered] at hcovered ⊢
    rw [hcycles₂, hsteps₂, Nat.mul_succ]
    omega
  have hcode := codeAt_body h hi hmain
  rw [show entryPc S.program i = vm₂.pc by rw [hvm₂]; rfl] at hcode
  obtain ⟨Γ, Γ₀, hbody, htracks⟩ := h.tracks hfunc
  obtain ⟨Γ', hrun⟩ := executes_body hfits ih hfunc hlaid' ⟨Γ₀, hbody⟩ htracks
  refine (hrun _ oracle₂ vm₂ hm₂ (by rw [horacle₂]) (live_rootScope h hfunc htracks hlength)
    hcode.left hcovered₂).bind fun control oracle₃ vm₃ hfinishes ↦ ?_
  obtain ⟨scope₃, hran⟩ := hfinishes.ran
  obtain ⟨hsteps₃, hticks₃⟩ := hran.spent
  rw [hcycles₂, hsteps₂, Nat.mul_succ] at hticks₃
  have hundisturbed : Undisturbed A vm.locals vm₃.locals := by
    refine undisturbed_of_call rfl rfl hlimit (?_ : Entered _ vm₂.locals _ values _) hran.untouched
    rw [hvm₂]
    exact hentered
  have hsmall : vm.pc + 1 < usizeMax := by
    have hlt := (List.getElem?_eq_some_iff.mp hfetch.fetch).1
    have hcount := hfits.small
    rw [usizeMax]
    omega
  have hframes : oracle₁.frames = oracle.frames := by rw [horacle]
  have hstack₂ : vm₂.stack = stack := by rw [hvm₂]; rfl
  rw [hframes, hstack₂] at hfinishes
  exact sim_bodyEnd hlaid hlaid' hm rfl rfl hsmall (by omega) hcode.right hfinishes hundisturbed
    ⟨by omega, by omega⟩

/-- **A call does what the oracle does.** -/
theorem callsOk (hfits : S.Fits source) (fuel : Nat) :
    CallsOk S (callFunction S.rules S.program fuel) := by
  induction fuel with
  | zero => exact fun _ _ _ _ _ _ _ _ _ _ _ _ _ _ _ _ ↦ .outOfFuel
  | succ fuel ih => exact callsOk_succ hfits fuel ih

end AstOracle

end MiniLang
