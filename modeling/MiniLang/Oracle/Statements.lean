import MiniLang.Oracle.Expressions

/-!
# Statements

The code of a statement does what the oracle does with the statement. It leaves no operand behind,
but for the value of a `return`, and touches no cell but those of its activation and new ones.

## The invariant

`Matches` holds between statements: the oracle's scope and the window of cells agree for each name
of the function, globals and output agree. A statement changes cells of its own activation and
appends arrays; `Untouched` is what it leaves to the activations around it. A name that is not yet
declared has no value on either side, since its cell still has the mark it got when the frame was
entered. A declaration without initializer takes no code at all. On the first pass of a loop both
sides have no value then; on later ones the name is in the scope already, and both keep the value of
the pass before (`sim_varDecl_none`).

## How a statement ends

`Finishes` has two cases. The code has run to its end; or a `return` has been executed, and the
machine stands at an instruction that hands the value back, somewhere inside the code of the
function. Sequences, conditionals and loops pass the second case on without looking at it.

## Loops

The oracle runs a loop by recursion on its fuel, and the induction follows it. Each iteration pays
for the tick of its condition; the code of the body is at one address however often it runs, so what
one pass may charge, `nodes`, is a number of the statement, and the rate of the setting is chosen
large enough for one pass through a whole function at each step.
-/

namespace MiniLang

open Compiler

mutual

/-- The number of ticks that one pass through a statement charges for the statement itself. -/
def Stmt.nodes : Stmt → Nat
  | .varDecl _ _ none _ _ => 1
  | .varDecl _ _ (some init) _ _ => init.nodes + 1
  | .assign _ none value _ => value.nodes + 1
  | .assign _ (some index) value _ => index.nodes + value.nodes + 1
  | .ifStmt condition thenBody none _ => condition.nodes + nodesList thenBody + 1
  | .ifStmt condition thenBody (some elseBody) _ =>
    condition.nodes + (nodesList thenBody + nodesList elseBody) + 1
  | .whileStmt condition body _ => condition.nodes + nodesList body + 1
  | .returnStmt value _ => value.nodes + 1
  | .print value _ => value.nodes + 1
  | .exprStmt expr _ => expr.nodes + 1
termination_by structural stmt => stmt

def nodesList : List Stmt → Nat
  | [] => 0
  | stmt :: stmts => stmt.nodes + nodesList stmts
termination_by structural stmts => stmts

end

mutual

/-- The functions that the expressions of a statement call. -/
def Stmt.callees : Stmt → List String
  | .varDecl _ _ none _ _ => []
  | .varDecl _ _ (some init) _ _ => init.callees
  | .assign _ none value _ => value.callees
  | .assign _ (some index) value _ => index.callees ++ value.callees
  | .ifStmt condition thenBody none _ => condition.callees ++ calleesList thenBody
  | .ifStmt condition thenBody (some elseBody) _ =>
    condition.callees ++ (calleesList thenBody ++ calleesList elseBody)
  | .whileStmt condition body _ => condition.callees ++ calleesList body
  | .returnStmt value _ => value.callees
  | .print value _ => value.callees
  | .exprStmt expr _ => expr.callees
termination_by structural stmt => stmt

def calleesList : List Stmt → List String
  | [] => []
  | stmt :: stmts => stmt.callees ++ calleesList stmts
termination_by structural stmts => stmts

end

namespace AstOracle

open Vm
open Verifier (width)

variable {S : Setting} {A : Activation} {frames : List Frame} {scope scope' : HashMap String Slot}
  {oracle oracle' : AstOracle} {vm vm' : Vm} {T Γ Γ' : Names} {size : String → Option Int32}
  {E : Env} {name : String} {stack : List Int} {nodes nodes' : Nat}

/-! ## Visible names -/

/-- The locals declared so far are locals of the activation. -/
structure Within (S : Setting) (A : Activation) (E : Env) : Prop where
  globals : E.globals = S.globals
  ids : E.funcNameToId = (globalEnv S.program).funcNameToId
  locals : ∀ name loc, E.locals.lookup name = some loc → A.locals.lookup name = some loc

theorem Within.before_stmts {stmts : List Stmt} (h : Within S A (E.afterStmts stmts)) :
    Within S A E where
  globals := (E.globals_afterStmts stmts).symm.trans h.globals
  ids := (E.funcNameToId_afterStmts stmts).symm.trans h.ids
  locals name loc hloc := h.locals name loc (Env.lookup_afterStmts hloc stmts)

/-- The visible locals have been declared. -/
def Live (T Γ : Names) (scope : HashMap String Slot) : Prop :=
  ∀ name entity, Γ name = some entity → T name = some entity ∨ name ∈ scope

theorem Live.mono (h : Live T Γ scope) (hscope : ∀ name ∈ scope, name ∈ scope') :
    Live T Γ scope' :=
  fun name entity hname ↦ (h name entity hname).imp_right (hscope name)

theorem Live.declare (h : Live T Γ scope) {entity : Entity} (hscope : ∀ name ∈ scope, name ∈ scope')
    (hname : name ∈ scope') : Live T (Γ.declare name entity) scope' := by
  intro name' entity' hname'
  by_cases heq : name' = name
  · subst heq
    exact .inr hname
  · rw [Names.declare, Function.update_of_ne heq] at hname'
    exact h.mono hscope name' entity' hname'

theorem Matches.hidden (hlaid : A.Laid S) (h : Matches S A scope oracle vm) :
    ∀ name ∈ scope, name ∉ S.globals :=
  fun name hname ↦ hlaid.hidden name (h.locals.known name hname)

/-- What is visible is found. -/
theorem Live.sees (hS : S.Ok) (hE : Within S A E)
    (htracks : Tracks S.program.topLevel size Γ E) (hlive : Live S.program.topLevel Γ scope)
    (hhidden : ∀ name ∈ scope, name ∉ S.globals) : Sees S A scope Γ E := by
  -- a visible name that the table has is a local one, and declared by now
  have hlocal {name : String} {entity : Entity} (hname : Γ name = some entity)
      (hmem : name ∈ E.locals) : ∃ loc, E.locals.lookup name = some loc ∧
        A.locals.lookup name = some loc ∧ loc.isArray = (size name).isSome ∧ name ∈ scope := by
    obtain ⟨loc, hloc⟩ := Option.isSome_iff_exists.mp (AList.lookup_isSome.mpr hmem)
    obtain ⟨htop, harray, -⟩ := htracks.declared name loc hloc
    refine ⟨loc, hloc, hE.locals name loc hloc, harray, (hlive name entity hname).resolve_left ?_⟩
    rw [htop]
    exact Option.some_ne_none entity ∘ Eq.symm
  have hglobal {name : String} {entity : Entity} (htop : S.program.topLevel name = some entity) :
      E.locals.lookup name = none := by
    cases hlookup : E.locals.lookup name with
    | none => rfl
    | some loc =>
      rw [(htracks.declared name loc hlookup).1] at htop
      cases htop
  -- no declared local hides a global
  have hout {name : String} {info : GlobalInfo} (hinfo : S.globals.lookup name = some info) :
      name ∉ scope := by
    intro hmem
    refine hhidden name hmem (AList.lookup_isSome.mp ?_)
    rw [hinfo]
    rfl
  constructor
  · exact hE.globals
  · exact hE.ids
  · intro name t hname
    rcases htracks.visible name _ hname with htop | ⟨hmem, u, hentity⟩
    · obtain ⟨info, hinfo, hscalar⟩ := hS.scalar name t htop
      exact .ofGlobal (hglobal htop) (hout hinfo) hinfo hscalar
    · obtain ⟨loc, hloc, hloc', harray, hscope⟩ := hlocal hname hmem
      refine .ofLocal hloc hloc' (harray.trans ?_) hscope
      cases hsize : size name with
      | none => rfl
      | some n =>
        rw [hsize] at hentity
        cases hentity
  · intro name t hname
    rcases htracks.visible name _ hname with htop | ⟨hmem, u, hentity⟩
    · obtain ⟨info, hinfo, harray⟩ := hS.array name t htop
      exact .ofGlobal (hglobal htop) (hout hinfo) hinfo harray
    · obtain ⟨loc, hloc, hloc', harray, hscope⟩ := hlocal hname hmem
      refine .ofLocal hloc hloc' (harray.trans ?_) hscope
      cases hsize : size name with
      | none =>
        rw [hsize] at hentity
        cases hentity
      | some n => rfl
  · intro name params hname
    rcases htracks.visible name _ hname with htop | ⟨-, u, hentity⟩
    · exact hS.function name params htop
    · rw [varEntity] at hentity
      split at hentity <;> cases hentity

/-! ## Results -/

/-- Nothing has changed but the cells of the activation and those above its frame. -/
structure Untouched (A : Activation) (cells cells' : List Int) : Prop where
  length : cells.length ≤ cells'.length
  slots : ∀ cell < A.base, cells'[cell]? = cells[cell]?
  arrays : ∀ cell, maxLocalSlots ≤ cell → cell < A.low → cells'[cell]? = cells[cell]?

theorem Untouched.refl (A : Activation) (cells : List Int) : Untouched A cells cells :=
  ⟨le_rfl, fun _ _ ↦ rfl, fun _ _ _ ↦ rfl⟩

theorem Untouched.trans {cells c cells'' : List Int} (h : Untouched A cells c)
    (h' : Untouched A c cells'') : Untouched A cells cells'' where
  length := h.length.trans h'.length
  slots cell hlt := (h'.slots cell hlt).trans (h.slots cell hlt)
  arrays cell hle hlt := (h'.arrays cell hle hlt).trans (h.arrays cell hle hlt)

theorem Undisturbed.untouched {cells cells' : List Int} (h : Undisturbed A cells cells')
    (hlow : A.low ≤ cells.length) : Untouched A cells cells' where
  length := h.length
  slots cell hlt := h.slots cell (hlt.trans_le (Nat.le_add_right ..))
  arrays cell hle hlt := h.arrays cell hle (hlt.trans_le hlow)

/-- A write to a cell of the activation. -/
theorem Untouched.set {cells : List Int} (cell : Nat) (value : Int)
    (hcell : A.base ≤ cell ∧ cell < maxLocalSlots ∨ maxLocalSlots ≤ cell ∧ A.low ≤ cell)
    (hbase : A.base ≤ maxLocalSlots) : Untouched A cells (cells.set cell value) where
  length := (List.length_set ..).ge
  slots c hlt := List.getElem?_set_ne (by omega)
  arrays c hle hlt := List.getElem?_set_ne (by omega)

/-- What a piece of code has done that charges `nodes` ticks of its own. -/
structure Ran (S : Setting) (A : Activation) (frames : List Frame) (scope : HashMap String Slot)
    (nodes : Nat) (oracle : AstOracle) (vm : Vm) (scope' : HashMap String Slot)
    (oracle' : AstOracle) (vm' : Vm) : Prop where
  frames : oracle'.frames = ⟨[scope']⟩ :: frames
  matched : Matches S A scope' oracle' vm'
  grown : ∀ name ∈ scope, name ∈ scope'
  untouched : Untouched A vm.locals vm'.locals
  spent : Spent S 0 nodes oracle vm oracle' vm'

theorem Spent.trans {slack slack' extra extra' : Nat} {oracle'' : AstOracle} {vm'' : Vm}
    (h : Spent S slack extra oracle vm oracle' vm')
    (h' : Spent S slack' extra' oracle' vm' oracle'' vm'') :
    Spent S (slack + slack') (extra + extra') oracle vm oracle'' vm'' := by
  obtain ⟨hsteps, hticks⟩ := h
  obtain ⟨hsteps', hticks'⟩ := h'
  exact ⟨by omega, by omega⟩

theorem Spent.mono {slack slack' extra extra' : Nat} (h : Spent S slack extra oracle vm oracle' vm')
    (hslack : slack' ≤ slack) (hover : extra ≤ extra') : Spent S slack' extra' oracle vm oracle' vm' := by
  obtain ⟨hsteps, hticks⟩ := h
  exact ⟨by omega, by omega⟩

theorem Ran.trans {scope'' : HashMap String Slot} {oracle'' : AstOracle} {vm'' : Vm}
    (h : Ran S A frames scope nodes oracle vm scope' oracle' vm')
    (h' : Ran S A frames scope' nodes' oracle' vm' scope'' oracle'' vm'') :
    Ran S A frames scope (nodes + nodes') oracle vm scope'' oracle'' vm'' where
  frames := h'.frames
  matched := h'.matched
  grown name hname := h'.grown name (h.grown name hname)
  untouched := h.untouched.trans h'.untouched
  spent := h.spent.trans h'.spent

/-- What the code of a statement comes to: it ends at `pc`, or where the value of a `return` is
handed back. -/
def Finishes (S : Setting) (A : Activation) (frames : List Frame) (scope : HashMap String Slot)
    (Γ : Names) (nodes : Nat) (stack : List Int) (pc : Nat) (oracle : AstOracle) (vm : Vm)
    (control : Control) (oracle' : AstOracle) (vm' : Vm) : Prop :=
  ∃ scope', Ran S A frames scope nodes oracle vm scope' oracle' vm' ∧ match control with
    | .continue => Live S.program.topLevel Γ scope' ∧ vm'.stack = stack ∧ vm'.pc = pc
    | .return value => IsI32 value ∧ vm'.stack = value :: stack ∧ CodeAt S vm'.pc [.simple .return]

theorem Finishes.ran {frames : List Frame} {nodes : Nat} {pc : Nat} {control : Control}
    (h : Finishes S A frames scope Γ nodes stack pc oracle vm control oracle' vm') :
    ∃ scope', Ran S A frames scope nodes oracle vm scope' oracle' vm' :=
  h.imp fun _ hfinishes ↦ hfinishes.1

/-- The code does what `x` does, which charges `nodes` ticks of its own, where `Γ` is visible; then
`Γ'` is. -/
def Executes (S : Setting) (A : Activation) (frames : List Frame) (Γ Γ' : Names) (nodes : Nat)
    (x : OracleM Control) (code : Nat → List Instruction) : Prop :=
  ∀ scope oracle vm, Matches S A scope oracle vm → oracle.frames = ⟨[scope]⟩ :: frames →
    Live S.program.topLevel Γ scope → CodeAt S vm.pc (code vm.pc) → Covered S nodes oracle vm →
    Sim S x (Finishes S A frames scope Γ' nodes vm.stack (vm.pc + (code vm.pc).length) oracle vm)
      oracle vm

/-! ## Effects -/

/-- A single instruction has carried out what the oracle does without a tick. -/
structure Effect (S : Setting) (A : Activation) (frames : List Frame)
    (scope : HashMap String Slot) (stack : List Int) (oracle : AstOracle) (vm : Vm)
    (scope' : HashMap String Slot) (oracle' : AstOracle) (vm' : Vm) : Prop where
  frames : oracle'.frames = ⟨[scope']⟩ :: frames
  matched : Matches S A scope' oracle' vm'
  grown : ∀ name ∈ scope, name ∈ scope'
  untouched : Untouched A vm.locals vm'.locals
  ticks : oracle'.cycles = oracle.cycles
  steps : vm'.cycles = vm.cycles + 1
  stack_eq : vm'.stack = stack
  pc_eq : vm'.pc = vm.pc + 1

/-- The oracle traps where the index is not within the bounds. -/
theorem run_assignArray_error {values : List Int} {index value : Int}
    (hlookup : oracle.lookupSlot name = some (.array values))
    (hindex : ¬InBounds index values.length) : ∃ message,
      (do assignArray name (← checkedArrayIndex index) value).run oracle =
        .error (.trap .arrayOutOfBounds message) oracle := by
  rw [checkedArrayIndex]
  by_cases hneg : index < 0
  · rw [if_pos hneg]
    exact ⟨_, rfl⟩
  · have hlt : ¬index.toNat < values.length := fun hlt ↦ hindex ⟨Int.not_lt.mp hneg, hlt⟩
    rw [if_neg hneg, EStateM.run_bind, EStateM.run_pure]
    dsimp only
    rw [assignArray, run_get_bind, hlookup]
    dsimp only
    rw [if_neg hlt]
    exact ⟨_, rfl⟩

/-- Within the bounds it sets the element. -/
theorem run_assignArray {values : List Int} {index value : Int}
    (hlookup : oracle.lookupSlot name = some (.array values)) (hindex : InBounds index values.length)
    (hvalue : IsI32 value) :
    (do assignArray name (← checkedArrayIndex index) value).run oracle =
      .ok () (oracle.replaceSlot name (.array (values.set index.toNat value))) := by
  rw [checkedArrayIndex, if_neg (Int.not_lt.mpr hindex.nonneg), EStateM.run_bind, EStateM.run_pure]
  dsimp only
  rw [assignArray, run_get_bind, hlookup]
  dsimp only
  rw [if_pos hindex.lt, normalizeI32_eq hvalue]
  rfl

section

variable (hlaid : A.Laid S) (hm : Matches S A scope oracle vm)
include hm

theorem Matches.withLocals {cells : List Int} {pc : Nat}
    (hframes : oracle.frames = ⟨[scope]⟩ :: frames) (hpace : vm.cycles < 3 * oracle.cycles)
    (hlocals : LocalsMatch A scope' cells) (hlength : vm.locals.length = cells.length) :
    Matches S A scope' { oracle with frames := ⟨[scope']⟩ :: frames }
      { vm with stack := stack, locals := cells, pc := pc, cycles := vm.cycles + 1 } where
  plain := ⟨hm.plain.unlimited, hm.plain.untraced⟩
  bound := hm.bound.mono hlength.ge (Nat.le_succ _)
  pace := hpace
  budget := hm.budget
  callStack := hm.callStack
  depth := by
    have hdepth := hm.depth
    rw [hframes] at hdepth
    exact hdepth
  output_eq := hm.output_eq
  globals := hm.globals
  low := hm.low.trans hlength.le
  inScope := .inside scope' frames
  locals := hlocals

theorem Matches.withGlobals {cells : List Int} {slots : HashMap String Slot} {pc : Nat}
    (hpace : vm.cycles < 3 * oracle.cycles) (hglobals : GlobalsMatch S.globals slots cells) :
    Matches S A scope { oracle with globals := slots }
      { vm with stack := stack, globals := cells, pc := pc, cycles := vm.cycles + 1 } :=
  { hm with
    plain := ⟨hm.plain.unlimited, hm.plain.untraced⟩
    bound := hm.bound.mono le_rfl (Nat.le_succ _)
    pace := hpace
    globals := hglobals }

include hlaid

/-- An assignment to a scalar. -/
theorem sim_assignScalar (hS : S.Ok) (hE : E.globals = S.globals)
    (hname : Seen S A scope E false name) (hframes : oracle.frames = ⟨[scope]⟩ :: frames)
    (hpace : vm.cycles < 3 * oracle.cycles) {value : Int} (hstack : vm.stack = value :: stack)
    (hvalue : IsI32 value) (hcode : CodeAt S vm.pc (E.accessCode name .storeLocal .storeGlobal false)) :
    Sim S (assignScalar name value)
      (fun _ oracle' vm' ↦ ∃ scope', Effect S A frames scope stack oracle vm scope' oracle' vm')
      oracle vm := by
  have hnormal : normalizeI32 value = value := normalizeI32_eq hvalue
  rw [assignScalar]
  refine .get_bind ?_
  rw [Env.accessCode] at hcode
  cases hname with
  | @ofLocal loc hslot hloc hscalar hscope =>
    rw [hslot] at hcode
    obtain ⟨v, hv, -, hcell⟩ := hm.locals.scalar hloc hscalar hscope
    have hlt := hlaid.slot_lt name loc hloc
    rw [hm.inScope.lookupSlot_of_mem hv]
    have hcells := hm.cell_lt hlaid hloc
    refine .step (step_storeLocal (hm.fetches hlaid hcode) hstack (hm.current hlaid) hlt hcells)
      (.update ⟨scope.insert name (.scalar (some value)), ?_⟩)
    rw [replaceSlot_of_mem hframes hscope, hnormal]
    have hlocals : LocalsMatch A (scope.insert name (.scalar (some value)))
        (vm.locals.set (A.base + loc.slot) value) :=
      hm.locals.writeScalar hlaid hloc hscalar hcells fun v hv ↦ Option.some_inj.mp hv ▸ hvalue
    refine ⟨rfl, hm.withLocals hframes hpace hlocals (List.length_set ..).symm, fun name' hname' ↦
      (AList.mem_insert _).mpr (.inr hname'), ?_, rfl, rfl, rfl, rfl⟩
    have hlimit := hlaid.current.limit
    exact .set _ _ (.inl ⟨Nat.le_add_right .., by omega⟩) (by omega)
  | @ofGlobal info hslot hscope hinfo hscalar =>
    rw [hslot, hE, hinfo] at hcode
    obtain ⟨v, hv, -, hcell⟩ := hm.globals.scalar hinfo hscalar
    have hle := hS.laid.le name info hinfo
    rw [width, hscalar] at hle
    rw [hm.inScope.lookupSlot_of_notMem hscope, hv]
    refine .step (step_storeGlobal (hm.fetches hlaid hcode) hstack hm.globals.length hle)
      (.update ⟨scope, ?_⟩)
    rw [hm.inScope.replaceSlot_of_notMem hscope, hnormal]
    have hcell' : (vm.globals.set (info.slot + 0) value)[info.slot]? = some value :=
      List.getElem?_set_self (hm.globals.length ▸ hle)
    have hglobals : GlobalsMatch S.globals (oracle.globals.insert name (.scalar (some value)))
        (vm.globals.set (info.slot + 0) value) :=
      hm.globals.write hS.laid hinfo (by rw [width, hscalar]; exact Nat.lt_succ_self _)
        ⟨hscalar, hvalue, hcell'⟩
    exact ⟨hframes, hm.withGlobals hpace hglobals, fun _ ↦ id, .refl .., rfl, rfl, rfl, rfl⟩

/-- A local array: the element is a cell behind the slots. -/
theorem sim_assignLocalArray {loc : LocalVar} (hloc : A.locals.lookup name = some loc)
    (harray : loc.isArray = true) (hscope : name ∈ scope)
    (hframes : oracle.frames = ⟨[scope]⟩ :: frames) (hpace : vm.cycles < 3 * oracle.cycles)
    {index value : Int} (hstack : vm.stack = value :: index :: stack) (hvalue : IsI32 value)
    (hfetch : Fetches S.code vm ⟨.localArrayStore, asI32 loc.slot, asI32 loc.arraySize⟩) :
    Sim S (do assignArray name (← checkedArrayIndex index) value)
      (fun _ oracle' vm' ↦ ∃ scope', Effect S A frames scope stack oracle vm scope' oracle' vm')
      oracle vm := by
  obtain ⟨values, first, hvalues, hsize, hi32, hlow, hfirst, hle, -⟩ :=
    hm.locals.array hloc harray hscope
  have hlookup := hm.inScope.lookupSlot_of_mem hvalues
  have hlt := hlaid.slot_lt name loc hloc
  have hsize' := hlaid.size_lt name loc hloc
  by_cases hindex : InBounds index values.length
  -- within the bounds both sides set the same element
  · have hlocals := hm.locals.writeElement hlaid hloc hvalues hfirst hindex.lt hvalue
    have hrun := run_assignArray hlookup hindex hvalue
    rw [replaceSlot_of_mem hframes hscope] at hrun
    rw [hsize] at hle hindex
    refine .advance (advances_localArrayStore hfetch hstack (hm.current hlaid) hlt
      ⟨hsize', hfirst, hle⟩ hindex hm.bound) (hm.cycles_lt (by omega)) (.ran hrun
        ⟨scope.insert name (.array (values.set index.toNat value)), ?_⟩)
    refine ⟨rfl, hm.withLocals hframes hpace hlocals (List.length_set ..).symm,
      fun name' hname' ↦ (AList.mem_insert _).mpr (.inr hname'), ?_, rfl, rfl, rfl, rfl⟩
    have hlimit := hlaid.current.limit
    have hge := hlaid.low_ge
    -- the cell written is one of the array, at or above `low`
    exact .set _ _ (.inr ⟨by omega, by omega⟩) (by omega)
  · obtain ⟨message, herror⟩ := @run_assignArray_error _ _ _ _ value hlookup hindex
    rw [hsize] at hindex
    exact .trapped herror (by decide) hm.output_eq (hm.cycles_lt hpace)
      (fails_localArrayStore hfetch hstack hsize' hindex).traps

omit hlaid in
/-- A global array: the elements are the globals from its slot on. -/
theorem sim_assignGlobalArray (hS : S.Ok) {info : GlobalInfo} (hscope : name ∉ scope)
    (hinfo : S.globals.lookup name = some info) (harray : info.isArray = true)
    (hframes : oracle.frames = ⟨[scope]⟩ :: frames) (hpace : vm.cycles < 3 * oracle.cycles)
    {index value : Int} (hstack : vm.stack = value :: index :: stack) (hvalue : IsI32 value)
    (hfetch : Fetches S.code vm ⟨.arrayStore, asI32 info.slot, asI32 info.arraySize⟩) :
    Sim S (do assignArray name (← checkedArrayIndex index) value)
      (fun _ oracle' vm' ↦ ∃ scope', Effect S A frames scope stack oracle vm scope' oracle' vm')
      oracle vm := by
  obtain ⟨values, hvalues, hsize, hi32, hregion⟩ := hm.globals.array hinfo harray
  have hlookup := (hm.inScope.lookupSlot_of_notMem hscope).trans hvalues
  have hle := hS.laid.le name info hinfo
  rw [width, harray, if_pos rfl] at hle
  have hglobal : GlobalArray vm.globals info.slot info.arraySize :=
    ⟨hm.globals.length, hS.laid.pos name info hinfo harray, hle⟩
  by_cases hindex : InBounds index values.length
  · have hglobals : GlobalsMatch S.globals
        (oracle.globals.insert name (.array (values.set index.toNat value)))
        (vm.globals.set (info.slot + index.toNat) value) := by
      refine hm.globals.write hS.laid hinfo ?_ ⟨harray, ?_, forall_mem_set hi32 hvalue _, ?_⟩
      · rw [width, harray, if_pos rfl, ← hsize]
        exact hindex.lt
      · exact (List.length_set ..).trans hsize
      · refine hregion.set ?_ _ value
        rw [hm.globals.length, hsize]
        exact hle
    have hrun := run_assignArray hlookup hindex hvalue
    rw [hm.inScope.replaceSlot_of_notMem hscope] at hrun
    rw [hsize] at hindex
    exact .step (step_arrayStore hfetch hstack hglobal hindex) (.ran hrun ⟨scope,
      hframes, hm.withGlobals hpace hglobals, fun _ ↦ id, .refl .., rfl, rfl, rfl, rfl⟩)
  · obtain ⟨message, herror⟩ := @run_assignArray_error _ _ _ _ value hlookup hindex
    rw [hsize] at hindex
    exact .trapped herror (by decide) hm.output_eq (hm.cycles_lt hpace)
      (fails_arrayStore hfetch hstack hglobal hindex).traps

/-- An assignment to an array element. -/
theorem sim_assignArray (hS : S.Ok) (hE : E.globals = S.globals) (hname : Seen S A scope E true name)
    (hframes : oracle.frames = ⟨[scope]⟩ :: frames) (hpace : vm.cycles < 3 * oracle.cycles)
    {index value : Int} (hstack : vm.stack = value :: index :: stack) (hvalue : IsI32 value)
    (hcode : CodeAt S vm.pc (E.accessCode name .localArrayStore .arrayStore true)) :
    Sim S (do assignArray name (← checkedArrayIndex index) value)
      (fun _ oracle' vm' ↦ ∃ scope', Effect S A frames scope stack oracle vm scope' oracle' vm')
      oracle vm := by
  rw [Env.accessCode] at hcode
  cases hname with
  | ofLocal hslot hloc harray hscope =>
    rw [hslot] at hcode
    have hfetch := hm.fetches hlaid hcode
    rw [if_pos rfl] at hfetch
    exact sim_assignLocalArray hlaid hm hloc harray hscope hframes hpace hstack hvalue hfetch
  | ofGlobal hslot hscope hinfo harray =>
    rw [hslot, hE, hinfo] at hcode
    have hfetch := hm.fetches hlaid hcode
    rw [if_pos rfl] at hfetch
    exact sim_assignGlobalArray hm hS hscope hinfo harray hframes hpace hstack hvalue hfetch

end

/-! ## Declarations -/

/-- The oracle has ticked. -/
def Ticked (oracle₀ oracle : AstOracle) : Prop :=
  oracle = { oracle₀ with cycles := oracle₀.cycles + 1 }

theorem Ticked.cycles_eq {oracle₀ : AstOracle} (h : Ticked oracle₀ oracle) :
    oracle.cycles = oracle₀.cycles + 1 := by
  rw [show oracle = _ from h]

/-- What a statement comes to that ends where its code does. -/
def Completes (S : Setting) (A : Activation) (frames : List Frame) (scope : HashMap String Slot)
    (Γ : Names) (stack : List Int) (pc : Nat) (oracle : AstOracle) (vm : Vm) (_ : Unit)
    (oracle' : AstOracle) (vm' : Vm) : Prop :=
  Finishes S A frames scope Γ 1 stack pc oracle vm .continue oracle' vm'

/-- An expression whose value one instruction makes use of. -/
theorem Evaluates.thenEffect {x : OracleM Int} {f : Int → OracleM Unit}
    {code : Nat → List Instruction} {instr : Instruction} {pc : Nat} {oracle₀ : AstOracle} {vm₀ : Vm}
    (hx : Evaluates S A scope nodes x code) (hm : Matches S A scope oracle vm)
    (hframes : oracle.frames = ⟨[scope]⟩ :: frames) (hcode : CodeAt S vm.pc (code vm.pc ++ [instr]))
    (hcovered : Covered S nodes oracle vm) (hlive : Live S.program.topLevel Γ scope)
    (hspent : Spent S 0 1 oracle₀ vm₀ oracle vm) (huntouched : Untouched A vm₀.locals vm.locals)
    (hpc : pc = vm.pc + (code vm.pc ++ [instr]).length)
    (hf : ∀ value oracle₁ vm₁, Matches S A scope oracle₁ vm₁ →
      oracle₁.frames = ⟨[scope]⟩ :: frames → vm₁.cycles < 3 * oracle₁.cycles →
      vm₁.stack = value :: vm.stack → IsI32 value → CodeAt S vm₁.pc [instr] →
      Sim S (f value) (fun _ oracle' vm' ↦
        ∃ scope', Effect S A frames scope stack oracle₁ vm₁ scope' oracle' vm') oracle₁ vm₁) :
    Sim S (do f (← x)) (Completes S A frames scope Γ stack pc oracle₀ vm₀) oracle vm := by
  have hpace := hm.pace
  refine (hx oracle vm hm hcode.left hcovered).bind fun value oracle₁ vm₁ h₁ ↦ ?_
  obtain ⟨hsteps, hticks⟩ := hspent.trans h₁.spent
  obtain ⟨hsteps₁, -⟩ := h₁.spent
  refine (hf value oracle₁ vm₁ h₁.matched (h₁.frames.trans hframes) (by omega) h₁.stack_eq h₁.isI32
    (h₁.pc_eq ▸ hcode.right)).mono fun _ oracle' vm' ⟨scope', h⟩ ↦
      ⟨scope', ⟨h.frames, h.matched, h.grown, ?_, ?_, ?_⟩, hlive.mono h.grown, h.stack_eq, ?_⟩
  · exact huntouched.trans ((h₁.undisturbed.untouched hm.low).trans h.untouched)
  · rw [h.ticks, h.steps]
    omega
  · rw [h.ticks, h.steps, Nat.mul_succ]
    omega
  · rw [h.pc_eq, h₁.pc_eq, hpc, List.length_append]
    rfl

theorem Ticked.spent {oracle₀ : AstOracle} (h : Ticked oracle₀ oracle) (vm : Vm) :
    Spent S 0 1 oracle₀ vm oracle vm := by
  have hcycles := h.cycles_eq
  exact ⟨by omega, by omega⟩

/-- A statement that ends where its code does. -/
theorem Executes.ofCompletes {x : OracleM Unit} {code : Nat → List Instruction}
    (h : ∀ scope oracle₀ oracle vm, Matches S A scope oracle vm → Ticked oracle₀ oracle →
      oracle.frames = ⟨[scope]⟩ :: frames → vm.cycles + 3 ≤ 3 * oracle.cycles →
      Live S.program.topLevel Γ scope → CodeAt S vm.pc (code vm.pc) → Covered S nodes oracle vm →
      Sim S x (Completes S A frames scope Γ' vm.stack (vm.pc + (code vm.pc).length) oracle₀ vm)
        oracle vm) :
    Executes S A frames Γ Γ' (nodes + 1)
      (do AstOracle.tick S.rules; x; return Control.continue) code := by
  intro scope oracle vm hm hframes hlive hcode hcovered
  refine Evaluates.afterTick hcovered hm fun oracle₁ horacle hm₁ hcovered₁ ↦ ?_
  have hpace := hm.pace
  have hcycles := Ticked.cycles_eq horacle
  refine (h scope oracle oracle₁ vm hm₁ horacle (by rw [horacle]; exact hframes) (by omega) hlive hcode
    hcovered₁).bind fun _ oracle' vm' ⟨scope', hran, hrest⟩ ↦ .pure ?_
  exact ⟨scope', { hran with spent := hran.spent.mono le_rfl (Nat.le_add_left ..) }, hrest⟩

theorem Ticked.ran {oracle₀ : AstOracle} (htick : Ticked oracle₀ oracle)
    (hm : Matches S A scope oracle vm) (hframes : oracle.frames = ⟨[scope]⟩ :: frames) :
    Ran S A frames scope 1 oracle₀ vm scope oracle vm where
  frames := hframes
  matched := hm
  grown _ := id
  untouched := .refl ..
  spent := htick.spent vm

section

variable {loc : LocalVar} (hm : Matches S A scope oracle vm)
  (hloc : A.locals.lookup name = some loc)
include hm hloc

/-- A local that has not been declared is not known to the oracle. -/
theorem lookupSlot_of_undeclared (hlaid : A.Laid S) (hname : name ∉ scope) :
    oracle.lookupSlot name = none := by
  rw [hm.inScope.lookupSlot_of_notMem hname, AList.lookup_eq_none]
  intro hmem
  refine hlaid.hidden name (AList.lookup_isSome.mp ?_) (hm.globals.known name hmem)
  rw [hloc]
  rfl

variable (hframes : oracle.frames = ⟨[scope]⟩ :: frames)
include hframes

/-- A new scalar. -/
theorem sim_insertInCurrentScope (hscalar : loc.isArray = false) (hname : name ∉ scope) :
    Sim S (insertInCurrentScope name (.scalar none)) (fun _ oracle' vm' ↦
      oracle' = { oracle with frames := ⟨[scope.insert name (.scalar none)]⟩ :: frames } ∧
        vm' = vm ∧ Matches S A (scope.insert name (.scalar none)) oracle' vm) oracle vm := by
  rw [insertInCurrentScope]
  refine .get_bind ?_
  rw [hframes]
  refine .update ⟨rfl, rfl, ?_⟩
  exact { hm with
    depth := by
      have hdepth := hm.depth
      rw [hframes] at hdepth
      exact hdepth
    inScope := .inside _ frames
    locals := hm.locals.declare hloc hscalar hname }

variable (hlaid : A.Laid S)
include hlaid

/-- A declaration without initializer takes no code. -/
theorem sim_varDecl_none {oracle₀ : AstOracle} (htick : Ticked oracle₀ oracle)
    (hscalar : loc.isArray = false) (hlive : Live S.program.topLevel Γ scope) {entity : Entity}
    {call : String → List Int → OracleM Int} :
    Sim S (execVarDecl S.rules call name none none)
      (Completes S A frames scope (Γ.declare name entity) vm.stack vm.pc oracle₀ vm) oracle vm := by
  dsimp only [execVarDecl]
  refine .get_bind ?_
  by_cases hname : name ∈ scope
  · obtain ⟨value, hvalue, -⟩ := hm.locals.scalar hloc hscalar hname
    have hdone : Sim S (pure ())
        (Completes S A frames scope (Γ.declare name entity) vm.stack vm.pc oracle₀ vm) oracle vm :=
      .pure ⟨scope, htick.ran hm hframes, hlive.declare (fun _ ↦ id) hname, rfl, rfl⟩
    rw [hm.inScope.lookupSlot_of_mem hvalue]
    exact hdone
  · rw [lookupSlot_of_undeclared hm hloc hlaid hname]
    refine (sim_insertInCurrentScope hm hloc hframes hscalar hname).mono ?_
    rintro _ _ _ ⟨rfl, rfl, hm'⟩
    have hgrown (name' : String) (hname' : name' ∈ scope) :
        name' ∈ scope.insert name (.scalar none) := (AList.mem_insert _).mpr (.inr hname')
    obtain ⟨hsteps, hticks⟩ := (htick.ran hm hframes).spent
    exact ⟨_, ⟨rfl, hm', hgrown, .refl .., hsteps, hticks⟩,
      hlive.declare hgrown ((AList.mem_insert _).mpr (.inl rfl)), rfl, rfl⟩

/-- A declaration of an array. -/
theorem sim_varDecl_array {oracle₀ : AstOracle} (htick : Ticked oracle₀ oracle)
    {arraySize : Int32} (harray : loc.isArray = true)
    (hsize : loc.arraySize = arrayUsize arraySize) (hlive : Live S.program.topLevel Γ scope)
    {entity : Entity} {init : Option Expr} {call : String → List Int → OracleM Int}
    (hpace : vm.cycles + 3 ≤ 3 * oracle.cycles)
    (hcode : CodeAt S vm.pc
      [⟨.allocArray, asI32 loc.arraySize, 0⟩, ⟨.storeLocal, asI32 loc.slot, 0⟩]) :
    Sim S (execVarDecl S.rules call name init (some arraySize))
      (Completes S A frames scope (Γ.declare name entity) vm.stack (vm.pc + 2) oracle₀ vm)
      oracle vm := by
  have hcycles := htick.cycles_eq
  have hsize_lt : loc.arraySize < 2 ^ 31 := hlaid.size_lt name loc hloc
  have hlimit := hlaid.current.limit
  have hge := hlaid.low_ge
  have hlow := hm.low
  have hcells := hm.cell_lt hlaid hloc
  have hlt := hlaid.slot_lt name loc hloc
  have hcurrent := hm.current hlaid
  refine .advance (advances_allocArray hsize_lt (hm.fetches hlaid hcode))
    (hm.cycles_lt (by omega)) ?_
  have hfetch : Fetches S.code { vm with
      stack := (vm.locals.length : Int) :: vm.stack
      locals := vm.locals ++ List.replicate loc.arraySize 0
      pc := vm.pc + 1
      cycles := vm.cycles + 1 } ⟨.storeLocal, asI32 loc.slot, 0⟩ :=
    ⟨⟨hm.plain.unlimited, hm.plain.untraced⟩, (hm.fetches hlaid hcode).frames, hcode.tail.head⟩
  refine .step (step_storeLocal hfetch rfl hcurrent (hlaid.slot_lt name loc hloc) (by
    rw [List.length_append]
    omega)) ?_
  dsimp only
  have hdepth := hm.depth
  rw [hframes] at hdepth
  -- both sides have a new array of zeros; what differs below is how the oracle finds its slot
  have hdone : Completes S A frames scope (Γ.declare name entity) vm.stack (vm.pc + 2) oracle₀ vm ()
      { oracle with frames := ⟨[scope.insert name
        (.array (List.replicate (asUsize arraySize) 0))]⟩ :: frames } { vm with
        locals := (vm.locals ++ List.replicate loc.arraySize 0).set (A.base + loc.slot)
          vm.locals.length
        pc := vm.pc + 2
        cycles := vm.cycles + 2 } := by
    have hgrown (name' : String) (hname' : name' ∈ scope) : name' ∈ scope.insert name
        (.array (List.replicate (asUsize arraySize) 0)) := (AList.mem_insert _).mpr (.inr hname')
    have hlocals := hm.locals.allocate hlaid hloc harray hcells hlow
    rw [show (List.replicate loc.arraySize (0 : Int)) = List.replicate (asUsize arraySize) 0 by
      rw [hsize, arrayUsize]] at hlocals ⊢
    refine ⟨_, ⟨rfl, ?_, hgrown, ?_, ?_, ?_⟩,
      hlive.declare hgrown ((AList.mem_insert _).mpr (.inl rfl)), rfl, rfl⟩
    · refine ⟨⟨hm.plain.unlimited, hm.plain.untraced⟩, ?_, ?_, hm.budget, hm.callStack, hdepth,
        hm.output_eq, hm.globals, ?_, .inside _ frames, hlocals⟩
      · refine hm.bound.grow ?_ (by dsimp only; omega)
        rw [List.length_set, List.length_append, List.length_replicate, ← arrayUsize, ← hsize]
        omega
      · dsimp only
        omega
      · rw [List.length_set, List.length_append]
        omega
    · refine Untouched.trans (c := vm.locals ++ List.replicate (asUsize arraySize) 0)
        ⟨?_, fun cell hlt ↦ ?_, fun cell _ hlt ↦ ?_⟩ (.set _ _ (.inl ⟨?_, ?_⟩) ?_)
      · rw [List.length_append]
        omega
      · exact List.getElem?_append_left (by omega)
      · exact List.getElem?_append_left (by omega)
      all_goals omega
    · dsimp only
      omega
    · dsimp only
      rw [Nat.mul_add]
      omega
  dsimp only [execVarDecl]
  rw [declareOrUpdate]
  refine .get_bind ?_
  -- in a loop the name may be declared already, and its slot gets the new array
  by_cases hname : name ∈ scope
  · obtain ⟨values, -, hvalues, -⟩ := hm.locals.array hloc harray hname
    rw [hm.inScope.lookupSlot_of_mem hvalues, if_pos Option.isSome_some]
    refine .update ?_
    rw [replaceSlot_of_mem hframes hname]
    exact hdone
  · rw [lookupSlot_of_undeclared hm hloc hlaid hname, Option.isSome_none,
      if_neg Bool.false_ne_true, insertInCurrentScope]
    refine .get_bind ?_
    rw [hframes]
    exact .update hdone

end

/-! ## Control flow -/

/-- The code of an expression where `Γ` is visible. -/
def EvaluatesIn (S : Setting) (A : Activation) (Γ : Names) (nodes : Nat) (x : OracleM Int)
    (code : Nat → List Instruction) : Prop :=
  ∀ scope, (∀ name ∈ scope, name ∉ S.globals) → Live S.program.topLevel Γ scope →
    Evaluates S A scope nodes x code

/-- A condition has been evaluated, and a jump has been taken or not. -/
structure Branched (S : Setting) (A : Activation) (scope : HashMap String Slot)
    (oracle : AstOracle) (vm : Vm) (oracle' : AstOracle) (vm' : Vm) : Prop where
  matched : Matches S A scope oracle' vm'
  frames : oracle'.frames = oracle.frames
  untouched : Untouched A vm.locals vm'.locals
  stack_eq : vm'.stack = vm.stack
  steps : vm'.cycles + 1 + 3 * oracle.cycles ≤ vm.cycles + 3 * oracle'.cycles
  ticks : oracle'.cycles + S.rate + S.rate * vm.cycles ≤ oracle.cycles + S.rate * vm'.cycles

theorem Branched.spent (h : Branched S A scope oracle vm oracle' vm') :
    Spent S 1 0 oracle vm oracle' vm' := by
  have hticks := h.ticks
  exact ⟨h.steps, by omega⟩

theorem Evaluates.branch {α : Type} {x : OracleM Int} {y z : OracleM α}
    {Q : α → AstOracle → Vm → Prop} {code : Nat → List Instruction} {target : Nat}
    (hx : Evaluates S A scope nodes x code) (hlaid : A.Laid S) (hm : Matches S A scope oracle vm)
    (hcode : CodeAt S vm.pc (code vm.pc ++ [⟨.jumpIfFalse, asI32 target, 0⟩]))
    (htarget : target < 2 ^ 31) (hcovered : Covered S nodes oracle vm)
    (hy : ∀ oracle₁ vm₁, Branched S A scope oracle vm oracle₁ vm₁ →
      vm₁.pc = vm.pc + (code vm.pc).length + 1 → Sim S y Q oracle₁ vm₁)
    (hz : ∀ oracle₁ vm₁, Branched S A scope oracle vm oracle₁ vm₁ → vm₁.pc = target →
      Sim S z Q oracle₁ vm₁) :
    Sim S (do if (← x) ≠ 0 then y else z) Q oracle vm := by
  have hpace := hm.pace
  refine (hx oracle vm hm hcode.left hcovered).bind fun value oracle₁ vm₁ h₁ ↦ ?_
  obtain ⟨hsteps, hticks⟩ := h₁.spent
  refine .step (step_jumpIfFalse (h₁.matched.fetches hlaid (h₁.pc_eq ▸ hcode.right)) h₁.stack_eq) ?_
  rw [asUsize_asI32 htarget]
  have hbranched : Branched S A scope oracle vm oracle₁ { vm₁ with
      stack := vm.stack
      pc := if value = 0 then target else vm₁.pc + 1
      cycles := vm₁.cycles + 1 } := by
    refine ⟨h₁.matched.next (by omega), h₁.frames, h₁.undisturbed.untouched hm.low, rfl, ?_, ?_⟩
    · dsimp only
      omega
    · dsimp only
      rw [Nat.mul_succ]
      omega
  by_cases hvalue : value = 0
  · rw [if_neg (not_not.mpr hvalue)]
    exact hz _ _ hbranched (if_pos hvalue)
  · rw [if_pos hvalue]
    refine hy _ _ hbranched ((if_neg hvalue).trans ?_)
    rw [h₁.pc_eq]

namespace Finishes

variable {control : Control} {pc pc' extra : Nat}

/-- A block restores the names visible before it. -/
theorem restore (h : Finishes S A frames scope Γ' extra stack pc oracle vm control oracle' vm')
    (hlive : Live S.program.topLevel Γ scope) :
    Finishes S A frames scope Γ extra stack pc oracle vm control oracle' vm' := by
  obtain ⟨scope', hran, hrest⟩ := h
  refine ⟨scope', hran, ?_⟩
  cases control with
  | «continue» => exact ⟨hlive.mono hran.grown, hrest.2⟩
  | «return» value => exact hrest

/-- Nothing is left to do. -/
theorem ofPc (hm : Matches S A scope oracle vm) (hframes : oracle.frames = ⟨[scope]⟩ :: frames)
    (hlive : Live S.program.topLevel Γ scope) (hpc : vm.pc = pc) :
    Finishes S A frames scope Γ 0 vm.stack pc oracle vm .continue oracle vm :=
  ⟨scope, ⟨hframes, hm, fun _ ↦ id, .refl .., le_rfl, le_rfl⟩, hlive, rfl, hpc⟩

/-- The tick of a statement. -/
theorem ofTick {oracle₀ : AstOracle} (hcycles : oracle.cycles = oracle₀.cycles + 1)
    (h : Finishes S A frames scope Γ extra stack pc oracle vm control oracle' vm') :
    Finishes S A frames scope Γ (extra + 1) stack pc oracle₀ vm control oracle' vm' := by
  obtain ⟨scope', hran, hrest⟩ := h
  obtain ⟨hsteps, hticks⟩ := hran.spent
  exact ⟨scope', { hran with spent := ⟨by omega, by omega⟩ }, hrest⟩

theorem mono {nodes : Nat} (hover : extra ≤ nodes)
    (h : Finishes S A frames scope Γ extra stack pc oracle vm control oracle' vm') :
    Finishes S A frames scope Γ nodes stack pc oracle vm control oracle' vm' := by
  obtain ⟨scope', hran, hrest⟩ := h
  exact ⟨scope', { hran with spent := hran.spent.mono le_rfl hover }, hrest⟩

theorem ofGrown (hgrown : ∀ name ∈ scope, name ∈ scope')
    (h : Finishes S A frames scope' Γ extra stack pc oracle vm control oracle' vm') :
    Finishes S A frames scope Γ extra stack pc oracle vm control oracle' vm' := by
  obtain ⟨scope'', hran, hrest⟩ := h
  exact ⟨scope'', { hran with grown := fun name hname ↦ hran.grown name (hgrown name hname) }, hrest⟩

/-- The code runs on from where a condition has led to. -/
theorem afterBranch {oracle₁ : AstOracle} {vm₁ : Vm}
    (h : Finishes S A frames scope Γ extra vm₁.stack pc oracle vm₁ control oracle' vm')
    (h₁ : Branched S A scope oracle₁ vm oracle vm₁) (hpc : pc = pc') :
    Finishes S A frames scope Γ extra vm.stack pc' oracle₁ vm control oracle' vm' := by
  obtain ⟨scope', hran, hrest⟩ := h
  obtain ⟨hsteps, hticks⟩ := h₁.spent.trans hran.spent
  rw [hpc, h₁.stack_eq] at hrest
  exact ⟨scope', ⟨hran.frames, hran.matched, hran.grown, h₁.untouched.trans hran.untouched,
    by omega, by omega⟩, hrest⟩

end Finishes

/-- The jump behind the code of a block. -/
theorem Branched.jump {oracle₀ : AstOracle} {vm₀ : Vm} {extra k target : Nat}
    {rest : List Instruction} (h₁ : Branched S A scope oracle₀ vm₀ oracle vm) (hlaid : A.Laid S)
    (hran : Ran S A frames scope extra oracle vm scope' oracle' vm')
    (hcode : CodeAt S vm'.pc (⟨.jump, asI32 target, 0⟩ :: rest)) (htarget : target < 2 ^ 31)
    (hpace : vm₀.cycles ≤ 3 * oracle₀.cycles) (hover : extra ≤ k + 2 * S.rate) :
    ∃ vm'', step S.code vm' = .inl vm'' ∧ vm''.stack = vm'.stack ∧ vm''.pc = target ∧
      Ran S A frames scope k oracle₀ vm₀ scope' oracle' vm'' := by
  obtain ⟨hsteps, hticks⟩ := hran.spent
  have hsteps₁ := h₁.steps
  have hticks₁ := h₁.ticks
  refine ⟨_, step_jump (hran.matched.fetches hlaid hcode), rfl, asUsize_asI32 htarget, hran.frames,
    hran.matched.next (by omega), hran.grown, h₁.untouched.trans hran.untouched, ?_, ?_⟩
  · dsimp only
    omega
  · dsimp only
    rw [Nat.mul_succ]
    omega

/-- The machine makes up for what the oracle has done. -/
theorem Sim.catchUp {α : Type} {x : OracleM α} {Q Q' : α → AstOracle → Vm → Prop}
    (hx : Sim S x Q oracle vm) (h : ∀ a oracle' vm', Q a oracle' vm' →
      ∃ vm'', Stepping.Reaches (Vm.step S.code) vm' vm'' ∧ Q' a oracle' vm'') :
    Sim S x Q' oracle vm := by
  have hbind := hx.bind (f := Pure.pure) fun a oracle' vm' hQ ↦ by
    obtain ⟨vm'', hreaches, hQ'⟩ := h a oracle' vm' hQ
    exact .of_reaches hreaches (.pure hQ')
  rwa [bind_pure] at hbind

namespace Executes

variable {x : OracleM Int} {y z : OracleM Control} {code left right : Nat → List Instruction}
  {Γ'' : Names} {nodes'' : Nat}

theorem nil : Executes S A frames Γ Γ 0 (pure .continue) fun _ ↦ [] := by
  intro scope oracle vm hm hframes hlive _ _
  exact .pure ⟨scope, ⟨hframes, hm, fun _ ↦ id, .refl .., le_rfl, le_rfl⟩, hlive, rfl, rfl⟩

theorem cons (hy : Executes S A frames Γ Γ' nodes y left)
    (hz : Executes S A frames Γ' Γ'' nodes' z right) :
    Executes S A frames Γ Γ'' (nodes + nodes')
      (do
        match ← y with
        | .continue => z
        | .return value => return .return value)
      fun base ↦ left base ++ right (base + (left base).length) := by
  intro scope oracle vm hm hframes hlive hcode hcovered
  refine (hy scope oracle vm hm hframes hlive hcode.left (hcovered.mono (Nat.le_add_right ..))).bind
    fun control oracle₁ vm₁ ⟨scope₁, hran₁, hrest⟩ ↦ ?_
  cases control with
  | «continue» =>
    obtain ⟨hlive₁, hstack₁, hpc₁⟩ := hrest
    have hright := hcode.right
    rw [← hpc₁] at hright
    have hcovered₁ : Covered S nodes' oracle₁ vm₁ :=
      (hcovered.mono (Nat.add_comm nodes' nodes).le).spent hran₁.spent
    refine (hz scope₁ oracle₁ vm₁ hran₁.matched hran₁.frames hlive₁ hright hcovered₁).mono
      fun control oracle' vm' ⟨scope', hran', hrest'⟩ ↦ ⟨scope', hran₁.trans hran', ?_⟩
    cases control with
    | «continue» =>
      obtain ⟨hlive', hstack', hpc'⟩ := hrest'
      refine ⟨hlive', hstack'.trans hstack₁, ?_⟩
      rw [hpc', hpc₁, List.length_append, Nat.add_assoc]
    | «return» value =>
      obtain ⟨hvalue, hstack', hcode'⟩ := hrest'
      exact ⟨hvalue, hstack'.trans (congrArg _ hstack₁), hcode'⟩
  | «return» value =>
    refine .pure ⟨scope₁, { hran₁ with spent := hran₁.spent.mono le_rfl ?_ }, hrest⟩
    exact Nat.le_add_right ..

variable (hlaid : A.Laid S)
include hlaid

theorem ofReturn (hx : EvaluatesIn S A Γ nodes x code) :
    Executes S A frames Γ Γ (nodes + 1)
      (do AstOracle.tick S.rules; return .return (← x))
      fun base ↦ code base ++ [.simple .return] := by
  intro scope oracle vm hm hframes hlive hcode hcovered
  refine Evaluates.afterTick hcovered hm fun oracle₁ horacle hm₁ hcovered₁ ↦ ?_
  have hcycles := Ticked.cycles_eq horacle
  refine (hx scope (hm.hidden hlaid) hlive oracle₁ vm hm₁ hcode.left hcovered₁).bind
    fun value oracle' vm' h ↦ .pure ?_
  obtain ⟨hsteps, hticks⟩ := h.spent
  refine ⟨scope, ⟨?_, h.matched, fun _ ↦ id, h.undisturbed.untouched hm.low, ?_, ?_⟩, h.isI32,
    h.stack_eq, h.pc_eq ▸ hcode.right⟩
  · rw [h.frames, horacle]
    exact hframes
  · omega
  · omega

/-- A conditional statement. -/
theorem ofIf (hS : S.Ok) (hx : EvaluatesIn S A Γ nodes x code)
    (hy : Executes S A frames Γ Γ' nodes' y left) :
    Executes S A frames Γ Γ (nodes + nodes' + 1)
      (do AstOracle.tick S.rules; if (← x) ≠ 0 then y else return .continue)
      fun base ↦ Env.ifCode base (code base) (left (base + (code base).length + 1)) := by
  intro scope oracle vm hm hframes hlive hcode hcovered
  dsimp only [Env.ifCode] at hcode
  have hsmall := hS.small
  have hbody := hcode.right
  have hend := hbody.add_le
  refine Evaluates.afterTick hcovered hm fun oracle₁ horacle hm₁ hcovered₁ ↦ ?_
  have hcycles := Ticked.cycles_eq horacle
  have hframes₁ : oracle₁.frames = ⟨[scope]⟩ :: frames := by rw [horacle]; exact hframes
  refine (hx scope (hm.hidden hlaid) hlive).branch hlaid hm₁ hcode.upTo (by omega)
    (hcovered₁.mono (Nat.le_add_right ..)) (fun oracle₂ vm₂ h₂ hpc ↦ ?_) (fun oracle₂ vm₂ h₂ hpc ↦ ?_)
  · have hcode₂ := hbody.tail
    rw [← hpc] at hcode₂
    have hcovered₂ : Covered S nodes' oracle₂ vm₂ :=
      (hcovered₁.mono (Nat.le_add_left ..)).spent h₂.spent
    refine (hy scope oracle₂ vm₂ h₂.matched (h₂.frames.trans hframes₁) hlive ?_ hcovered₂).mono
      fun control oracle' vm' h ↦ (((h.restore hlive).afterBranch h₂ ?_).mono
        (Nat.le_add_left ..)).ofTick hcycles
    · rw [hpc]
      rwa [hpc] at hcode₂
    · dsimp only [Env.ifCode]
      rw [hpc, List.length_append, List.length_cons]
      omega
  · refine .pure ((((Finishes.ofPc h₂.matched (h₂.frames.trans hframes₁) hlive hpc).afterBranch
      h₂ ?_).mono (Nat.zero_le _)).ofTick hcycles)
    dsimp only [Env.ifCode]
    rw [List.length_append, List.length_cons]
    omega

/-- A conditional statement with an alternative. -/
theorem ofIfElse (hS : S.Ok) (hx : EvaluatesIn S A Γ nodes x code)
    (hy : Executes S A frames Γ Γ' nodes' y left) (hz : Executes S A frames Γ Γ'' nodes'' z right) :
    Executes S A frames Γ Γ (nodes + (nodes' + nodes'') + 1)
      (do AstOracle.tick S.rules; if (← x) ≠ 0 then y else z)
      fun base ↦ Env.ifElseCode base (code base) (left (base + (code base).length + 1))
        (right (base + (code base).length + (left (base + (code base).length + 1)).length + 2)) := by
  intro scope oracle vm hm hframes hlive hcode hcovered
  dsimp only [Env.ifElseCode] at hcode ⊢
  generalize hcond : code vm.pc = condCode at *
  generalize hthen : left (vm.pc + condCode.length + 1) = thenCode at *
  generalize helse : right (vm.pc + condCode.length + thenCode.length + 2) = elseCode at *
  rw [List.append_assoc, List.cons_append] at hcode
  have hsmall := hS.small
  have hbody := hcode.right
  have hjump := hbody.tail.right
  have hend := hjump.add_le
  refine Evaluates.afterTick hcovered hm fun oracle₁ horacle hm₁ hcovered₁ ↦ ?_
  have hcycles := Ticked.cycles_eq horacle
  have hframes₁ : oracle₁.frames = ⟨[scope]⟩ :: frames := by rw [horacle]; exact hframes
  have hlength : (condCode ++ ⟨.jumpIfFalse, asI32 (vm.pc + condCode.length + thenCode.length + 2), 0⟩
      :: thenCode ++ ⟨.jump, asI32 (vm.pc + condCode.length + thenCode.length + 2 +
        elseCode.length), 0⟩ :: elseCode).length =
      condCode.length + thenCode.length + 2 + elseCode.length := by
    rw [List.length_append, List.length_append, List.length_cons, List.length_cons]
    omega
  rw [hlength]
  have hbranch : CodeAt S vm.pc (code vm.pc ++
      [⟨.jumpIfFalse, asI32 (vm.pc + condCode.length + thenCode.length + 2), 0⟩]) := by
    rw [hcond]
    exact hcode.upTo
  refine (hx scope (hm.hidden hlaid) hlive).branch hlaid hm₁ hbranch (by omega)
    (hcovered₁.mono (Nat.le_add_right ..)) (fun oracle₂ vm₂ h₂ hpc ↦ ?_) (fun oracle₂ vm₂ h₂ hpc ↦ ?_)
  · rw [hcond] at hpc
    have hcode₂ : CodeAt S vm₂.pc (left vm₂.pc) := by
      rw [hpc, hthen]
      exact hbody.tail.left
    refine (hy scope oracle₂ vm₂ h₂.matched (h₂.frames.trans hframes₁) hlive hcode₂
      ((hcovered₁.mono (by omega)).spent h₂.spent)).catchUp
      fun control oracle' vm' ⟨scope', hran, hrest⟩ ↦ ?_
    cases control with
    | «continue» =>
      obtain ⟨-, hstack', hpc'⟩ := hrest
      rw [hpc, hthen] at hpc'
      obtain ⟨vm'', hstep, hstack, htarget, hran'⟩ := h₂.jump (k := nodes + (nodes' + nodes''))
        hlaid hran (hpc' ▸ hjump) (by omega) hm₁.pace (by omega)
      refine ⟨vm'', .tail (.refl _) hstep, Finishes.ofTick hcycles
        ⟨scope', hran', hlive.mono hran.grown, ?_, ?_⟩⟩
      · rw [hstack, hstack', h₂.stack_eq]
      · rw [htarget]
        omega
    | «return» value =>
      refine ⟨vm', .refl _, Finishes.ofTick hcycles (Finishes.mono ?_
        (Finishes.afterBranch ⟨scope', hran, hrest⟩ h₂ rfl))⟩
      omega
  · have hcode₂ : CodeAt S vm₂.pc (right vm₂.pc) := by
      rw [hpc, helse]
      have htail := hjump.tail
      rwa [show vm.pc + condCode.length + 1 + thenCode.length + 1 =
        vm.pc + condCode.length + thenCode.length + 2 by omega] at htail
    refine (hz scope oracle₂ vm₂ h₂.matched (h₂.frames.trans hframes₁) hlive hcode₂
      ((hcovered₁.mono (by omega)).spent h₂.spent)).mono
      fun control oracle' vm' h ↦ (((h.restore hlive).afterBranch h₂ ?_).mono
        (by omega)).ofTick hcycles
    rw [hpc, helse]
    omega

/-- A loop from its condition on, where the tick of the statement has been made. -/
theorem ofLoop (hS : S.Ok) (hx : EvaluatesIn S A Γ nodes x code)
    (hy : Executes S A frames Γ Γ' nodes' y left) (hrate : nodes' ≤ 2 * S.rate) {base : Nat}
    (hcode : CodeAt S base (Env.whileCode base (code base) (left (base + (code base).length + 1))))
    (fuel : Nat) : ∀ scope oracle vm, Matches S A scope oracle vm →
      oracle.frames = ⟨[scope]⟩ :: frames → Live S.program.topLevel Γ scope → vm.pc = base →
      Covered S (nodes + nodes') oracle vm → Sim S (AstOracle.loop x y fuel)
        (Finishes S A frames scope Γ nodes' vm.stack (base + (code base).length +
          (left (base + (code base).length + 1)).length + 2) oracle vm) oracle vm := by
  induction fuel with
  | zero => exact fun _ _ _ _ _ _ _ _ ↦ .outOfFuel
  | succ fuel ih =>
    intro scope oracle vm hm hframes hlive hpc hcovered
    subst hpc
    dsimp only [Env.whileCode] at hcode
    generalize hcond : code vm.pc = condCode at *
    generalize hbody : left (vm.pc + condCode.length + 1) = bodyCode at *
    rw [List.append_assoc, List.cons_append] at hcode
    have hsmall := hS.small
    have hblock := hcode.right
    have hjump := hblock.tail.right
    have hend := hjump.add_le
    rw [List.length_nil] at hend
    have hbranch : CodeAt S vm.pc (code vm.pc ++
        [⟨.jumpIfFalse, asI32 (vm.pc + condCode.length + bodyCode.length + 2), 0⟩]) := by
      rw [hcond]
      exact hcode.upTo
    rw [AstOracle.loop]
    refine (hx scope (hm.hidden hlaid) hlive).branch hlaid hm hbranch (by omega)
      (hcovered.mono (Nat.le_add_right ..)) (fun oracle₁ vm₁ h₁ hpc₁ ↦ ?_)
      (fun oracle₁ vm₁ h₁ hpc₁ ↦ ?_)
    · rw [hcond] at hpc₁
      have hcode₁ : CodeAt S vm₁.pc (left vm₁.pc) := by
        rw [hpc₁, hbody]
        exact hblock.tail.left
      -- the body, and the jump back where it does not return
      have hround : Sim S y (fun control oracle' vm' ↦ Finishes S A frames scope Γ
          (match control with
            | .continue => 0
            | .return _ => nodes') vm.stack vm.pc oracle vm control oracle' vm') oracle₁ vm₁ := by
        refine (hy scope oracle₁ vm₁ h₁.matched (h₁.frames.trans hframes) hlive hcode₁
          ((hcovered.mono (Nat.le_add_left ..)).kept h₁.spent)).catchUp
          fun control oracle' vm' ⟨scope', hran, hrest⟩ ↦ ?_
        cases control with
        | «continue» =>
          obtain ⟨-, hstack', hpc'⟩ := hrest
          rw [hpc₁, hbody] at hpc'
          obtain ⟨vm'', hstep, hstack, htarget, hran'⟩ := h₁.jump (k := 0) hlaid hran
            (hpc' ▸ hjump) (by omega) hm.pace (by omega)
          refine ⟨vm'', .tail (.refl _) hstep, scope', hran', hlive.mono hran.grown, ?_, htarget⟩
          rw [hstack, hstack', h₁.stack_eq]
        | «return» value =>
          exact ⟨vm', .refl _, Finishes.afterBranch ⟨scope', hran, hrest⟩ h₁ rfl⟩
      refine hround.bind fun control oracle₂ vm₂ ⟨scope₂, hran₂, hrest₂⟩ ↦ ?_
      cases control with
      | «continue» =>
        obtain ⟨hlive₂, hstack₂, hpc₂⟩ := hrest₂
        refine (ih scope₂ oracle₂ vm₂ hran₂.matched hran₂.frames hlive₂ hpc₂
          (hcovered.kept hran₂.spent)).mono fun control oracle' vm' ⟨scope', hran', hrest'⟩ ↦ ?_
        rw [hstack₂] at hrest'
        refine ⟨scope', ?_, hrest'⟩
        have hran := hran₂.trans hran'
        rwa [Nat.zero_add] at hran
      | «return» value => exact .pure ⟨scope₂, hran₂, hrest₂⟩
    · exact .pure (Finishes.mono (Nat.zero_le _)
        ((Finishes.ofPc h₁.matched (h₁.frames.trans hframes) hlive hpc₁).afterBranch h₁ rfl))

/-- A loop. -/
theorem ofWhile (hS : S.Ok) (hx : EvaluatesIn S A Γ nodes x code)
    (hy : Executes S A frames Γ Γ' nodes' y left) (hrate : nodes' ≤ 2 * S.rate) (fuel : Nat) :
    Executes S A frames Γ Γ (nodes + nodes' + 1)
      (do AstOracle.tick S.rules; loop x y fuel)
      fun base ↦ Env.whileCode base (code base) (left (base + (code base).length + 1)) := by
  intro scope oracle vm hm hframes hlive hcode hcovered
  refine Evaluates.afterTick hcovered hm fun oracle₁ horacle hm₁ hcovered₁ ↦ ?_
  have hframes₁ : oracle₁.frames = ⟨[scope]⟩ :: frames := by rw [horacle]; exact hframes
  refine (ofLoop hlaid hS hx hy hrate hcode fuel scope oracle₁ vm hm₁ hframes₁ hlive rfl
    hcovered₁).mono fun control oracle' vm' h ↦ ?_
  dsimp only [Env.whileCode]
  rw [List.length_append, List.length_append, List.length_cons, List.length_singleton]
  have h' := (h.mono (Nat.le_add_left nodes' nodes)).ofTick (Ticked.cycles_eq horacle)
  rwa [show vm.pc + (code vm.pc).length + (left (vm.pc + (code vm.pc).length + 1)).length + 2 =
    vm.pc + ((code vm.pc).length + ((left (vm.pc + (code vm.pc).length + 1)).length + 1) + 1) by
      omega] at h'

end Executes

/-! ## All statements -/

section

variable {call : String → List Int → OracleM Int}

theorem evaluatesIn (hS : S.Ok) (hlaid : A.Laid S) (hcalls : CallsOk S call) (hE : Within S A E)
    (htracks : Tracks S.program.topLevel size Γ E) {e : Expr} {t : Ty} (htype : HasType Γ e t)
    (hmain : "main" ∉ e.callees) :
    EvaluatesIn S A Γ e.nodes (evalExpr S.rules call e) (E.exprCode e) :=
  fun _ hhidden hlive ↦ evaluates_expr hS hlaid hcalls (hlive.sees hS hE htracks hhidden) e htype
    hmain

theorem mem_of_seen {isArray : Bool} (hE : E.globals = S.globals)
    (h : Seen S A scope E isArray name) : name ∈ E.locals ∨ name ∈ E.globals := by
  cases h with
  | ofLocal hslot => exact .inl (AList.lookup_isSome.mp (by rw [hslot]; rfl))
  | ofGlobal _ _ hinfo => exact .inr (AList.lookup_isSome.mp (by rw [hE, hinfo]; rfl))

/-- An assignment to a scalar. -/
theorem executes_assignScalar (hS : S.Ok) (hlaid : A.Laid S) (hcalls : CallsOk S call)
    (hE : Within S A E) (htracks : Tracks S.program.topLevel size Γ E) {t : Ty}
    (hname : Γ name = some (.scalar t)) {value : Expr} (htype : HasType Γ value t)
    (hmain : "main" ∉ value.callees) :
    Executes S A frames Γ Γ (value.nodes + 1)
      (do
        AstOracle.tick S.rules
        execAssign S.rules call name none value
        return .continue) (E.assignCode name none value) := by
  refine .ofCompletes fun scope oracle₀ oracle vm hm htick hframes hpace hlive hcode hcovered ↦ ?_
  have hsees := hlive.sees hS hE htracks (hm.hidden hlaid)
  have hseen := hsees.scalar name t hname
  obtain ⟨instr, hinstr⟩ := accessCode_singleton hE.globals hseen .storeLocal .storeGlobal false
  rw [Env.assignCode, if_pos (mem_of_seen hE.globals hseen)] at hcode ⊢
  rw [hinstr] at hcode ⊢
  refine (evaluates_expr hS hlaid hcalls hsees value htype hmain).thenEffect hm hframes hcode
    hcovered hlive (htick.spent vm) (.refl ..) rfl
    fun v oracle₁ vm₁ hm₁ hframes₁ hpace₁ hstack₁ hv hcode₁ ↦ ?_
  exact sim_assignScalar hlaid hm₁ hS hE.globals hseen hframes₁ hpace₁ hstack₁ hv (hinstr ▸ hcode₁)

/-- An assignment to an array element. -/
theorem executes_assignElement (hS : S.Ok) (hlaid : A.Laid S) (hcalls : CallsOk S call)
    (hE : Within S A E) (htracks : Tracks S.program.topLevel size Γ E) {t : Ty}
    (hname : Γ name = some (.array t)) {index value : Expr} (hindex : HasType Γ index .int)
    (htype : HasType Γ value t) (hmain : "main" ∉ index.callees) (hmain' : "main" ∉ value.callees) :
    Executes S A frames Γ Γ (index.nodes + value.nodes + 1)
      (do
        AstOracle.tick S.rules
        execAssign S.rules call name (some index) value
        return .continue) (E.assignCode name (some index) value) := by
  refine .ofCompletes fun scope oracle₀ oracle vm hm htick hframes hpace hlive hcode hcovered ↦ ?_
  have hsees := hlive.sees hS hE htracks (hm.hidden hlaid)
  have hseen := hsees.array name t hname
  obtain ⟨instr, hinstr⟩ := accessCode_singleton hE.globals hseen .localArrayStore .arrayStore true
  rw [Env.assignCode, if_pos (mem_of_seen hE.globals hseen)] at hcode ⊢
  rw [hinstr, List.append_assoc] at hcode ⊢
  rw [execAssign, hS.late]
  refine (evaluates_expr hS hlaid hcalls hsees index hindex hmain oracle vm hm hcode.left
    (hcovered.mono (Nat.le_add_right ..))).bind fun rawIndex oracle₁ vm₁ h₁ ↦ ?_
  have hcode₁ := hcode.right
  rw [← h₁.pc_eq] at hcode₁
  have hspent₁ := ((htick.spent vm).trans h₁.spent).mono (Nat.zero_le _) le_rfl
  refine (evaluates_expr hS hlaid hcalls hsees value htype hmain').thenEffect h₁.matched
    (h₁.frames.trans hframes) hcode₁ ((hcovered.mono (Nat.le_add_left ..)).kept h₁.spent) hlive
    hspent₁ (h₁.undisturbed.untouched hm.low) ?_
    fun v oracle₂ vm₂ hm₂ hframes₂ hpace₂ hstack₂ hv hcode₂ ↦ ?_
  · rw [List.length_append, h₁.pc_eq, Nat.add_assoc]
  · rw [h₁.stack_eq] at hstack₂
    exact sim_assignArray hlaid hm₂ hS hE.globals hseen hframes₂ hpace₂ hstack₂ hv (hinstr ▸ hcode₂)

/-- A declaration. -/
theorem executes_varDecl (hS : S.Ok) (hlaid : A.Laid S) (hcalls : CallsOk S call)
    {type : Ty} {init : Option Expr} {arraySize : Option Int32}
    (hE : Within S A (E.declareLocal name arraySize))
    (htracks : Tracks S.program.topLevel size Γ E) (hfresh : Γ name = none)
    (hsize : arraySize = size name) (hpos : ∀ n ∈ arraySize, 0 < n)
    (hinit : InitOk (Γ.declare name (varEntity type arraySize)) type init)
    (hmain : ∀ e ∈ init, "main" ∉ e.callees) (hnodes : ∀ e ∈ init, e.nodes ≤ nodes) :
    Executes S A frames Γ (Γ.declare name (varEntity type arraySize)) (nodes + 1)
      (do
        AstOracle.tick S.rules
        execVarDecl S.rules call name init arraySize
        return .continue) ((E.declareLocal name arraySize).varDeclCode name init) := by
  have htracks' : Tracks S.program.topLevel size (Γ.declare name (varEntity type arraySize))
      (E.declareLocal name arraySize) := htracks.declareLocal hfresh hsize hpos
  have hmem : name ∈ (E.declareLocal name arraySize).locals := by
    have hdeclared : (Γ.declare name (varEntity type arraySize)) name =
        some (varEntity type arraySize) := Function.update_self ..
    rcases htracks'.visible name _ hdeclared with htop | ⟨hmem, -⟩
    · rw [htracks.topLevel name _ htop] at hfresh
      cases hfresh
    · exact hmem
  obtain ⟨loc, hloc⟩ := Option.isSome_iff_exists.mp (AList.lookup_isSome.mpr hmem)
  obtain ⟨-, harray, hlocSize, -⟩ := htracks'.declared name loc hloc
  have hloc' := hE.locals name loc hloc
  rw [← hsize] at harray hlocSize
  refine .ofCompletes fun scope oracle₀ oracle vm hm htick hframes hpace hlive hcode hcovered ↦ ?_
  rw [Env.varDeclCode, hloc] at hcode ⊢
  dsimp only at hcode ⊢
  -- an array is allocated anew each time, whether or not the name is declared already
  cases arraySize with
  | some n =>
    have harray : loc.isArray = true := harray
    rw [if_pos harray] at hcode ⊢
    exact sim_varDecl_array hm hloc' hframes hlaid htick harray hlocSize hlive hpace hcode
  | none =>
    have hscalar : loc.isArray = false := harray
    rw [hscalar, if_neg Bool.false_ne_true] at hcode ⊢
    cases init with
    | none => exact sim_varDecl_none hm hloc' hframes hlaid htick hscalar hlive
    | some init =>
      dsimp only at hcode ⊢
      have hcovered' := hcovered.mono (hnodes init rfl)
      -- the initializer and the store, in a scope that has the name
      have hstore {scope' : HashMap String Slot} {oracle₁ : AstOracle}
          (hm' : Matches S A scope' oracle₁ vm) (hframes' : oracle₁.frames = ⟨[scope']⟩ :: frames)
          (hcycles : oracle₁.cycles = oracle.cycles) (hgrown : ∀ name ∈ scope, name ∈ scope')
          (hscope : name ∈ scope') : Sim S (do assignScalar name (← evalExpr S.rules call init))
            (Completes S A frames scope (Γ.declare name (varEntity type none)) vm.stack (vm.pc +
              ((E.declareLocal name none).exprCode init vm.pc ++
                [(⟨.storeLocal, asI32 loc.slot, 0⟩ : Instruction)]).length) oracle₀ vm)
            oracle₁ vm := by
        have hlive' : Live S.program.topLevel (Γ.declare name (varEntity type none)) scope' :=
          hlive.declare hgrown hscope
        have hsees := hlive'.sees hS hE htracks' (hm'.hidden hlaid)
        have hticked := htick.cycles_eq
        have hspent : Spent S 0 1 oracle₀ vm oracle₁ vm := ⟨by omega, by omega⟩
        have hcovered₁ : Covered S init.nodes oracle₁ vm := by
          rw [Covered] at hcovered' ⊢
          omega
        refine ((evaluates_expr hS hlaid hcalls hsees init (hinit init rfl)
          (hmain init rfl)).thenEffect hm' hframes' hcode hcovered₁ hlive' hspent (.refl ..) rfl
          fun v oracle₂ vm₂ hm₂ hframes₂ hpace₂ hstack₂ hv hcode₂ ↦ ?_).mono
            fun _ _ _ h ↦ Finishes.ofGrown hgrown h
        refine sim_assignScalar hlaid hm₂ hS hE.globals (.ofLocal hloc hloc' hscalar hscope) hframes₂
          hpace₂ hstack₂ hv ?_
        rw [Env.accessCode, hloc]
        exact hcode₂
      dsimp only [execVarDecl]
      refine .get_bind ?_
      -- a scalar that is declared already keeps its slot, as on later passes of a loop
      by_cases hname : name ∈ scope
      · obtain ⟨value, hvalue, -⟩ := hm.locals.scalar hloc' hscalar hname
        rw [hm.inScope.lookupSlot_of_mem hvalue, Option.isNone_some, if_neg Bool.false_ne_true]
        exact hstore hm hframes rfl (fun _ ↦ id) hname
      · rw [lookupSlot_of_undeclared hm hloc' hlaid hname, Option.isNone_none, if_pos rfl]
        refine (sim_insertInCurrentScope hm hloc' hframes hscalar hname).bind ?_
        rintro _ _ _ ⟨rfl, rfl, hm'⟩
        exact hstore hm' rfl rfl (fun name' hname' ↦ (AList.mem_insert _).mpr (.inr hname'))
          ((AList.mem_insert _).mpr (.inl rfl))

theorem executes_print (hlaid : A.Laid S) {e : Expr}
    (hx : EvaluatesIn S A Γ nodes (evalExpr S.rules call e) (E.exprCode e)) :
    Executes S A frames Γ Γ (nodes + 1)
      (do
        AstOracle.tick S.rules
        let value ← evalExpr S.rules call e
        modify fun oracle ↦ { oracle with output := oracle.output ++ [s!"OUTPUT: {value}"] }
        return .continue) fun base ↦ E.exprCode e base ++ [.simple .print] := by
  have hexecutes : Executes S A frames Γ Γ (nodes + 1)
      (do
        AstOracle.tick S.rules
        (do
          let value ← evalExpr S.rules call e
          modify fun oracle ↦ { oracle with output := oracle.output ++ [s!"OUTPUT: {value}"] })
        return .continue) fun base ↦ E.exprCode e base ++ [.simple .print] := by
    refine .ofCompletes fun scope oracle₀ oracle vm hm htick hframes hpace hlive hcode hcovered ↦ ?_
    refine (hx scope (hm.hidden hlaid) hlive).thenEffect hm hframes hcode hcovered hlive
      (htick.spent vm) (.refl ..) rfl
      fun v oracle₁ vm₁ hm₁ hframes₁ hpace₁ hstack₁ hv hcode₁ ↦ ?_
    refine .step (step_print (hm₁.fetches hlaid hcode₁) hstack₁) (.update ⟨scope, hframes₁, ?_,
      fun _ ↦ id, .refl .., rfl, rfl, rfl, rfl⟩)
    exact { hm₁ with
      plain := ⟨hm₁.plain.unlimited, hm₁.plain.untraced⟩
      bound := hm₁.bound.mono le_rfl (Nat.le_succ _)
      pace := hpace₁
      output_eq := congrArg (· ++ _) hm₁.output_eq }
  simpa only [bind_assoc] using hexecutes

theorem executes_exprStmt (hlaid : A.Laid S) {e : Expr}
    (hx : EvaluatesIn S A Γ nodes (evalExpr S.rules call e) (E.exprCode e)) :
    Executes S A frames Γ Γ (nodes + 1)
      (do
        AstOracle.tick S.rules
        let _ ← evalExpr S.rules call e
        return .continue) fun base ↦ E.exprCode e base ++ [.simple .pop] := by
  have hexecutes : Executes S A frames Γ Γ (nodes + 1)
      (do
        AstOracle.tick S.rules
        (do
          let _ ← evalExpr S.rules call e
          return ())
        return .continue) fun base ↦ E.exprCode e base ++ [.simple .pop] := by
    refine .ofCompletes fun scope oracle₀ oracle vm hm htick hframes hpace hlive hcode hcovered ↦ ?_
    refine (hx scope (hm.hidden hlaid) hlive).thenEffect hm hframes hcode hcovered hlive
      (htick.spent vm) (.refl ..) rfl
      fun v oracle₁ vm₁ hm₁ hframes₁ hpace₁ hstack₁ hv hcode₁ ↦ ?_
    exact .step (step_pop (hm₁.fetches hlaid hcode₁) hstack₁) (.pure ⟨scope, hframes₁,
      hm₁.next hpace₁, fun _ ↦ id, .refl .., rfl, rfl, rfl, rfl⟩)
  simpa only [bind_assoc, pure_bind] using hexecutes

mutual

/-- **The code of a statement does what the oracle does.** -/
theorem executes_stmt {Γ Γ' : Names} {E : Env} (hS : S.Ok) (hlaid : A.Laid S)
    (hcalls : CallsOk S call) (fuel : Nat) (htracks : Tracks S.program.topLevel size Γ E) :
    (stmt : Stmt) → StmtOk Γ stmt Γ' → (∀ d ∈ stmt.decls, d.2 = size d.1) →
    Within S A (E.afterStmt stmt) → "main" ∉ stmt.callees → stmt.nodes ≤ 2 * S.rate →
    Executes S A frames Γ Γ' stmt.nodes (execStmt S.rules call fuel stmt) (E.stmtCode stmt)
  | .varDecl _ name none arraySize _, hok, hdecls, hE, hmain, _ => by
    cases hok with
    | varDecl hfresh hpos hinit =>
      exact executes_varDecl hS hlaid hcalls hE htracks hfresh
        (hdecls (name, arraySize) List.mem_cons_self) hpos hinit (fun _ h ↦ nomatch h)
        fun _ h ↦ nomatch h
  | .varDecl _ name (some init) arraySize _, hok, hdecls, hE, hmain, _ => by
    cases hok with
    | varDecl hfresh hpos hinit =>
      exact executes_varDecl hS hlaid hcalls hE htracks hfresh
        (hdecls (name, arraySize) List.mem_cons_self) hpos hinit
        (fun e he ↦ Option.some_inj.mp he ▸ hmain) fun e he ↦ (Option.some_inj.mp he ▸ le_rfl)
  | .assign target none value _, hok, _, hE, hmain, _ => by
    cases hok with
    | assignScalar hname hvalue =>
      exact executes_assignScalar hS hlaid hcalls hE htracks hname hvalue hmain
  | .assign target (some index) value _, hok, _, hE, hmain, _ => by
    rw [Stmt.callees, List.mem_append, not_or] at hmain
    cases hok with
    | assignElement hname hindex hvalue =>
      exact executes_assignElement hS hlaid hcalls hE htracks hname hindex hvalue hmain.1 hmain.2
  | .ifStmt condition thenBody none _, hok, hdecls, hE, hmain, hnodes => by
    rw [Stmt.callees, List.mem_append, not_or] at hmain
    rw [Stmt.nodes] at hnodes
    cases hok with
    | ifThen hcondition hthen =>
      obtain ⟨t, -, hcondition⟩ := hcondition
      exact .ofIf hlaid hS
        (evaluatesIn hS hlaid hcalls hE.before_stmts htracks hcondition hmain.1)
        (executes_stmts hS hlaid hcalls fuel htracks thenBody hthen hdecls hE hmain.2
          (by omega))
  | .ifStmt condition thenBody (some elseBody) _, hok, hdecls, hE, hmain, hnodes => by
    rw [Stmt.callees, List.mem_append, List.mem_append, not_or, not_or] at hmain
    rw [Stmt.nodes] at hnodes
    cases hok with
    | ifElse hcondition hthen helse =>
      obtain ⟨t, -, hcondition⟩ := hcondition
      obtain ⟨hdecls, hdecls'⟩ := List.forall_mem_append.mp hdecls
      -- the other block is compiled in the table that the first one has left
      have hE' : Within S A (E.afterStmts thenBody) := Within.before_stmts hE
      have htracks' := htracks.restore (Tracks.afterStmts htracks thenBody hthen hdecls)
        fun _ ↦ mem_afterStmts E thenBody
      exact .ofIfElse hlaid hS
        (evaluatesIn hS hlaid hcalls hE'.before_stmts htracks hcondition hmain.1)
        (executes_stmts hS hlaid hcalls fuel htracks thenBody hthen hdecls hE' hmain.2.1
          (by omega))
        (executes_stmts hS hlaid hcalls fuel htracks' elseBody helse hdecls' hE hmain.2.2
          (by omega))
  | .whileStmt condition body _, hok, hdecls, hE, hmain, hnodes => by
    rw [Stmt.callees, List.mem_append, not_or] at hmain
    rw [Stmt.nodes] at hnodes
    have hbudget : nodesList body ≤ 2 * S.rate := by omega
    cases hok with
    | whileStmt hcondition hbody =>
      obtain ⟨t, -, hcondition⟩ := hcondition
      exact .ofWhile hlaid hS
        (evaluatesIn hS hlaid hcalls hE.before_stmts htracks hcondition hmain.1)
        (executes_stmts hS hlaid hcalls fuel htracks body hbody hdecls hE hmain.2 hbudget)
        hbudget fuel
  | .returnStmt value _, hok, _, hE, hmain, _ => by
    cases hok with
    | returnStmt hvalue =>
      exact .ofReturn hlaid (evaluatesIn hS hlaid hcalls hE htracks hvalue hmain)
  | .print value _, hok, _, hE, hmain, _ => by
    cases hok with
    | print hvalue =>
      exact executes_print hlaid (evaluatesIn hS hlaid hcalls hE htracks hvalue hmain)
  | .exprStmt expr _, hok, _, hE, hmain, _ => by
    cases hok with
    | exprStmt hexpr =>
      exact executes_exprStmt hlaid (evaluatesIn hS hlaid hcalls hE htracks hexpr hmain)
termination_by structural stmt => stmt

theorem executes_stmts {Γ Γ' : Names} {E : Env} (hS : S.Ok) (hlaid : A.Laid S)
    (hcalls : CallsOk S call) (fuel : Nat) (htracks : Tracks S.program.topLevel size Γ E) :
    (stmts : List Stmt) → StmtsOk Γ stmts Γ' → (∀ d ∈ declsList stmts, d.2 = size d.1) →
    Within S A (E.afterStmts stmts) → "main" ∉ calleesList stmts →
    nodesList stmts ≤ 2 * S.rate →
    Executes S A frames Γ Γ' (nodesList stmts) (execBlock S.rules call fuel stmts)
      (E.stmtsCode stmts)
  | [], hok, _, _, _, _ => by
    cases hok
    exact .nil
  | stmt :: stmts, hok, hdecls, hE, hmain, hnodes => by
    rw [calleesList, List.mem_append, not_or] at hmain
    rw [nodesList] at hnodes
    cases hok with
    | cons hstmt hstmts =>
      obtain ⟨hdecls, hdecls'⟩ := List.forall_mem_append.mp hdecls
      exact .cons (executes_stmt hS hlaid hcalls fuel htracks stmt hstmt hdecls
          (Within.before_stmts hE) hmain.1 (by omega))
        (executes_stmts hS hlaid hcalls fuel (htracks.afterStmt stmt hstmt hdecls) stmts hstmts
          hdecls' hE hmain.2 (by omega))
termination_by structural stmts => stmts

end

end

end AstOracle

end MiniLang
