import MiniLang.Bytecode.CompileVerify
import MiniLang.Oracle.Simulation

/-!
# Corresponding states

When a state of the oracle and a state of the machine are in the same activation of a function, and
what keeps them so. The oracle has one scope of named slots for the activation, the machine a window
of its cells; an array is a list of values to the oracle and the index of its first cell to the
machine.

## What an activation has

The compiler gives each name of a function one slot for the whole function, while the oracle inserts
a name where control passes its declaration. An `Activation` has the compiler's table, and
`LocalsMatch` says of each name what its cell holds, whether the oracle knows it yet or not: a name
without a slot has the mark of an undefined local. Arrays of one activation lie apart, so that a
write to one of them is no write to another. Those of the activations around it lie below `low`, or
anywhere above the window; nothing is asked of them but that they stay (`Undisturbed`).

## Changes

For each change that a statement can make there is one lemma about `LocalsMatch`: a scalar is
written, a scalar is declared anew, an element is written, an array is allocated. `Spent` keeps
account of ticks and steps beside it; the two inequalities are kept apart from the storage because
pieces of code compose in the one by transitivity and in the other by invariance.
-/

namespace MiniLang

namespace AstOracle

open Compiler Vm
open Verifier (width Apart)

/-! ## Scopes -/

/-- The frames of the oracle have `scope` as the current scope; outside of functions it is empty. -/
inductive HasScope : List Frame → HashMap String Slot → Prop
  | outside : HasScope [] ∅
  | inside (scope : HashMap String Slot) (frames : List Frame) :
    HasScope (⟨[scope]⟩ :: frames) scope

variable {oracle oracle' : AstOracle} {scope scope' : HashMap String Slot} {frames : List Frame}
  {name name' : String} {slot : Slot}

theorem HasScope.lookupSlot (h : HasScope oracle.frames scope) (name : String) :
    oracle.lookupSlot name = (scope.lookup name <|> oracle.globals.lookup name) := by
  rw [AstOracle.lookupSlot]
  generalize oracle.frames = frames at h
  cases h with
  | outside => rfl
  | inside _ frames =>
    change ((scope.lookup name <|> none) <|> oracle.globals.lookup name) = _
    cases scope.lookup name <;> rfl

theorem HasScope.lookupSlot_of_mem (h : HasScope oracle.frames scope)
    (hslot : scope.lookup name = some slot) : oracle.lookupSlot name = some slot := by
  rw [h.lookupSlot, hslot]
  rfl

theorem HasScope.lookupSlot_of_notMem (h : HasScope oracle.frames scope) (hname : name ∉ scope) :
    oracle.lookupSlot name = oracle.globals.lookup name := by
  rw [h.lookupSlot, AList.lookup_eq_none.mpr hname]
  rfl

theorem replaceSlot_of_mem (h : oracle.frames = ⟨[scope]⟩ :: frames) (hname : name ∈ scope)
    (slot : Slot) : oracle.replaceSlot name slot =
      { oracle with frames := ⟨[scope.insert name slot]⟩ :: frames } := by
  obtain ⟨value, hvalue⟩ := Option.isSome_iff_exists.mp (AList.lookup_isSome.mpr hname)
  rw [replaceSlot, h]
  dsimp only
  rw [lookupScopes, hvalue, replaceScopes, if_pos hname]
  rfl

theorem HasScope.replaceSlot_of_notMem (h : HasScope oracle.frames scope) (hname : name ∉ scope)
    (slot : Slot) : oracle.replaceSlot name slot =
      { oracle with globals := oracle.globals.insert name slot } := by
  rw [replaceSlot]
  generalize hframes : oracle.frames = frames at h
  cases h with
  | outside => rfl
  | inside _ frames =>
    dsimp only
    rw [lookupScopes, AList.lookup_eq_none.mpr hname, lookupScopes]
    rfl

/-! ## Cells -/

/-- The cells from `first` on hold `values`. -/
def Region (cells : List Int) (first : Nat) (values : List Int) : Prop :=
  ∀ i value, values[i]? = some value → cells[first + i]? = some value

theorem Region.congr {cells cells' values : List Int} {first : Nat} (h : Region cells first values)
    (hsame : ∀ cell, first ≤ cell → cell < first + values.length → cells'[cell]? = cells[cell]?) :
    Region cells' first values := by
  intro i value hvalue
  have hlt := (List.getElem?_eq_some_iff.mp hvalue).1
  rw [hsame _ (Nat.le_add_right ..) (Nat.add_lt_add_left hlt first)]
  exact h i value hvalue

theorem Region.set {cells values : List Int} {first : Nat} (h : Region cells first values)
    (hcells : first + values.length ≤ cells.length) (i : Nat) (value : Int) :
    Region (cells.set (first + i) value) first (values.set i value) := by
  intro j value' hvalue
  have hlt := (List.getElem?_eq_some_iff.mp hvalue).1
  rw [List.length_set] at hlt
  by_cases hij : i = j
  · subst hij
    rw [List.getElem?_set_self hlt] at hvalue
    rw [List.getElem?_set_self (by omega), hvalue]
  · rw [List.getElem?_set_ne hij] at hvalue
    rw [List.getElem?_set_ne (by omega)]
    exact h j value' hvalue

theorem forall_mem_set {p : Int → Prop} {values : List Int} (h : ∀ value ∈ values, p value)
    {value : Int} (hvalue : p value) (i : Nat) : ∀ value' ∈ values.set i value, p value' := by
  intro value' hmem
  rcases List.mem_or_eq_of_mem_set hmem with hmem | rfl
  · exact h value' hmem
  · exact hvalue

/-! ## Globals -/

/-- The metadata of the globals. -/
def Setting.globals (S : Setting) : HashMap String GlobalInfo := (globalEnv S.program).globals

/-- The globals have cells of their own. -/
structure GlobalsLaid (infos : HashMap String GlobalInfo) : Prop where
  le : ∀ name info, infos.lookup name = some info → info.slot + width info ≤ maxGlobalSlots
  pos : ∀ name info, infos.lookup name = some info → info.isArray = true → 0 < info.arraySize
  apart : ∀ name name' info info', name ≠ name' → infos.lookup name = some info →
    infos.lookup name' = some info' → Apart info info'

/-- The cells of a global hold what its slot has. -/
def GlobalHolds (cells : List Int) (info : GlobalInfo) : Option Slot → Prop
  | some (.scalar (some value)) =>
    info.isArray = false ∧ IsI32 value ∧ cells[info.slot]? = some value
  | some (.array values) => info.isArray = true ∧ values.length = info.arraySize ∧
    (∀ value ∈ values, IsI32 value) ∧ Region cells info.slot values
  | _ => False

structure GlobalsMatch (infos : HashMap String GlobalInfo) (slots : HashMap String Slot)
    (cells : List Int) : Prop where
  length : cells.length = maxGlobalSlots
  known : ∀ name ∈ slots, name ∈ infos
  holds : ∀ name info, infos.lookup name = some info → GlobalHolds cells info (slots.lookup name)

variable {infos : HashMap String GlobalInfo} {slots : HashMap String Slot} {cells cells' : List Int}
  {info : GlobalInfo}

theorem GlobalHolds.congr {slot : Option Slot} (h : GlobalHolds cells info slot)
    (hsame : ∀ cell, info.slot ≤ cell → cell < info.slot + width info →
      cells'[cell]? = cells[cell]?) : GlobalHolds cells' info slot := by
  cases slot with
  | none => exact h
  | some slot =>
    cases slot with
    | scalar value =>
      cases value with
      | none => exact h
      | some value =>
        obtain ⟨hscalar, hvalue, hcell⟩ := h
        refine ⟨hscalar, hvalue, ?_⟩
        rw [hsame _ le_rfl (by rw [width, hscalar]; exact Nat.lt_succ_self _)]
        exact hcell
    | array values =>
      obtain ⟨harray, hlength, hvalues, hregion⟩ := h
      refine ⟨harray, hlength, hvalues, hregion.congr fun cell hle hlt ↦ hsame cell hle ?_⟩
      rwa [width, harray, if_pos rfl, ← hlength]

/-- A write to one global. -/
theorem GlobalsMatch.write (hlaid : GlobalsLaid infos) (h : GlobalsMatch infos slots cells)
    (hinfo : infos.lookup name = some info) {i : Nat} (hi : i < width info) {value : Int}
    {slot : Slot} (hholds : GlobalHolds (cells.set (info.slot + i) value) info (some slot)) :
    GlobalsMatch infos (slots.insert name slot) (cells.set (info.slot + i) value) := by
  refine ⟨(List.length_set ..).trans h.length, fun name' hmem ↦ ?_, fun name' info' hinfo' ↦ ?_⟩
  · rcases (AList.mem_insert _).mp hmem with rfl | hmem
    · exact AList.lookup_isSome.mp (by rw [hinfo]; rfl)
    · exact h.known name' hmem
  by_cases heq : name' = name
  · subst heq
    obtain rfl := Option.some_inj.mp (hinfo'.symm.trans hinfo)
    rw [AList.lookup_insert]
    exact hholds
  · rw [AList.lookup_insert_ne heq]
    refine (h.holds name' info' hinfo').congr fun cell hle hlt ↦ List.getElem?_set_ne ?_
    rcases hlaid.apart name' name info' info heq hinfo' hinfo with h | h <;> omega

theorem GlobalsMatch.scalar (h : GlobalsMatch infos slots cells)
    (hinfo : infos.lookup name = some info) (hscalar : info.isArray = false) :
    ∃ value, slots.lookup name = some (.scalar (some value)) ∧ IsI32 value ∧
      cells[info.slot]? = some value := by
  have hholds := h.holds name info hinfo
  cases hslot : slots.lookup name with
  | none =>
    rw [hslot] at hholds
    exact hholds.elim
  | some slot =>
    rw [hslot] at hholds
    cases slot with
    | scalar value =>
      cases value with
      | none => exact hholds.elim
      | some value => exact ⟨value, rfl, hholds.2⟩
    | array values =>
      exact absurd (hscalar.symm.trans hholds.1) (by decide)

theorem GlobalsMatch.array (h : GlobalsMatch infos slots cells)
    (hinfo : infos.lookup name = some info) (harray : info.isArray = true) :
    ∃ values, slots.lookup name = some (.array values) ∧ values.length = info.arraySize ∧
      (∀ value ∈ values, IsI32 value) ∧ Region cells info.slot values := by
  have hholds := h.holds name info hinfo
  cases hslot : slots.lookup name with
  | none =>
    rw [hslot] at hholds
    exact hholds.elim
  | some slot =>
    rw [hslot] at hholds
    cases slot with
    | scalar value =>
      cases value with
      | none => exact hholds.elim
      | some value =>
        exact absurd (harray.symm.trans hholds.1) (by decide)
    | array values => exact ⟨values, rfl, hholds.2⟩

/-! ## Activations -/

/-- An activation of a function: the slots of all of its names, the window of cells for them, and
where its arrays may be. -/
structure Activation where
  locals : HashMap String LocalVar
  base : Nat
  count : Nat
  /-- No array of the activation is below. -/
  low : Nat
  callStack : List CallFrame

structure Activation.Laid (S : Setting) (A : Activation) : Prop where
  slot_lt : ∀ name loc, A.locals.lookup name = some loc → loc.slot < A.count
  size_lt : ∀ name loc, A.locals.lookup name = some loc → loc.arraySize < 2 ^ 31
  distinct : ∀ name name' loc loc', A.locals.lookup name = some loc →
    A.locals.lookup name' = some loc' → loc.slot = loc'.slot → name = name'
  hidden : ∀ name ∈ A.locals, name ∉ S.globals
  current : Current S.code A.callStack A.base A.count
  low_ge : maxLocalSlots ≤ A.low

/-- The cell of a local, and those of its array, hold what its slot has. -/
def LocalHolds (low : Nat) (cells : List Int) (loc : LocalVar) (cell : Nat) : Option Slot → Prop
  | none => cells[cell]? = some i64Min
  | some (.scalar value) => loc.isArray = false ∧ (∀ v ∈ value, IsI32 v) ∧
    cells[cell]? = some (value.getD i64Min)
  | some (.array values) => loc.isArray = true ∧ values.length = loc.arraySize ∧
    (∀ v ∈ values, IsI32 v) ∧ ∃ first : Nat, low ≤ first ∧ cells[cell]? = some (first : Int) ∧
      first + values.length ≤ cells.length ∧ Region cells first values

variable {S : Setting} {A : Activation} {vm vm' : Vm} {loc : LocalVar} {cell : Nat}

structure LocalsMatch (A : Activation) (scope : HashMap String Slot) (cells : List Int) : Prop where
  known : ∀ name ∈ scope, name ∈ A.locals
  holds : ∀ name loc, A.locals.lookup name = some loc →
    LocalHolds A.low cells loc (A.base + loc.slot) (scope.lookup name)
  apart : ∀ name name' loc loc' values values' (first first' : Nat), name ≠ name' →
    A.locals.lookup name = some loc → A.locals.lookup name' = some loc' →
    scope.lookup name = some (.array values) → scope.lookup name' = some (.array values') →
    cells[A.base + loc.slot]? = some (first : Int) →
    cells[A.base + loc'.slot]? = some (first' : Int) →
    first + values.length ≤ first' ∨ first' + values'.length ≤ first

theorem LocalHolds.congr {low : Nat} {slot : Option Slot} (h : LocalHolds low cells loc cell slot)
    (hcell : cells'[cell]? = cells[cell]?) (hlength : cells.length ≤ cells'.length)
    (hsame : ∀ values (first : Nat), slot = some (.array values) →
      cells[cell]? = some (first : Int) → low ≤ first → first + values.length ≤ cells.length →
      ∀ c, first ≤ c → c < first + values.length → cells'[c]? = cells[c]?) :
    LocalHolds low cells' loc cell slot := by
  cases slot with
  | none => exact hcell.trans h
  | some slot =>
    cases slot with
    | scalar value => exact ⟨h.1, h.2.1, hcell.trans h.2.2⟩
    | array values =>
      obtain ⟨harray, hsize, hvalues, first, hlow, hfirst, hle, hregion⟩ := h
      exact ⟨harray, hsize, hvalues, first, hlow, hcell.trans hfirst, hle.trans hlength,
        hregion.congr (hsame values first rfl hfirst hlow hle)⟩

/-- Nothing that belongs to the activation, or to those around it, has changed. -/
structure Undisturbed (A : Activation) (cells cells' : List Int) : Prop where
  length : cells.length ≤ cells'.length
  slots : ∀ cell < A.base + A.count, cells'[cell]? = cells[cell]?
  arrays : ∀ cell, maxLocalSlots ≤ cell → cell < cells.length → cells'[cell]? = cells[cell]?

theorem Undisturbed.refl (A : Activation) (cells : List Int) : Undisturbed A cells cells :=
  ⟨le_rfl, fun _ _ ↦ rfl, fun _ _ _ ↦ rfl⟩

theorem Undisturbed.trans {cells'' : List Int} (h : Undisturbed A cells cells')
    (h' : Undisturbed A cells' cells'') : Undisturbed A cells cells'' where
  length := h.length.trans h'.length
  slots cell hlt := (h'.slots cell hlt).trans (h.slots cell hlt)
  arrays cell hle hlt := (h'.arrays cell hle (hlt.trans_le h.length)).trans (h.arrays cell hle hlt)

theorem LocalsMatch.undisturbed (hlaid : A.Laid S) (h : LocalsMatch A scope cells)
    (hsame : Undisturbed A cells cells') : LocalsMatch A scope cells' where
  known := h.known
  holds name loc hloc := by
    refine (h.holds name loc hloc).congr (hsame.slots _ ?_) hsame.length ?_
    · exact Nat.add_lt_add_left (hlaid.slot_lt name loc hloc) A.base
    · intro values first _ _ hlow hle c hc hc'
      exact hsame.arrays c (hlaid.low_ge.trans (hlow.trans hc)) (hc'.trans_le hle)
  apart name name' loc loc' values values' first first' hne hloc hloc' hslot hslot' hfirst hfirst' := by
    rw [hsame.slots _ (Nat.add_lt_add_left (hlaid.slot_lt name loc hloc) A.base)] at hfirst
    rw [hsame.slots _ (Nat.add_lt_add_left (hlaid.slot_lt name' loc' hloc') A.base)] at hfirst'
    exact h.apart name name' loc loc' values values' first first' hne hloc hloc' hslot hslot' hfirst
      hfirst'

/-! ### Writes to locals -/

/-- A write to the slot of a local scalar. -/
theorem LocalsMatch.writeScalar (hlaid : A.Laid S) (h : LocalsMatch A scope cells)
    (hloc : A.locals.lookup name = some loc) (hscalar : loc.isArray = false)
    (hcells : A.base + loc.slot < cells.length) {value : Option Int} (hvalue : ∀ v ∈ value, IsI32 v) :
    LocalsMatch A (scope.insert name (.scalar value))
      (cells.set (A.base + loc.slot) (value.getD i64Min)) := by
  have hne {name' : String} {loc' : LocalVar} (hname : name' ≠ name)
      (hloc' : A.locals.lookup name' = some loc') : A.base + loc.slot ≠ A.base + loc'.slot := by
    intro heq
    exact hname (hlaid.distinct name' name loc' loc hloc' hloc (by omega))
  have hlimit := hlaid.current.limit
  have hslot := hlaid.slot_lt name loc hloc
  constructor
  · intro name' hmem
    rcases (AList.mem_insert _).mp hmem with rfl | hmem
    · exact AList.lookup_isSome.mp (by rw [hloc]; rfl)
    · exact h.known name' hmem
  · intro name' loc' hloc'
    by_cases heq : name' = name
    · subst heq
      obtain rfl := Option.some_inj.mp (hloc'.symm.trans hloc)
      rw [AList.lookup_insert]
      exact ⟨hscalar, hvalue, List.getElem?_set_self hcells⟩
    · rw [AList.lookup_insert_ne heq]
      refine (h.holds name' loc' hloc').congr (List.getElem?_set_ne (hne heq hloc'))
        (List.length_set ..).ge ?_
      intro values first _ _ hfirst _ c hc _
      have hge := hlaid.low_ge
      exact List.getElem?_set_ne (by omega)
  · intro name₁ name₂ loc₁ loc₂ values₁ values₂ first₁ first₂ h12 hloc₁ hloc₂ hslot₁ hslot₂ hfirst₁
      hfirst₂
    have hname {name' : String} {values : List Int} (hslot : (scope.insert name
        (.scalar value)).lookup name' = some (.array values)) : name' ≠ name := by
      rintro rfl
      rw [AList.lookup_insert] at hslot
      cases hslot
    have hname₁ := hname hslot₁
    have hname₂ := hname hslot₂
    rw [AList.lookup_insert_ne hname₁] at hslot₁
    rw [AList.lookup_insert_ne hname₂] at hslot₂
    rw [List.getElem?_set_ne (hne hname₁ hloc₁)] at hfirst₁
    rw [List.getElem?_set_ne (hne hname₂ hloc₂)] at hfirst₂
    exact h.apart name₁ name₂ loc₁ loc₂ values₁ values₂ first₁ first₂ h12 hloc₁ hloc₂ hslot₁ hslot₂
      hfirst₁ hfirst₂

/-- A new scalar has no value, and neither has its cell. -/
theorem LocalsMatch.declare (h : LocalsMatch A scope cells)
    (hloc : A.locals.lookup name = some loc) (hscalar : loc.isArray = false)
    (hname : name ∉ scope) : LocalsMatch A (scope.insert name (.scalar none)) cells where
  known name' hmem := by
    rcases (AList.mem_insert _).mp hmem with rfl | hmem
    · exact AList.lookup_isSome.mp (by rw [hloc]; rfl)
    · exact h.known name' hmem
  holds name' loc' hloc' := by
    by_cases heq : name' = name
    · subst heq
      obtain rfl := Option.some_inj.mp (hloc'.symm.trans hloc)
      have hcell := h.holds name' loc' hloc'
      rw [AList.lookup_eq_none.mpr hname] at hcell
      rw [AList.lookup_insert]
      exact ⟨hscalar, fun v hv ↦ absurd hv (Option.not_mem_none v), hcell⟩
    · rw [AList.lookup_insert_ne heq]
      exact h.holds name' loc' hloc'
  apart name₁ name₂ loc₁ loc₂ values₁ values₂ first₁ first₂ h12 hloc₁ hloc₂ hslot₁ hslot₂ := by
    have hold {name' : String} {values : List Int}
        (hslot : (scope.insert name (.scalar none)).lookup name' = some (.array values)) :
        scope.lookup name' = some (.array values) := by
      by_cases heq : name' = name
      · subst heq
        rw [AList.lookup_insert] at hslot
        cases hslot
      · rwa [AList.lookup_insert_ne heq] at hslot
    exact h.apart name₁ name₂ loc₁ loc₂ values₁ values₂ first₁ first₂ h12 hloc₁ hloc₂ (hold hslot₁)
      (hold hslot₂)

/-- The array that a name of the activation stands for. -/
theorem LocalsMatch.array (h : LocalsMatch A scope cells) (hloc : A.locals.lookup name = some loc)
    (harray : loc.isArray = true) (hname : name ∈ scope) : ∃ values, ∃ first : Nat,
      scope.lookup name = some (.array values) ∧ values.length = loc.arraySize ∧
      (∀ v ∈ values, IsI32 v) ∧ A.low ≤ first ∧
      cells[A.base + loc.slot]? = some (first : Int) ∧ first + values.length ≤ cells.length ∧
      Region cells first values := by
  obtain ⟨slot, hslot⟩ := Option.isSome_iff_exists.mp (AList.lookup_isSome.mpr hname)
  have hholds := h.holds name loc hloc
  rw [hslot] at hholds
  cases slot with
  | scalar value => exact absurd (harray.symm.trans hholds.1) (by decide)
  | array values =>
    obtain ⟨-, hsize, hvalues, first, hlow, hfirst, hle, hregion⟩ := hholds
    exact ⟨values, first, hslot, hsize, hvalues, hlow, hfirst, hle, hregion⟩

theorem LocalsMatch.scalar (h : LocalsMatch A scope cells)
    (hloc : A.locals.lookup name = some loc) (hscalar : loc.isArray = false)
    (hname : name ∈ scope) : ∃ value, scope.lookup name = some (.scalar value) ∧
      (∀ v ∈ value, IsI32 v) ∧ cells[A.base + loc.slot]? = some (value.getD i64Min) := by
  obtain ⟨slot, hslot⟩ := Option.isSome_iff_exists.mp (AList.lookup_isSome.mpr hname)
  have hholds := h.holds name loc hloc
  rw [hslot] at hholds
  cases slot with
  | scalar value => exact ⟨value, hslot, hholds.2⟩
  | array values => exact absurd (hscalar.symm.trans hholds.1) (by decide)

/-- A write to an element of a local array. -/
theorem LocalsMatch.writeElement (hlaid : A.Laid S) (h : LocalsMatch A scope cells)
    (hloc : A.locals.lookup name = some loc) {values : List Int} {first : Nat}
    (hslot : scope.lookup name = some (.array values))
    (hfirst : cells[A.base + loc.slot]? = some (first : Int)) {i : Nat} (hi : i < values.length)
    {value : Int} (hvalue : IsI32 value) :
    LocalsMatch A (scope.insert name (.array (values.set i value)))
      (cells.set (first + i) value) := by
  have hlimit := hlaid.current.limit
  have hge := hlaid.low_ge
  obtain ⟨harray, hsize, hvalues, first', hlow, hfirst', hle, hregion⟩ :=
    hslot ▸ h.holds name loc hloc
  obtain rfl : first = first' := Int.ofNat_inj.mp (Option.some_inj.mp (hfirst.symm.trans hfirst'))
  have hcell {name' : String} {loc' : LocalVar} (hloc' : A.locals.lookup name' = some loc') :
      (cells.set (first + i) value)[A.base + loc'.slot]? = cells[A.base + loc'.slot]? := by
    have hslot' := hlaid.slot_lt name' loc' hloc'
    exact List.getElem?_set_ne (by omega)
  constructor
  · intro name' hmem
    rcases (AList.mem_insert _).mp hmem with rfl | hmem
    · exact AList.lookup_isSome.mp (by rw [hloc]; rfl)
    · exact h.known name' hmem
  · intro name' loc' hloc'
    by_cases heq : name' = name
    · subst heq
      obtain rfl := Option.some_inj.mp (hloc'.symm.trans hloc)
      rw [AList.lookup_insert]
      refine ⟨harray, (List.length_set ..).trans hsize, forall_mem_set hvalues hvalue i, first, hlow,
        (hcell hloc').trans hfirst, ?_, hregion.set hle i value⟩
      rw [List.length_set, List.length_set]
      exact hle
    · rw [AList.lookup_insert_ne heq]
      refine (h.holds name' loc' hloc').congr (hcell hloc') (List.length_set ..).ge ?_
      intro values' first' hslot' hfirst' _ _ c hc hc'
      refine List.getElem?_set_ne ?_
      rcases h.apart name' name loc' loc values' values first' first heq hloc' hloc hslot' hslot
        hfirst' hfirst with h | h <;> omega
  · intro name₁ name₂ loc₁ loc₂ values₁ values₂ first₁ first₂ h12 hloc₁ hloc₂ hslot₁ hslot₂ hfirst₁
      hfirst₂
    have hold {name' : String} {values' : List Int} (hslot' : (scope.insert name
        (.array (values.set i value))).lookup name' = some (.array values')) :
        ∃ old, scope.lookup name' = some (.array old) ∧ old.length = values'.length := by
      by_cases heq : name' = name
      · subst heq
        rw [AList.lookup_insert] at hslot'
        cases hslot'
        exact ⟨values, hslot, (List.length_set ..).symm⟩
      · rw [AList.lookup_insert_ne heq] at hslot'
        exact ⟨values', hslot', rfl⟩
    obtain ⟨old₁, hold₁, hlength₁⟩ := hold hslot₁
    obtain ⟨old₂, hold₂, hlength₂⟩ := hold hslot₂
    rw [← hlength₁, ← hlength₂]
    exact h.apart name₁ name₂ loc₁ loc₂ old₁ old₂ first₁ first₂ h12 hloc₁ hloc₂ hold₁ hold₂
      ((hcell hloc₁).symm.trans hfirst₁) ((hcell hloc₂).symm.trans hfirst₂)

/-- A new array behind all cells. -/
theorem LocalsMatch.allocate (hlaid : A.Laid S) (h : LocalsMatch A scope cells)
    (hloc : A.locals.lookup name = some loc) (harray : loc.isArray = true)
    (hcells : A.base + loc.slot < cells.length) (hlow : A.low ≤ cells.length) :
    LocalsMatch A (scope.insert name (.array (List.replicate loc.arraySize 0)))
      ((cells ++ List.replicate loc.arraySize 0).set (A.base + loc.slot) cells.length) := by
  have hlimit := hlaid.current.limit
  have hge := hlaid.low_ge
  have hslot := hlaid.slot_lt name loc hloc
  have hne {name' : String} {loc' : LocalVar} (hname : name' ≠ name)
      (hloc' : A.locals.lookup name' = some loc') : A.base + loc.slot ≠ A.base + loc'.slot := by
    intro heq
    exact hname (hlaid.distinct name' name loc' loc hloc' hloc (by omega))
  have hcell {name' : String} {loc' : LocalVar} (hname : name' ≠ name)
      (hloc' : A.locals.lookup name' = some loc') :
      ((cells ++ List.replicate loc.arraySize 0).set (A.base + loc.slot)
        (cells.length : Int))[A.base + loc'.slot]? = cells[A.base + loc'.slot]? := by
    have hslot' := hlaid.slot_lt name' loc' hloc'
    rw [List.getElem?_set_ne (hne hname hloc'), List.getElem?_append_left (by omega)]
  have hself : ((cells ++ List.replicate loc.arraySize 0).set (A.base + loc.slot)
      (cells.length : Int))[A.base + loc.slot]? = some (cells.length : Int) :=
    List.getElem?_set_self (by rw [List.length_append]; omega)
  constructor
  · intro name' hmem
    rcases (AList.mem_insert _).mp hmem with rfl | hmem
    · exact AList.lookup_isSome.mp (by rw [hloc]; rfl)
    · exact h.known name' hmem
  · intro name' loc' hloc'
    -- the new array is behind all cells; the other names keep theirs
    by_cases heq : name' = name
    · subst heq
      obtain rfl := Option.some_inj.mp (hloc'.symm.trans hloc)
      rw [AList.lookup_insert]
      refine ⟨harray, List.length_replicate, fun v hv ↦ ?_, cells.length, hlow, hself, ?_,
        fun i v hv ↦ ?_⟩
      · rw [List.eq_of_mem_replicate hv]
        exact ⟨by decide, by decide⟩
      · rw [List.length_set, List.length_append]
      · have hi := (List.getElem?_eq_some_iff.mp hv).1
        rw [List.getElem?_set_ne (by omega), List.getElem?_append_right (Nat.le_add_right ..),
          Nat.add_sub_cancel_left, hv]
    · rw [AList.lookup_insert_ne heq]
      refine (h.holds name' loc' hloc').congr (hcell heq hloc') ?_ ?_
      · rw [List.length_set, List.length_append]
        exact Nat.le_add_right ..
      · intro values first _ _ hfirst hle c hc hc'
        rw [List.getElem?_set_ne (by omega), List.getElem?_append_left (by omega)]
  · intro name₁ name₂ loc₁ loc₂ values₁ values₂ first₁ first₂ h12 hloc₁ hloc₂ hslot₁ hslot₂ hfirst₁
      hfirst₂
    -- an array that was there before ends where the new one begins, if not earlier
    have hold {name' : String} {loc' : LocalVar} {values' : List Int} {first' : Nat}
        (hname : name' ≠ name) (hloc' : A.locals.lookup name' = some loc')
        (hslot' : scope.lookup name' = some (.array values'))
        (hfirst' : cells[A.base + loc'.slot]? = some (first' : Int)) :
        first' + values'.length ≤ cells.length := by
      obtain ⟨-, -, -, first, -, hfirst, hle, -⟩ := hslot' ▸ h.holds name' loc' hloc'
      obtain rfl : first' = first := Int.ofNat_inj.mp (Option.some_inj.mp (hfirst'.symm.trans hfirst))
      exact hle
    -- one of the two may be the new array
    by_cases heq₁ : name₁ = name
    · subst heq₁
      obtain rfl := Option.some_inj.mp (hloc₁.symm.trans hloc)
      obtain rfl : cells.length = first₁ := by
        exact Int.ofNat_inj.mp (Option.some_inj.mp (hself.symm.trans hfirst₁))
      rw [AList.lookup_insert_ne (Ne.symm h12)] at hslot₂
      rw [hcell (Ne.symm h12) hloc₂] at hfirst₂
      exact .inr (hold (Ne.symm h12) hloc₂ hslot₂ hfirst₂)
    · rw [AList.lookup_insert_ne heq₁] at hslot₁
      rw [hcell heq₁ hloc₁] at hfirst₁
      by_cases heq₂ : name₂ = name
      · subst heq₂
        obtain rfl := Option.some_inj.mp (hloc₂.symm.trans hloc)
        obtain rfl : cells.length = first₂ := by
          exact Int.ofNat_inj.mp (Option.some_inj.mp (hself.symm.trans hfirst₂))
        exact .inl (hold heq₁ hloc₁ hslot₁ hfirst₁)
      · rw [AList.lookup_insert_ne heq₂] at hslot₂
        rw [hcell heq₂ hloc₂] at hfirst₂
        exact h.apart name₁ name₂ loc₁ loc₂ values₁ values₂ first₁ first₂ h12 hloc₁ hloc₂ hslot₁
          hslot₂ hfirst₁ hfirst₂

/-! ## States -/

/-- The oracle and the machine are in corresponding states of the activation `A`. -/
structure Matches (S : Setting) (A : Activation) (scope : HashMap String Slot)
    (oracle : AstOracle) (vm : Vm) : Prop where
  plain : Plain vm
  bound : CellsBound vm
  pace : vm.cycles ≤ 3 * oracle.cycles
  budget : oracle.cycles ≤ S.rules.maxCycles
  callStack : vm.callStack = A.callStack
  depth : vm.callStack.length + S.rules.frameLimit.frames = oracle.frames.length + maxFrames
  output_eq : vm.output = oracle.output
  globals : GlobalsMatch S.globals oracle.globals vm.globals
  low : A.low ≤ vm.locals.length
  inScope : HasScope oracle.frames scope
  locals : LocalsMatch A scope vm.locals

/-- What a piece of code has cost: three steps for each tick, but for `slack`, and ticks at the rate
of the setting, but for `extra`. -/
structure Spent (S : Setting) (slack extra : Nat) (oracle : AstOracle) (vm : Vm)
    (oracle' : AstOracle) (vm' : Vm) : Prop where
  steps : vm'.cycles + slack + 3 * oracle.cycles ≤ vm.cycles + 3 * oracle'.cycles
  ticks : oracle'.cycles + S.rate * vm.cycles ≤ oracle.cycles + extra + S.rate * vm'.cycles

/-- The credit covers `n` more ticks. -/
def Covered (S : Setting) (n : Nat) (oracle : AstOracle) (vm : Vm) : Prop :=
  oracle.cycles + n ≤ S.credit + S.rate * vm.cycles

theorem Covered.mono {n n' : Nat} (h : Covered S n' oracle vm) (hn : n ≤ n') :
    Covered S n oracle vm := by
  rw [Covered] at h ⊢
  omega

theorem Covered.spent {n slack k : Nat} (h : Covered S (n + k) oracle vm)
    (hspent : Spent S slack k oracle vm oracle' vm') : Covered S n oracle' vm' := by
  have hticks := hspent.ticks
  rw [Covered] at h ⊢
  omega

/-- Code that pays for itself. -/
theorem Covered.kept {n slack : Nat} (h : Covered S n oracle vm)
    (hspent : Spent S slack 0 oracle vm oracle' vm') : Covered S n oracle' vm' :=
  h.spent (n := n) hspent

namespace Matches

variable {stack : List Int} {pc : Nat}

theorem tick (h : Matches S A scope oracle vm) (hbudget : oracle.cycles + 1 ≤ S.rules.maxCycles) :
    Matches S A scope { oracle with cycles := oracle.cycles + 1 } vm :=
  { h with
    pace := by have := h.pace; dsimp only; omega
    budget := hbudget }

/-- The limit of ticks allows for the next step. -/
theorem cycles_lt (h : Matches S A scope oracle vm) (hpace : vm.cycles < 3 * oracle.cycles) :
    vm.cycles < 3 * S.rules.maxCycles := by
  have := h.budget
  omega

/-- A step that only moves operands. -/
theorem next (h : Matches S A scope oracle vm) (hpace : vm.cycles < 3 * oracle.cycles) :
    Matches S A scope oracle
      { vm with stack := stack, pc := pc, cycles := vm.cycles + 1 } :=
  { h with
    plain := ⟨h.plain.unlimited, h.plain.untraced⟩
    bound := h.bound.mono le_rfl (Nat.le_succ _)
    pace := hpace }

theorem fetches (hlaid : A.Laid S) (h : Matches S A scope oracle vm) {instr : Instruction}
    {code : List Instruction} (hcode : CodeAt S vm.pc (instr :: code)) :
    Fetches S.code vm instr where
  plain := h.plain
  frames := by
    obtain ⟨frame, frames, -, hframes, -⟩ := hlaid.current.frame
    rw [h.callStack, hframes]
    exact List.cons_ne_nil _ _
  fetch := hcode.head

theorem current (hlaid : A.Laid S) (h : Matches S A scope oracle vm) :
    Current S.code vm.callStack A.base A.count := h.callStack ▸ hlaid.current

/-- The cells of the slots are there. -/
theorem cell_lt (hlaid : A.Laid S) (h : Matches S A scope oracle vm)
    (hloc : A.locals.lookup name = some loc) : A.base + loc.slot < vm.locals.length := by
  have hslot := hlaid.slot_lt name loc hloc
  have hlimit := hlaid.current.limit
  have hge := hlaid.low_ge
  have hlow := h.low
  omega

end Matches

end AstOracle

end MiniLang
