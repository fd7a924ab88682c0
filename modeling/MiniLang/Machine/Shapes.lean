import MiniLang.Bytecode.CompileVerify
import MiniLang.Lib.FlowTyping
import MiniLang.Machine.ValueVm

/-!
# Shapes of compiled code

The verifier knows how deep the operand stack is at an instruction. The value machine asks for more:
that scalar instructions meet scalar variables and array instructions arrays of the right size, that
an array has been allocated before it is used, that an allocated array is stored at once, and that a
return leaves no operand behind. A shape says what is known of this at an instruction, and the code of
every function of an accepted program has shapes.

## What changes a shape

The code of an expression changes the depth only: whatever variables it touches, it keeps which array
variables hold their arrays. So the depths that are known of such code are shapes (`flows_of_typed`),
and only statements need an argument of their own. A declaration of an array makes its variable ready;
where blocks end, what they declared is forgotten.
-/

namespace MiniLang

open Compiler Verifier StackCode

/-- What is known where an instruction is reached. -/
structure Shape where
  /-- The number of operands, with the fresh array. -/
  depth : Nat
  /-- The size of the array that is on top of the operands. -/
  fresh : Option Nat
  /-- The array variables that hold their array. -/
  ready : Set Nat

/-- One shape says no more than another. -/
instance : Preorder Shape where
  le s s' := s.depth = s'.depth ∧ s.fresh = s'.fresh ∧ s.ready ⊆ s'.ready
  le_refl _ := ⟨rfl, rfl, subset_rfl⟩
  le_trans _ _ _ h h' := ⟨h.1.trans h'.1, h.2.1.trans h'.2.1, h.2.2.trans h'.2.2⟩

/-- An instruction that changes no array variable, in a function whose array variables have the sizes
`sizes`. -/
def Quiet (program : CompiledProgram) (sizes : Nat → Option Nat) (ready : Set Nat)
    (instr : Instruction) : Prop :=
  match instr.opcode with
  | .loadLocal | .storeLocal => sizes (asUsize instr.arg1) = none
  | .loadGlobal | .storeGlobal => ScalarGlobal program (asUsize instr.arg1)
  | .arrayLoad | .arrayStore => ArrayGlobal program (asUsize instr.arg1) (asUsize instr.arg2)
  | .localArrayLoad | .localArrayStore =>
    asUsize instr.arg1 ∈ ready ∧ sizes (asUsize instr.arg1) = some (asUsize instr.arg2)
  | .return | .halt | .arrayNew | .allocArray => False
  | _ => True

/-- The instruction may be executed in the shape. -/
def Fits (program : CompiledProgram) (info : FunctionInfo) (sizes : Nat → Option Nat)
    (instr : Instruction) (s : Shape) : Prop :=
  OperandsOk program (looseRange info) instr ∧ pops instr ≤ s.depth ∧
    match instr.opcode with
    | .storeLocal => sizes (asUsize instr.arg1) = s.fresh
    | .arrayNew | .allocArray => s.fresh = none
    | .return => s.fresh = none ∧ s.depth = 1
    | _ => s.fresh = none ∧ Quiet program sizes s.ready instr

def Shape.after (instr : Instruction) (s : Shape) : Shape where
  depth := s.depth - pops instr + pushes instr
  fresh := if instr.opcode = .allocArray ∨ instr.opcode = .arrayNew then some (asUsize instr.arg1)
    else none
  ready := if instr.opcode = .storeLocal ∧ s.fresh ≠ none then insert (asUsize instr.arg1) s.ready
    else s.ready

/-- The instructions of a function and the shapes. -/
def shapeIsa (program : CompiledProgram) (info : FunctionInfo) (sizes : Nat → Option Nat) :
    FlowTyping.Isa Instruction Shape :=
  ⟨Fits program info sizes, Shape.after, successors⟩

variable {program : CompiledProgram} {info : FunctionInfo} {sizes : Nat → Option Nat}
  {ext : FlowTyping.Labels Shape} {base h h' : Nat} {R R' : Set Nat} {S : Env} {T Γ Γ' : Names}
  {size : String → Option Int32} {code : List Instruction}

/-- Code with shapes. -/
abbrev Flows (program : CompiledProgram) (info : FunctionInfo) (sizes : Nat → Option Nat)
    (ext : FlowTyping.Labels Shape) (base : Nat) (code : List Instruction) (s s' : Shape) : Prop :=
  (shapeIsa program info sizes).Flows ext base code s s'

theorem Shape.le_of_subset {d : Nat} {fresh : Option Nat} (h : R ⊆ R') :
    (⟨d, fresh, R⟩ : Shape) ≤ ⟨d, fresh, R'⟩ := ⟨rfl, rfl, h⟩

/-! ## Quiet code -/

theorem fits_of_quiet {instr : Instruction} (hok : OperandsOk program (looseRange info) instr)
    (hpops : pops instr ≤ h) (hquiet : Quiet program sizes R instr) :
    Fits program info sizes instr ⟨h, none, R⟩ := by
  refine ⟨hok, hpops, ?_⟩
  obtain ⟨opcode, arg1, arg2⟩ := instr
  cases opcode with
  | storeLocal => exact hquiet
  | arrayNew => exact hquiet.elim
  | allocArray => exact hquiet.elim
  | «return» => exact hquiet.elim
  | _ => exact ⟨rfl, hquiet⟩

theorem after_of_quiet {instr : Instruction} (hquiet : Quiet program sizes R instr) :
    Shape.after instr ⟨h, none, R⟩ = ⟨h - pops instr + pushes instr, none, R⟩ := by
  obtain ⟨opcode, arg1, arg2⟩ := instr
  have halloc : ¬(opcode = .allocArray ∨ opcode = .arrayNew) := by
    rintro (rfl | rfl) <;> exact hquiet
  simp [Shape.after, halloc]

/-- **Quiet code.** The depths of code that changes no array variable are shapes. -/
theorem flows_of_typed (htyped : Typed program info (fun _ _ ↦ False) base code h h')
    (hquiet : ∀ instr ∈ code, Quiet program sizes R instr) :
    Flows program info sizes ext base code ⟨h, none, R⟩ ⟨h', none, R⟩ := by
  obtain ⟨depth, rfl, rfl, hdepths⟩ := htyped
  refine ⟨fun pc ↦ ⟨depth pc, none, R⟩, le_rfl, rfl, fun i instr hi ↦ ?_⟩
  have hq := hquiet instr (List.mem_of_getElem? hi)
  refine ⟨fits_of_quiet (hdepths.valid i instr hi) (hdepths.pops_le i instr hi) hq, fun t ht ↦ .inl ?_⟩
  obtain ⟨hle, hle', heq⟩ := (hdepths.next i instr hi t ht).resolve_right id
  refine ⟨hle, hle', ?_⟩
  change (⟨depth t, none, R⟩ : Shape) ≤ Shape.after instr ⟨depth (base + i), none, R⟩
  rw [after_of_quiet hq, heq]
  exact le_rfl

/-! ## Names -/

/-- The variables that are visible as arrays. -/
def readySlots (Γ : Names) (S : Env) : Set Nat :=
  {slot | ∃ name t loc, Γ name = some (.array t) ∧ S.locals.lookup name = some loc ∧ loc.slot = slot}

/-- `sizes` has the sizes of the array variables of `S`. -/
def SizesOf (sizes : Nat → Option Nat) (S : Env) : Prop := ∀ name loc,
  S.locals.lookup name = some loc → sizes loc.slot = if loc.isArray then some loc.arraySize else none

/-- The globals that are visible throughout are what they seem. -/
structure TopShapes (program : CompiledProgram) (T : Names) (S : Env) : Prop where
  scalar : ∀ name t, T name = some (.scalar t) →
    ∃ glob, S.globals.lookup name = some glob ∧ ScalarGlobal program glob.slot
  array : ∀ name t, T name = some (.array t) →
    ∃ glob, S.globals.lookup name = some glob ∧ ArrayGlobal program glob.slot glob.arraySize

theorem TopShapes.congr {S' : Env} (hT : TopShapes program T S) (hglobals : S'.globals = S.globals) :
    TopShapes program T S' := by
  obtain ⟨hscalar, harray⟩ := hT
  rw [← hglobals] at hscalar harray
  exact ⟨hscalar, harray⟩

/-- The visible names are what they seem, and array variables hold their arrays. -/
structure Shapes (program : CompiledProgram) (sizes : Nat → Option Nat) (R : Set Nat) (Γ : Names)
    (S : Env) : Prop where
  scalar : ∀ name t, Γ name = some (.scalar t) →
    (∃ loc, S.locals.lookup name = some loc ∧ sizes loc.slot = none) ∨
    S.locals.lookup name = none ∧
      ∃ glob, S.globals.lookup name = some glob ∧ ScalarGlobal program glob.slot
  array : ∀ name t, Γ name = some (.array t) →
    (∃ loc, S.locals.lookup name = some loc ∧ loc.slot ∈ R ∧ sizes loc.slot = some loc.arraySize) ∨
    S.locals.lookup name = none ∧
      ∃ glob, S.globals.lookup name = some glob ∧ ArrayGlobal program glob.slot glob.arraySize

theorem Shapes.mono (h : Shapes program sizes R Γ S) (hR : R ⊆ R') :
    Shapes program sizes R' Γ S where
  scalar := h.scalar
  array name t hname :=
    (h.array name t hname).imp_left fun ⟨loc, hloc, hready, hsize⟩ ↦ ⟨loc, hloc, hR hready, hsize⟩

theorem Tracks.shapes (hS : Tracks T size Γ S) (hT : TopShapes program T S) (hsizes : SizesOf sizes S) :
    Shapes program sizes (readySlots Γ S) Γ S := by
  have hnone {name : String} {entity : Entity} (h : T name = some entity) :
      S.locals.lookup name = none := by
    cases hlookup : S.locals.lookup name with
    | none => rfl
    | some loc =>
      rw [(hS.declared name loc hlookup).1] at h
      cases h
  constructor
  · intro name t hname
    rcases hS.visible name _ hname with htop | ⟨hmem, u, hentity⟩
    · exact .inr ⟨hnone htop, hT.scalar name t htop⟩
    · obtain ⟨loc, hloc⟩ := Option.isSome_iff_exists.mp (AList.lookup_isSome.mpr hmem)
      have harray := (hS.declared name loc hloc).2.1
      rw [varEntity] at hentity
      split at hentity
      · cases hentity
      · next hscalar =>
        refine .inl ⟨loc, hloc, (hsizes name loc hloc).trans (if_neg ?_)⟩
        rw [harray]
        exact hscalar
  · intro name t hname
    rcases hS.visible name _ hname with htop | ⟨hmem, u, hentity⟩
    · exact .inr ⟨hnone htop, hT.array name t htop⟩
    · obtain ⟨loc, hloc⟩ := Option.isSome_iff_exists.mp (AList.lookup_isSome.mpr hmem)
      have harray := (hS.declared name loc hloc).2.1
      rw [varEntity] at hentity
      split at hentity
      · next hsome =>
        refine .inl ⟨loc, hloc, ⟨name, t, loc, hname, hloc, rfl⟩, ?_⟩
        exact (hsizes name loc hloc).trans (if_pos (harray.trans hsome))
      · cases hentity

/-! ## Expressions -/

/-- What an access compiles to. -/
theorem quiet_scalarAccess (hS : Resolves program info Γ S) (hshapes : Shapes program sizes R Γ S)
    {name : String} {t : Ty} (hname : Γ name = some (.scalar t)) {localOp globalOp : Opcode}
    (hlocal : localOp = .loadLocal ∨ localOp = .storeLocal)
    (hglobal : globalOp = .loadGlobal ∨ globalOp = .storeGlobal) :
    ∀ instr ∈ S.accessCode name localOp globalOp false, Quiet program sizes R instr := by
  have hlimit : maxLocalSlots = 1024 := rfl
  have hlimit' : maxGlobalSlots = 256 := rfl
  have hcount := hS.localCount_le
  rw [Env.accessCode]
  rcases hshapes.scalar name t hname with ⟨loc, hloc, hsize⟩ | ⟨hnone, glob, hglob, hscalar⟩
  · rcases hS.scalar name t hname with ⟨loc', hloc', hslot⟩ | ⟨hnone, -⟩
    · obtain rfl := Option.some_inj.mp (hloc.symm.trans hloc')
      rw [hloc]
      intro instr hinstr
      obtain rfl := List.mem_singleton.mp hinstr
      have hquiet : sizes (asUsize (asI32 loc.slot)) = none := by
        rwa [asUsize_asI32 (by omega)]
      rcases hlocal with rfl | rfl <;> exact hquiet
    · rw [hloc] at hnone
      cases hnone
  · rw [hnone, hglob]
    intro instr hinstr
    obtain rfl := List.mem_singleton.mp hinstr
    have hquiet : ScalarGlobal program (asUsize (asI32 glob.slot)) := by
      have hlt := hscalar.1
      rwa [asUsize_asI32 (by omega)]
    rcases hglobal with rfl | rfl <;> exact hquiet

theorem quiet_arrayAccess (hS : Resolves program info Γ S) (hshapes : Shapes program sizes R Γ S)
    {name : String} {t : Ty} (hname : Γ name = some (.array t)) {localOp globalOp : Opcode}
    (hlocal : localOp = .localArrayLoad ∨ localOp = .localArrayStore)
    (hglobal : globalOp = .arrayLoad ∨ globalOp = .arrayStore) :
    ∀ instr ∈ S.accessCode name localOp globalOp true, Quiet program sizes R instr := by
  have hlimit : maxLocalSlots = 1024 := rfl
  have hlimit' : maxGlobalSlots = 256 := rfl
  have hcount := hS.localCount_le
  rw [Env.accessCode]
  rcases hshapes.array name t hname with ⟨loc, hloc, hready, hsize⟩ | ⟨hnone, glob, hglob, harray⟩
  · rcases hS.array name t hname with ⟨loc', hloc', hslot, -, hlt⟩ | ⟨hnone, -⟩
    · obtain rfl := Option.some_inj.mp (hloc.symm.trans hloc')
      rw [hloc]
      intro instr hinstr
      obtain rfl := List.mem_singleton.mp hinstr
      have hquiet : asUsize (asI32 loc.slot) ∈ R ∧
          sizes (asUsize (asI32 loc.slot)) = some (asUsize (asI32 loc.arraySize)) := by
        rw [asUsize_asI32 (by omega), asUsize_asI32 hlt]
        exact ⟨hready, hsize⟩
      rcases hlocal with rfl | rfl <;> exact hquiet
    · rw [hloc] at hnone
      cases hnone
  · rcases hS.array name t hname with ⟨loc', hloc', -⟩ | ⟨-, glob', hglob', hpos, hle⟩
    · rw [hnone] at hloc'
      cases hloc'
    · obtain rfl := Option.some_inj.mp (hglob.symm.trans hglob')
      rw [hnone, hglob]
      intro instr hinstr
      obtain rfl := List.mem_singleton.mp hinstr
      have hquiet : ArrayGlobal program (asUsize (asI32 glob.slot)) (asUsize (asI32 glob.arraySize)) := by
        rw [asUsize_asI32 (by omega), asUsize_asI32 (by omega)]
        exact harray
      rcases hglobal with rfl | rfl <;> exact hquiet

theorem quiet_binaryOpcode (op : BinaryOp) : Quiet program sizes R (.simple (binaryOpcode op)) := by
  cases op <;> exact trivial

theorem quiet_unaryOpcode (op : UnaryOp) : Quiet program sizes R (.simple (unaryOpcode op)) := by
  cases op <;> exact trivial

/-- The code of `&&` and `||`. -/
theorem quiet_shortCircuit {op : Opcode} (hop : op = .jumpIfFalse ∨ op = .jumpIfTrue) (value : Int32)
    (base : Nat) {left right : List Instruction}
    (hleft : ∀ instr ∈ left, Quiet program sizes R instr)
    (hright : ∀ instr ∈ right, Quiet program sizes R instr) :
    ∀ instr ∈ Env.shortCircuit op value base left right, Quiet program sizes R instr := by
  intro instr hinstr
  simp only [Env.shortCircuit, List.mem_append, List.mem_cons, List.not_mem_nil, or_false] at hinstr
  rcases hinstr with (hmem | rfl | hmem) | rfl | rfl | rfl | rfl
  · exact hleft instr hmem
  · rcases hop with rfl | rfl <;> exact trivial
  · exact hright instr hmem
  all_goals exact trivial

mutual

/-- The code of an expression is quiet. -/
theorem quiet_expr (hS : Resolves program info Γ S) (hshapes : Shapes program sizes R Γ S) {t : Ty}
    (base : Nat) : (e : Expr) → HasType Γ e t →
    ∀ instr ∈ S.exprCode e base, Quiet program sizes R instr
  | .intLiteral _ _, _ => List.forall_mem_singleton.mpr trivial
  | .boolLiteral _ _, _ => List.forall_mem_singleton.mpr trivial
  | .identifier name _, htype => by
    cases htype with
    | identifier hname => exact quiet_scalarAccess hS hshapes hname (.inl rfl) (.inl rfl)
  | .binary op left right _, htype => by
    cases htype with
    | binary hl hr hop =>
      by_cases hand : op = .and
      · subst hand
        exact quiet_shortCircuit (.inl rfl) 0 base (quiet_expr hS hshapes base left hl)
          (quiet_expr hS hshapes _ right hr)
      by_cases hor : op = .or
      · subst hor
        exact quiet_shortCircuit (.inr rfl) 1 base (quiet_expr hS hshapes base left hl)
          (quiet_expr hS hshapes _ right hr)
      rw [Env.exprCode_strict hand hor]
      exact List.forall_mem_append.mpr ⟨List.forall_mem_append.mpr
        ⟨quiet_expr hS hshapes base left hl, quiet_expr hS hshapes _ right hr⟩,
        List.forall_mem_singleton.mpr (quiet_binaryOpcode op)⟩
  | .unary op operand _, htype => by
    cases htype with
    | unary ht _ =>
      exact List.forall_mem_append.mpr ⟨quiet_expr hS hshapes base operand ht,
        List.forall_mem_singleton.mpr (quiet_unaryOpcode op)⟩
  | .call name args _, htype => by
    cases htype with
    | call _ hargs =>
      exact List.forall_mem_append.mpr ⟨quiet_args hS hshapes base args hargs,
        List.forall_mem_singleton.mpr trivial⟩
  | .arrayIndex name index _, htype => by
    cases htype with
    | arrayIndex hname hindex =>
      exact List.forall_mem_append.mpr ⟨quiet_expr hS hshapes base index hindex,
        quiet_arrayAccess hS hshapes hname (.inl rfl) (.inl rfl)⟩
termination_by structural e => e

theorem quiet_args (hS : Resolves program info Γ S) (hshapes : Shapes program sizes R Γ S)
    {ts : List Ty} (base : Nat) : (args : List Expr) → HaveTypes Γ args ts →
    ∀ instr ∈ S.argsCode args base, Quiet program sizes R instr
  | [], _ => fun _ hinstr ↦ absurd hinstr List.not_mem_nil
  | arg :: args, htypes => by
    cases htypes with
    | cons htype htypes =>
      exact List.forall_mem_append.mpr ⟨quiet_expr hS hshapes base arg htype,
        quiet_args hS hshapes _ args htypes⟩
termination_by structural args => args

end

end MiniLang
