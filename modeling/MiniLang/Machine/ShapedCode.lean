import MiniLang.Machine.Shapes
import MiniLang.Sema.Exactness

/-!
# Compiled functions have shapes

From the names that are visible at a statement one can read which array variables hold their arrays
there: those of the visible arrays. This file shows that the code of a statement leads from the one
set to the other, and so that every function of an accepted program has shapes at its instructions.

## Which arrays are ready

The compiler gives a slot to each name of a function, and a declaration of a local array allocates
the array when control passes it. An array variable is therefore ready at an instruction when every
path from the entry passes its declaration. The analyzer has checked something simpler, that each
use is in the scope of a declaration; and in code without jumps into blocks the declarations in
scope are among those that were passed. `readySlots` takes this as the definition.

## The argument

Each piece of code gets a typing, from the shape before it to the shape after it, by induction on
the statement. Sequences compose. At the end of a block the arrays declared in it are dropped from
the shape (`readySlots_restore`), which makes the two branches of a conditional, and the body of a
loop and its head, meet in the same shape.
-/

namespace MiniLang

open Compiler Verifier StackCode

variable {program : CompiledProgram} {info : FunctionInfo} {sizes : Nat → Option Nat}
  {ext : FlowTyping.Labels Shape} {base h : Nat} {R R' R₁ R₂ : Set Nat} {S S' : Env}
  {T Γ Γ' Γ₁ : Names} {size : String → Option Int32}

/-! ## Visible arrays -/

theorem StmtOk.keeps {stmt : Stmt} (h : StmtOk Γ stmt Γ') {name : String} {entity : Entity}
    (hname : Γ name = some entity) : Γ' name = some entity := by
  cases h with
  | varDecl hfresh =>
    rw [Names.declare, Function.update_of_ne, hname]
    rintro rfl
    rw [hname] at hfresh
    cases hfresh
  | _ => exact hname

theorem StmtsOk.keeps {stmts : List Stmt} (h : StmtsOk Γ stmts Γ') {name : String} {entity : Entity}
    (hname : Γ name = some entity) : Γ' name = some entity := by
  induction stmts generalizing Γ with
  | nil =>
    cases h
    exact hname
  | cons stmt stmts ih =>
    cases h with
    | cons hstmt hstmts => exact ih hstmts (hstmt.keeps hname)

/-- What is declared in a block comes on top. -/
theorem readySlots_subset_afterStmts {stmts : List Stmt} (h : StmtsOk Γ stmts Γ₁) :
    readySlots Γ S ⊆ readySlots Γ₁ (S.afterStmts stmts) := by
  rintro slot ⟨name, t, loc, hname, hloc, hslot⟩
  exact ⟨name, t, loc, h.keeps hname, Env.lookup_afterStmts hloc stmts, hslot⟩

/-- Where a block ends, its arrays are out of sight. -/
theorem readySlots_restore {stmts : List Stmt} (hS : Tracks T size Γ S)
    (hS' : Tracks T size Γ (S.afterStmts stmts)) :
    readySlots Γ (S.afterStmts stmts) ⊆ readySlots Γ S := by
  rintro slot ⟨name, t, loc, hname, hloc, hslot⟩
  rcases hS.visible name _ hname with htop | ⟨hmem, -⟩
  · rw [(hS'.declared name loc hloc).1] at htop
    cases htop
  · obtain ⟨loc', hloc'⟩ := Option.isSome_iff_exists.mp (AList.lookup_isSome.mpr hmem)
    obtain rfl := Option.some_inj.mp ((Env.lookup_afterStmts hloc' stmts).symm.trans hloc)
    exact ⟨name, t, loc', hname, hloc', hslot⟩

theorem SizesOf.of_afterStmts {stmts : List Stmt} (h : SizesOf sizes (S.afterStmts stmts)) :
    SizesOf sizes S := fun name loc hloc ↦ h name loc (Env.lookup_afterStmts hloc stmts)

/-! ## Jumps and blocks -/

theorem flows_branch {opcode : Opcode} (hop : opcode = .jumpIfFalse ∨ opcode = .jumpIfTrue)
    {target : Nat} (htarget : target < 2 ^ 31) (hext : ext target ⟨h, none, R⟩) :
    Flows program info sizes ext base [⟨opcode, asI32 target, 0⟩] ⟨h + 1, none, R⟩ ⟨h, none, R⟩ := by
  have hquiet : Quiet program sizes R ⟨opcode, asI32 target, 0⟩ := by
    rcases hop with rfl | rfl <;> exact trivial
  have hok : OperandsOk program (looseRange info) ⟨opcode, asI32 target, 0⟩ := by
    rcases hop with rfl | rfl <;> exact isTarget_loose htarget
  have hafter : Shape.after ⟨opcode, asI32 target, 0⟩ ⟨h + 1, none, R⟩ = ⟨h, none, R⟩ := by
    rw [after_of_quiet hquiet]
    rcases hop with rfl | rfl <;> rfl
  have hnext : successors base ⟨opcode, asI32 target, 0⟩ = [asUsize (asI32 target), base + 1] := by
    rcases hop with rfl | rfl <;> rfl
  have hpops : pops ⟨opcode, asI32 target, 0⟩ ≤ h + 1 := by
    rcases hop with rfl | rfl <;> exact Nat.le_add_left 1 h
  refine .single (fits_of_quiet hok hpops hquiet) fun t ht ↦ ?_
  change t ∈ successors base ⟨opcode, asI32 target, 0⟩ at ht
  rw [hnext, asUsize_asI32 htarget] at ht
  change t = base + 1 ∧ _ ≤ Shape.after ⟨opcode, asI32 target, 0⟩ ⟨h + 1, none, R⟩ ∨
    ext t (Shape.after ⟨opcode, asI32 target, 0⟩ ⟨h + 1, none, R⟩)
  rw [hafter]
  rcases List.mem_cons.mp ht with rfl | ht
  · exact .inr hext
  · exact .inl ⟨List.mem_singleton.mp ht, le_rfl⟩

/-- A jump to a label. -/
theorem flows_jump {target : Nat} (htarget : target < 2 ^ 31) (hext : ext target ⟨h, none, R⟩)
    (s' : Shape) : Flows program info sizes ext base [⟨.jump, asI32 target, 0⟩] ⟨h, none, R⟩ s' := by
  refine .single ⟨isTarget_loose htarget, Nat.zero_le h, rfl, trivial⟩ fun t ht ↦ .inr ?_
  rw [List.mem_singleton.mp (show t ∈ [asUsize (asI32 target)] from ht), asUsize_asI32 htarget]
  exact hext

theorem flows_ifCode {condition thenBody : List Instruction}
    (hcondition : Flows program info sizes ext base condition ⟨0, none, R⟩ ⟨1, none, R⟩)
    (hthen : Flows program info sizes ext (base + condition.length + 1) thenBody ⟨0, none, R⟩
      ⟨0, none, R₁⟩) (hR : R' ⊆ R) (hR₁ : R' ⊆ R₁)
    (hbound : base + (Env.ifCode base condition thenBody).length < 2 ^ 31) :
    Flows program info sizes ext base (Env.ifCode base condition thenBody) ⟨0, none, R⟩
      ⟨0, none, R'⟩ := by
  have hsplit : Env.ifCode base condition thenBody = condition ++
      ([⟨.jumpIfFalse, asI32 (base + condition.length + thenBody.length + 1), 0⟩] ++ thenBody) := rfl
  rw [hsplit] at hbound ⊢
  simp only [List.length_append, List.length_singleton] at hbound
  refine .close (fun t d ↦ ext t d ∨
    t = base + condition.length + thenBody.length + 1 ∧ d = ⟨0, none, R⟩) (.append
      (hcondition.mono fun _ _ ↦ .inl) (.append (flows_branch (.inl rfl) (by omega)
        (.inr ⟨rfl, rfl⟩)) ((hthen.mono fun _ _ ↦ .inl).weaken (Shape.le_of_subset hR₁)))) ?_
  rintro t d (hext | ⟨rfl, rfl⟩)
  · exact .inl hext
  · refine .inr (.inr ⟨?_, Shape.le_of_subset hR⟩)
    simp only [List.length_append, List.length_singleton]
    omega

theorem flows_ifElseCode {condition thenBody elseBody : List Instruction} {R₀ : Set Nat}
    (hcondition : Flows program info sizes ext base condition ⟨0, none, R⟩ ⟨1, none, R⟩)
    (hthen : Flows program info sizes ext (base + condition.length + 1) thenBody ⟨0, none, R⟩
      ⟨0, none, R₁⟩)
    (helse : Flows program info sizes ext (base + condition.length + thenBody.length + 2) elseBody
      ⟨0, none, R₀⟩ ⟨0, none, R₂⟩) (hR₀ : R₀ ⊆ R) (hR₁ : R' ⊆ R₁) (hR₂ : R' ⊆ R₂)
    (hbound : base + (Env.ifElseCode base condition thenBody elseBody).length < 2 ^ 31) :
    Flows program info sizes ext base (Env.ifElseCode base condition thenBody elseBody) ⟨0, none, R⟩
      ⟨0, none, R'⟩ := by
  have hsplit : Env.ifElseCode base condition thenBody elseBody = (condition ++
      ([⟨.jumpIfFalse, asI32 (base + condition.length + thenBody.length + 2), 0⟩] ++ (thenBody ++
        [⟨.jump, asI32 (base + condition.length + thenBody.length + 2 + elseBody.length), 0⟩]))) ++
          elseBody := by
    simp [Env.ifElseCode]
  rw [hsplit] at hbound ⊢
  simp only [List.length_append, List.length_singleton] at hbound
  -- the outer label is the end of the code, the inner one the start of the second block
  refine .close (fun t d ↦ ext t d ∨
    t = base + condition.length + thenBody.length + 2 + elseBody.length ∧ d = ⟨0, none, R₁⟩) (.appendAt
      (.close (fun t d ↦ (ext t d ∨
        t = base + condition.length + thenBody.length + 2 + elseBody.length ∧ d = ⟨0, none, R₁⟩) ∨
          t = base + condition.length + thenBody.length + 2 ∧ d = ⟨0, none, R⟩)
        (.append (hcondition.mono fun _ _ h ↦ .inl (.inl h)) (.append
          (flows_branch (.inl rfl) (by omega) (.inr ⟨rfl, rfl⟩)) (.append
            (hthen.mono fun _ _ h ↦ .inl (.inl h))
            (flows_jump (by omega) (.inl (.inr ⟨rfl, rfl⟩)) ⟨0, none, R₀⟩)))) ?_)
      ((helse.mono fun _ _ ↦ .inl).weaken (Shape.le_of_subset hR₂)) ?_) ?_
  · rintro t d (hext | ⟨rfl, rfl⟩)
    · exact .inl hext
    · refine .inr (.inr ⟨?_, Shape.le_of_subset hR₀⟩)
      simp only [List.length_append, List.length_singleton]
      omega
  · simp only [List.length_append, List.length_singleton]
    omega
  · rintro t d (hext | ⟨rfl, rfl⟩)
    · exact .inl hext
    · refine .inr (.inr ⟨?_, Shape.le_of_subset hR₁⟩)
      simp only [List.length_append, List.length_singleton]
      omega

theorem flows_whileCode {condition body : List Instruction}
    (hcondition : Flows program info sizes ext base condition ⟨0, none, R⟩ ⟨1, none, R⟩)
    (hbody : Flows program info sizes ext (base + condition.length + 1) body ⟨0, none, R⟩
      ⟨0, none, R₁⟩) (hR : R' ⊆ R) (hR₁ : R ⊆ R₁)
    (hbound : base + (Env.whileCode base condition body).length < 2 ^ 31) :
    Flows program info sizes ext base (Env.whileCode base condition body) ⟨0, none, R⟩
      ⟨0, none, R'⟩ := by
  have hsplit : Env.whileCode base condition body = condition ++
      ([⟨.jumpIfFalse, asI32 (base + condition.length + body.length + 2), 0⟩] ++ (body ++
        [⟨.jump, asI32 base, 0⟩])) := by
    simp [Env.whileCode]
  rw [hsplit] at hbound ⊢
  simp only [List.length_append, List.length_singleton] at hbound
  refine .close (fun t d ↦ ext t d ∨ t = base ∧ d = ⟨0, none, R₁⟩ ∨
    t = base + condition.length + body.length + 2 ∧ d = ⟨0, none, R⟩) (.append
      (hcondition.mono fun _ _ ↦ .inl) (.append (flows_branch (.inl rfl) (by omega)
        (.inr (.inr ⟨rfl, rfl⟩))) (.append (hbody.mono fun _ _ ↦ .inl)
          (flows_jump (by omega) (.inr (.inl ⟨rfl, rfl⟩)) ⟨0, none, R'⟩)))) ?_
  rintro t d (hext | ⟨rfl, rfl⟩ | ⟨rfl, rfl⟩)
  · exact .inl hext
  · exact .inr (.inl ⟨rfl, Shape.le_of_subset hR₁⟩)
  · refine .inr (.inr ⟨?_, Shape.le_of_subset hR⟩)
    simp only [List.length_append, List.length_singleton]
    omega

/-! ## Statements -/

/-- The code of an array declaration. -/
theorem flows_arrayDecl {loc : LocalVar} (hslot : loc.slot < 2 ^ 31) (hsize : loc.arraySize < 2 ^ 31)
    (htyped : Typed program info (fun _ _ ↦ False) base
      [⟨.allocArray, asI32 loc.arraySize, 0⟩, ⟨.storeLocal, asI32 loc.slot, 0⟩] 0 0)
    (hsizes : sizes loc.slot = some loc.arraySize) :
    Flows program info sizes ext base
      [⟨.allocArray, asI32 loc.arraySize, 0⟩, ⟨.storeLocal, asI32 loc.slot, 0⟩] ⟨0, none, R⟩
      ⟨0, none, insert loc.slot R⟩ := by
  obtain ⟨depth, -, -, hdepths⟩ := htyped
  have halloc : Flows program info sizes ext base [⟨.allocArray, asI32 loc.arraySize, 0⟩]
      ⟨0, none, R⟩ ⟨1, some loc.arraySize, R⟩ := by
    refine .single ⟨hdepths.valid 0 _ rfl, le_rfl, rfl⟩ fun t ht ↦ .inl ⟨List.mem_singleton.mp ht, ?_⟩
    exact ⟨rfl, congrArg some (asUsize_asI32 hsize).symm, subset_rfl⟩
  have hstore : Flows program info sizes ext (base + 1) [⟨.storeLocal, asI32 loc.slot, 0⟩]
      ⟨1, some loc.arraySize, R⟩ ⟨0, none, insert loc.slot R⟩ := by
    have hslot' := asUsize_asI32 hslot
    refine .single ⟨hdepths.valid 1 _ rfl, le_rfl, ?_⟩ fun t ht ↦ .inl ⟨List.mem_singleton.mp ht, ?_⟩
    · exact (congrArg sizes hslot').trans hsizes
    · exact ⟨rfl, rfl, (congrArg (insert · R) hslot').ge⟩
  exact halloc.append hstore

/-- What a declaration makes ready. -/
theorem readySlots_declareLocal {name : String} {type : Ty} {arraySize : Option Int32}
    {loc : LocalVar} (hloc : (S.declareLocal name arraySize).locals.lookup name = some loc) :
    readySlots (Γ.declare name (varEntity type arraySize)) (S.declareLocal name arraySize) ⊆
      if arraySize.isSome then insert loc.slot (readySlots Γ S) else readySlots Γ S := by
  rintro slot ⟨name', t, loc', hname, hloc', rfl⟩
  rw [Names.declare] at hname
  by_cases heq : name' = name
  · subst heq
    obtain rfl := Option.some_inj.mp (hloc.symm.trans hloc')
    rw [Function.update_self, varEntity] at hname
    split at hname
    · next hsome =>
      rw [if_pos hsome]
      exact Set.mem_insert _ _
    · cases hname
  · rw [Function.update_of_ne heq] at hname
    have hbefore : S.locals.lookup name' = some loc' := by
      rw [Env.declareLocal] at hloc'
      split at hloc'
      · exact hloc'
      · exact (AList.lookup_insert_ne heq).symm.trans hloc'
    have hmem : loc'.slot ∈ readySlots Γ S := ⟨name', t, loc', hname, hbefore, rfl⟩
    split
    · exact Set.mem_insert_of_mem _ hmem
    · exact hmem

theorem flows_varDecl (h : Ready program info T size Γ S) (hT : TopShapes program T S)
    {name : String} {type : Ty} {init : Option Expr} {arraySize : Option Int32}
    (hfresh : Γ name = none) (hsize : arraySize = size name) (hpos : ∀ n ∈ arraySize, 0 < n)
    (hinit : InitOk (Γ.declare name (varEntity type arraySize)) type init)
    (hslots : (S.declareLocal name arraySize).nextLocalSlot ≤ info.localCount)
    (hbound : base + ((S.declareLocal name arraySize).varDeclCode name init base).length < 2 ^ 31)
    (hsizes : SizesOf sizes (S.declareLocal name arraySize)) :
    Flows program info sizes ext base ((S.declareLocal name arraySize).varDeclCode name init base)
      ⟨0, none, readySlots Γ S⟩ ⟨0, none, readySlots (Γ.declare name (varEntity type arraySize))
        (S.declareLocal name arraySize)⟩ := by
  have htyped := @typed_varDecl _ _ (fun _ _ ↦ False) _ _ _ _ _ h _ type init _ hfresh hsize hpos hinit
    hslots hbound
  have htracks := @Tracks.declareLocal _ _ _ _ h.tracks _ type _ hfresh hsize hpos
  have hglobals := S.globals_declareLocal name arraySize
  have hresolves := htracks.resolves (h.top.congr hglobals (S.funcNameToId_declareLocal name arraySize))
    h.localCount_le hslots
  obtain ⟨loc, hloc⟩ : ∃ loc, (S.declareLocal name arraySize).locals.lookup name = some loc := by
    refine Option.isSome_iff_exists.mp (AList.lookup_isSome.mpr ?_)
    have hkeys := Finset.ext_iff.mp (S.keys_declareLocal name arraySize) name
    rw [List.mem_toFinset, Finset.mem_insert, List.mem_toFinset] at hkeys
    exact hkeys.mpr (.inl rfl)
  obtain ⟨-, harray, hsize', -⟩ := htracks.declared name loc hloc
  have hbelow := (htracks.slot_lt hloc).trans_le hslots
  have hlimit : maxLocalSlots = 1024 := rfl
  have hcount := h.localCount_le
  have hready := @readySlots_declareLocal S Γ name type arraySize loc hloc
  have hsizesLoc := hsizes name loc hloc
  rw [← hsize] at harray hsize'
  rw [Env.varDeclCode, hloc] at htyped ⊢
  dsimp only at htyped ⊢
  cases arraySize with
  | some n =>
    have hisArray : loc.isArray = true := harray
    rw [if_pos hisArray] at htyped hsizesLoc ⊢
    have hn := arrayUsize_lt n (hpos n rfl)
    have hsize' : loc.arraySize = arrayUsize n := hsize'
    exact (flows_arrayDecl (by omega) (by omega) htyped hsizesLoc).weaken (Shape.le_of_subset hready)
  | none =>
    have hscalar : ¬loc.isArray = true := by
      rw [harray]
      exact Bool.false_ne_true
    rw [if_neg hscalar] at htyped hsizesLoc ⊢
    refine (flows_of_typed htyped ?_).weaken (Shape.le_of_subset hready)
    cases init with
    | none => exact fun _ hinstr ↦ absurd hinstr List.not_mem_nil
    | some init =>
      refine List.forall_mem_append.mpr ⟨?_, List.forall_mem_singleton.mpr ?_⟩
      · exact quiet_expr hresolves ((htracks.shapes (hT.congr hglobals) hsizes).mono hready) base init
          (hinit init rfl)
      · change sizes (asUsize (asI32 loc.slot)) = none
        rwa [asUsize_asI32 (by omega)]

theorem quiet_assignCode (h : Resolves program info Γ S) (hshapes : Shapes program sizes R Γ S)
    {target : String} {index : Option Expr} {value : Expr} {span : Span}
    (hok : StmtOk Γ (.assign target index value span) Γ') (base : Nat) :
    ∀ instr ∈ S.assignCode target index value base, Quiet program sizes R instr := by
  by_cases hdeclared : target ∈ S.locals ∨ target ∈ S.globals
  · cases hok with
    | assignScalar hname hvalue =>
      rw [Env.assignCode, if_pos hdeclared]
      exact List.forall_mem_append.mpr ⟨quiet_expr h hshapes base value hvalue,
        quiet_scalarAccess h hshapes hname (.inr rfl) (.inr rfl)⟩
    | @assignElement _ _ index _ _ hname hindex hvalue =>
      rw [Env.assignCode, if_pos hdeclared]
      exact List.forall_mem_append.mpr ⟨List.forall_mem_append.mpr
        ⟨quiet_expr h hshapes base index hindex, quiet_expr h hshapes _ value hvalue⟩,
        quiet_arrayAccess h hshapes hname (.inr rfl) (.inr rfl)⟩
  · have hnil : S.assignCode target index value base = [] := by
      cases index <;> rw [Env.assignCode, if_neg hdeclared]
    rw [hnil]
    exact fun _ hinstr ↦ absurd hinstr List.not_mem_nil

/-- The code of a condition or another expression of a statement. -/
theorem flows_expr (h : Resolves program info Γ S) (hshapes : Shapes program sizes R Γ S) {t : Ty}
    {e : Expr} (he : HasType Γ e t) (hbound : base + (S.exprCode e base).length < 2 ^ 31) :
    Flows program info sizes ext base (S.exprCode e base) ⟨0, none, R⟩ ⟨1, none, R⟩ :=
  flows_of_typed (typed_expr h base 0 e he hbound) (quiet_expr h hshapes base e he)

/-- An expression and an instruction that takes its value. -/
theorem flows_consumer (h : Resolves program info Γ S) (hshapes : Shapes program sizes R Γ S) {t : Ty}
    {e : Expr} (he : HasType Γ e t) {instr : Instruction} (hok : OperandsOk program (looseRange info) instr)
    (hpops : pops instr = 1) (hpushes : pushes instr = 0) (hquiet : Quiet program sizes R instr)
    (hnext : ∀ pc, successors pc instr = [pc + 1])
    (hbound : base + (S.exprCode e base ++ [instr]).length < 2 ^ 31) :
    Flows program info sizes ext base (S.exprCode e base ++ [instr]) ⟨0, none, R⟩ ⟨0, none, R⟩ := by
  rw [List.length_append] at hbound
  refine .append (flows_expr h hshapes he (by omega)) (.single (fits_of_quiet hok hpops.le hquiet)
    fun t ht ↦ .inl ?_)
  change t ∈ successors _ instr at ht
  rw [hnext] at ht
  refine ⟨List.mem_singleton.mp ht, ?_⟩
  change (⟨0, none, R⟩ : Shape) ≤ Shape.after instr ⟨1, none, R⟩
  rw [after_of_quiet hquiet, hpops, hpushes]

mutual

/-- The code of a statement makes ready what it declares. -/
theorem flows_stmt {Γ Γ' : Names} {S : Env} {ext : FlowTyping.Labels Shape}
    (h : Ready program info T size Γ S) (hT : TopShapes program T S) (base : Nat) : (stmt : Stmt) →
    StmtOk Γ stmt Γ' → (∀ d ∈ stmt.decls, d.2 = size d.1) →
    (S.afterStmt stmt).nextLocalSlot ≤ info.localCount →
    base + (S.stmtCode stmt base).length < 2 ^ 31 → SizesOf sizes (S.afterStmt stmt) →
    Flows program info sizes ext base (S.stmtCode stmt base) ⟨0, none, readySlots Γ S⟩
      ⟨0, none, readySlots Γ' (S.afterStmt stmt)⟩
  | .varDecl _ name init arraySize _, hok, hdecls, hslots, hbound, hsizes => by
    cases hok with
    | varDecl hfresh hpos hinit =>
      have hsize : arraySize = size name := hdecls (name, arraySize) List.mem_cons_self
      exact flows_varDecl h hT hfresh hsize hpos hinit hslots hbound hsizes
  | .assign target index value _, hok, _, hslots, hbound, hsizes => by
    have hresolves := h.resolves hslots
    have hshapes := h.tracks.shapes hT hsizes
    have hflows := @flows_of_typed program info sizes ext _ _ _ _ _
      (typed_assignCode hresolves hok hbound) (quiet_assignCode hresolves hshapes hok base)
    cases hok with
    | assignScalar => exact hflows
    | assignElement => exact hflows
  | .ifStmt condition thenBody none _, hok, hdecls, hslots, hbound, hsizes => by
    cases hok with
    | ifThen hcondition hthen =>
      obtain ⟨t, -, hcondition⟩ := hcondition
      have hslots' := (S.extends_afterStmts thenBody).slot_le.trans hslots
      have hlength := hbound
      rw [Env.stmtCode, Env.ifCode, List.length_append, List.length_cons] at hlength
      have hbody := @flows_stmts _ _ _ ext h hT (base + (S.exprCode condition base).length + 1) thenBody
        hthen hdecls hslots (by omega) hsizes
      have hafter := h.tracks.afterStmts thenBody hthen hdecls
      have hrestored := (h.afterStmts hafter).tracks
      have hshapes := h.tracks.shapes hT hsizes.of_afterStmts
      have hout := readySlots_restore h.tracks hrestored
      exact flows_ifCode (flows_expr (h.resolves hslots') hshapes hcondition (by omega)) hbody hout
        (hout.trans (readySlots_subset_afterStmts hthen)) hbound
  | .ifStmt condition thenBody (some elseBody) _, hok, hdecls, hslots, hbound, hsizes => by
    cases hok with
    | ifElse hcondition hthen helse =>
      obtain ⟨t, -, hcondition⟩ := hcondition
      obtain ⟨hdecls, hdecls'⟩ := List.forall_mem_append.mp hdecls
      have hthenSlots := ((S.afterStmts thenBody).extends_afterStmts elseBody).slot_le.trans hslots
      have hslots' := (S.extends_afterStmts thenBody).slot_le.trans hthenSlots
      have hlength := hbound
      simp only [Env.stmtCode, Env.ifElseCode, List.length_append, List.length_cons] at hlength
      have hsizes' : SizesOf sizes (S.afterStmts thenBody) := hsizes.of_afterStmts
      have hbody := @flows_stmts _ _ _ ext h hT (base + (S.exprCode condition base).length + 1) thenBody
        hthen hdecls hthenSlots (by omega) hsizes'
      have hafter := h.tracks.afterStmts thenBody hthen hdecls
      have h' := h.afterStmts hafter
      have hbody' := @flows_stmts _ _ _ ext h' (hT.congr (S.globals_afterStmts thenBody))
        (base + (S.exprCode condition base).length +
          (S.stmtsCode thenBody (base + (S.exprCode condition base).length + 1)).length + 2) elseBody
        helse hdecls' hslots (by omega) hsizes
      have hafter' := h'.tracks.afterStmts elseBody helse hdecls'
      have hout := readySlots_restore h.tracks h'.tracks
      have hout' := readySlots_restore h'.tracks (h'.afterStmts hafter').tracks
      have hshapes := h.tracks.shapes hT hsizes'.of_afterStmts
      exact flows_ifElseCode (flows_expr (h.resolves hslots') hshapes hcondition (by omega)) hbody hbody'
        hout ((hout'.trans hout).trans (readySlots_subset_afterStmts hthen))
        (hout'.trans (readySlots_subset_afterStmts helse)) hbound
  | .whileStmt condition body _, hok, hdecls, hslots, hbound, hsizes => by
    cases hok with
    | whileStmt hcondition hbody =>
      obtain ⟨t, -, hcondition⟩ := hcondition
      have hslots' := (S.extends_afterStmts body).slot_le.trans hslots
      have hlength := hbound
      simp only [Env.stmtCode, Env.whileCode, List.length_append, List.length_cons] at hlength
      have hflows := @flows_stmts _ _ _ ext h hT (base + (S.exprCode condition base).length + 1) body
        hbody hdecls hslots (by omega) hsizes
      have hafter := h.tracks.afterStmts body hbody hdecls
      have hshapes := h.tracks.shapes hT hsizes.of_afterStmts
      exact flows_whileCode (flows_expr (h.resolves hslots') hshapes hcondition (by omega)) hflows
        (readySlots_restore h.tracks (h.afterStmts hafter).tracks)
        (readySlots_subset_afterStmts hbody) hbound
  | .returnStmt value _, hok, _, hslots, hbound, hsizes => by
    cases hok with
    | returnStmt hvalue =>
      rw [Env.stmtCode, List.length_append] at hbound
      have hshapes := h.tracks.shapes hT hsizes
      exact .append (flows_expr (h.resolves hslots) hshapes hvalue (by omega))
        (.single ⟨trivial, le_rfl, rfl, rfl⟩ fun t ht ↦ absurd ht List.not_mem_nil)
  | .print value _, hok, _, hslots, hbound, hsizes => by
    cases hok with
    | print hvalue =>
      exact flows_consumer (h.resolves hslots) (h.tracks.shapes hT hsizes) hvalue trivial rfl rfl
        trivial (fun _ ↦ rfl) hbound
  | .exprStmt expr _, hok, _, hslots, hbound, hsizes => by
    cases hok with
    | exprStmt hexpr =>
      exact flows_consumer (h.resolves hslots) (h.tracks.shapes hT hsizes) hexpr trivial rfl rfl
        trivial (fun _ ↦ rfl) hbound
termination_by structural stmt => stmt

theorem flows_stmts {Γ Γ' : Names} {S : Env} {ext : FlowTyping.Labels Shape}
    (h : Ready program info T size Γ S) (hT : TopShapes program T S) (base : Nat) :
    (stmts : List Stmt) → StmtsOk Γ stmts Γ' → (∀ d ∈ declsList stmts, d.2 = size d.1) →
    (S.afterStmts stmts).nextLocalSlot ≤ info.localCount →
    base + (S.stmtsCode stmts base).length < 2 ^ 31 → SizesOf sizes (S.afterStmts stmts) →
    Flows program info sizes ext base (S.stmtsCode stmts base) ⟨0, none, readySlots Γ S⟩
      ⟨0, none, readySlots Γ' (S.afterStmts stmts)⟩
  | [], hok, _, _, _, _ => by
    cases hok
    exact .nil _
  | stmt :: stmts, hok, hdecls, hslots, hbound, hsizes => by
    cases hok with
    | cons hstmt hstmts =>
      obtain ⟨hdecls, hdecls'⟩ := List.forall_mem_append.mp hdecls
      have hslots' := ((S.afterStmt stmt).extends_afterStmts stmts).slot_le.trans hslots
      have hsizes' : SizesOf sizes (S.afterStmt stmt) := SizesOf.of_afterStmts hsizes
      rw [Env.stmtsCode, List.length_append] at hbound
      have hglobals := S.globals_afterStmt stmt
      have h' : Ready program info T size _ (S.afterStmt stmt) := ⟨h.localCount_le,
        h.top.congr hglobals (S.funcNameToId_afterStmt stmt), h.tracks.afterStmt stmt hstmt hdecls⟩
      exact .append (flows_stmt h hT base stmt hstmt hdecls hslots' (by omega) hsizes')
        (flows_stmts h' (hT.congr hglobals) (base + (S.stmtCode stmt base).length) stmts hstmts hdecls'
          hslots (by omega) hsizes)
termination_by structural stmts => stmts

end

end MiniLang
