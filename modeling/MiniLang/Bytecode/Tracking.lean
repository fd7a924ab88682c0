import MiniLang.Bytecode.Balance

/-!
# The slots of the visible names

The compiler keeps one slot per local name for the whole function, the analyzer one scope per block.
Where the declarations of a name agree, the slot a name has is right for whatever declaration of it
is visible, and the code of a statement is balanced.

## The invariant

`Tracks` says that each visible local has a slot in the compiler's table, and that the entry there
has the array size with which the name is declared. A declaration extends both sides. At the end of
a block the analyzer forgets the names declared in it and the compiler keeps them: the invariant
survives, because it asks for visible names to be in the table and not the other way round. A name
that is declared again, in a later block, gets the slot of the earlier declaration. With
`DeclsAgree` the entry is right for the new one as well; without it, a scalar could be accessed as
an array.

## Statements

The typing of a statement starts in any table that tracks the visible names and ends in the table
after it. Branches are typed one after the other, though only one of them runs, as the compiler goes
through them in the order of the text.
-/

namespace MiniLang

open Compiler Verifier StackCode

/-! ## Declarations -/

mutual

/-- The local declarations in a statement: name and array size. -/
def Stmt.decls : Stmt → List (String × Option Int32)
  | .varDecl _ name _ arraySize _ => [(name, arraySize)]
  | .ifStmt _ thenBody none _ => declsList thenBody
  | .ifStmt _ thenBody (some elseBody) _ => declsList thenBody ++ declsList elseBody
  | .whileStmt _ body _ => declsList body
  | .assign .. => []
  | .returnStmt .. => []
  | .print .. => []
  | .exprStmt .. => []
termination_by structural stmt => stmt

def declsList : List Stmt → List (String × Option Int32)
  | [] => []
  | stmt :: stmts => stmt.decls ++ declsList stmts
termination_by structural stmts => stmts

end

/-- All declarations of one name agree in being array or scalar and in array size. -/
def Function.DeclsAgree (f : Function) : Prop :=
  ∀ d ∈ declsList f.body, ∀ d' ∈ declsList f.body, d.1 = d'.1 → d.2 = d'.2

def Program.DeclsAgree (p : Program) : Prop := ∀ f ∈ p.functions, f.DeclsAgree

/-- The array size that a name is declared with. -/
def declaredSize (decls : List (String × Option Int32)) (name : String) : Option Int32 :=
  (decls.find? (·.1 = name)).bind Prod.snd

theorem declaredSize_eq {decls : List (String × Option Int32)} {d : String × Option Int32}
    (hagree : ∀ d ∈ decls, ∀ d' ∈ decls, d.1 = d'.1 → d.2 = d'.2) (hd : d ∈ decls) :
    d.2 = declaredSize decls d.1 := by
  rw [declaredSize]
  cases hfind : decls.find? (·.1 = d.1) with
  | none => exact absurd (decide_eq_true rfl) (List.find?_eq_none.mp hfind d hd)
  | some d' =>
    have hname : d'.1 = d.1 := by simpa using List.find?_some hfind
    exact (hagree d' (List.mem_of_find?_eq_some hfind) d hd hname).symm

/-! ## Tracking -/

variable {program : CompiledProgram} {info : FunctionInfo} {ext : Labels} {base : Nat}
  {S : Env} {T Γ Γ' : Names} {size : String → Option Int32}

/-- The names visible throughout the program have slots or identifiers. -/
structure TopResolves (program : CompiledProgram) (T : Names) (S : Env) : Prop where
  scalar : ∀ name t, T name = some (.scalar t) →
    ∃ glob, S.globals.lookup name = some glob ∧ glob.slot < maxGlobalSlots
  array : ∀ name t, T name = some (.array t) → ∃ glob, S.globals.lookup name = some glob ∧
    0 < glob.arraySize ∧ glob.slot + glob.arraySize ≤ maxGlobalSlots
  function : ∀ name params, T name = some (.function params) →
    IsCallee program (asI32 ((S.funcNameToId.lookup name).getD 0)) (asI32 params.length) ∧
      params.length < 2 ^ 31

/-- The locals declared so far have the slots of `S`, where `Γ` is visible. -/
structure Tracks (T : Names) (size : String → Option Int32) (Γ : Names) (S : Env) : Prop where
  slots : S.SlotsBelow
  declared : ∀ name loc, S.locals.lookup name = some loc → T name = none ∧
    loc.isArray = (size name).isSome ∧ loc.arraySize = ((size name).map arrayUsize).getD 0 ∧
    ∀ n ∈ size name, 0 < n
  visible : ∀ name entity, Γ name = some entity →
    T name = some entity ∨ name ∈ S.locals ∧ ∃ t, entity = varEntity t (size name)
  topLevel : ∀ name entity, T name = some entity → Γ name = some entity

namespace Tracks

theorem slot_lt (hS : Tracks T size Γ S) {name : String} {loc : LocalVar}
    (h : S.locals.lookup name = some loc) : loc.slot < S.nextLocalSlot :=
  hS.slots _ (AList.mem_lookup_iff.mp h)

theorem resolves (hS : Tracks T size Γ S) (hT : TopResolves program T S)
    (hlimit : info.localCount ≤ maxLocalSlots) (hslots : S.nextLocalSlot ≤ info.localCount) :
    Resolves program info Γ S := by
  have hnone {name : String} {entity : Entity} (h : T name = some entity) :
      S.locals.lookup name = none := by
    cases hlookup : S.locals.lookup name with
    | none => rfl
    | some loc =>
      rw [(hS.declared name loc hlookup).1] at h
      cases h
  constructor
  · exact hlimit
  · intro name t hname
    rcases hS.visible name _ hname with htop | ⟨hmem, -⟩
    · exact .inr ⟨hnone htop, hT.scalar name t htop⟩
    · obtain ⟨loc, hloc⟩ := Option.isSome_iff_exists.mp (AList.lookup_isSome.mpr hmem)
      exact .inl ⟨loc, hloc, (hS.slot_lt hloc).trans_le hslots⟩
  · intro name t hname
    rcases hS.visible name _ hname with htop | ⟨hmem, u, hentity⟩
    · exact .inr ⟨hnone htop, hT.array name t htop⟩
    · obtain ⟨loc, hloc⟩ := Option.isSome_iff_exists.mp (AList.lookup_isSome.mpr hmem)
      obtain ⟨-, -, hsize, hpos⟩ := hS.declared name loc hloc
      cases hn : size name with
      | none =>
        rw [hn] at hentity
        cases hentity
      | some n =>
        rw [hn] at hsize
        have hn' := arrayUsize_lt n (hpos n hn)
        refine .inl ⟨loc, hloc, (hS.slot_lt hloc).trans_le hslots, ?_⟩
        rw [show loc.arraySize = arrayUsize n from hsize]
        exact hn'
  · intro name params hname
    rcases hS.visible name _ hname with htop | ⟨-, t, hentity⟩
    · exact hT.function name params htop
    · rw [varEntity] at hentity
      split at hentity <;> cases hentity

/-- A declaration of a new name. -/
theorem declareLocal (hS : Tracks T size Γ S) {name : String} {type : Ty}
    {arraySize : Option Int32} (hfresh : Γ name = none) (hsize : arraySize = size name)
    (hpos : ∀ n ∈ arraySize, 0 < n) :
    Tracks T size (Γ.declare name (varEntity type arraySize)) (S.declareLocal name arraySize) := by
  have htop : T name = none := by
    cases h : T name with
    | none => rfl
    | some entity =>
      rw [hS.topLevel name entity h] at hfresh
      cases hfresh
  have hmem (name' : String) : name' ∈ (S.declareLocal name arraySize).locals ↔
      name' = name ∨ name' ∈ S.locals := by
    have hkeys := Finset.ext_iff.mp (S.keys_declareLocal name arraySize) name'
    rw [List.mem_toFinset, Finset.mem_insert, List.mem_toFinset] at hkeys
    exact hkeys
  constructor
  · rw [Env.declareLocal]
    split
    · exact hS.slots
    · exact hS.slots.insert name _ _
  · intro name' loc hloc
    rw [Env.declareLocal] at hloc
    split at hloc
    · exact hS.declared name' loc hloc
    · by_cases heq : name' = name
      · subst heq
        have hloc : (S.locals.insert name' _).lookup name' = some loc := hloc
        rw [AList.lookup_insert] at hloc
        obtain rfl := Option.some_inj.mp hloc
        subst hsize
        exact ⟨htop, rfl, rfl, hpos⟩
      · have hloc : (S.locals.insert name _).lookup name' = some loc := hloc
        rw [AList.lookup_insert_ne heq] at hloc
        exact hS.declared name' loc hloc
  · intro name' entity hname
    rw [hmem]
    by_cases heq : name' = name
    · subst heq
      rw [Names.declare, Function.update_self] at hname
      exact .inr ⟨.inl rfl, type, by rw [← Option.some_inj.mp hname, hsize]⟩
    · rw [Names.declare, Function.update_of_ne heq] at hname
      exact (hS.visible name' entity hname).imp_right fun h ↦ ⟨.inr h.1, h.2⟩
  · intro name' entity hname
    have hne : name' ≠ name := by
      rintro rfl
      rw [htop] at hname
      cases hname
    rw [Names.declare, Function.update_of_ne hne]
    exact hS.topLevel name' entity hname

/-- After a block, the names visible before it have the slots of its declarations, too. -/
theorem restore {S' : Env} {Γ₁ : Names} (hS : Tracks T size Γ S) (hS' : Tracks T size Γ₁ S')
    (hmem : ∀ name ∈ S.locals, name ∈ S'.locals) : Tracks T size Γ S' where
  slots := hS'.slots
  declared := hS'.declared
  visible name entity hname :=
    (hS.visible name entity hname).imp_right fun ⟨h, h'⟩ ↦ ⟨hmem name h, h'⟩
  topLevel := hS.topLevel

end Tracks

/-! ## Statements -/

theorem mem_afterStmts (S : Env) (stmts : List Stmt) {name : String} (h : name ∈ S.locals) :
    name ∈ (S.afterStmts stmts).locals := by
  have hkeys := Finset.ext_iff.mp (S.declares_afterStmts stmts).keys name
  rw [List.mem_toFinset, Finset.mem_union, List.mem_toFinset] at hkeys
  exact hkeys.mpr (.inl h)

mutual

/-- What is visible after a statement has its slots. -/
theorem Tracks.afterStmt {Γ Γ' : Names} {E : Env} (h : Tracks T size Γ E) : (stmt : Stmt) →
    StmtOk Γ stmt Γ' → (∀ d ∈ stmt.decls, d.2 = size d.1) → Tracks T size Γ' (E.afterStmt stmt)
  | .varDecl _ name init arraySize _, hok, hdecls => by
    cases hok with
    | varDecl hfresh hpos hinit =>
      exact h.declareLocal hfresh (hdecls (name, arraySize) List.mem_cons_self) hpos
  | .assign .., hok, _ => by cases hok <;> exact h
  | .ifStmt _ thenBody none _, hok, hdecls => by
    cases hok with
    | ifThen _ hthen =>
      exact h.restore (Tracks.afterStmts h thenBody hthen hdecls) fun _ ↦ mem_afterStmts E thenBody
  | .ifStmt _ thenBody (some elseBody) _, hok, hdecls => by
    cases hok with
    | ifElse _ hthen helse =>
      obtain ⟨hdecls, hdecls'⟩ := List.forall_mem_append.mp hdecls
      have h' := h.restore (Tracks.afterStmts h thenBody hthen hdecls)
        fun _ ↦ mem_afterStmts E thenBody
      exact h'.restore (Tracks.afterStmts h' elseBody helse hdecls')
        fun _ ↦ mem_afterStmts _ elseBody
  | .whileStmt _ body _, hok, hdecls => by
    cases hok with
    | whileStmt _ hbody =>
      exact h.restore (Tracks.afterStmts h body hbody hdecls) fun _ ↦ mem_afterStmts E body
  | .returnStmt .., hok, _ => by cases hok; exact h
  | .print .., hok, _ => by cases hok; exact h
  | .exprStmt .., hok, _ => by cases hok; exact h
termination_by structural stmt => stmt

theorem Tracks.afterStmts {Γ Γ' : Names} {E : Env} (h : Tracks T size Γ E) : (stmts : List Stmt) →
    StmtsOk Γ stmts Γ' → (∀ d ∈ declsList stmts, d.2 = size d.1) →
    Tracks T size Γ' (E.afterStmts stmts)
  | [], hok, _ => by cases hok; exact h
  | stmt :: stmts, hok, hdecls => by
    cases hok with
    | cons hstmt hstmts =>
      obtain ⟨hdecls, hdecls'⟩ := List.forall_mem_append.mp hdecls
      exact Tracks.afterStmts (Tracks.afterStmt h stmt hstmt hdecls) stmts hstmts hdecls'
termination_by structural stmts => stmts

end

theorem TopResolves.congr {S' : Env} (hT : TopResolves program T S)
    (hglobals : S'.globals = S.globals) (hfuncs : S'.funcNameToId = S.funcNameToId) :
    TopResolves program T S' := by
  obtain ⟨hscalar, harray, hfunction⟩ := hT
  rw [← hglobals] at hscalar harray
  rw [← hfuncs] at hfunction
  exact ⟨hscalar, harray, hfunction⟩

/-- What the typing of a statement rests on. -/
structure Ready (program : CompiledProgram) (info : FunctionInfo) (T : Names)
    (size : String → Option Int32) (Γ : Names) (S : Env) : Prop where
  localCount_le : info.localCount ≤ maxLocalSlots
  top : TopResolves program T S
  tracks : Tracks T size Γ S

namespace Ready

theorem resolves (h : Ready program info T size Γ S) (hslots : S.nextLocalSlot ≤ info.localCount) :
    Resolves program info Γ S :=
  h.tracks.resolves h.top h.localCount_le hslots

theorem afterStmts {stmts : List Stmt} (h : Ready program info T size Γ S)
    (hafter : Tracks T size Γ' (S.afterStmts stmts)) :
    Ready program info T size Γ (S.afterStmts stmts) where
  localCount_le := h.localCount_le
  top := h.top.congr (S.globals_afterStmts stmts) (S.funcNameToId_afterStmts stmts)
  tracks := h.tracks.restore hafter fun _ ↦ mem_afterStmts S stmts

end Ready

/-- The code of a declaration. -/
theorem typed_varDecl (h : Ready program info T size Γ S) {name : String} {type : Ty}
    {init : Option Expr} {arraySize : Option Int32} (hfresh : Γ name = none)
    (hsize : arraySize = size name) (hpos : ∀ n ∈ arraySize, 0 < n)
    (hinit : InitOk (Γ.declare name (varEntity type arraySize)) type init)
    (hslots : (S.declareLocal name arraySize).nextLocalSlot ≤ info.localCount)
    (hbound : base + ((S.declareLocal name arraySize).varDeclCode name init base).length < 2 ^ 31) :
    Typed program info ext base ((S.declareLocal name arraySize).varDeclCode name init base) 0 0 := by
  have htracks := @Tracks.declareLocal _ _ _ _ h.tracks _ type _ hfresh hsize hpos
  have hresolves : Resolves program info (Γ.declare name (varEntity type arraySize))
      (S.declareLocal name arraySize) :=
    htracks.resolves (h.top.congr (S.globals_declareLocal name arraySize)
      (S.funcNameToId_declareLocal name arraySize)) h.localCount_le hslots
  have hstore {loc : LocalVar} (base : Nat)
      (hloc : (S.declareLocal name arraySize).locals.lookup name = some loc) :
      Typed program info ext base [⟨.storeLocal, asI32 loc.slot, 0⟩] 1 0 :=
    typed_plain rfl (hresolves.isLocal ((htracks.slot_lt hloc).trans_le hslots)) le_rfl rfl
  rw [Env.varDeclCode] at hbound ⊢
  split
  · exact .nil 0
  · next loc hloc =>
    rw [hloc] at hbound
    dsimp only at hbound
    obtain ⟨-, harray, hsize', -⟩ := htracks.declared name loc hloc
    split
    · next hisArray =>
      obtain ⟨n, hn⟩ : ∃ n, size name = some n := by
        rw [hisArray] at harray
        exact Option.isSome_iff_exists.mp harray.symm
      have hn' := arrayUsize_lt n (hpos n (hsize.trans hn))
      rw [hn] at hsize'
      have halloc : OperandsOk program (looseRange info) ⟨.allocArray, asI32 loc.arraySize, 0⟩ := by
        change 0 < asI32 loc.arraySize
        rw [show loc.arraySize = arrayUsize n from hsize']
        exact asI32_pos hn'.1 hn'.2
      exact .append (typed_plain rfl halloc (Nat.zero_le _) rfl) (hstore _ hloc)
    · next hisScalar =>
      rw [if_neg hisScalar] at hbound
      cases init with
      | none => exact .nil 0
      | some init =>
        dsimp only at hbound ⊢
        rw [List.length_append] at hbound
        exact .append (typed_expr hresolves base 0 init (hinit init rfl) (by omega))
          (hstore _ hloc)

/-- The code of an assignment. -/
theorem typed_assignCode (h : Resolves program info Γ S) {target : String}
    {index : Option Expr} {value : Expr} {span : Span}
    (hok : StmtOk Γ (.assign target index value span) Γ')
    (hbound : base + (S.assignCode target index value base).length < 2 ^ 31) :
    Typed program info ext base (S.assignCode target index value base) 0 0 := by
  by_cases hdeclared : target ∈ S.locals ∨ target ∈ S.globals
  · cases hok with
    | assignScalar hname hvalue =>
      rw [Env.assignCode, if_pos hdeclared] at hbound ⊢
      rw [List.length_append] at hbound
      exact .append (typed_expr h base 0 value hvalue (by omega)) (h.typed_scalar hname
        (fun _ hslot ↦ typed_plain rfl (h.isLocal hslot) le_rfl rfl)
        (fun _ hslot ↦ typed_plain rfl (Resolves.isGlobal hslot) le_rfl rfl))
    | @assignElement _ _ index _ _ hname hindex hvalue =>
      rw [Env.assignCode, if_pos hdeclared] at hbound ⊢
      dsimp only at hbound ⊢
      rw [List.length_append, List.length_append] at hbound
      exact .append (.append (typed_expr h base 0 index hindex (by omega))
        (typed_expr h _ 1 value hvalue (by omega))) (h.typed_array hname
        (fun _ _ hslot hsize ↦ typed_plain rfl ⟨hsize, h.isLocal hslot⟩ le_rfl rfl)
        (fun _ _ harray ↦ typed_plain rfl harray le_rfl rfl))
  · cases index with
    | none =>
      rw [Env.assignCode, if_neg hdeclared]
      exact .nil 0
    | some index =>
      rw [Env.assignCode, if_neg hdeclared]
      exact .nil 0

mutual

/-- The code of a statement leaves no operand. -/
theorem typed_stmt {Γ Γ' : Names} {S : Env} (h : Ready program info T size Γ S) (base : Nat) :
    (stmt : Stmt) → StmtOk Γ stmt Γ' → (∀ d ∈ stmt.decls, d.2 = size d.1) →
    (S.afterStmt stmt).nextLocalSlot ≤ info.localCount →
    base + (S.stmtCode stmt base).length < 2 ^ 31 →
    Typed program info ext base (S.stmtCode stmt base) 0 0 ∧ Tracks T size Γ' (S.afterStmt stmt)
  | .varDecl _ name init arraySize _, hok, hdecls, hslots, hbound => by
    cases hok with
    | varDecl hfresh hpos hinit =>
      have hsize : arraySize = size name := hdecls (name, arraySize) List.mem_cons_self
      exact ⟨typed_varDecl h hfresh hsize hpos hinit hslots hbound,
        h.tracks.declareLocal hfresh hsize hpos⟩
  | .assign target index value _, hok, _, hslots, hbound => by
    refine ⟨typed_assignCode (h.resolves hslots) hok hbound, ?_⟩
    cases hok with
    | assignScalar => exact h.tracks
    | assignElement => exact h.tracks
  | .ifStmt condition thenBody none _, hok, hdecls, hslots, hbound => by
    cases hok with
    | ifThen hcondition hthen =>
      obtain ⟨t, -, hcondition⟩ := hcondition
      have hslots' := (S.extends_afterStmts thenBody).slot_le.trans hslots
      have hlength := hbound
      rw [Env.stmtCode, Env.ifCode, List.length_append, List.length_cons] at hlength
      obtain ⟨hcode, htracks⟩ :=
        typed_stmts h (base + (S.exprCode condition base).length + 1) thenBody hthen hdecls hslots
          (by omega)
      exact ⟨typed_ifCode (typed_expr (h.resolves hslots') base 0 condition hcondition (by omega))
        hcode hbound, (h.afterStmts htracks).tracks⟩
  | .ifStmt condition thenBody (some elseBody) _, hok, hdecls, hslots, hbound => by
    cases hok with
    | ifElse hcondition hthen helse =>
      obtain ⟨t, -, hcondition⟩ := hcondition
      obtain ⟨hdecls, hdecls'⟩ := List.forall_mem_append.mp hdecls
      have hthenSlots := ((S.afterStmts thenBody).extends_afterStmts elseBody).slot_le.trans hslots
      have hslots' := (S.extends_afterStmts thenBody).slot_le.trans hthenSlots
      have hlength := hbound
      simp only [Env.stmtCode, Env.ifElseCode, List.length_append, List.length_cons] at hlength
      obtain ⟨hcode, htracks⟩ :=
        typed_stmts h (base + (S.exprCode condition base).length + 1) thenBody hthen hdecls
          hthenSlots (by omega)
      -- the second block is compiled in the table that the first one has left
      have h' := h.afterStmts htracks
      obtain ⟨hcode', htracks'⟩ := typed_stmts h' (base + (S.exprCode condition base).length +
        (S.stmtsCode thenBody (base + (S.exprCode condition base).length + 1)).length + 2) elseBody
        helse hdecls' hslots (by omega)
      exact ⟨typed_ifElseCode (typed_expr (h.resolves hslots') base 0 condition hcondition
        (by omega)) hcode hcode' hbound, (h'.afterStmts htracks').tracks⟩
  | .whileStmt condition body _, hok, hdecls, hslots, hbound => by
    cases hok with
    | whileStmt hcondition hbody =>
      obtain ⟨t, -, hcondition⟩ := hcondition
      have hslots' := (S.extends_afterStmts body).slot_le.trans hslots
      have hlength := hbound
      simp only [Env.stmtCode, Env.whileCode, List.length_append, List.length_cons] at hlength
      obtain ⟨hcode, htracks⟩ :=
        typed_stmts h (base + (S.exprCode condition base).length + 1) body hbody hdecls hslots
          (by omega)
      exact ⟨typed_whileCode (typed_expr (h.resolves hslots') base 0 condition hcondition (by omega))
        hcode hbound, (h.afterStmts htracks).tracks⟩
  | .returnStmt value _, hok, _, hslots, hbound => by
    cases hok with
    | returnStmt hvalue =>
      rw [Env.stmtCode, List.length_append] at hbound
      refine ⟨.append (typed_expr (h.resolves hslots) base 0 value hvalue (by omega))
        (.single trivial le_rfl fun t ht ↦ nomatch ht), h.tracks⟩
  | .print value _, hok, _, hslots, hbound => by
    cases hok with
    | print hvalue =>
      rw [Env.stmtCode, List.length_append] at hbound
      exact ⟨.append (typed_expr (h.resolves hslots) base 0 value hvalue (by omega))
        (typed_plain rfl trivial le_rfl rfl), h.tracks⟩
  | .exprStmt expr _, hok, _, hslots, hbound => by
    cases hok with
    | exprStmt hexpr =>
      rw [Env.stmtCode, List.length_append] at hbound
      exact ⟨.append (typed_expr (h.resolves hslots) base 0 expr hexpr (by omega))
        (typed_plain rfl trivial le_rfl rfl), h.tracks⟩
termination_by structural stmt => stmt

theorem typed_stmts {Γ Γ' : Names} {S : Env} (h : Ready program info T size Γ S) (base : Nat) :
    (stmts : List Stmt) → StmtsOk Γ stmts Γ' → (∀ d ∈ declsList stmts, d.2 = size d.1) →
    (S.afterStmts stmts).nextLocalSlot ≤ info.localCount →
    base + (S.stmtsCode stmts base).length < 2 ^ 31 →
    Typed program info ext base (S.stmtsCode stmts base) 0 0 ∧
      Tracks T size Γ' (S.afterStmts stmts)
  | [], hok, _, _, _ => by
    cases hok
    exact ⟨.nil 0, h.tracks⟩
  | stmt :: stmts, hok, hdecls, hslots, hbound => by
    cases hok with
    | cons hstmt hstmts =>
      obtain ⟨hdecls, hdecls'⟩ := List.forall_mem_append.mp hdecls
      have hslots' := ((S.afterStmt stmt).extends_afterStmts stmts).slot_le.trans hslots
      rw [Env.stmtsCode, List.length_append] at hbound
      obtain ⟨hcode, htracks⟩ := typed_stmt h base stmt hstmt hdecls hslots' (by omega)
      have h' : Ready program info T size _ (S.afterStmt stmt) := ⟨h.localCount_le,
        h.top.congr (S.globals_afterStmt stmt) (S.funcNameToId_afterStmt stmt), htracks⟩
      obtain ⟨hcode', htracks'⟩ := typed_stmts h'
        (base + (S.stmtCode stmt base).length) stmts hstmts hdecls' hslots (by omega)
      exact ⟨.append hcode hcode', htracks'⟩
termination_by structural stmts => stmts

end

end MiniLang
