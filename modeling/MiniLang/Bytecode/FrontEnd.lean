import MiniLang.Bytecode.FunctionLayout
import MiniLang.Sema.Parsed

/-!
# The front end

From source text to bytecode, and what the rules of the language make of a compiled program: its
`main` has no parameters, its functions are numbered in source order, and no function has more local
slots than the limit.
-/

namespace MiniLang

open Compiler

/-- The program is what the parser makes of `source`, and the analyzer accepts it. -/
structure Accepted (source : List UInt8) (p : Program) : Prop where
  parsed : Parsed source p
  analyzed : SemanticAnalyzer.analyze p = .ok ()

variable {source : List UInt8} {p : Program}

namespace Accepted

theorem wellFormed (h : Accepted source p) : p.WellFormed :=
  (analyze_parsed_iff h.parsed).mp h.analyzed

theorem nodup (h : Accepted source p) : (p.functions.map Function.name).Nodup :=
  (List.nodup_append.mp h.wellFormed.distinct).2.1

end Accepted

/-! ## Local slots -/

namespace Compiler.Env

theorem keys_declareLocal (S : Env) (name : String) (arraySize : Option Int32) :
    (S.declareLocal name arraySize).locals.keys.toFinset = insert name S.locals.keys.toFinset := by
  rw [declareLocal]
  split
  · next hmem => exact (Finset.insert_eq_self.mpr (List.mem_toFinset.mpr hmem)).symm
  · next hnew =>
    rw [AList.keys_insert, List.toFinset_cons, List.erase_of_not_mem hnew]

theorem nextLocalSlot_declareLocal (S : Env) (name : String) (arraySize : Option Int32) :
    (S.declareLocal name arraySize).nextLocalSlot =
      S.nextLocalSlot + (({name} : Finset String) \ S.locals.keys.toFinset).card := by
  rw [declareLocal]
  split
  · next hmem =>
    rw [Finset.sdiff_eq_empty_iff_subset.mpr
      (Finset.singleton_subset_iff.mpr (List.mem_toFinset.mpr hmem))]
    rfl
  · next hnew =>
    rw [Finset.sdiff_eq_self_of_disjoint
      (Finset.disjoint_singleton_left.mpr fun hmem ↦ hnew (List.mem_toFinset.mp hmem))]
    rfl

/-- Names that are declared in sequence. -/
theorem card_sdiff_union (names later keys : Finset String) :
    (names \ keys).card + (later \ (keys ∪ names)).card = ((names ∪ later) \ keys).card := by
  rw [← Finset.card_union_of_disjoint]
  · congr 1
    ext name
    simp only [Finset.mem_union, Finset.mem_sdiff]
    tauto
  · rw [Finset.disjoint_left]
    intro name hname hname'
    simp only [Finset.mem_union, Finset.mem_sdiff] at hname hname'
    exact hname'.2 (.inr hname.1)

/-- What a statement declares: one slot for each new name. -/
structure Declares (S S' : Env) (names : List String) : Prop where
  keys : S'.locals.keys.toFinset = S.locals.keys.toFinset ∪ names.toFinset
  slots : S'.nextLocalSlot =
    S.nextLocalSlot + (names.toFinset \ S.locals.keys.toFinset).card

theorem Declares.refl (S : Env) : S.Declares S [] := ⟨by simp, by simp⟩

theorem Declares.trans {S S' S'' : Env} {names names' : List String}
    (h : S.Declares S' names) (h' : S'.Declares S'' names') :
    S.Declares S'' (names ++ names') := by
  constructor
  · rw [h'.keys, h.keys, List.toFinset_append, Finset.union_assoc]
  · rw [h'.slots, h.slots, h.keys, Nat.add_assoc, card_sdiff_union, List.toFinset_append]

mutual

theorem declares_afterStmt (S : Env) : (stmt : Stmt) →
    S.Declares (S.afterStmt stmt) stmt.localNames
  | .varDecl _ name _ arraySize _ =>
    ⟨by
      rw [afterStmt, keys_declareLocal, Stmt.localNames, Finset.insert_eq, Finset.union_comm]
      rfl, S.nextLocalSlot_declareLocal name arraySize⟩
  | .ifStmt _ thenBody none _ => S.declares_afterStmts thenBody
  | .ifStmt _ thenBody (some elseBody) _ =>
    (S.declares_afterStmts thenBody).trans (declares_afterStmts _ elseBody)
  | .whileStmt _ body _ => S.declares_afterStmts body
  | .assign .. => .refl S
  | .returnStmt .. => .refl S
  | .print .. => .refl S
  | .exprStmt .. => .refl S
termination_by structural stmt => stmt

theorem declares_afterStmts (S : Env) : (stmts : List Stmt) →
    S.Declares (S.afterStmts stmts) (localNamesList stmts)
  | [] => .refl S
  | stmt :: stmts => (S.declares_afterStmt stmt).trans (declares_afterStmts _ stmts)
termination_by structural stmts => stmts

end

theorem localCount_le_localSlots (S : Env) (func : Function) :
    S.localCount func ≤ func.localSlots := by
  rw [localCount, (declares_afterStmts _ func.body).slots, ofFunction, withParams_nextLocalSlot,
    Nat.zero_add, Function.localSlots, ← List.card_toFinset]
  exact Nat.add_le_add_left (Finset.card_le_card Finset.sdiff_subset) _

theorem paramCount_le_localCount (S : Env) (func : Function) :
    func.params.length ≤ S.localCount func := by
  rw [localCount, (declares_afterStmts _ func.body).slots, ofFunction, withParams_nextLocalSlot,
    Nat.zero_add]
  exact Nat.le_add_right ..

end Compiler.Env

/-! ## Compiled programs -/

namespace Accepted

/-- The table of a compiled program. -/
theorem lookup_iff (h : Accepted source p) {n : Nat} {info : FunctionInfo} :
    (compile p).functions.lookup n = some info ↔
      ∃ func, p.functions[n]? = some func ∧
        info = (globalEnv p).functionInfo func n (entryPc p n) :=
  lookup_compile_iff h.nodup

/-- `main` has no parameters. -/
theorem exists_main (h : Accepted source p) : ∃ main, p.functions[(compile p).mainFuncId]? =
    some main ∧ main.name = "main" ∧ main.params = [] := by
  obtain ⟨main, hmem, hname, hparams⟩ := h.wellFormed.main
  obtain ⟨n, hn⟩ := List.mem_iff_getElem?.mp hmem
  exact ⟨main, by rw [mainFuncId_compile h.nodup hn hname, hn], hname, hparams⟩

theorem localCount_le (h : Accepted source p) {n : Nat} {info : FunctionInfo}
    (hinfo : (compile p).functions.lookup n = some info) : info.localCount ≤ maxLocalSlots := by
  obtain ⟨func, hfunc, rfl⟩ := h.lookup_iff.mp hinfo
  exact ((globalEnv p).localCount_le_localSlots func).trans
    (h.wellFormed.functions func (List.mem_of_getElem? hfunc)).slots

end Accepted

end MiniLang
