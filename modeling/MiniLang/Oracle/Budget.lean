import MiniLang.Oracle.AstOracle

/-!
# Fuel and ticks

A run with more fuel than its limit of ticks ends as the interpreter of the source does: each call
and each iteration of a loop takes a tick before it takes from the fuel.

## Why there is fuel

The interpreter of the source is recursive in calls and loops, and it ends because every step of it
ticks. In the model this recursion is on a number, the fuel, that the source does not have. With the
fuel above the limit of ticks it is never used up, and so the interpreter is the one of the source:
its limit stops it before.

## The invariant

`Paced limit k n x` starts with the ticks within the limit and the fuel `n` enough for what is left
of it. It ends with a result, not for want of fuel, and a value leaves at least `k` more ticks
behind. Where the recursion takes one from the fuel, `k` is positive, and the rest of the fuel is
still enough (`afterTick`). Everything else composes by addition of the `k`, or forgets them.
-/

namespace MiniLang

namespace AstOracle

variable {α β : Type} {limit k n m : Nat} {rules : Rules}

/-- Fuel `n` is enough within the limit of ticks, and a computation that ends with a result has
ticked `k` times or more. -/
def Paced (limit k n : Nat) (x : OracleM α) : Prop :=
  ∀ oracle : AstOracle, oracle.cycles ≤ limit → limit < oracle.cycles + n →
    match x.run oracle with
    | .ok _ oracle' => oracle.cycles + k ≤ oracle'.cycles ∧ oracle'.cycles ≤ limit
    | .error e _ => e ≠ .outOfFuel

/-- The computation neither ticks nor takes from the fuel. -/
def Still (x : OracleM α) : Prop :=
  ∀ oracle : AstOracle, match x.run oracle with
    | .ok _ oracle' => oracle'.cycles = oracle.cycles
    | .error e _ => e ≠ .outOfFuel

namespace Still

variable {x : OracleM α} {f : α → OracleM β}

theorem pure (value : α) : Still (Pure.pure value) := fun _ ↦ rfl

theorem trap (code : TrapCode) (message : String) :
    Still (AstOracle.trap code message : OracleM α) := fun _ h ↦ nomatch h

theorem panic : Still (throw .panic : OracleM α) := fun _ h ↦ nomatch h

theorem update {f : AstOracle → AstOracle} (h : ∀ oracle, (f oracle).cycles = oracle.cycles) :
    Still (modify f) := fun oracle ↦ h oracle

theorem get_bind {f : AstOracle → OracleM β} (h : ∀ oracle, Still (f oracle)) :
    Still (get >>= f) := fun oracle ↦ h oracle oracle

theorem ite {p : Prop} [Decidable p] {y : OracleM α} (h : Still x) (h' : Still y) :
    Still (if p then x else y) := by
  split
  · exact h
  · exact h'

end Still

namespace Paced

variable {x : OracleM α} {f : α → OracleM β}

theorem mono {k' n' : Nat} (h : Paced limit k n x) (hk : k' ≤ k) (hn : n' ≤ n) :
    Paced limit k' n' x := by
  intro oracle hle hlt
  have hrun := h oracle hle (by omega)
  split at hrun
  · exact ⟨by omega, hrun.2⟩
  · exact hrun

theorem ofStill (h : Still x) : Paced limit 0 n x := by
  intro oracle hle _
  have hrun := h oracle
  split at hrun
  · exact ⟨by omega, by omega⟩
  · exact hrun

theorem bind {j : Nat} (hx : Paced limit k n x) (hf : ∀ a, Paced limit j (n - k) (f a)) :
    Paced limit (k + j) n (x >>= f) := by
  intro oracle hle hlt
  have hrun := hx oracle hle hlt
  rw [EStateM.run_bind]
  cases hr : x.run oracle with
  | ok a oracle' =>
    rw [hr] at hrun
    have hrun' := hf a oracle' hrun.2 (by omega)
    dsimp only
    cases hr' : (f a).run oracle' with
    | ok b oracle'' =>
      rw [hr'] at hrun'
      exact ⟨by omega, hrun'.2⟩
    | error e oracle'' =>
      rw [hr'] at hrun'
      exact hrun'
  | error e oracle' =>
    rw [hr] at hrun
    exact hrun

/-- Computations one after the other, where it does not matter what the first has ticked. -/
theorem seq (hx : Paced limit k n x) (hf : ∀ a, Paced limit 0 n (f a)) :
    Paced limit 0 n (x >>= f) :=
  (hx.mono (Nat.zero_le k) le_rfl).bind hf

theorem pure (value : α) : Paced limit 0 n (Pure.pure value) := .ofStill (.pure value)

theorem ite {p : Prop} [Decidable p] {y : OracleM α} (h : Paced limit k n x)
    (h' : Paced limit k n y) : Paced limit k n (if p then x else y) := by
  split
  · exact h
  · exact h'

/-- A tick gives fuel. -/
theorem afterTick {x : OracleM α} (h : Paced rules.maxCycles 0 n x) :
    Paced rules.maxCycles 1 (n + 1) (do tick rules; x) := by
  refine bind (k := 1) (j := 0) ?_ fun _ ↦ h
  intro oracle hle hlt
  rw [tick, EStateM.run_bind, EStateM.run_modify]
  dsimp only
  rw [EStateM.run_bind, EStateM.run_get]
  dsimp only
  split
  · next hrun =>
    split at hrun
    · cases hrun
    · cases hrun
      dsimp only at *
      omega
  · next hrun =>
    split at hrun
    · cases hrun
      exact fun h ↦ nomatch h
    · cases hrun

theorem tick_bind {x : OracleM α} (h : Paced rules.maxCycles 0 n x) :
    Paced rules.maxCycles 1 n (do tick rules; x) :=
  h.afterTick.mono le_rfl (Nat.le_succ n)

end Paced

/-! ## Variables -/

theorem cycles_replaceSlot (oracle : AstOracle) (name : String) (slot : Slot) :
    (oracle.replaceSlot name slot).cycles = oracle.cycles := by
  rw [replaceSlot]
  split
  · rfl
  · split <;> rfl

theorem still_replaceSlot (name : String) (slot : Slot) :
    Still (modify fun oracle ↦ oracle.replaceSlot name slot) :=
  .update fun oracle ↦ cycles_replaceSlot oracle name slot

theorem still_insertInCurrentScope (name : String) (slot : Slot) :
    Still (insertInCurrentScope name slot) := by
  refine .get_bind fun oracle ↦ ?_
  split
  · exact .trap _ _
  · exact .trap _ _
  · exact .update fun _ ↦ rfl

theorem still_readScalar (name : String) : Still (readScalar name) := by
  refine .get_bind fun oracle ↦ ?_
  split
  · exact .pure _
  all_goals exact .trap _ _

theorem still_readArray (name : String) (index : Nat) : Still (readArray name index) := by
  refine .get_bind fun oracle ↦ ?_
  split
  · split
    · exact .pure _
    · exact .trap _ _
  all_goals exact .trap _ _

theorem still_assignScalar (name : String) (value : Int) : Still (assignScalar name value) := by
  refine .get_bind fun oracle ↦ ?_
  split
  · exact still_replaceSlot name _
  all_goals exact .trap _ _

theorem still_assignGlobalScalar (name : String) (value : Int) :
    Still (assignGlobalScalar name value) := by
  refine .get_bind fun oracle ↦ ?_
  split
  · exact .update fun _ ↦ rfl
  all_goals exact .trap _ _

theorem still_assignArray (name : String) (index : Nat) (value : Int) :
    Still (assignArray name index value) := by
  refine .get_bind fun oracle ↦ ?_
  split
  · exact .ite (still_replaceSlot name _) (.trap _ _)
  all_goals exact .trap _ _

theorem still_declareOrUpdate (name : String) (slot : Slot) : Still (declareOrUpdate name slot) := by
  refine .get_bind fun oracle ↦ ?_
  exact .ite (still_replaceSlot name slot) (still_insertInCurrentScope name slot)

theorem still_checkedArrayIndex (index : Int) : Still (checkedArrayIndex index) :=
  .ite (.trap _ _) (.pure _)

theorem still_evalBinary (op : BinaryOp) (left right : Int) : Still (evalBinary op left right) := by
  cases op with
  | div => exact .ite (.trap _ _) (.ite .panic (.pure _))
  | and => exact .panic
  | or => exact .panic
  | _ => exact .pure _

theorem still_evalUnary (op : UnaryOp) (operand : Int) : Still (evalUnary op operand) := by
  cases op with
  | neg => exact .ite .panic (.pure _)
  | not => exact .pure _

/-! ## Expressions and statements -/

variable {call : String → List Int → OracleM Int}

mutual

theorem paced_expr (hcall : ∀ name args, Paced rules.maxCycles 0 n (call name args)) :
    (e : Expr) → Paced rules.maxCycles 1 n (evalExpr rules call e)
  | .intLiteral .. => .tick_bind (.pure _)
  | .boolLiteral .. => .tick_bind (.pure _)
  | .identifier name _ => .tick_bind (.ofStill (still_readScalar name))
  | .binary op left right _ => by
    have hleft := paced_expr hcall left
    have hright := paced_expr hcall right
    cases op with
    | and => exact .tick_bind (hleft.seq fun _ ↦ .ite (.pure _) (hright.seq fun _ ↦ .pure _))
    | or => exact .tick_bind (hleft.seq fun _ ↦ .ite (.pure _) (hright.seq fun _ ↦ .pure _))
    | _ => exact .tick_bind (hleft.seq fun a ↦ hright.seq fun b ↦ .ofStill (still_evalBinary _ a b))
  | .unary op operand _ =>
    .tick_bind ((paced_expr hcall operand).seq fun a ↦ .ofStill (still_evalUnary op a))
  | .call name args _ =>
    .tick_bind ((paced_args hcall args).seq fun values ↦ hcall name values)
  | .arrayIndex name index _ =>
    .tick_bind ((paced_expr hcall index).seq fun a ↦
      (Paced.ofStill (still_checkedArrayIndex a)).seq fun i ↦ .ofStill (still_readArray name i))
termination_by structural e => e

theorem paced_args (hcall : ∀ name args, Paced rules.maxCycles 0 n (call name args)) :
    (args : List Expr) → Paced rules.maxCycles 0 n (evalArgs rules call args)
  | [] => .pure _
  | arg :: args =>
    (paced_expr hcall arg).seq fun _ ↦ (paced_args hcall args).seq fun _ ↦ .pure _
termination_by structural args => args

end

theorem paced_refuseShown {x : OracleM Int} (hx : Paced limit k n x) :
    Paced limit 0 n (refuseShown x) := by
  intro oracle hle hlt
  have hrun := hx oracle hle hlt
  have hsame : oracle.cycles + 0 ≤ oracle.cycles ∧ oracle.cycles ≤ limit := ⟨le_rfl, hle⟩
  rw [EStateM.run, refuseShown]
  cases hr : x.run oracle with
  | ok a oracle' =>
    dsimp only
    split_ifs
    · exact fun h ↦ nomatch h
    · exact hsame
  | error e oracle' =>
    rw [hr] at hrun
    cases e with
    | trap code message =>
      dsimp only
      split_ifs
      · exact fun h ↦ nomatch h
      · exact fun h ↦ nomatch h
      · exact hsame
    | panic => exact fun h ↦ nomatch h
    | refused => exact fun h ↦ nomatch h
    | outOfFuel => exact absurd rfl hrun

theorem paced_assignElement (check : IndexCheck) (target : String) (calls : Bool)
    {index value : OracleM Int}
    (hindex : Paced limit k n index) (hvalue : Paced limit k n value) :
    Paced limit 0 n (assignElement check target calls index value) := by
  have hcheck (a : Int) : Paced limit 0 n (checkedArrayIndex a) := .ofStill (still_checkedArrayIndex a)
  have hassign (i : Nat) (value : Int) : Paced limit 0 n (assignArray target i value) :=
    .ofStill (still_assignArray target i value)
  have hrest (a : Int) : Paced limit 0 n (do
      let index ← checkedArrayIndex a
      let value ← value
      assignArray target index value) :=
    (hcheck a).seq fun i ↦ hvalue.seq fun b ↦ hassign i b
  cases check with
  | early => exact hindex.seq hrest
  | late => exact hindex.seq fun a ↦ hvalue.seq fun b ↦ (hcheck a).seq fun i ↦ hassign i b
  | refuse =>
    exact hindex.seq fun a ↦ .ite ((paced_refuseShown hvalue).seq fun _ ↦ hrest a) (hrest a)
  | guard =>
    have hrefuse (a : Int) : Paced limit 0 n (do
        throw Stop.refused
        let index ← checkedArrayIndex a
        let value ← value
        assignArray target index value : OracleM Unit) := fun _ _ _ h ↦ nomatch h
    exact hindex.seq fun a ↦ .ite (hrefuse a) (hrest a)

section

variable (hcall : ∀ name args, Paced rules.maxCycles 0 n (call name args))
include hcall

theorem paced_varDecl (name : String) (init : Option Expr) (arraySize : Option Int32) :
    Paced rules.maxCycles 0 n (execVarDecl rules call name init arraySize) := by
  cases arraySize with
  | some size => exact .ofStill (still_declareOrUpdate name _)
  | none =>
    cases init with
    | some init =>
      have hinit : Paced rules.maxCycles 0 n
          (do assignScalar name (← evalExpr rules call init)) :=
        (paced_expr hcall init).seq fun value ↦ .ofStill (still_assignScalar name value)
      refine Paced.seq (.ofStill (.get_bind fun oracle ↦ .pure oracle)) fun oracle ↦ ?_
      exact .ite ((Paced.ofStill (still_insertInCurrentScope name _)).seq fun _ ↦ hinit) hinit
    | none =>
      exact .ofStill (.get_bind fun oracle ↦ .ite (still_insertInCurrentScope name _) (.pure _))

theorem paced_assign (target : String) (index : Option Expr) (value : Expr) :
    Paced rules.maxCycles 0 n (execAssign rules call target index value) := by
  have hvalue := paced_expr hcall value
  cases index with
  | none => exact hvalue.seq fun a ↦ .ofStill (still_assignScalar target a)
  | some index => exact paced_assignElement _ target _ (paced_expr hcall index) hvalue

end

/-- Each iteration of a loop ticks for its condition. -/
theorem paced_loop {condition : OracleM Int} {body : OracleM Control}
    (hcondition : Paced limit 1 n condition) (hbody : Paced limit 0 n body) (hm : m ≤ n) :
    Paced limit 0 m (loop condition body m) := by
  induction m with
  | zero => exact fun oracle hle hlt ↦ absurd hle (Nat.not_le.mpr hlt)
  | succ m ih =>
    refine ((hcondition.mono le_rfl hm).bind (j := 0) fun a ↦ ?_).mono (Nat.zero_le 1) le_rfl
    refine .ite ((hbody.mono le_rfl (by omega)).seq fun control ↦ ?_) (.pure _)
    cases control with
    | «continue» => exact ih (by omega)
    | «return» value => exact .pure _

mutual

theorem paced_stmt (hcall : ∀ name args, Paced rules.maxCycles 0 n (call name args)) :
    (stmt : Stmt) → Paced rules.maxCycles 0 n (execStmt rules call n stmt)
  | .varDecl _ name init arraySize _ =>
    (Paced.tick_bind ((paced_varDecl hcall name init arraySize).seq fun _ ↦ .pure _)).mono
      (Nat.zero_le 1) le_rfl
  | .assign target index value _ =>
    (Paced.tick_bind ((paced_assign hcall target index value).seq fun _ ↦ .pure _)).mono
      (Nat.zero_le 1) le_rfl
  | .ifStmt condition thenBody none _ =>
    (Paced.tick_bind ((paced_expr hcall condition).seq fun _ ↦
      .ite (paced_block hcall thenBody) (.pure _))).mono (Nat.zero_le 1) le_rfl
  | .ifStmt condition thenBody (some elseBody) _ =>
    (Paced.tick_bind ((paced_expr hcall condition).seq fun _ ↦
      .ite (paced_block hcall thenBody) (paced_block hcall elseBody))).mono (Nat.zero_le 1) le_rfl
  | .whileStmt condition body _ =>
    (Paced.tick_bind (paced_loop (paced_expr hcall condition) (paced_block hcall body) le_rfl)).mono
      (Nat.zero_le 1) le_rfl
  | .returnStmt value _ =>
    (Paced.tick_bind ((paced_expr hcall value).seq fun _ ↦ .pure _)).mono (Nat.zero_le 1) le_rfl
  | .print value _ =>
    (Paced.tick_bind ((paced_expr hcall value).seq fun _ ↦
      (Paced.ofStill (.update fun _ ↦ by rfl)).seq fun _ ↦ .pure _)).mono (Nat.zero_le 1) le_rfl
  | .exprStmt expr _ =>
    (Paced.tick_bind ((paced_expr hcall expr).seq fun _ ↦ .pure _)).mono (Nat.zero_le 1) le_rfl
termination_by structural stmt => stmt

theorem paced_block (hcall : ∀ name args, Paced rules.maxCycles 0 n (call name args)) :
    (stmts : List Stmt) → Paced rules.maxCycles 0 n (execBlock rules call n stmts)
  | [] => .pure _
  | stmt :: stmts => (paced_stmt hcall stmt).seq fun control ↦ by
    cases control with
    | «continue» => exact paced_block hcall stmts
    | «return» value => exact .pure _
termination_by structural stmts => stmts

end

/-! ## Programs -/

variable {p : Program}

theorem paced_callFunction (n : Nat) (name : String) (args : List Int) :
    Paced rules.maxCycles 0 n (callFunction rules p n name args) := by
  induction n generalizing name args with
  | zero => exact fun oracle hle hlt ↦ absurd hle (Nat.not_le.mpr hlt)
  | succ n ih =>
    refine Paced.mono (Paced.afterTick ?_) (Nat.zero_le 1) le_rfl
    refine Paced.seq (.ofStill (.get_bind fun oracle ↦ .pure oracle)) fun oracle ↦ ?_
    refine .ite ?_ ?_
    · rw [FrameLimit.beyond]
      split
      · exact fun _ _ _ h ↦ nomatch h
      · exact .ofStill (.trap _ _)
    cases (collectFunctions ∅ p.functions).lookup name with
    | none => exact .ofStill (.trap _ _)
    | some function =>
      exact .ite (.ofStill (.trap _ _)) ((Paced.ofStill (.update fun _ ↦ by rfl)).seq fun _ ↦
        (paced_block ih function.body).seq fun _ ↦
          (Paced.ofStill (.update fun _ ↦ by rfl)).seq fun _ ↦ .pure _)

theorem paced_initializeGlobals (n : Nat) (globs : List GlobalVar) :
    Paced rules.maxCycles 0 n (initializeGlobals rules p n globs) := by
  induction globs with
  | nil => exact .pure _
  | cons glob globs ih =>
    rw [initializeGlobals]
    cases glob.initExpr with
    | none => exact ih
    | some init =>
      exact (paced_expr (paced_callFunction n) init).seq fun value ↦
        (Paced.ofStill (still_assignGlobalScalar glob.name value)).seq fun _ ↦ ih

/-- **A run with more fuel than ticks never uses the fuel up.** -/
theorem execute_ne_outOfFuel (h : rules.maxCycles < n) {e : Stop} {oracle : AstOracle}
    (hrun : (execute rules p n).run (new p) = .error e oracle) : e ≠ .outOfFuel := by
  have hpaced : Paced rules.maxCycles 0 n (execute rules p n) :=
    Paced.seq (@paced_initializeGlobals { rules with frameLimit := rules.initFrameLimit } p n p.globals)
      fun _ ↦ paced_callFunction n "main" []
  have hresult := hpaced (new p) (Nat.zero_le _) (by rw [show (new p).cycles = 0 from rfl]; omega)
  rw [hrun] at hresult
  exact hresult

end AstOracle

end MiniLang
