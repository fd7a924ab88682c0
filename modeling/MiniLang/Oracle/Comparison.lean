import MiniLang.Oracle.AstOracle

/-!
# Variants of the oracle compared

Two variants of the interpreter, run on one program, do the same until one of them ends early. What
counts as the same end, and which ends excuse a difference, is a parameter; the comparison itself is
made once, by induction on the syntax tree.

## Tolerances

Results of two runs are `Alike` if both have the same value and the same state, if both ended with
errors that the tolerance takes for alike, or if one of them ended with an error that excuses
everything. The last case is what makes a comparison possible at all: after a difference the two
runs are in different states and nothing can be said any more. A refusal, a limit that one variant
has and the other has not, or the end of the fuel of one side are excuses in the comparisons below.

## Composition

`Compares` starts both sides in one state. That is enough for `bind`, because after values that are
alike the two states are equal again. It also records that the output so far is a beginning of the
output at the end, which an excuse would otherwise lose.

The constructs are gone through once. Where two variants differ, in an assignment to an element and
at the check of the frames, `Comparable` states what the tolerance has to allow for.
-/

namespace MiniLang

namespace AstOracle

/-- What may differ between two runs: how their errors are related, and which errors of the first
and of the second excuse everything. -/
structure Tolerance where
  alike : Stop → AstOracle → Stop → AstOracle → Prop
  left : Stop → Prop
  right : Stop → Prop
  alike_trap : ∀ code message oracle, alike (.trap code message) oracle (.trap code message) oracle
  alike_panic : ∀ oracle, alike .panic oracle .panic oracle
  left_outOfFuel : left .outOfFuel
  right_outOfFuel : right .outOfFuel

variable {T : Tolerance} {α β : Type} {output output' : List String}

/-- The results of two runs from a state in which `output` has been printed. -/
inductive Alike (T : Tolerance) (output : List String) :
    EStateM.Result Stop AstOracle α → EStateM.Result Stop AstOracle α → Prop
  | ok (value : α) {oracle : AstOracle} (h : output <+: oracle.output) :
    Alike T output (.ok value oracle) (.ok value oracle)
  | error {e e' : Stop} {oracle oracle' : AstOracle} (h : T.alike e oracle e' oracle')
    (hleft : output <+: oracle.output) (hright : e' = .refused → output <+: oracle'.output) :
    Alike T output (.error e oracle) (.error e' oracle')
  | left {e : Stop} (h : T.left e) (oracle : AstOracle) (r : EStateM.Result Stop AstOracle α) :
    Alike T output (.error e oracle) r
  | right {e : Stop} (h : T.right e) (oracle : AstOracle) (r : EStateM.Result Stop AstOracle α) :
    Alike T output r (.error e oracle)

variable {r r' : EStateM.Result Stop AstOracle α} {oracle : AstOracle}

theorem Alike.mono (h : Alike T output r r')
    (houtput : output' <+: output) : Alike T output' r r' := by
  cases h with
  | ok value h => exact .ok value (houtput.trans h)
  | error h hleft hright =>
    exact .error h (houtput.trans hleft) fun he ↦ houtput.trans (hright he)
  | left h oracle => exact .left h oracle _
  | right h oracle => exact .right h oracle _

theorem Alike.update {f : AstOracle → AstOracle} (h : (f oracle).output = oracle.output) :
    Alike T oracle.output ((modify f : OracleM Unit).run oracle)
      ((modify f : OracleM Unit).run oracle) :=
  .ok () (h ▸ List.prefix_refl _)

/-- Two computations are alike wherever they are run from. -/
def Compares (T : Tolerance) (x y : OracleM α) : Prop :=
  ∀ oracle, Alike T oracle.output (x.run oracle) (y.run oracle)

namespace Compares

variable {x y : OracleM α} {f g : α → OracleM β}

theorem pure (value : α) : Compares T (Pure.pure value) (Pure.pure value) :=
  fun _ ↦ .ok value (List.prefix_refl _)

theorem trap (code : TrapCode) (message : String) :
    Compares T (AstOracle.trap code message : OracleM α) (AstOracle.trap code message) :=
  fun oracle ↦ .error (T.alike_trap code message oracle) (List.prefix_refl _) nofun

theorem panic : Compares T (throw .panic : OracleM α) (throw .panic) :=
  fun oracle ↦ .error (T.alike_panic oracle) (List.prefix_refl _) nofun

theorem outOfFuel_left (y : OracleM α) : Compares T (throw .outOfFuel) y :=
  fun oracle ↦ .left T.left_outOfFuel oracle _

theorem outOfFuel_right (x : OracleM α) : Compares T x (throw .outOfFuel) :=
  fun oracle ↦ .right T.right_outOfFuel oracle _

theorem bind (hx : Compares T x y) (hf : ∀ a, Compares T (f a) (g a)) :
    Compares T (x >>= f) (y >>= g) := by
  intro oracle
  rw [EStateM.run_bind, EStateM.run_bind]
  generalize hr : x.run oracle = r
  generalize hr' : y.run oracle = r'
  have halike := hx oracle
  rw [hr, hr'] at halike
  cases halike with
  | ok value h => exact (hf value _).mono h
  | error h hleft hright => exact .error h hleft hright
  | left h oracle r => exact .left h oracle _
  | right h oracle r => exact .right h oracle _

theorem get_bind {f g : AstOracle → OracleM β}
    (h : ∀ oracle, Alike T oracle.output ((f oracle).run oracle) ((g oracle).run oracle)) :
    Compares T (get >>= f) (get >>= g) := h

/-- A change of the state that may print at the end. -/
theorem update {f : AstOracle → AstOracle} (h : ∀ oracle, oracle.output <+: (f oracle).output) :
    Compares T (modify f) (modify f) :=
  fun oracle ↦ .ok () (h oracle)

theorem ite {p : Prop} [Decidable p] {x' y' : OracleM α} (h : Compares T x y)
    (h' : Compares T x' y') : Compares T (if p then x else x') (if p then y else y') := by
  split
  · exact h
  · exact h'

end Compares

/-! ## Variables -/

theorem output_replaceSlot (oracle : AstOracle) (name : String) (slot : Slot) :
    (oracle.replaceSlot name slot).output = oracle.output := by
  rw [replaceSlot]
  split
  · rfl
  · split <;> rfl

section

variable (name : String) (slot : Slot) (index : Nat) (value : Int)

theorem compares_replaceSlot : Compares T (modify fun oracle ↦ oracle.replaceSlot name slot)
    (modify fun oracle ↦ oracle.replaceSlot name slot) :=
  fun oracle ↦ .update (output_replaceSlot oracle name slot)

theorem compares_insertInCurrentScope :
    Compares T (insertInCurrentScope name slot) (insertInCurrentScope name slot) := by
  rw [insertInCurrentScope]
  refine .get_bind fun oracle ↦ ?_
  split
  · exact Compares.trap _ _ oracle
  · exact Compares.trap _ _ oracle
  · exact .update rfl

theorem compares_readScalar : Compares T (readScalar name) (readScalar name) := by
  rw [readScalar]
  refine .get_bind fun oracle ↦ ?_
  split
  · exact Compares.pure _ oracle
  all_goals exact Compares.trap _ _ oracle

theorem compares_readArray : Compares T (readArray name index) (readArray name index) := by
  rw [readArray]
  refine .get_bind fun oracle ↦ ?_
  split
  · split
    · exact Compares.pure _ oracle
    · exact Compares.trap _ _ oracle
  all_goals exact Compares.trap _ _ oracle

theorem compares_assignScalar : Compares T (assignScalar name value) (assignScalar name value) := by
  rw [assignScalar]
  refine .get_bind fun oracle ↦ ?_
  split
  · exact compares_replaceSlot name _ oracle
  all_goals exact Compares.trap _ _ oracle

theorem compares_assignGlobalScalar :
    Compares T (assignGlobalScalar name value) (assignGlobalScalar name value) := by
  rw [assignGlobalScalar]
  refine .get_bind fun oracle ↦ ?_
  split
  · exact .update rfl
  all_goals exact Compares.trap _ _ oracle

theorem compares_assignArray :
    Compares T (assignArray name index value) (assignArray name index value) := by
  rw [assignArray]
  refine .get_bind fun oracle ↦ ?_
  split
  · split
    · exact compares_replaceSlot name _ oracle
    · exact Compares.trap _ _ oracle
  all_goals exact Compares.trap _ _ oracle

theorem compares_declareOrUpdate :
    Compares T (declareOrUpdate name slot) (declareOrUpdate name slot) := by
  rw [declareOrUpdate]
  refine .get_bind fun oracle ↦ ?_
  split
  · exact compares_replaceSlot name slot oracle
  · exact compares_insertInCurrentScope name slot oracle

end

theorem compares_checkedArrayIndex (index : Int) :
    Compares T (checkedArrayIndex index) (checkedArrayIndex index) := by
  rw [checkedArrayIndex]
  exact .ite (.trap _ _) (.pure _)

theorem compares_evalBinary (op : BinaryOp) (left right : Int) :
    Compares T (evalBinary op left right) (evalBinary op left right) := by
  cases op with
  | div => exact .ite (.trap _ _) (.ite .panic (.pure _))
  | and => exact .panic
  | or => exact .panic
  | _ => exact .pure _

theorem compares_evalUnary (op : UnaryOp) (operand : Int) :
    Compares T (evalUnary op operand) (evalUnary op operand) := by
  cases op with
  | neg => exact .ite .panic (.pure _)
  | not => exact .pure _

/-! ## Values that call nothing -/

/-- A trap with the code. -/
def Stop.Is (code : TrapCode) (e : Stop) : Prop := ∃ message, e = .trap code message

/-- An end without a call beyond the limit of frames. -/
def Stop.Shallow (e : Stop) : Prop := ¬e.Is .stackOverflow ∧ e ≠ .refused

/-- `x` makes no call beyond the limit of frames. -/
abbrev Shallow (x : OracleM α) : Prop :=
  EStateM.Triple (fun _ ↦ True) x (fun _ _ ↦ True) fun e _ ↦ e.Shallow

namespace Shallow

variable {x : OracleM α} {f : α → OracleM β}

theorem bind (hx : Shallow x) (hf : ∀ a, Shallow (f a)) : Shallow (x >>= f) :=
  EStateM.Triple.bind hx hf

theorem pure (a : α) : Shallow (Pure.pure a : OracleM α) := EStateM.Triple.pure fun _ _ ↦ trivial

theorem trap {code : TrapCode} (message : String) (h : code ≠ .stackOverflow) :
    Shallow (AstOracle.trap code message : OracleM α) :=
  EStateM.Triple.throw fun _ _ ↦ ⟨fun ⟨_, heq⟩ ↦ h (Stop.trap.inj heq).1, nofun⟩

theorem panic : Shallow (throw .panic : OracleM α) :=
  EStateM.Triple.throw fun _ _ ↦ ⟨fun ⟨_, heq⟩ ↦ (nomatch heq), nofun⟩

theorem get_bind {f : AstOracle → OracleM β} (h : ∀ oracle, Shallow (f oracle)) :
    Shallow (get >>= f) :=
  fun oracle hP ↦ h oracle oracle hP

theorem update (f : AstOracle → AstOracle) : Shallow (modify f : OracleM Unit) :=
  fun _ _ ↦ trivial

theorem ite {p : Prop} [Decidable p] {y : OracleM α} (hx : Shallow x) (hy : Shallow y) :
    Shallow (if p then x else y) := by
  split
  · exact hx
  · exact hy

theorem tick (rules : Rules) : Shallow (tick rules) :=
  .bind (.update _) fun _ ↦ .get_bind fun _ ↦ .ite (.trap _ (by decide)) (.pure _)

theorem readScalar (name : String) : Shallow (readScalar name) := by
  refine .get_bind fun oracle ↦ ?_
  split
  · exact .pure _
  all_goals exact .trap _ (by decide)

theorem readArray (name : String) (index : Nat) : Shallow (readArray name index) := by
  refine .get_bind fun oracle ↦ ?_
  split
  · split
    · exact .pure _
    · exact .trap _ (by decide)
  all_goals exact .trap _ (by decide)

theorem checkedArrayIndex (index : Int) : Shallow (checkedArrayIndex index) :=
  .ite (.trap _ (by decide)) (.pure _)

theorem evalBinary (op : BinaryOp) (left right : Int) : Shallow (evalBinary op left right) := by
  cases op with
  | div => exact .ite (.trap _ (by decide)) (.ite .panic (.pure _))
  | and => exact .panic
  | or => exact .panic
  | _ => exact .pure _

theorem evalUnary (op : UnaryOp) (operand : Int) : Shallow (evalUnary op operand) := by
  cases op with
  | neg => exact .ite .panic (.pure _)
  | not => exact .pure _

/-- An expression without calls. -/
theorem evalExpr (rules : Rules) (call : String → List Int → OracleM Int) :
    (e : Expr) → e.callees = [] → Shallow (evalExpr rules call e)
  | .intLiteral .., _ => .bind (tick rules) fun _ ↦ .pure _
  | .boolLiteral .., _ => .bind (tick rules) fun _ ↦ .pure _
  | .identifier name _, _ => .bind (tick rules) fun _ ↦ readScalar name
  | .binary op left right _, h => by
    obtain ⟨hleft, hright⟩ := List.append_eq_nil_iff.mp h
    have hleft := evalExpr rules call left hleft
    have hright := evalExpr rules call right hright
    cases op with
    | and =>
      exact .bind (tick rules) fun _ ↦ .bind hleft fun a ↦ .ite (.pure 0) (.bind hright fun b ↦ .pure _)
    | or =>
      exact .bind (tick rules) fun _ ↦ .bind hleft fun a ↦ .ite (.pure 1) (.bind hright fun b ↦ .pure _)
    | _ =>
      exact .bind (tick rules) fun _ ↦ .bind hleft fun a ↦ .bind hright fun b ↦ evalBinary _ a b
  | .unary op operand _, h =>
    .bind (tick rules) fun _ ↦ .bind (evalExpr rules call operand h) fun a ↦ evalUnary op a
  | .call .., h => nomatch h
  | .arrayIndex name index _, h =>
    .bind (tick rules) fun _ ↦ .bind (evalExpr rules call index h) fun a ↦
      .bind (checkedArrayIndex a) fun i ↦ readArray name i

end Shallow

/-! ## Variants -/

/-- A call beyond the limit of one variant is a call beyond that of the other, or excused. -/
def FrameLimit.Comparable (T : Tolerance) (limit limit' : FrameLimit) : Prop :=
  limit'.frames = limit.frames ∧
      Compares T (throw limit.beyond : OracleM Int) (throw limit'.beyond) ∨
    limit'.frames ≤ limit.frames ∧ T.right limit'.beyond

theorem FrameLimit.comparable_self (frames : Nat) :
    FrameLimit.Comparable T ⟨frames, false⟩ ⟨frames, false⟩ :=
  .inl ⟨rfl, .trap _ _⟩

/-- Where two variants differ, the tolerance allows for it. -/
structure Comparable (T : Tolerance) (rules rules' : Rules) : Prop where
  tick : Compares T (tick rules) (tick rules')
  frames : rules.frameLimit.Comparable T rules'.frameLimit
  initFrames : rules.initFrameLimit.Comparable T rules'.initFrameLimit
  element : ∀ target calls index index' value value', Compares T index index' →
    Compares T value value' → (calls = false → Shallow value') →
    Compares T (assignElement rules.indexCheck target calls index value)
      (assignElement rules'.indexCheck target calls index' value')

variable {rules rules' : Rules}

theorem compares_tick (h : rules.maxCycles ≤ rules'.maxCycles)
    (hleft : rules'.maxCycles ≠ rules.maxCycles → ∀ message, T.left (.trap .cycleLimit message)) :
    Compares T (tick rules) (tick rules') := by
  refine .bind (.update fun _ ↦ List.prefix_refl _) fun _ ↦ .get_bind fun oracle ↦ ?_
  by_cases heq : rules'.maxCycles = rules.maxCycles
  · rw [heq]
    exact Compares.ite (.trap _ _) (.pure _) oracle
  · by_cases hlimit : oracle.cycles > rules.maxCycles
    · rw [if_pos hlimit]
      exact .left (hleft heq _) oracle _
    · rw [if_neg hlimit, if_neg (by omega)]
      exact Compares.pure _ oracle

variable {call call' : String → List Int → OracleM Int}

mutual

/-- **Expressions.** -/
theorem compares_expr (hrules : Comparable T rules rules')
    (hcall : ∀ name args, Compares T (call name args) (call' name args)) :
    (e : Expr) → Compares T (evalExpr rules call e) (evalExpr rules' call' e)
  | .intLiteral .. => .bind hrules.tick fun _ ↦ .pure _
  | .boolLiteral .. => .bind hrules.tick fun _ ↦ .pure _
  | .identifier name _ => .bind hrules.tick fun _ ↦ compares_readScalar name
  | .binary op left right _ => by
    have hleft := compares_expr hrules hcall left
    have hright := compares_expr hrules hcall right
    cases op with
    | and =>
      exact .bind hrules.tick fun _ ↦ .bind hleft fun a ↦
        .ite (.pure 0) (.bind hright fun b ↦ .pure _)
    | or =>
      exact .bind hrules.tick fun _ ↦ .bind hleft fun a ↦
        .ite (.pure 1) (.bind hright fun b ↦ .pure _)
    | _ =>
      exact .bind hrules.tick fun _ ↦ .bind hleft fun a ↦ .bind hright fun b ↦
        compares_evalBinary _ a b
  | .unary op operand _ =>
    .bind hrules.tick fun _ ↦ .bind (compares_expr hrules hcall operand) fun a ↦
      compares_evalUnary op a
  | .call name args _ =>
    .bind hrules.tick fun _ ↦ .bind (compares_args hrules hcall args) fun values ↦ hcall name values
  | .arrayIndex name index _ =>
    .bind hrules.tick fun _ ↦ .bind (compares_expr hrules hcall index) fun a ↦
      .bind (compares_checkedArrayIndex a) fun i ↦ compares_readArray name i
termination_by structural e => e

theorem compares_args (hrules : Comparable T rules rules')
    (hcall : ∀ name args, Compares T (call name args) (call' name args)) :
    (args : List Expr) → Compares T (evalArgs rules call args) (evalArgs rules' call' args)
  | [] => .pure _
  | arg :: args =>
    .bind (compares_expr hrules hcall arg) fun _ ↦
      .bind (compares_args hrules hcall args) fun _ ↦ .pure _
termination_by structural args => args

end

section

variable (hrules : Comparable T rules rules')
  (hcall : ∀ name args, Compares T (call name args) (call' name args))
include hrules hcall

theorem compares_varDecl (name : String) (init : Option Expr) (arraySize : Option Int32) :
    Compares T (execVarDecl rules call name init arraySize)
      (execVarDecl rules' call' name init arraySize) := by
  cases arraySize with
  | some size => exact compares_declareOrUpdate name _
  | none =>
    cases init with
    | some init =>
      have hinit : Compares T (do assignScalar name (← evalExpr rules call init))
          (do assignScalar name (← evalExpr rules' call' init)) :=
        .bind (compares_expr hrules hcall init) fun value ↦ compares_assignScalar name value
      refine .get_bind fun oracle ↦ ?_
      exact Compares.ite (.bind (compares_insertInCurrentScope name _) fun _ ↦ hinit) hinit oracle
    | none =>
      refine .get_bind fun oracle ↦ ?_
      exact Compares.ite (compares_insertInCurrentScope name _) (.pure ()) oracle

theorem compares_assign (target : String) (index : Option Expr) (value : Expr) :
    Compares T (execAssign rules call target index value)
      (execAssign rules' call' target index value) := by
  have hvalue := compares_expr hrules hcall value
  cases index with
  | none => exact .bind hvalue fun a ↦ compares_assignScalar target a
  | some index =>
    refine hrules.element target _ _ _ _ _ (compares_expr hrules hcall index) hvalue fun hcalls ↦ ?_
    exact Shallow.evalExpr rules' call' value (List.isEmpty_iff.mp (by simpa using hcalls))

end

theorem compares_loop {condition condition' : OracleM Int} {body body' : OracleM Control}
    (hcondition : Compares T condition condition') (hbody : Compares T body body') (n n' : Nat) :
    Compares T (loop condition body n) (loop condition' body' n') := by
  induction n generalizing n' with
  | zero => exact .outOfFuel_left _
  | succ n ih =>
    cases n' with
    | zero => exact .outOfFuel_right _
    | succ n' =>
      refine .bind hcondition fun a ↦ .ite (.bind hbody fun control ↦ ?_) (.pure _)
      cases control with
      | «continue» => exact ih n'
      | «return» value => exact .pure _

mutual

/-- **Statements.** -/
theorem compares_stmt (hrules : Comparable T rules rules')
    (hcall : ∀ name args, Compares T (call name args) (call' name args)) (n n' : Nat) :
    (stmt : Stmt) → Compares T (execStmt rules call n stmt) (execStmt rules' call' n' stmt)
  | .varDecl _ name init arraySize _ =>
    .bind hrules.tick fun _ ↦ .bind (compares_varDecl hrules hcall name init arraySize) fun _ ↦
      .pure _
  | .assign target index value _ =>
    .bind hrules.tick fun _ ↦ .bind (compares_assign hrules hcall target index value) fun _ ↦
      .pure _
  | .ifStmt condition thenBody none _ =>
    .bind hrules.tick fun _ ↦ .bind (compares_expr hrules hcall condition) fun _ ↦
      .ite (compares_block hrules hcall n n' thenBody) (.pure _)
  | .ifStmt condition thenBody (some elseBody) _ =>
    .bind hrules.tick fun _ ↦ .bind (compares_expr hrules hcall condition) fun _ ↦
      .ite (compares_block hrules hcall n n' thenBody) (compares_block hrules hcall n n' elseBody)
  | .whileStmt condition body _ =>
    .bind hrules.tick fun _ ↦ compares_loop (compares_expr hrules hcall condition)
      (compares_block hrules hcall n n' body) n n'
  | .returnStmt value _ =>
    .bind hrules.tick fun _ ↦ .bind (compares_expr hrules hcall value) fun _ ↦ .pure _
  | .print value _ =>
    .bind hrules.tick fun _ ↦ .bind (compares_expr hrules hcall value) fun _ ↦
      .bind (.update fun _ ↦ List.prefix_append ..) fun _ ↦ .pure _
  | .exprStmt expr _ =>
    .bind hrules.tick fun _ ↦ .bind (compares_expr hrules hcall expr) fun _ ↦ .pure _
termination_by structural stmt => stmt

theorem compares_block (hrules : Comparable T rules rules')
    (hcall : ∀ name args, Compares T (call name args) (call' name args)) (n n' : Nat) :
    (stmts : List Stmt) → Compares T (execBlock rules call n stmts) (execBlock rules' call' n' stmts)
  | [] => .pure _
  | stmt :: stmts => .bind (compares_stmt hrules hcall n n' stmt) fun control ↦ by
    cases control with
    | «continue» => exact compares_block hrules hcall n n' stmts
    | «return» value => exact .pure _
termination_by structural stmts => stmts

end

/-! ## Programs -/

/-- A call after the check of the frames. -/
def enterFunction (rules : Rules) (p : Program) (n : Nat) (name : String) (args : List Int) :
    OracleM Int :=
  match (collectFunctions ∅ p.functions).lookup name with
  | none => AstOracle.trap .undefinedFunction s!"Undefined function {name}"
  | some function =>
    if args.length ≠ function.params.length then
      AstOracle.trap .invalidInstruction
        s!"Call has {args.length} arguments but function {name} expects {function.params.length}"
    else do
      modify fun oracle ↦ { oracle with
        frames := ⟨[rootScope ∅ function.params args]⟩ :: oracle.frames }
      let result ← execBlock rules (callFunction rules p n) n function.body
      modify fun oracle ↦ { oracle with frames := oracle.frames.tail }
      return normalizeI32 result.value

theorem compares_callFunction (hrules : Comparable T rules rules') (p : Program) (n n' : Nat)
    (name : String) (args : List Int) :
    Compares T (callFunction rules p n name args) (callFunction rules' p n' name args) := by
  induction n generalizing n' name args with
  | zero => exact .outOfFuel_left _
  | succ n ih =>
    cases n' with
    | zero => exact .outOfFuel_right _
    | succ n' =>
      refine .bind hrules.tick fun _ ↦ .get_bind fun oracle ↦ ?_
      have hbody : Compares T (enterFunction rules p n name args)
          (enterFunction rules' p n' name args) := by
        rw [enterFunction, enterFunction]
        cases (collectFunctions ∅ p.functions).lookup name with
        | none => exact .trap _ _
        | some function =>
          exact .ite (.trap _ _) (.bind (.update fun _ ↦ List.prefix_refl _) fun _ ↦
            .bind (compares_block hrules (ih n') n n' function.body) fun _ ↦
              .bind (.update fun _ ↦ List.prefix_refl _) fun _ ↦ .pure _)
      rcases hrules.frames with ⟨heq, hbeyond⟩ | ⟨hle, hright⟩
      · rw [heq]
        exact Compares.ite hbeyond hbody oracle
      · by_cases hlimit : oracle.frames.length ≥ rules'.frameLimit.frames
        · rw [if_pos hlimit]
          exact .right hright oracle _
        · rw [if_neg hlimit, if_neg (by omega)]
          exact hbody oracle

theorem compares_initializeGlobals (hrules : Comparable T rules rules') (p : Program) (n n' : Nat)
    (globs : List GlobalVar) : Compares T (initializeGlobals rules p n globs)
      (initializeGlobals rules' p n' globs) := by
  induction globs with
  | nil => exact .pure _
  | cons glob globs ih =>
    rw [initializeGlobals, initializeGlobals]
    cases glob.initExpr with
    | none => exact ih
    | some init =>
      exact .bind (compares_expr hrules (compares_callFunction hrules p n n') init) fun value ↦
        .bind (compares_assignGlobalScalar glob.name value) fun _ ↦ ih

/-- **The runs of two variants are alike.** -/
theorem compares_execute (hrules : Comparable T rules rules') (p : Program) (n n' : Nat) :
    Compares T (execute rules p n) (execute rules' p n') := by
  have hinit : Comparable T { rules with frameLimit := rules.initFrameLimit }
      { rules' with frameLimit := rules'.initFrameLimit } :=
    ⟨hrules.tick, hrules.initFrames, hrules.initFrames, hrules.element⟩
  exact .bind (compares_initializeGlobals hinit p n n' p.globals) fun _ ↦
    compares_callFunction hrules p n n' "main" []

end AstOracle

end MiniLang
