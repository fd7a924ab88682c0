import MiniLang.Syntax.Grammar

/-!
# Candidates of the shrinker

A failing program is made smaller by deleting, hoisting and replacing parts of its tree. The weight
of a tree counts its nodes, with `0` the lightest expression: every candidate is lighter than the
program, or it is the program itself when an index `0` was replaced by `0`.

## The weight

Most candidates have fewer nodes. A literal, a name or a call may be replaced by `0`, which does not
lower the number of nodes, so each of them but `0` itself counts one more. A body is weighed by its
statements, so that hoisting the body of a branch into the place of the branch makes it lighter by
the condition and the branch itself.

## The exception

`0` stands as a candidate for every index, also for `0`. That candidate is the same program with
another position, and the shrinker discards it when it prints to the same text. `LighterExpr` and
its like have this case, and it goes through all contexts: a program with such a part in it is the
program itself, positions aside.
-/

namespace MiniLang.Fuzz

/-! ## Candidates -/

mutual

def exprShrinkCandidates : Expr → List Expr
  | .intLiteral value span => if value = 0 then [] else [.intLiteral 0 span]
  | .boolLiteral value span => if value then [.boolLiteral false span] else []
  | .identifier _ span => [.intLiteral 0 span]
  | .binary op left right span =>
    [left, right, .intLiteral 0 span] ++
      (exprShrinkCandidates left).map (fun candidate ↦ .binary op candidate right span) ++
      (exprShrinkCandidates right).map (fun candidate ↦ .binary op left candidate span)
  | .unary op operand span =>
    [operand] ++ (exprShrinkCandidates operand).map (fun candidate ↦ .unary op candidate span)
  | .call name args span =>
    [.intLiteral 0 span] ++
      (argsShrinkCandidates args).map (fun candidate ↦ .call name candidate span)
  | .arrayIndex arrayName index span =>
    [.intLiteral 0 span, .arrayIndex arrayName (.intLiteral 0 span) span] ++
      (exprShrinkCandidates index).map (fun candidate ↦ .arrayIndex arrayName candidate span)
termination_by structural e => e

/-- The arguments with one of them shrunk, the first ones first. -/
def argsShrinkCandidates : List Expr → List (List Expr)
  | [] => []
  | arg :: args =>
    (exprShrinkCandidates arg).map (fun candidate ↦ candidate :: args) ++
      (argsShrinkCandidates args).map (fun candidate ↦ arg :: candidate)
termination_by structural args => args

end

/-- `matches!(stmt, Stmt::Return { .. })` -/
def isReturn : Stmt → Bool
  | .returnStmt .. => true
  | _ => false

mutual

/-- What may stand in the place of a statement. -/
def stmtShrinkCandidates : Stmt → List (List Stmt)
  | .varDecl _ _ none _ _ => []
  | .varDecl varType name (some expr) arraySize span =>
    (exprShrinkCandidates expr).map
      (fun candidate ↦ [.varDecl varType name (some candidate) arraySize span])
  | .assign target none value span =>
    (exprShrinkCandidates value).map (fun candidate ↦ [.assign target none candidate span])
  | .assign target (some index) value span =>
    (exprShrinkCandidates value).map (fun candidate ↦ [.assign target (some index) candidate span]) ++
      [[.assign target (some (.intLiteral 0 span)) value span]] ++
      (exprShrinkCandidates index).map
        (fun candidate ↦ [.assign target (some candidate) value span])
  | .ifStmt condition thenBody none span =>
    [thenBody] ++
      (exprShrinkCandidates condition).map
        (fun candidate ↦ [.ifStmt candidate thenBody none span]) ++
      (bodyShrinkCandidates thenBody).map (fun candidate ↦ [.ifStmt condition candidate none span])
  | .ifStmt condition thenBody (some elseBody) span =>
    [thenBody, elseBody] ++
      (exprShrinkCandidates condition).map
        (fun candidate ↦ [.ifStmt candidate thenBody (some elseBody) span]) ++
      (bodyShrinkCandidates thenBody).map
        (fun candidate ↦ [.ifStmt condition candidate (some elseBody) span]) ++
      (bodyShrinkCandidates elseBody).map
        (fun candidate ↦ [.ifStmt condition thenBody (some candidate) span])
  | .whileStmt condition body span =>
    [body] ++
      (exprShrinkCandidates condition).map (fun candidate ↦ [.whileStmt candidate body span]) ++
      (bodyShrinkCandidates body).map (fun candidate ↦ [.whileStmt condition candidate span])
  | .returnStmt value span =>
    (exprShrinkCandidates value).map (fun candidate ↦ [.returnStmt candidate span])
  | .print value span => (exprShrinkCandidates value).map (fun candidate ↦ [.print candidate span])
  | .exprStmt expr span =>
    (exprShrinkCandidates expr).map (fun candidate ↦ [.exprStmt candidate span])
termination_by structural stmt => stmt

/-- The body with one statement deleted or replaced, the first ones first. A `return` is never
deleted. -/
def bodyShrinkCandidates : List Stmt → List (List Stmt)
  | [] => []
  | stmt :: stmts =>
    (if isReturn stmt then [] else [stmts]) ++
      (stmtShrinkCandidates stmt).map (fun replacement ↦ replacement ++ stmts) ++
      (bodyShrinkCandidates stmts).map (fun candidate ↦ stmt :: candidate)
termination_by structural body => body

end

/-- The list without one of its elements that may go, the first ones first. -/
def removals {α : Type} (removable : α → Bool) : List α → List (List α)
  | [] => []
  | a :: as =>
    (if removable a then [as] else []) ++
      (removals removable as).map (fun candidate ↦ a :: candidate)

/-- The functions with the body of one of them shrunk, the first ones first. -/
def functionsShrinkCandidates : List Function → List (List Function)
  | [] => []
  | function :: functions =>
    (bodyShrinkCandidates function.body).map
        (fun body ↦ { function with body := body } :: functions) ++
      (functionsShrinkCandidates functions).map (fun candidate ↦ function :: candidate)

def astShrinkCandidates (program : Program) : List Program :=
  (removals (fun _ ↦ true) program.globals).map
      (fun globals ↦ { program with globals := globals }) ++
    (removals (fun function ↦ function.name ≠ "main") program.functions).map
      (fun functions ↦ { program with functions := functions }) ++
    (functionsShrinkCandidates program.functions).map
      (fun functions ↦ { program with functions := functions })

/-! ## The weight of a tree -/

mutual

/-- The number of nodes, where a literal other than `0`, a name and a call count one more. -/
def exprWeight : Expr → Nat
  | .intLiteral value _ => if value = 0 then 1 else 2
  | .boolLiteral value _ => if value then 3 else 2
  | .identifier .. => 2
  | .binary _ left right _ => exprWeight left + exprWeight right + 1
  | .unary _ operand _ => exprWeight operand + 1
  | .call _ args _ => argsWeight args + 2
  | .arrayIndex _ index _ => exprWeight index + 1
termination_by structural e => e

def argsWeight : List Expr → Nat
  | [] => 0
  | arg :: args => exprWeight arg + argsWeight args
termination_by structural args => args

end

mutual

def stmtWeight : Stmt → Nat
  | .varDecl _ _ none _ _ => 1
  | .varDecl _ _ (some expr) _ _ => exprWeight expr + 1
  | .assign _ none value _ => exprWeight value + 1
  | .assign _ (some index) value _ => exprWeight index + exprWeight value + 1
  | .ifStmt condition thenBody none _ => exprWeight condition + bodyWeight thenBody + 1
  | .ifStmt condition thenBody (some elseBody) _ =>
    exprWeight condition + bodyWeight thenBody + bodyWeight elseBody + 1
  | .whileStmt condition body _ => exprWeight condition + bodyWeight body + 1
  | .returnStmt value _ => exprWeight value + 1
  | .print value _ => exprWeight value + 1
  | .exprStmt expr _ => exprWeight expr + 1
termination_by structural stmt => stmt

def bodyWeight : List Stmt → Nat
  | [] => 0
  | stmt :: stmts => stmtWeight stmt + bodyWeight stmts
termination_by structural body => body

end

def functionsWeight : List Function → Nat
  | [] => 0
  | function :: functions => bodyWeight function.body + 1 + functionsWeight functions

def weight (program : Program) : Nat :=
  program.globals.length + functionsWeight program.functions

theorem exprWeight_pos (e : Expr) : 0 < exprWeight e := by
  cases e with
  | intLiteral value span =>
    rw [exprWeight]
    split <;> decide
  | boolLiteral value span =>
    rw [exprWeight]
    split <;> decide
  | identifier name span => exact Nat.zero_lt_two
  | binary op left right span => exact Nat.succ_pos _
  | unary op operand span => exact Nat.succ_pos _
  | call name args span => exact Nat.succ_pos _
  | arrayIndex name index span => exact Nat.succ_pos _

theorem stmtWeight_pos (stmt : Stmt) : 0 < stmtWeight stmt := by
  cases stmt with
  | varDecl varType name init size span => cases init <;> exact Nat.succ_pos _
  | assign target index value span => cases index <;> exact Nat.succ_pos _
  | ifStmt condition thenBody elseBody span => cases elseBody <;> exact Nat.succ_pos _
  | whileStmt condition body span => exact Nat.succ_pos _
  | returnStmt value span => exact Nat.succ_pos _
  | print value span => exact Nat.succ_pos _
  | exprStmt e span => exact Nat.succ_pos _

/-- `0` is the only expression of weight 1. -/
theorem eraseSpans_of_weight {e : Expr} (h : exprWeight e ≤ 1) :
    e.eraseSpans = .intLiteral 0 .default := by
  cases e with
  | intLiteral value span =>
    rw [exprWeight] at h
    split at h
    · next hvalue => rw [Expr.eraseSpans, hvalue]
    · exact absurd h (by decide)
  | boolLiteral value span =>
    rw [exprWeight] at h
    split at h <;> exact absurd h (by decide)
  | identifier name span => exact absurd h (by decide : ¬2 ≤ 1)
  | binary op left right span =>
    have := exprWeight_pos left
    rw [exprWeight] at h
    omega
  | unary op operand span =>
    have := exprWeight_pos operand
    rw [exprWeight] at h
    omega
  | call name args span =>
    rw [exprWeight] at h
    omega
  | arrayIndex name index span =>
    have := exprWeight_pos index
    rw [exprWeight] at h
    omega

@[simp] theorem bodyWeight_append (body rest : List Stmt) :
    bodyWeight (body ++ rest) = bodyWeight body + bodyWeight rest := by
  induction body with
  | nil => exact (Nat.zero_add _).symm
  | cons stmt stmts ih => rw [List.cons_append, bodyWeight, bodyWeight, ih, Nat.add_assoc]

@[simp] theorem eraseSpansStmts_append (body rest : List Stmt) :
    eraseSpansStmts (body ++ rest) = eraseSpansStmts body ++ eraseSpansStmts rest := by
  induction body with
  | nil => rfl
  | cons stmt stmts ih => rw [List.cons_append, eraseSpansStmts, eraseSpansStmts, ih,
      List.cons_append]

/-! ## Every candidate is lighter -/

/-- A candidate for an expression: the expression itself, positions aside, or a lighter one. -/
def LighterExpr (candidate e : Expr) : Prop :=
  candidate.eraseSpans = e.eraseSpans ∨ exprWeight candidate < exprWeight e

/-- The same for bodies. -/
def LighterBody (candidate body : List Stmt) : Prop :=
  eraseSpansStmts candidate = eraseSpansStmts body ∨ bodyWeight candidate < bodyWeight body

theorem lighterExpr_zero {e : Expr} (span : Span) : LighterExpr (.intLiteral 0 span) e := by
  rcases Nat.lt_or_ge 1 (exprWeight e) with h | h
  · exact .inr h
  · exact .inl (eraseSpans_of_weight h).symm

mutual

theorem lighter_exprShrinkCandidates : (e : Expr) → ∀ candidate ∈ exprShrinkCandidates e,
    LighterExpr candidate e
  | .intLiteral value span => by
    intro candidate h
    rw [exprShrinkCandidates] at h
    split at h
    · exact absurd h List.not_mem_nil
    · rw [List.mem_singleton.mp h]
      exact lighterExpr_zero span
  | .boolLiteral value span => by
    intro candidate h
    cases value with
    | false => exact absurd h List.not_mem_nil
    | true =>
      rw [List.mem_singleton.mp h]
      exact .inr (Nat.lt_succ_self 2)
  | .identifier name span => by
    intro candidate h
    rw [List.mem_singleton.mp h]
    exact lighterExpr_zero span
  | .binary op left right span => by
    intro candidate h
    have hleft := lighter_exprShrinkCandidates left
    have hright := lighter_exprShrinkCandidates right
    rw [exprShrinkCandidates, List.mem_append, List.mem_append] at h
    rcases h with (h | h) | h
    · rcases List.mem_cons.mp h with rfl | h
      · exact .inr (by rw [exprWeight]; omega)
      rcases List.mem_cons.mp h with rfl | h
      · exact .inr (by rw [exprWeight]; omega)
      · rw [List.mem_singleton.mp h]
        exact lighterExpr_zero span
    · obtain ⟨left', hleft', rfl⟩ := List.mem_map.mp h
      refine (hleft left' hleft').imp (fun heq ↦ ?_) fun hlt ↦ ?_
      · rw [Expr.eraseSpans, Expr.eraseSpans, heq]
      · rw [exprWeight, exprWeight]
        omega
    · obtain ⟨right', hright', rfl⟩ := List.mem_map.mp h
      refine (hright right' hright').imp (fun heq ↦ ?_) fun hlt ↦ ?_
      · rw [Expr.eraseSpans, Expr.eraseSpans, heq]
      · rw [exprWeight, exprWeight]
        omega
  | .unary op operand span => by
    intro candidate h
    have hoperand := lighter_exprShrinkCandidates operand
    rcases List.mem_cons.mp h with rfl | h
    · exact .inr (Nat.lt_succ_self _)
    · obtain ⟨operand', hoperand', rfl⟩ := List.mem_map.mp h
      refine (hoperand operand' hoperand').imp (fun heq ↦ ?_) fun hlt ↦ ?_
      · rw [Expr.eraseSpans, Expr.eraseSpans, heq]
      · exact Nat.succ_lt_succ hlt
  | .call name args span => by
    intro candidate h
    have hargs := lighter_argsShrinkCandidates args
    rcases List.mem_cons.mp h with rfl | h
    · exact lighterExpr_zero span
    · obtain ⟨args', hargs', rfl⟩ := List.mem_map.mp h
      refine (hargs args' hargs').imp (fun heq ↦ ?_) fun hlt ↦ ?_
      · rw [Expr.eraseSpans, Expr.eraseSpans, heq]
      · exact Nat.add_lt_add_right hlt 2
  | .arrayIndex name index span => by
    intro candidate h
    have hindex := lighter_exprShrinkCandidates index
    have hlift {index' : Expr} (hindex' : LighterExpr index' index) :
        LighterExpr (.arrayIndex name index' span) (.arrayIndex name index span) := by
      refine hindex'.imp (fun heq ↦ ?_) fun hlt ↦ ?_
      · rw [Expr.eraseSpans, Expr.eraseSpans, heq]
      · exact Nat.succ_lt_succ hlt
    rcases List.mem_cons.mp h with rfl | h
    · exact lighterExpr_zero span
    rcases List.mem_cons.mp h with rfl | h
    · exact hlift (lighterExpr_zero span)
    · obtain ⟨index', hindex', rfl⟩ := List.mem_map.mp h
      exact hlift (hindex index' hindex')
termination_by structural e => e

theorem lighter_argsShrinkCandidates : (args : List Expr) →
    ∀ candidate ∈ argsShrinkCandidates args,
      eraseSpansList candidate = eraseSpansList args ∨ argsWeight candidate < argsWeight args
  | [] => fun candidate h ↦ absurd h List.not_mem_nil
  | arg :: args => by
    intro candidate h
    have harg := lighter_exprShrinkCandidates arg
    have hargs := lighter_argsShrinkCandidates args
    rcases List.mem_append.mp h with h | h
    · obtain ⟨arg', harg', rfl⟩ := List.mem_map.mp h
      refine (harg arg' harg').imp (fun heq ↦ ?_) fun hlt ↦ ?_
      · rw [eraseSpansList, eraseSpansList, heq]
      · exact Nat.add_lt_add_right hlt _
    · obtain ⟨args', hargs', rfl⟩ := List.mem_map.mp h
      refine (hargs args' hargs').imp (fun heq ↦ ?_) fun hlt ↦ ?_
      · rw [eraseSpansList, eraseSpansList, heq]
      · exact Nat.add_lt_add_left hlt _
termination_by structural args => args

end

/-- A statement with one of its parts replaced by the candidates for that part. -/
theorem lighterBody_map {α : Type} {erase : α → α} {weight : α → Nat} {candidates : List α}
    {part : α} (wrap : α → Stmt)
    (hparts : ∀ part' ∈ candidates, erase part' = erase part ∨ weight part' < weight part)
    (herase : ∀ part', erase part' = erase part →
      (wrap part').eraseSpans = (wrap part).eraseSpans)
    (hweight : ∀ part', weight part' < weight part →
      stmtWeight (wrap part') < stmtWeight (wrap part)) :
    ∀ candidate ∈ candidates.map (fun part' ↦ [wrap part']), LighterBody candidate [wrap part] := by
  intro candidate h
  obtain ⟨part', hpart', rfl⟩ := List.mem_map.mp h
  refine (hparts part' hpart').imp (fun heq ↦ ?_) fun hlt ↦ ?_
  · exact congrArg (fun erased ↦ [erased]) (herase part' heq)
  · exact Nat.add_lt_add_right (hweight part' hlt) _

/-- A part of a statement hoisted into its place. -/
theorem lighterBody_hoisted {body : List Stmt} {stmt : Stmt} (h : bodyWeight body < stmtWeight stmt) :
    LighterBody body [stmt] := .inr (Nat.lt_add_right 0 h)

theorem LighterBody.append {body' body : List Stmt} (h : LighterBody body' body)
    (rest : List Stmt) : LighterBody (body' ++ rest) (body ++ rest) := by
  refine h.imp (fun heq ↦ ?_) fun hlt ↦ ?_
  · rw [eraseSpansStmts_append, eraseSpansStmts_append, heq]
  · rw [bodyWeight_append, bodyWeight_append]
    exact Nat.add_lt_add_right hlt _

theorem LighterBody.cons {body' body : List Stmt} (h : LighterBody body' body) (stmt : Stmt) :
    LighterBody (stmt :: body') (stmt :: body) := by
  refine h.imp (fun heq ↦ ?_) fun hlt ↦ ?_
  · rw [eraseSpansStmts, eraseSpansStmts, heq]
  · exact Nat.add_lt_add_left hlt _

mutual

theorem lighter_stmtShrinkCandidates : (stmt : Stmt) → ∀ candidate ∈ stmtShrinkCandidates stmt,
    LighterBody candidate [stmt]
  | .varDecl _ _ none _ _ => fun candidate h ↦ absurd h List.not_mem_nil
  | .varDecl varType name (some expr) arraySize span =>
    lighterBody_map (fun expr ↦ .varDecl varType name (some expr) arraySize span)
      (lighter_exprShrinkCandidates expr)
      (fun _ heq ↦ by rw [Stmt.eraseSpans, Stmt.eraseSpans, Option.map_some, Option.map_some, heq])
      fun _ ↦ Nat.succ_lt_succ
  | .assign target none value span =>
    lighterBody_map (.assign target none · span) (lighter_exprShrinkCandidates value)
      (fun _ heq ↦ by rw [Stmt.eraseSpans, Stmt.eraseSpans, heq]) fun _ ↦ Nat.succ_lt_succ
  | .assign target (some index) value span => by
    have hvalues := lighterBody_map (.assign target (some index) · span)
      (lighter_exprShrinkCandidates value)
      (fun _ heq ↦ by rw [Stmt.eraseSpans, Stmt.eraseSpans, heq])
      fun _ hlt ↦ Nat.succ_lt_succ (Nat.add_lt_add_left hlt _)
    -- zero and the candidates take the place of the index alike
    have hindexes := lighterBody_map (fun index ↦ .assign target (some index) value span)
      (List.forall_mem_cons.mpr ⟨lighterExpr_zero span, lighter_exprShrinkCandidates index⟩)
      (fun _ heq ↦ by rw [Stmt.eraseSpans, Stmt.eraseSpans, Option.map_some, Option.map_some, heq])
      fun _ hlt ↦ Nat.succ_lt_succ (Nat.add_lt_add_right hlt _)
    intro candidate h
    rw [stmtShrinkCandidates, List.append_assoc] at h
    exact (List.mem_append.mp h).elim (hvalues candidate) (hindexes candidate)
  | .ifStmt condition thenBody none span => by
    have hconditions := lighterBody_map (.ifStmt · thenBody none span)
      (lighter_exprShrinkCandidates condition)
      (fun _ heq ↦ by rw [Stmt.eraseSpans, Stmt.eraseSpans, heq])
      fun _ hlt ↦ Nat.succ_lt_succ (Nat.add_lt_add_right hlt _)
    have hbodies := lighterBody_map (.ifStmt condition · none span)
      (lighter_bodyShrinkCandidates thenBody)
      (fun _ heq ↦ by rw [Stmt.eraseSpans, Stmt.eraseSpans, heq])
      fun _ hlt ↦ Nat.succ_lt_succ (Nat.add_lt_add_left hlt _)
    intro candidate h
    rw [stmtShrinkCandidates, List.mem_append, List.mem_append] at h
    rcases h with (h | h) | h
    · rw [List.mem_singleton.mp h]
      exact lighterBody_hoisted (by rw [stmtWeight]; omega)
    · exact hconditions candidate h
    · exact hbodies candidate h
  | .ifStmt condition thenBody (some elseBody) span => by
    have hconditions := lighterBody_map (.ifStmt · thenBody (some elseBody) span)
      (lighter_exprShrinkCandidates condition)
      (fun _ heq ↦ by rw [Stmt.eraseSpans, Stmt.eraseSpans, heq])
      fun _ hlt ↦ by rw [stmtWeight, stmtWeight]; omega
    have hthen := lighterBody_map (.ifStmt condition · (some elseBody) span)
      (lighter_bodyShrinkCandidates thenBody)
      (fun _ heq ↦ by rw [Stmt.eraseSpans, Stmt.eraseSpans, heq])
      fun _ hlt ↦ by rw [stmtWeight, stmtWeight]; omega
    have helse := lighterBody_map (fun elseBody ↦ .ifStmt condition thenBody (some elseBody) span)
      (lighter_bodyShrinkCandidates elseBody)
      (fun _ heq ↦ by rw [Stmt.eraseSpans, Stmt.eraseSpans, heq])
      fun _ hlt ↦ by rw [stmtWeight, stmtWeight]; omega
    intro candidate h
    rw [stmtShrinkCandidates, List.mem_append, List.mem_append, List.mem_append] at h
    rcases h with ((h | h) | h) | h
    · rcases List.mem_cons.mp h with rfl | h
      · exact lighterBody_hoisted (by rw [stmtWeight]; omega)
      · rw [List.mem_singleton.mp h]
        exact lighterBody_hoisted (by rw [stmtWeight]; omega)
    · exact hconditions candidate h
    · exact hthen candidate h
    · exact helse candidate h
  | .whileStmt condition body span => by
    have hconditions := lighterBody_map (.whileStmt · body span)
      (lighter_exprShrinkCandidates condition)
      (fun _ heq ↦ by rw [Stmt.eraseSpans, Stmt.eraseSpans, heq])
      fun _ hlt ↦ Nat.succ_lt_succ (Nat.add_lt_add_right hlt _)
    have hbodies := lighterBody_map (.whileStmt condition · span) (lighter_bodyShrinkCandidates body)
      (fun _ heq ↦ by rw [Stmt.eraseSpans, Stmt.eraseSpans, heq])
      fun _ hlt ↦ Nat.succ_lt_succ (Nat.add_lt_add_left hlt _)
    intro candidate h
    rw [stmtShrinkCandidates, List.mem_append, List.mem_append] at h
    rcases h with (h | h) | h
    · rw [List.mem_singleton.mp h]
      exact lighterBody_hoisted (by rw [stmtWeight]; omega)
    · exact hconditions candidate h
    · exact hbodies candidate h
  | .returnStmt value span =>
    lighterBody_map (.returnStmt · span) (lighter_exprShrinkCandidates value)
      (fun _ heq ↦ by rw [Stmt.eraseSpans, Stmt.eraseSpans, heq]) fun _ ↦ Nat.succ_lt_succ
  | .print value span =>
    lighterBody_map (.print · span) (lighter_exprShrinkCandidates value)
      (fun _ heq ↦ by rw [Stmt.eraseSpans, Stmt.eraseSpans, heq]) fun _ ↦ Nat.succ_lt_succ
  | .exprStmt expr span =>
    lighterBody_map (.exprStmt · span) (lighter_exprShrinkCandidates expr)
      (fun _ heq ↦ by rw [Stmt.eraseSpans, Stmt.eraseSpans, heq]) fun _ ↦ Nat.succ_lt_succ
termination_by structural stmt => stmt

theorem lighter_bodyShrinkCandidates : (body : List Stmt) →
    ∀ candidate ∈ bodyShrinkCandidates body, LighterBody candidate body
  | [] => fun candidate h ↦ absurd h List.not_mem_nil
  | stmt :: stmts => by
    intro candidate h
    rw [bodyShrinkCandidates, List.mem_append, List.mem_append] at h
    rcases h with (h | h) | h
    · split at h
      · exact absurd h List.not_mem_nil
      · rw [List.mem_singleton.mp h]
        exact .inr (Nat.lt_add_of_pos_left (stmtWeight_pos stmt))
    · obtain ⟨replacement, hreplacement, rfl⟩ := List.mem_map.mp h
      exact (lighter_stmtShrinkCandidates stmt replacement hreplacement).append stmts
    · obtain ⟨stmts', hstmts', rfl⟩ := List.mem_map.mp h
      exact (lighter_bodyShrinkCandidates stmts stmts' hstmts').cons stmt
termination_by structural body => body

end

theorem length_of_removals {α : Type} {removable : α → Bool} {as candidate : List α}
    (h : candidate ∈ removals removable as) : candidate.length + 1 = as.length := by
  induction as generalizing candidate with
  | nil => exact absurd h List.not_mem_nil
  | cons a as ih =>
    rcases List.mem_append.mp h with h | h
    · split at h
      · rw [List.mem_singleton.mp h, List.length_cons]
      · exact absurd h List.not_mem_nil
    · obtain ⟨as', has', rfl⟩ := List.mem_map.mp h
      rw [List.length_cons, List.length_cons, ih has']

theorem functionsWeight_of_removals {removable : Function → Bool}
    {functions candidate : List Function} (h : candidate ∈ removals removable functions) :
    functionsWeight candidate < functionsWeight functions := by
  induction functions generalizing candidate with
  | nil => exact absurd h List.not_mem_nil
  | cons function functions ih =>
    rcases List.mem_append.mp h with h | h
    · split at h
      · rw [List.mem_singleton.mp h]
        exact Nat.lt_add_of_pos_left (Nat.succ_pos _)
      · exact absurd h List.not_mem_nil
    · obtain ⟨functions', hfunctions', rfl⟩ := List.mem_map.mp h
      exact Nat.add_lt_add_left (ih hfunctions') _

theorem lighter_functionsShrinkCandidates {functions candidate : List Function}
    (h : candidate ∈ functionsShrinkCandidates functions) :
    candidate.map Function.eraseSpans = functions.map Function.eraseSpans ∨
      functionsWeight candidate < functionsWeight functions := by
  induction functions generalizing candidate with
  | nil => exact absurd h List.not_mem_nil
  | cons function functions ih =>
    rcases List.mem_append.mp h with h | h
    · obtain ⟨body, hbody, rfl⟩ := List.mem_map.mp h
      refine (lighter_bodyShrinkCandidates function.body body hbody).imp (fun heq ↦ ?_) fun hlt ↦ ?_
      · rw [List.map_cons, List.map_cons, Function.eraseSpans, Function.eraseSpans, heq]
      · exact Nat.add_lt_add_right (Nat.succ_lt_succ hlt) _
    · obtain ⟨functions', hfunctions', rfl⟩ := List.mem_map.mp h
      refine (ih hfunctions').imp (fun heq ↦ ?_) fun hlt ↦ ?_
      · rw [List.map_cons, List.map_cons, heq]
      · exact Nat.add_lt_add_left hlt _

theorem lighter_astShrinkCandidates {program candidate : Program}
    (h : candidate ∈ astShrinkCandidates program) :
    candidate.eraseSpans = program.eraseSpans ∨ weight candidate < weight program := by
  rw [astShrinkCandidates, List.mem_append, List.mem_append] at h
  rcases h with (h | h) | h
  · obtain ⟨globals, hglobals, rfl⟩ := List.mem_map.mp h
    have hlt : globals.length < program.globals.length := by
      have := length_of_removals hglobals
      omega
    exact .inr (Nat.add_lt_add_right hlt _)
  · obtain ⟨functions, hfunctions, rfl⟩ := List.mem_map.mp h
    exact .inr (Nat.add_lt_add_left (functionsWeight_of_removals hfunctions) _)
  · obtain ⟨functions, hfunctions, rfl⟩ := List.mem_map.mp h
    refine (lighter_functionsShrinkCandidates hfunctions).imp (fun heq ↦ ?_) fun hlt ↦ ?_
    · rw [Program.eraseSpans, Program.eraseSpans, heq]
    · exact Nat.add_lt_add_left hlt _

/-! ## Positions do not matter -/

mutual

theorem exprWeight_eraseSpans : (e : Expr) → exprWeight e.eraseSpans = exprWeight e
  | .intLiteral .. => rfl
  | .boolLiteral .. => rfl
  | .identifier .. => rfl
  | .binary _ left right _ => by
    rw [Expr.eraseSpans, exprWeight, exprWeight_eraseSpans left, exprWeight_eraseSpans right,
      exprWeight]
  | .unary _ operand _ => by
    rw [Expr.eraseSpans, exprWeight, exprWeight_eraseSpans operand, exprWeight]
  | .call _ args _ => by rw [Expr.eraseSpans, exprWeight, argsWeight_eraseSpans args, exprWeight]
  | .arrayIndex _ index _ => by
    rw [Expr.eraseSpans, exprWeight, exprWeight_eraseSpans index, exprWeight]
termination_by structural e => e

theorem argsWeight_eraseSpans : (args : List Expr) →
    argsWeight (eraseSpansList args) = argsWeight args
  | [] => rfl
  | arg :: args => by
    rw [eraseSpansList, argsWeight, exprWeight_eraseSpans arg, argsWeight_eraseSpans args,
      argsWeight]
termination_by structural args => args

end

mutual

theorem stmtWeight_eraseSpans : (stmt : Stmt) → stmtWeight stmt.eraseSpans = stmtWeight stmt
  | .varDecl _ _ none _ _ => rfl
  | .varDecl _ _ (some expr) _ _ => congrArg Nat.succ (exprWeight_eraseSpans expr)
  | .assign _ none value _ => congrArg Nat.succ (exprWeight_eraseSpans value)
  | .assign _ (some index) value _ => by
    rw [Stmt.eraseSpans, Option.map_some, stmtWeight, exprWeight_eraseSpans index,
      exprWeight_eraseSpans value, stmtWeight]
  | .ifStmt condition thenBody none _ => by
    rw [Stmt.eraseSpans, stmtWeight, exprWeight_eraseSpans condition,
      bodyWeight_eraseSpans thenBody, stmtWeight]
  | .ifStmt condition thenBody (some elseBody) _ => by
    rw [Stmt.eraseSpans, stmtWeight, exprWeight_eraseSpans condition,
      bodyWeight_eraseSpans thenBody, bodyWeight_eraseSpans elseBody, stmtWeight]
  | .whileStmt condition body _ => by
    rw [Stmt.eraseSpans, stmtWeight, exprWeight_eraseSpans condition, bodyWeight_eraseSpans body,
      stmtWeight]
  | .returnStmt value _ => congrArg Nat.succ (exprWeight_eraseSpans value)
  | .print value _ => congrArg Nat.succ (exprWeight_eraseSpans value)
  | .exprStmt expr _ => congrArg Nat.succ (exprWeight_eraseSpans expr)
termination_by structural stmt => stmt

theorem bodyWeight_eraseSpans : (body : List Stmt) →
    bodyWeight (eraseSpansStmts body) = bodyWeight body
  | [] => rfl
  | stmt :: stmts => by
    rw [eraseSpansStmts, bodyWeight, stmtWeight_eraseSpans stmt, bodyWeight_eraseSpans stmts,
      bodyWeight]
termination_by structural body => body

end

theorem weight_eraseSpans (program : Program) : weight program.eraseSpans = weight program := by
  have hfunctions (functions : List Function) :
      functionsWeight (functions.map Function.eraseSpans) = functionsWeight functions := by
    induction functions with
    | nil => rfl
    | cons function functions ih =>
      rw [List.map_cons, functionsWeight, Function.eraseSpans, bodyWeight_eraseSpans, ih,
        functionsWeight]
  rw [Program.eraseSpans, weight, List.length_map, hfunctions, weight]

theorem weight_congr {program program' : Program} (h : program'.eraseSpans = program.eraseSpans) :
    weight program' = weight program := by
  rw [← weight_eraseSpans program', h, weight_eraseSpans]

end MiniLang.Fuzz
