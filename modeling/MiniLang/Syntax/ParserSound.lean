import MiniLang.Lib.StateExcept
import MiniLang.Syntax.Parser
import MiniLang.Syntax.Grammar
import Mathlib.Tactic.Common

/-!
# Soundness of the parser

On a token list with a single, final `Eof`, every parsing function either stops with an error
message or consumes a derivable prefix and returns its tree. In particular no function asks for a
token past `Eof`, and fuel for the length of the list is enough.

## Specifications

`Parses s p D` is what each function is shown to do from the state `s`: it fails with a message, or
it consumes tokens `ts` and returns a value `a` with `D ts a`, where `D` is a derivation of the
grammar. There are rules for the few operations that look at a token, and every parsing function
follows from them along its own text. A function of the source that indexes past the list would
panic; under this specification it does not, because a token is consumed only after it has been
found not to be `Eof`.

## Fuel

The source recurses freely. In the model each recursive function has fuel, and `ParsesLevel` and
`ParsesStmt` are stated for all inputs no longer than it. A recursive call comes after a token was
consumed or at the next level of expressions; loops consume a token at each turn.
-/

namespace MiniLang

/-- The only `Eof` is the last token. -/
def EofEnded (s : List Token) : Prop :=
  ∃ body last, s = body ++ [last] ∧ last.kind = .eof ∧ ∀ t ∈ body, t.kind ≠ .eof

theorem EofEnded.exists_cons {s : List Token} (h : EofEnded s) : ∃ t r, s = t :: r := by
  obtain ⟨body, last, rfl, -⟩ := h
  cases body with
  | nil => exact ⟨last, [], rfl⟩
  | cons t r => exact ⟨t, r ++ [last], rfl⟩

theorem EofEnded.tail {t : Token} {s : List Token} (h : EofEnded (t :: s)) (ht : t.kind ≠ .eof) :
    EofEnded s := by
  obtain ⟨body, last, heq, hlast, hbody⟩ := h
  cases body with
  | nil =>
    obtain ⟨rfl, rfl⟩ := List.cons.inj heq
    exact absurd hlast ht
  | cons u body =>
    obtain ⟨rfl, rfl⟩ := List.cons.inj heq
    exact ⟨body, last, rfl, hlast, fun t ht ↦ hbody t (List.mem_cons_of_mem _ ht)⟩

theorem EofEnded.eq_nil {t : Token} {s : List Token} (h : EofEnded (t :: s)) (ht : t.kind = .eof) :
    s = [] := by
  obtain ⟨body, last, heq, hlast, hbody⟩ := h
  cases body with
  | nil => exact (List.cons.inj heq).2
  | cons u body =>
    obtain ⟨rfl, -⟩ := List.cons.inj heq
    exact absurd ht (hbody t List.mem_cons_self)

/-- Token kinds that carry a value; the discriminant does not tell those of one kind apart. -/
def TokenKind.hasPayload : TokenKind → Bool
  | .intLiteral _ | .boolLiteral _ | .identifier _ | .error _ => true
  | _ => false

theorem TokenKind.eq_of_ctorIdx {kind kind' : TokenKind} (hp : kind.hasPayload = false)
    (h : (kind'.ctorIdx == kind.ctorIdx) = true) : kind' = kind := by
  cases kind <;> first
    | exact absurd hp.symm Bool.false_ne_true
    | (cases kind' <;> first | rfl | exact absurd h Bool.false_ne_true)

namespace Parser

open Grammar

variable {α β : Type} {s : List Token}

/-! ## Specifications of parsing functions -/

/-- Started at `s`, `p` fails with a message or consumes tokens `ts` and returns some `a` with
`D ts a`. -/
def Parses (s : List Token) (p : ParserM α) (D : List TokenKind → α → Prop) : Prop :=
  match p.run s with
  | .ok a s' => ∃ ts, s.map Token.kind = ts ++ s'.map Token.kind ∧ EofEnded s' ∧ D ts a
  | .error e _ => ∃ message span, e = .error message span

namespace Parses

variable {D E : List TokenKind → α → Prop} {p : ParserM α}

theorem mono (h : Parses s p D) (hDE : ∀ ts a, D ts a → E ts a) : Parses s p E := by
  unfold Parses at *
  split
  · rename_i a s' hr
    rw [hr] at h
    obtain ⟨ts, hts, hs', hD⟩ := h
    exact ⟨ts, hts, hs', hDE ts a hD⟩
  · rename_i e s' hr
    rw [hr] at h
    exact h

theorem bind {F : List TokenKind → β → Prop} {f : α → ParserM β} (h : Parses s p D)
    (hf : ∀ a ts s', s.map Token.kind = ts ++ s'.map Token.kind → EofEnded s' → D ts a →
      Parses s' (f a) (fun us b ↦ F (ts ++ us) b)) : Parses s (p >>= f) F := by
  unfold Parses at *
  rw [EStateM.run_bind]
  cases hr : p.run s with
  | error e s' =>
    rw [hr] at h
    exact h
  | ok a s' =>
    rw [hr] at h
    obtain ⟨ts, hts, hs', hD⟩ := h
    have hk := hf a ts s' hts hs' hD
    show match (f a).run s' with | .ok b s'' => _ | .error e _ => _
    split
    · rename_i b s'' hr'
      rw [hr'] at hk
      obtain ⟨us, hus, hs'', hF⟩ := hk
      exact ⟨ts ++ us, by rw [hts, hus, List.append_assoc], hs'', hF⟩
    · rename_i e s'' hr'
      rw [hr'] at hk
      exact hk

theorem pure (hs : EofEnded s) {a : α} (h : D [] a) : Parses s (Pure.pure a) D :=
  ⟨[], rfl, hs, h⟩

theorem current_bind {t : Token} {r : List Token} {f : Token → ParserM α}
    (h : Parses (t :: r) (f t) D) : Parses (t :: r) (current >>= f) D := h

theorem error (hs : EofEnded s) (message : String) : Parses s (Parser.error message) D := by
  obtain ⟨t, r, rfl⟩ := hs.exists_cons
  exact ⟨message, t.span, rfl⟩

end Parses

theorem advance_parses {t : Token} {r : List Token} (hs : EofEnded (t :: r))
    (ht : t.kind ≠ .eof) : Parses (t :: r) advance (fun ts _ ↦ ts = [t.kind]) := by
  have hrun : advance.run (t :: r) = .ok () r := by
    show EStateM.run (if t.kind = .eof then _ else _) _ = _
    rw [if_neg ht]
    rfl
  unfold Parses
  rw [hrun]
  exact ⟨[t.kind], rfl, hs.tail ht, rfl⟩

theorem tail_parses {t : Token} {r : List Token} (hs : EofEnded (t :: r)) (ht : t.kind ≠ .eof) :
    Parses (t :: r) (modify List.tail) (fun ts _ ↦ ts = [t.kind]) :=
  ⟨[t.kind], rfl, hs.tail ht, rfl⟩

theorem matchToken_parses (hs : EofEnded s) {kind : TokenKind} (hp : kind.hasPayload = false)
    (hne : kind ≠ .eof) :
    Parses s (matchToken kind) (fun ts b ↦ ts = if b then [kind] else []) := by
  obtain ⟨t, r, rfl⟩ := hs.exists_cons
  by_cases hk : (t.kind.ctorIdx == kind.ctorIdx) = true
  · have hrun : (matchToken kind).run (t :: r) = .ok true r := by
      show EStateM.run (if (t.kind.ctorIdx == kind.ctorIdx) = true then _ else _) _ = _
      rw [if_pos hk]
      rfl
    have heq := TokenKind.eq_of_ctorIdx hp hk
    unfold Parses
    rw [hrun]
    exact ⟨[t.kind], rfl, hs.tail (heq ▸ hne), by rw [heq]; rfl⟩
  · have hrun : (matchToken kind).run (t :: r) = .ok false (t :: r) := by
      show EStateM.run (if (t.kind.ctorIdx == kind.ctorIdx) = true then _ else _) _ = _
      rw [if_neg hk]
      rfl
    unfold Parses
    rw [hrun]
    exact ⟨[], rfl, hs, rfl⟩

theorem expect_parses (hs : EofEnded s) {kind : TokenKind} (hp : kind.hasPayload = false)
    (hne : kind ≠ .eof) (message : String) :
    Parses s (expect kind message) (fun ts _ ↦ ts = [kind]) := by
  obtain ⟨t, r, rfl⟩ := hs.exists_cons
  by_cases hk : (t.kind.ctorIdx == kind.ctorIdx) = true
  · have hrun : (expect kind message).run (t :: r) = .ok () r := by
      show EStateM.run (if (t.kind.ctorIdx == kind.ctorIdx) = true then _ else _) _ = _
      rw [if_pos hk]
      rfl
    have heq := TokenKind.eq_of_ctorIdx hp hk
    unfold Parses
    rw [hrun]
    exact ⟨[t.kind], rfl, hs.tail (heq ▸ hne), by rw [heq]⟩
  · have hrun : (expect kind message).run (t :: r) = .error (.error message t.span) (t :: r) := by
      show EStateM.run (if (t.kind.ctorIdx == kind.ctorIdx) = true then _ else _) _ = _
      rw [if_neg hk]
      rfl
    unfold Parses
    rw [hrun]
    exact ⟨message, t.span, rfl⟩

theorem identifier_parses (hs : EofEnded s) (message : String) :
    Parses s (identifier message) (fun ts name ↦ ts = [.identifier name]) := by
  obtain ⟨t, r, rfl⟩ := hs.exists_cons
  refine .current_bind ?_
  split
  · rename_i name hk
    refine (advance_parses hs (by rw [hk]; simp)).bind fun _ ts s' _ hs' hts ↦ .pure hs' ?_
    rw [hts, hk]
    rfl
  · exact .error hs message

/-! ## Expressions -/

/-- `p` parses sentences of level `l` on inputs of length at most `n`. -/
def ParsesLevel (l : Level) (n : Nat) (p : ParserM Expr) : Prop :=
  ∀ s, EofEnded s → s.length ≤ n → Parses s p (fun ts e ↦ Derives l ts e.eraseSpans)

theorem length_le_of_kinds {s s' : List Token} {ts : List TokenKind}
    (h : s.map Token.kind = ts ++ s'.map Token.kind) : ts.length + s'.length = s.length := by
  have := congrArg List.length h
  simpa using this.symm

theorem parseBinaryLoop_parses {l : Level} {operator : TokenKind → Option BinaryOp}
    (hop : ∀ kind op, operator kind = some op → Operator l kind op) {n : Nat}
    {operand : ParserM Expr} (hoperand : ParsesLevel l.next n operand) :
    ∀ (fuel : Nat) (s : List Token) (left : Expr), EofEnded s → s.length ≤ fuel → s.length ≤ n →
      Parses s (parseBinaryLoop operator operand fuel left)
        (fun us e ↦ Chain l left.eraseSpans us e.eraseSpans)
  | 0, s, _, hs, hfuel, _ => by
    obtain ⟨t, r, rfl⟩ := hs.exists_cons
    simp at hfuel
  | fuel + 1, s, left, hs, hfuel, hn => by
    obtain ⟨t, r, rfl⟩ := hs.exists_cons
    unfold parseBinaryLoop
    refine .current_bind ?_
    split
    · exact .pure hs (.nil l _)
    · rename_i op hk
      have hop' := hop _ _ hk
      have hne : t.kind ≠ .eof := by
        intro heq
        rw [heq] at hop'
        cases hop'
      refine (tail_parses hs hne).bind fun _ ts s' hts hs' heq ↦ ?_
      subst heq
      have hlen := length_le_of_kinds hts
      simp only [List.length_cons] at hlen hfuel hn
      refine (hoperand s' hs' (by omega)).bind fun right us s'' hus hs'' hright ↦ ?_
      have hlen' := length_le_of_kinds hus
      refine (parseBinaryLoop_parses hop hoperand fuel s'' _ hs'' (by omega) (by omega)).mono
        fun vs e h ↦ ?_
      rw [Expr.eraseSpans] at h
      exact (Chain.cons hop' hright h :)

theorem parseBinaryLevel_parses {l : Level} (hl : l ≠ .unary ∧ l ≠ .primary)
    {operator : TokenKind → Option BinaryOp}
    (hop : ∀ kind op, operator kind = some op → Operator l kind op) {n fuel : Nat}
    {operand : ParserM Expr} (hoperand : ParsesLevel l.next n operand) (hfuel : n ≤ fuel) :
    ParsesLevel l n (parseBinaryLevel operator operand fuel) := by
  intro s hs hn
  refine (hoperand s hs hn).bind fun left ts s' hts hs' hleft ↦ ?_
  have hlen := length_le_of_kinds hts
  exact (parseBinaryLoop_parses hop hoperand fuel s' left hs' (by omega) (by omega)).mono
    fun us e h ↦ .chain hl hleft h

theorem operator_or (kind : TokenKind) (op : BinaryOp) (h : orOperator kind = some op) :
    Operator .or kind op := by
  unfold orOperator at h
  split at h <;> cases h
  exact .or

theorem operator_and (kind : TokenKind) (op : BinaryOp) (h : andOperator kind = some op) :
    Operator .and kind op := by
  unfold andOperator at h
  split at h <;> cases h
  exact .and

theorem operator_equality (kind : TokenKind) (op : BinaryOp)
    (h : equalityOperator kind = some op) : Operator .equality kind op := by
  unfold equalityOperator at h
  split at h <;> cases h <;> constructor

theorem operator_comparison (kind : TokenKind) (op : BinaryOp)
    (h : comparisonOperator kind = some op) : Operator .comparison kind op := by
  unfold comparisonOperator at h
  split at h <;> cases h <;> constructor

theorem operator_additive (kind : TokenKind) (op : BinaryOp)
    (h : additiveOperator kind = some op) : Operator .additive kind op := by
  unfold additiveOperator at h
  split at h <;> cases h <;> constructor

theorem operator_multiplicative (kind : TokenKind) (op : BinaryOp)
    (h : multiplicativeOperator kind = some op) : Operator .multiplicative kind op := by
  unfold multiplicativeOperator at h
  split at h <;> cases h <;> constructor

theorem parseArgsLoop_parses {n : Nat} {expr : ParserM Expr} (hexpr : ParsesLevel .or n expr) :
    ∀ (fuel : Nat) (s : List Token), EofEnded s → s.length ≤ fuel → s.length ≤ n + 1 →
      Parses s (parseArgsLoop expr fuel) (fun us es ↦ MoreArgs us (eraseSpansList es))
  | 0, s, hs, hfuel, _ => by
    obtain ⟨t, r, rfl⟩ := hs.exists_cons
    simp at hfuel
  | fuel + 1, s, hs, hfuel, hn => by
    unfold parseArgsLoop
    refine (matchToken_parses hs rfl (by simp)).bind fun b ts s' hts hs' heq ↦ ?_
    have hlen := length_le_of_kinds hts
    cases b with
    | false =>
      obtain rfl : ts = [] := heq
      exact .pure hs' .nil
    | true =>
      obtain rfl : ts = [.comma] := heq
      simp only [List.length_singleton] at hlen
      refine (hexpr s' hs' (by omega)).bind fun arg us s'' hus hs'' harg ↦ ?_
      have hlen' := length_le_of_kinds hus
      refine (parseArgsLoop_parses hexpr fuel s'' hs'' (by omega) (by omega)).bind
        fun args vs s₃ _ hs₃ hargs ↦ .pure hs₃ ?_
      rw [List.append_nil]
      exact (MoreArgs.cons harg hargs :)

theorem parseArgs_parses {n fuel : Nat} {expr : ParserM Expr} (hexpr : ParsesLevel .or n expr)
    (hs : EofEnded s) (hn : s.length ≤ n) (hfuel : n ≤ fuel) :
    Parses s (parseArgs expr fuel) (fun ts es ↦ ts = [] ∧ es = [] ∨
      ∃ us vs e es', ts = us ++ vs ∧ es = e :: es' ∧ Derives .or us e.eraseSpans ∧
        MoreArgs vs (eraseSpansList es')) := by
  obtain ⟨t, r, rfl⟩ := hs.exists_cons
  refine .current_bind ?_
  split
  · exact .pure hs (.inl ⟨rfl, rfl⟩)
  · refine (hexpr _ hs hn).bind fun arg us s' hus hs' harg ↦ ?_
    have hlen := length_le_of_kinds hus
    refine (parseArgsLoop_parses hexpr fuel s' hs' (by omega) (by omega)).bind
      fun args vs s'' _ hs'' hargs ↦ .pure hs'' (.inr ⟨us, vs, arg, args, ?_, rfl, harg, hargs⟩)
    rw [List.append_nil]

/-- The tokens after an identifier in a primary expression. -/
theorem parsePrimary_parses {n fuel : Nat} {expr : ParserM Expr} (hexpr : ParsesLevel .or n expr)
    (hfuel : n ≤ fuel) : ParsesLevel .primary (n + 1) (parsePrimary expr fuel) := by
  intro s hs hn
  obtain ⟨t, r, rfl⟩ := hs.exists_cons
  refine .current_bind ?_
  dsimp only
  split
  · rename_i value hk
    refine (advance_parses hs (by simp [hk])).bind fun _ ts s' _ hs' hts ↦ .pure hs' ?_
    rw [hts, hk]
    exact .intLiteral value
  · rename_i value hk
    refine (advance_parses hs (by simp [hk])).bind fun _ ts s' _ hs' hts ↦ .pure hs' ?_
    rw [hts, hk]
    exact .boolLiteral value
  · rename_i name hk
    refine (advance_parses hs (by simp [hk])).bind fun _ ts s' hts hs' heq ↦ ?_
    obtain rfl : ts = [.identifier name] := by rw [heq, hk]
    have hlen := length_le_of_kinds hts
    simp only [List.length_singleton] at hlen
    refine (matchToken_parses hs' rfl (by simp)).bind fun b us s₁ hus hs₁ hb ↦ ?_
    have hlen₁ := length_le_of_kinds hus
    cases b with
    | true =>
      obtain rfl : us = [.lParen] := hb
      refine (parseArgs_parses hexpr hs₁ (by omega) hfuel).bind fun args vs s₂ _ hs₂ hargs ↦ ?_
      refine (expect_parses hs₂ rfl (by simp) _).bind fun _ ws s₃ _ hs₃ hws ↦ .pure hs₃ ?_
      subst hws
      rcases hargs with ⟨rfl, rfl⟩ | ⟨us', vs', e, es, rfl, rfl, he, hes⟩
      · exact .callNone name
      · rw [List.append_nil]
        exact .call name he hes
    | false =>
      obtain rfl : us = [] := hb
      refine (matchToken_parses hs₁ rfl (by simp)).bind fun b us s₂ hus hs₂ hb ↦ ?_
      have hlen₂ := length_le_of_kinds hus
      cases b with
      | true =>
        obtain rfl : us = [.lBracket] := hb
        simp only [List.length_nil, List.length_singleton] at hlen₁ hlen₂
        refine (hexpr s₂ hs₂ (by omega)).bind fun index vs s₃ _ hs₃ hindex ↦ ?_
        refine (expect_parses hs₃ rfl (by simp) _).bind fun _ ws s₄ _ hs₄ hws ↦ .pure hs₄ ?_
        subst hws
        rw [List.append_nil]
        exact .arrayIndex name hindex
      | false =>
        obtain rfl : us = [] := hb
        exact .pure hs₂ (.identifier name)
  · refine (matchToken_parses hs rfl (by simp)).bind fun b us s₁ hus hs₁ hb ↦ ?_
    have hlen₁ := length_le_of_kinds hus
    cases b with
    | true =>
      obtain rfl : us = [.lParen] := hb
      simp only [List.length_cons] at hlen₁ hn
      refine (hexpr s₁ hs₁ (by omega)).bind fun inner vs s₂ _ hs₂ hinner ↦ ?_
      refine (expect_parses hs₂ rfl (by simp) _).bind fun _ ws s₃ _ hs₃ hws ↦ .pure hs₃ ?_
      subst hws
      rw [List.append_nil]
      exact .parens hinner
    | false => exact .error hs₁ _

theorem parseUnary_parses {n : Nat} {expr : ParserM Expr} (hexpr : ParsesLevel .or n expr) :
    ∀ fuel, fuel ≤ n + 1 → ParsesLevel .unary fuel (parseUnary expr fuel)
  | 0, _ => by
    intro s hs hfuel
    obtain ⟨t, r, rfl⟩ := hs.exists_cons
    simp at hfuel
  | fuel + 1, hle => by
    intro s hs hn
    have ih := parseUnary_parses hexpr fuel (by omega)
    obtain ⟨t, r, rfl⟩ := hs.exists_cons
    refine .current_bind ?_
    refine (matchToken_parses hs rfl (by simp)).bind fun b us s₁ hus hs₁ hb ↦ ?_
    have hlen₁ := length_le_of_kinds hus
    cases b with
    | true =>
      obtain rfl : us = [.minus] := hb
      simp only [List.length_singleton] at hlen₁
      refine (ih s₁ hs₁ (by omega)).bind fun operand vs s₂ _ hs₂ h ↦ .pure hs₂ ?_
      rw [List.append_nil]
      exact .neg h
    | false =>
      obtain rfl : us = [] := hb
      refine (matchToken_parses hs₁ rfl (by simp)).bind fun b us s₂ hus hs₂ hb ↦ ?_
      have hlen₂ := length_le_of_kinds hus
      simp only [List.length_nil] at hlen₁
      cases b with
      | true =>
        obtain rfl : us = [.not] := hb
        simp only [List.length_singleton] at hlen₂
        refine (ih s₂ hs₂ (by omega)).bind fun operand vs s₃ _ hs₃ h ↦ .pure hs₃ ?_
        rw [List.append_nil]
        exact .not h
      | false =>
        obtain rfl : us = [] := hb
        have hinner : ParsesLevel .or fuel expr := fun s hs hlen ↦ hexpr s hs (by omega)
        exact (parsePrimary_parses hinner (Nat.le_succ fuel) s₂ hs₂ (by
          simp only [List.length_nil] at hlen₂
          omega)).mono fun ts e h ↦ .primary h

theorem parseExpr_parses : ∀ fuel, ParsesLevel .or fuel (parseExpr fuel)
  | 0 => by
    intro s hs hfuel
    obtain ⟨t, r, rfl⟩ := hs.exists_cons
    simp at hfuel
  | fuel + 1 => by
    have hunary := parseUnary_parses (parseExpr_parses fuel) (fuel + 1) (Nat.le_refl _)
    have hmul : ParsesLevel .multiplicative (fuel + 1) (parseMultiplicative _ _) :=
      parseBinaryLevel_parses (by simp) operator_multiplicative hunary (Nat.le_refl _)
    have hadd : ParsesLevel .additive (fuel + 1) (parseAdditive _ _) :=
      parseBinaryLevel_parses (by simp) operator_additive hmul (Nat.le_refl _)
    have hcmp : ParsesLevel .comparison (fuel + 1) (parseComparison _ _) :=
      parseBinaryLevel_parses (by simp) operator_comparison hadd (Nat.le_refl _)
    have heq : ParsesLevel .equality (fuel + 1) (parseEquality _ _) :=
      parseBinaryLevel_parses (by simp) operator_equality hcmp (Nat.le_refl _)
    have hand : ParsesLevel .and (fuel + 1) (parseAnd _ _) :=
      parseBinaryLevel_parses (by simp) operator_and heq (Nat.le_refl _)
    exact parseBinaryLevel_parses (by simp) operator_or hand (Nat.le_refl _)

/-! ## Declarations and statements -/

theorem parseExpr_parses' {n : Nat} (hs : EofEnded s) (hlen : s.length ≤ n) :
    Parses s (parseExpr n) (fun ts e ↦ Derives .or ts e.eraseSpans) :=
  parseExpr_parses n s hs hlen

theorem parseType_parses (hs : EofEnded s) :
    Parses s parseType (fun ts t ↦ ∃ kind, ts = [kind] ∧ TypeToken kind t) := by
  obtain ⟨t, r, rfl⟩ := hs.exists_cons
  refine .current_bind ?_
  split
  · rename_i hk
    refine (advance_parses hs (by simp [hk])).bind fun _ ts s' _ hs' hts ↦ .pure hs' ?_
    rw [hts, hk]
    exact ⟨_, rfl, .int⟩
  · rename_i hk
    refine (advance_parses hs (by simp [hk])).bind fun _ ts s' _ hs' hts ↦ .pure hs' ?_
    rw [hts, hk]
    exact ⟨_, rfl, .bool⟩
  · exact .error hs _

/-- The closing semicolon of an initializer, an assignment or an expression statement. -/
theorem parseExpr_semicolon_parses {n : Nat} {f : Expr → α} (hs : EofEnded s)
    (hlen : s.length ≤ n) :
    Parses s (do
      let e ← parseExpr n
      expect .semicolon "Expected ';'"
      return f e)
      (fun ts a ↦ ∃ us e, ts = us ++ [.semicolon] ∧ a = f e ∧ Derives .or us e.eraseSpans) := by
  refine (parseExpr_parses' hs hlen).bind fun e us s₁ _ hs₁ he ↦ ?_
  refine (expect_parses hs₁ rfl (by simp) _).bind fun _ vs s₂ _ hs₂ hvs ↦ .pure hs₂ ?_
  subst hvs
  rw [List.append_nil]
  exact ⟨us, e, rfl, rfl, he⟩

theorem parseDeclarator_parses {n : Nat} (hs : EofEnded s) (hlen : s.length ≤ n) :
    Parses s (parseDeclarator n)
      (fun ts d ↦ Declarator ts d.1 (d.2.map Expr.eraseSpans)) := by
  refine (matchToken_parses hs rfl (by simp)).bind fun b us s₁ hus hs₁ hb ↦ ?_
  have hlen₁ := length_le_of_kinds hus
  cases b with
  | true =>
    obtain rfl : us = [.lBracket] := hb
    obtain ⟨t, r, rfl⟩ := hs₁.exists_cons
    refine .current_bind ?_
    split
    · rename_i size hk
      refine (advance_parses hs₁ (by simp [hk])).bind fun _ ts s₂ _ hs₂ hts ↦ ?_
      refine (expect_parses hs₂ rfl (by simp) _).bind fun _ vs s₃ _ hs₃ hvs ↦ ?_
      refine (expect_parses hs₃ rfl (by simp) _).bind fun _ ws s₄ _ hs₄ hws ↦ .pure hs₄ ?_
      subst hws hvs hts
      rw [hk]
      exact .array size
    · exact .error hs₁ _
  | false =>
    obtain rfl : us = [] := hb
    refine (matchToken_parses hs₁ rfl (by simp)).bind fun b us s₂ hus hs₂ hb ↦ ?_
    have hlen₂ := length_le_of_kinds hus
    cases b with
    | true =>
      obtain rfl : us = [.assign] := hb
      refine (parseExpr_semicolon_parses (f := fun e ↦ ((none, some e) : Option Int32 × Option Expr))
        hs₂ (by omega)).mono fun ts d h ↦ ?_
      obtain ⟨vs, e, rfl, rfl, he⟩ := h
      exact .init he
    | false =>
      obtain rfl : us = [] := hb
      refine (expect_parses hs₂ rfl (by simp) _).bind fun _ ws s₃ _ hs₃ hws ↦ .pure hs₃ ?_
      subst hws
      exact .plain

theorem parseVarDecl_parses {fuel : Nat} (hs : EofEnded s) (hlen : s.length ≤ fuel) :
    Parses s (parseVarDecl fuel) (fun ts st ↦ StmtDerives ts st.eraseSpans) := by
  obtain ⟨t, r, rfl⟩ := hs.exists_cons
  refine .current_bind ?_
  refine (parseType_parses hs).bind fun varType us s₁ hus hs₁ ⟨kind, heq, ht⟩ ↦ ?_
  have hlen₁ := length_le_of_kinds hus
  refine (identifier_parses hs₁ _).bind fun name vs s₂ hvs hs₂ hname ↦ ?_
  have hlen₂ := length_le_of_kinds hvs
  refine (parseDeclarator_parses (n := fuel) hs₂ (by omega)).bind fun d ws s₃ _ hs₃ hd ↦
    .pure hs₃ ?_
  subst heq hname
  rw [List.append_nil]
  exact .varDecl ht name hd

theorem parseGlobal_parses {fuel : Nat} (hs : EofEnded s) (hlen : s.length ≤ fuel) :
    Parses s (parseGlobal fuel) (fun ts g ↦ GlobalDerives ts g.eraseSpans) := by
  obtain ⟨t, r, rfl⟩ := hs.exists_cons
  refine .current_bind ?_
  refine (parseType_parses hs).bind fun varType us s₁ hus hs₁ ⟨kind, heq, ht⟩ ↦ ?_
  have hlen₁ := length_le_of_kinds hus
  refine (identifier_parses hs₁ _).bind fun name vs s₂ hvs hs₂ hname ↦ ?_
  have hlen₂ := length_le_of_kinds hvs
  refine (parseDeclarator_parses (n := fuel) hs₂ (by omega)).bind fun d ws s₃ _ hs₃ hd ↦
    .pure hs₃ ?_
  subst heq hname
  rw [List.append_nil]
  exact .globalDecl ht name hd

/-- The scan never runs past the `Eof`. -/
theorem scanAssignment_ne_none : ∀ (s : List Token) (depth : Nat), EofEnded s →
    scanAssignment depth (s.map Token.kind) ≠ none
  | [], _, hs => by
    obtain ⟨t, r, h⟩ := hs.exists_cons
    cases h
  | t :: r, depth, hs => by
    rw [List.map_cons]
    by_cases heof : t.kind = .eof
    · rw [heof]
      simp [scanAssignment]
    · have hr := hs.tail heof
      unfold scanAssignment
      split
      · rename_i h
        cases h
      · rename_i h
        obtain ⟨-, rfl⟩ := List.cons.inj h
        exact scanAssignment_ne_none r _ hr
      · rename_i h
        obtain ⟨-, rfl⟩ := List.cons.inj h
        split
        · obtain ⟨u, r', rfl⟩ := hr.exists_cons
          simp
        · exact scanAssignment_ne_none r _ hr
      · simp
      · rename_i h
        obtain ⟨-, rfl⟩ := List.cons.inj h
        exact scanAssignment_ne_none r _ hr

/-- A lookahead that comes to a result consumes nothing. -/
theorem run_isAssignmentStart {b : Bool} (h : assignmentAhead (s.map Token.kind) = some b) :
    isAssignmentStart.run s = .ok b s := by
  have hget : EStateM.run (get : ParserM (List Token)) s = .ok s s := rfl
  rw [isAssignmentStart, EStateM.run_bind, hget]
  dsimp only
  rw [h]
  rfl

theorem isAssignmentStart_parses {t : Token} {r : List Token} (hs : EofEnded (t :: r))
    {name : String} (ht : t.kind = .identifier name) :
    Parses (t :: r) isAssignmentStart (fun ts _ ↦ ts = []) := by
  have hr := hs.tail (by simp [ht])
  have hsome : assignmentAhead ((t :: r).map Token.kind) ≠ none := by
    obtain ⟨u, r', rfl⟩ := hr.exists_cons
    rw [List.map_cons, ht, List.map_cons]
    unfold assignmentAhead
    simp only [List.head?_cons]
    split
    · cases ‹_›
    · simp
    · rw [← List.map_cons]
      exact scanAssignment_ne_none _ _ hr
    · simp
  obtain ⟨b, hb⟩ := Option.ne_none_iff_exists'.mp hsome
  have hrun := run_isAssignmentStart hb
  unfold Parses
  rw [hrun]
  exact ⟨[], rfl, hs, rfl⟩

theorem parseAssignment_parses {fuel : Nat} (hs : EofEnded s) (hlen : s.length ≤ fuel) :
    Parses s (parseAssignment fuel) (fun ts st ↦ StmtDerives ts st.eraseSpans) := by
  obtain ⟨t, r, rfl⟩ := hs.exists_cons
  refine .current_bind ?_
  refine (identifier_parses hs _).bind fun name us s₁ hus hs₁ hname ↦ ?_
  have hlen₁ := length_le_of_kinds hus
  subst hname
  refine (matchToken_parses hs₁ rfl (by simp)).bind fun b vs s₂ hvs hs₂ hb ↦ ?_
  have hlen₂ := length_le_of_kinds hvs
  cases b with
  | true =>
    obtain rfl : vs = [.lBracket] := hb
    refine (parseExpr_parses' (n := fuel) hs₂ (by omega)).bind fun index ws s₃ hws hs₃ hi ↦ ?_
    have hlen₃ := length_le_of_kinds hws
    refine (expect_parses hs₃ rfl (by simp) _).bind fun _ xs s₄ hxs hs₄ hb₁ ↦ ?_
    have hlen₄ := length_le_of_kinds hxs
    refine (expect_parses hs₄ rfl (by simp) _).bind fun _ ys s₅ hys hs₅ hb₂ ↦ ?_
    have hlen₅ := length_le_of_kinds hys
    subst hb₁ hb₂
    refine (parseExpr_semicolon_parses (f := fun value ↦ Stmt.assign name (some index) value t.span)
      (n := fuel) hs₅ (by omega)).mono fun ts st h ↦ ?_
    obtain ⟨zs, e, rfl, rfl, he⟩ := h
    exact .assignElement name hi he
  | false =>
    obtain rfl : vs = [] := hb
    refine (matchToken_parses hs₂ rfl (by simp)).bind fun b ws s₃ hws hs₃ hb ↦ ?_
    have hlen₃ := length_le_of_kinds hws
    cases b with
    | true =>
      obtain rfl : ws = [.assign] := hb
      refine (parseExpr_semicolon_parses (f := fun value ↦ Stmt.assign name none value t.span)
        (n := fuel) hs₃ (by omega)).mono fun ts st h ↦ ?_
      obtain ⟨zs, e, rfl, rfl, he⟩ := h
      exact .assign name he
    | false => exact .error hs₃ _

theorem parseReturn_parses {fuel : Nat} (hs : EofEnded s) (hlen : s.length ≤ fuel) :
    Parses s (parseReturn fuel) (fun ts st ↦ StmtDerives ts st.eraseSpans) := by
  obtain ⟨t, r, rfl⟩ := hs.exists_cons
  refine .current_bind ?_
  refine (expect_parses hs rfl (by simp) _).bind fun _ us s₁ hus hs₁ heq ↦ ?_
  have hlen₁ := length_le_of_kinds hus
  subst heq
  refine (parseExpr_semicolon_parses (f := fun value ↦ Stmt.returnStmt value t.span)
    (n := fuel) hs₁ (by omega)).mono fun ts st h ↦ ?_
  obtain ⟨vs, e, rfl, rfl, he⟩ := h
  exact .returnStmt he

theorem parsePrint_parses {fuel : Nat} (hs : EofEnded s) (hlen : s.length ≤ fuel) :
    Parses s (parsePrint fuel) (fun ts st ↦ StmtDerives ts st.eraseSpans) := by
  obtain ⟨t, r, rfl⟩ := hs.exists_cons
  refine .current_bind ?_
  refine (expect_parses hs rfl (by simp) _).bind fun _ us s₁ hus hs₁ heq ↦ ?_
  have hlen₁ := length_le_of_kinds hus
  subst heq
  refine (parseExpr_semicolon_parses (f := fun value ↦ Stmt.print value t.span)
    (n := fuel) hs₁ (by omega)).mono fun ts st h ↦ ?_
  obtain ⟨vs, e, rfl, rfl, he⟩ := h
  exact .print he

theorem parseExprStmt_parses {fuel : Nat} (hs : EofEnded s) (hlen : s.length ≤ fuel) :
    Parses s (parseExprStmt fuel) (fun ts st ↦ StmtDerives ts st.eraseSpans) := by
  obtain ⟨t, r, rfl⟩ := hs.exists_cons
  refine .current_bind ?_
  refine (parseExpr_semicolon_parses (f := fun e ↦ Stmt.exprStmt e t.span)
    (n := fuel) hs hlen).mono fun ts st h ↦ ?_
  obtain ⟨vs, e, rfl, rfl, he⟩ := h
  exact .exprStmt he

/-- `stmt` parses statements on inputs of length at most `n`. -/
def ParsesStmt (n : Nat) (stmt : ParserM Stmt) : Prop :=
  ∀ s, EofEnded s → s.length ≤ n → Parses s stmt (fun ts st ↦ StmtDerives ts st.eraseSpans)

theorem stmtDerives_ne_nil {ts : List TokenKind} {st : Stmt} (h : StmtDerives ts st) : ts ≠ [] := by
  cases h <;> simp

theorem parseStmts_parses {n : Nat} {stmt : ParserM Stmt} (hstmt : ParsesStmt n stmt) :
    ∀ (fuel : Nat) (s : List Token), EofEnded s → s.length ≤ fuel → s.length ≤ n →
      Parses s (parseStmts stmt fuel) (fun ts ss ↦ StmtsDerive ts (eraseSpansStmts ss))
  | 0, s, hs, hfuel, _ => by
    obtain ⟨t, r, rfl⟩ := hs.exists_cons
    simp at hfuel
  | fuel + 1, s, hs, hfuel, hn => by
    obtain ⟨t, r, rfl⟩ := hs.exists_cons
    refine .current_bind ?_
    show Parses (t :: r) (if t.kind = .rBrace ∨ t.kind = .eof then _ else _) _
    split
    · exact .pure hs .nil
    · refine (hstmt _ hs hn).bind fun st us s₁ hus hs₁ hst ↦ ?_
      have hlen := length_le_of_kinds hus
      have hpos := List.length_pos_iff.mpr (stmtDerives_ne_nil hst)
      refine (parseStmts_parses hstmt fuel s₁ hs₁ (by omega) (by omega)).bind
        fun ss vs s₂ _ hs₂ hss ↦ .pure hs₂ ?_
      rw [List.append_nil]
      exact .cons hst hss

theorem parseBlock_parses {n fuel : Nat} {stmt : ParserM Stmt} (hstmt : ParsesStmt n stmt)
    (hs : EofEnded s) (hn : s.length ≤ n + 1) (hfuel : n ≤ fuel) :
    Parses s (parseBlock stmt fuel) (fun ts ss ↦ BlockDerives ts (eraseSpansStmts ss)) := by
  refine (expect_parses hs rfl (by simp) _).bind fun _ us s₁ hus hs₁ heq ↦ ?_
  have hlen := length_le_of_kinds hus
  subst heq
  simp only [List.length_singleton] at hlen
  refine (parseStmts_parses hstmt fuel s₁ hs₁ (by omega) (by omega)).bind
    fun ss vs s₂ _ hs₂ hss ↦ ?_
  refine (expect_parses hs₂ rfl (by simp) _).bind fun _ ws s₃ _ hs₃ hws ↦ .pure hs₃ ?_
  subst hws
  rw [List.append_nil]
  exact .block hss

/-- The head `keyword "(" expr ")"` that `if` and `while` share. -/
theorem parseCondition_parses {D : List TokenKind → α → Prop} {keyword : TokenKind}
    (hp : keyword.hasPayload = false) (hne : keyword ≠ .eof) {message : String} {fuel : Nat}
    {f : Expr → ParserM α} (hs : EofEnded s) (hlen : s.length ≤ fuel)
    (hf : ∀ condition ts s', EofEnded s' → s'.length < s.length →
      Derives .or ts condition.eraseSpans → Parses s' (f condition)
        (fun us a ↦ D (keyword :: .lParen :: (ts ++ .rParen :: us)) a)) :
    Parses s (do
      expect keyword message
      expect .lParen "Expected '('"
      let condition ← parseExpr fuel
      expect .rParen "Expected ')'"
      f condition) D := by
  refine (expect_parses hs hp hne _).bind fun _ us s₁ hus hs₁ heq ↦ ?_
  have hlen₁ := length_le_of_kinds hus
  subst heq
  refine (expect_parses hs₁ rfl (by simp) _).bind fun _ us s₂ hus hs₂ heq ↦ ?_
  have hlen₂ := length_le_of_kinds hus
  subst heq
  refine (parseExpr_parses' (n := fuel) hs₂ (by omega)).bind fun condition ts s₃ hts hs₃ hc ↦ ?_
  have hlen₃ := length_le_of_kinds hts
  refine (expect_parses hs₃ rfl (by simp) _).bind fun _ us s₄ hus hs₄ heq ↦ ?_
  have hlen₄ := length_le_of_kinds hus
  subst heq
  simp only [List.length_singleton] at hlen₁
  refine (hf condition ts s₄ hs₄ (by omega) hc).mono fun vs a h ↦ ?_
  simpa using h

theorem parseIf_parses {n : Nat} {stmt : ParserM Stmt} (hstmt : ParsesStmt n stmt)
    (hs : EofEnded s) (hlen : s.length ≤ n + 1) :
    Parses s (parseIf stmt (n + 1)) (fun ts st ↦ StmtDerives ts st.eraseSpans) := by
  obtain ⟨t, r, rfl⟩ := hs.exists_cons
  refine .current_bind (parseCondition_parses rfl (by simp) hs hlen
    fun condition ts s₁ hs₁ hlen₁ hc ↦ ?_)
  refine (parseBlock_parses hstmt hs₁ (by omega) (Nat.le_succ n)).bind
    fun body us s₂ hus hs₂ hbody ↦ ?_
  have hlen₂ := length_le_of_kinds hus
  refine (matchToken_parses hs₂ rfl (by simp)).bind fun b vs s₃ hvs hs₃ hb ↦ ?_
  have hlen₃ := length_le_of_kinds hvs
  cases b with
  | true =>
    obtain rfl : vs = [.kwElse] := hb
    refine (parseBlock_parses hstmt hs₃ (by omega) (Nat.le_succ n)).bind
      fun elseBody ws s₄ _ hs₄ helse ↦ .pure hs₄ ?_
    rw [List.append_nil]
    exact .ifElse hc hbody helse
  | false =>
    obtain rfl : vs = [] := hb
    refine .pure hs₃ ?_
    rw [List.append_nil, List.append_nil]
    exact .ifThen hc hbody

theorem parseWhile_parses {n : Nat} {stmt : ParserM Stmt} (hstmt : ParsesStmt n stmt)
    (hs : EofEnded s) (hlen : s.length ≤ n + 1) :
    Parses s (parseWhile stmt (n + 1)) (fun ts st ↦ StmtDerives ts st.eraseSpans) := by
  obtain ⟨t, r, rfl⟩ := hs.exists_cons
  refine .current_bind (parseCondition_parses rfl (by simp) hs hlen
    fun condition ts s₁ hs₁ hlen₁ hc ↦ ?_)
  refine (parseBlock_parses hstmt hs₁ (by omega) (Nat.le_succ n)).bind
    fun body us s₂ _ hs₂ hbody ↦ .pure hs₂ ?_
  rw [List.append_nil]
  exact .whileStmt hc hbody

theorem parseStmt_parses : ∀ fuel, ParsesStmt fuel (parseStmt fuel)
  | 0 => by
    intro s hs hfuel
    obtain ⟨t, r, rfl⟩ := hs.exists_cons
    simp at hfuel
  | fuel + 1 => by
    intro s hs hlen
    obtain ⟨t, r, rfl⟩ := hs.exists_cons
    refine .current_bind ?_
    cases hk : t.kind with
    | kwInt => exact parseVarDecl_parses hs hlen
    | kwBool => exact parseVarDecl_parses hs hlen
    | kwIf => exact parseIf_parses (parseStmt_parses fuel) hs hlen
    | kwWhile => exact parseWhile_parses (parseStmt_parses fuel) hs hlen
    | kwReturn => exact parseReturn_parses hs hlen
    | kwPrint => exact parsePrint_parses hs hlen
    | identifier name =>
      refine (isAssignmentStart_parses hs hk).bind fun b us s₁ hus hs₁ heq ↦ ?_
      have hlen₁ := length_le_of_kinds hus
      subst heq
      cases b with
      | true => exact parseAssignment_parses hs₁ (by omega)
      | false => exact parseExprStmt_parses hs₁ (by omega)
    | intLiteral | boolLiteral | lParen | minus | not => exact parseExprStmt_parses hs hlen
    | _ => exact .error hs _

/-! ## Programs -/

theorem parseParam_parses (hs : EofEnded s) :
    Parses s parseParam (fun ts p ↦ ParamDerives ts p.eraseSpans) := by
  obtain ⟨t, r, rfl⟩ := hs.exists_cons
  refine .current_bind ?_
  refine (parseType_parses hs).bind fun paramType us s₁ _ hs₁ ⟨kind, heq, ht⟩ ↦ ?_
  refine (identifier_parses hs₁ _).bind fun name vs s₂ _ hs₂ hname ↦ .pure hs₂ ?_
  subst heq hname
  exact .param ht name

theorem parseParamsLoop_parses : ∀ (fuel : Nat) (s : List Token), EofEnded s → s.length ≤ fuel →
    Parses s (parseParamsLoop fuel) (fun ts ps ↦ MoreParams ts (ps.map Param.eraseSpans))
  | 0, s, hs, hfuel => by
    obtain ⟨t, r, rfl⟩ := hs.exists_cons
    simp at hfuel
  | fuel + 1, s, hs, hfuel => by
    refine (matchToken_parses hs rfl (by simp)).bind fun b us s₁ hus hs₁ hb ↦ ?_
    have hlen₁ := length_le_of_kinds hus
    cases b with
    | true =>
      obtain rfl : us = [.comma] := hb
      refine (parseParam_parses hs₁).bind fun param vs s₂ hvs hs₂ hp ↦ ?_
      have hlen₂ := length_le_of_kinds hvs
      simp only [List.length_singleton] at hlen₁
      refine (parseParamsLoop_parses fuel s₂ hs₂ (by omega)).bind
        fun params ws s₃ _ hs₃ hps ↦ .pure hs₃ ?_
      rw [List.append_nil]
      exact (MoreParams.cons hp hps :)
    | false =>
      obtain rfl : us = [] := hb
      exact .pure hs₁ .nil

theorem parseParams_parses {n : Nat} (hs : EofEnded s) (hlen : s.length ≤ n) :
    Parses s (parseParams n) (fun ts ps ↦ ParamsDerive ts (ps.map Param.eraseSpans)) := by
  obtain ⟨t, r, rfl⟩ := hs.exists_cons
  refine .current_bind ?_
  split
  · exact .pure hs .none
  · refine (parseParam_parses hs).bind fun param vs s₁ hvs hs₁ hp ↦ ?_
    have hlen₁ := length_le_of_kinds hvs
    refine (parseParamsLoop_parses n s₁ hs₁ (by omega)).bind
      fun params ws s₂ _ hs₂ hps ↦ .pure hs₂ ?_
    rw [List.append_nil]
    exact .params hp hps

theorem parseFunction_parses {fuel : Nat} (hs : EofEnded s) (hlen : s.length ≤ fuel) :
    Parses s (parseFunction fuel) (fun ts f ↦ FunctionDerives ts f.eraseSpans) := by
  obtain ⟨t, r, rfl⟩ := hs.exists_cons
  refine .current_bind ?_
  refine (expect_parses hs rfl (by simp) _).bind fun _ us s₁ hus hs₁ heq ↦ ?_
  have hlen₁ := length_le_of_kinds hus
  subst heq
  refine (identifier_parses hs₁ _).bind fun name us s₂ hus hs₂ heq ↦ ?_
  have hlen₂ := length_le_of_kinds hus
  subst heq
  refine (expect_parses hs₂ rfl (by simp) _).bind fun _ us s₃ hus hs₃ heq ↦ ?_
  have hlen₃ := length_le_of_kinds hus
  subst heq
  refine (parseParams_parses (n := fuel) hs₃ (by omega)).bind fun params ps s₄ hus hs₄ hp ↦ ?_
  have hlen₄ := length_le_of_kinds hus
  refine (expect_parses hs₄ rfl (by simp) _).bind fun _ us s₅ hus hs₅ heq ↦ ?_
  have hlen₅ := length_le_of_kinds hus
  subst heq
  refine (parseBlock_parses (parseStmt_parses fuel) hs₅ (by omega) (Nat.le_refl _)).bind
    fun body us s₆ _ hs₆ hb ↦ .pure hs₆ ?_
  rw [List.append_nil]
  exact .function name hp hb

theorem globalDerives_ne_nil {ts : List TokenKind} {g : GlobalVar} (h : GlobalDerives ts g) :
    ts ≠ [] := by
  cases h
  simp

theorem functionDerives_ne_nil {ts : List TokenKind} {f : Function} (h : FunctionDerives ts f) :
    ts ≠ [] := by
  cases h
  simp

theorem parseProgram_parses {n : Nat} : ∀ (fuel : Nat) (s : List Token), EofEnded s →
    s.length ≤ fuel → s.length ≤ n → Parses s (parseProgram n fuel)
      (fun ts p ↦ ProgramDerives ts p.eraseSpans)
  | 0, s, hs, hfuel, _ => by
    obtain ⟨t, r, rfl⟩ := hs.exists_cons
    simp at hfuel
  | fuel + 1, s, hs, hfuel, hinner => by
    obtain ⟨t, r, rfl⟩ := hs.exists_cons
    have hglobal : Parses (t :: r) (do
        let global ← parseGlobal n
        let program ← parseProgram n fuel
        return { program with globals := global :: program.globals })
        (fun ts p ↦ ProgramDerives ts p.eraseSpans) := by
      refine (parseGlobal_parses hs hinner).bind fun g us s₁ hus hs₁ hg ↦ ?_
      have hlen := length_le_of_kinds hus
      have hpos := List.length_pos_iff.mpr (globalDerives_ne_nil hg)
      refine (parseProgram_parses fuel s₁ hs₁ (by omega) (by omega)).bind
        fun p vs s₂ _ hs₂ hp ↦ .pure hs₂ ?_
      rw [List.append_nil]
      exact .globalDecl hg hp
    refine .current_bind ?_
    split
    · exact .pure hs .nil
    · refine (parseFunction_parses hs hinner).bind fun f us s₁ hus hs₁ hf ↦ ?_
      have hlen := length_le_of_kinds hus
      have hpos := List.length_pos_iff.mpr (functionDerives_ne_nil hf)
      refine (parseProgram_parses fuel s₁ hs₁ (by omega) (by omega)).bind
        fun p vs s₂ _ hs₂ hp ↦ .pure hs₂ ?_
      rw [List.append_nil]
      exact .function hf hp
    · exact hglobal
    · exact hglobal
    · exact .error hs _

end Parser

end MiniLang
