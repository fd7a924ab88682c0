import MiniLang.Syntax.ParserSound

/-!
# Completeness of the parser

Every derivable token list is accepted, whatever follows it that cannot continue it, with the tree
of the derivation.

## What may follow

A derivation says nothing of the tokens after it, but the parser takes as much as it can. A sentence
of a level is parsed as a whole only if what follows is no operator of that level or of a tighter
one, no bracket and no parenthesis: `Follow`. The condition is carried through the levels. In the
grammar each expression is closed by a token that meets it for all levels (`follow_of_mem`).

## The lookahead for assignments

A statement that begins with a name is an assignment if an `=` comes where the left side ends. The
source finds out by a scan that counts brackets and stops at a semicolon. That it says no for every
expression statement is a fact about sentences: there is no `=` in an expression, and its brackets
are balanced (`scan_inside`, `ScansOver`). That it says yes for an assignment to an element needs
the same of the index. Here derivations are followed by induction, since the scan knows no levels.

## Positions

The grammar has no positions and the tree of the parser does, so that a result is compared after
they are erased.
-/

namespace MiniLang

namespace Parser

open Grammar

variable {α β γ : Type}

/-! ## Accepting runs -/

/-- On tokens of the kinds `ts` followed by `rest`, `p` consumes exactly `ts` and returns a value
that `erase` maps to `b`. -/
def Accepts (p : ParserM α) (erase : α → β) (ts rest : List TokenKind) (b : β) : Prop :=
  ∀ s, s.map Token.kind = ts ++ rest →
    ∃ a s', p.run s = .ok a s' ∧ s'.map Token.kind = rest ∧ erase a = b

namespace Accepts

variable {p : ParserM α} {erase : α → β} {ts us rest : List TokenKind} {b : β}

theorem pure {a : α} (h : erase a = b) : Accepts (Pure.pure a) erase [] rest b :=
  fun s hs ↦ ⟨a, s, rfl, hs, h⟩

theorem bind {δ : Type} {f : α → ParserM γ} {erase' : γ → δ} {c : δ}
    (hp : Accepts p erase ts (us ++ rest) b)
    (hf : ∀ a, erase a = b → Accepts (f a) erase' us rest c) :
    Accepts (p >>= f) erase' (ts ++ us) rest c := by
  intro s hs
  obtain ⟨a, s', hr, hs', ha⟩ := hp s (by rw [hs, List.append_assoc])
  obtain ⟨a', s'', hr', hs'', ha'⟩ := hf a ha s' hs'
  exact ⟨a', s'', by rw [EStateM.run_bind, hr]; exact hr', hs'', ha'⟩

theorem current_bind {f : Token → ParserM α} {k : TokenKind} {r : List TokenKind}
    (hk : ts ++ rest = k :: r) (hf : ∀ t, t.kind = k → Accepts (f t) erase ts rest b) :
    Accepts (current >>= f) erase ts rest b := by
  intro s hs
  rw [hk] at hs
  obtain ⟨t, s', rfl, ht, hs'⟩ := List.map_eq_cons_iff.mp hs
  exact hf t ht (t :: s') (by rw [hk]; simp [ht, hs'])

theorem advance_bind {f : Unit → ParserM α} {kind : TokenKind} (hk : kind ≠ .eof)
    (hf : Accepts (f ()) erase ts rest b) :
    Accepts (advance >>= f) erase (kind :: ts) rest b := by
  intro s hs
  obtain ⟨t, s', rfl, rfl, hs'⟩ := List.map_eq_cons_iff.mp hs
  have hrun : advance.run (t :: s') = .ok () s' := by
    show EStateM.run (if t.kind = .eof then _ else _) _ = _
    rw [if_neg hk]
    rfl
  obtain ⟨a, s'', hr, h⟩ := hf s' hs'
  exact ⟨a, s'', by rw [EStateM.run_bind, hrun]; exact hr, h⟩

theorem tail_bind {f : Unit → ParserM α} {kind : TokenKind} (hf : Accepts (f ()) erase ts rest b) :
    Accepts (modify List.tail >>= f) erase (kind :: ts) rest b := by
  intro s hs
  obtain ⟨t, s', rfl, rfl, hs'⟩ := List.map_eq_cons_iff.mp hs
  exact hf s' hs'

theorem matchToken_bind {f : Bool → ParserM α} {kind : TokenKind}
    (hf : Accepts (f true) erase ts rest b) :
    Accepts (matchToken kind >>= f) erase (kind :: ts) rest b := by
  intro s hs
  obtain ⟨t, s', rfl, rfl, hs'⟩ := List.map_eq_cons_iff.mp hs
  have hrun : (matchToken t.kind).run (t :: s') = .ok true s' := by
    show EStateM.run (if (t.kind.ctorIdx == t.kind.ctorIdx) = true then _ else _) _ = _
    rw [if_pos (beq_self_eq_true _)]
    rfl
  obtain ⟨a, s'', hr, h⟩ := hf s' hs'
  exact ⟨a, s'', by rw [EStateM.run_bind, hrun]; exact hr, h⟩

theorem noMatch_bind {f : Bool → ParserM α} {kind k : TokenKind} {r : List TokenKind}
    (hp : kind.hasPayload = false) (hk : ts ++ rest = k :: r) (hne : k ≠ kind)
    (hf : Accepts (f false) erase ts rest b) :
    Accepts (matchToken kind >>= f) erase ts rest b := by
  intro s hs
  have hs' := hs
  rw [hk] at hs'
  obtain ⟨t, s', rfl, rfl, -⟩ := List.map_eq_cons_iff.mp hs'
  have hrun : (matchToken kind).run (t :: s') = .ok false (t :: s') := by
    show EStateM.run (if (t.kind.ctorIdx == kind.ctorIdx) = true then _ else _) _ = _
    rw [if_neg fun h ↦ hne (TokenKind.eq_of_ctorIdx hp h)]
    rfl
  obtain ⟨a, s'', hr, h⟩ := hf (t :: s') hs
  exact ⟨a, s'', by rw [EStateM.run_bind, hrun]; exact hr, h⟩

theorem expect_bind {f : Unit → ParserM α} {kind : TokenKind} {message : String}
    (hf : Accepts (f ()) erase ts rest b) :
    Accepts (expect kind message >>= f) erase (kind :: ts) rest b := by
  intro s hs
  obtain ⟨t, s', rfl, rfl, hs'⟩ := List.map_eq_cons_iff.mp hs
  have hrun : (expect t.kind message).run (t :: s') = .ok () s' := by
    show EStateM.run (if (t.kind.ctorIdx == t.kind.ctorIdx) = true then _ else _) _ = _
    rw [if_pos (beq_self_eq_true _)]
    rfl
  obtain ⟨a, s'', hr, h⟩ := hf s' hs'
  exact ⟨a, s'', by rw [EStateM.run_bind, hrun]; exact hr, h⟩

theorem identifier (name message : String) :
    Accepts (identifier message) id [.identifier name] rest name := by
  refine .current_bind rfl fun t ht ↦ ?_
  rw [ht]
  exact .advance_bind (by simp) (.pure rfl)

theorem identifier_bind {f : String → ParserM α} {name message : String}
    (hf : Accepts (f name) erase ts rest b) :
    Accepts (Parser.identifier message >>= f) erase (.identifier name :: ts) rest b :=
  bind (identifier name message) fun a ha ↦ by
    obtain rfl : a = name := ha
    exact hf

end Accepts

/-! ## What can follow an expression -/

/-- The kinds of the first token of an expression. -/
def StartsPrimary : TokenKind → Prop
  | .intLiteral _ | .boolLiteral _ | .identifier _ | .lParen => True
  | _ => False

def StartsExpr (kind : TokenKind) : Prop := StartsPrimary kind ∨ kind = .minus ∨ kind = .not

theorem primary_head {ts : List TokenKind} {e : Expr} (h : Derives .primary ts e) :
    ∃ k r, ts = k :: r ∧ StartsPrimary k := by
  cases h with
  | chain hl => exact absurd rfl hl.2
  | intLiteral | boolLiteral | identifier | arrayIndex | callNone | call | parens =>
    exact ⟨_, _, rfl, trivial⟩

theorem derives_head : ∀ {l : Level} {ts : List TokenKind} {e : Expr}, Derives l ts e →
    ∃ k r, ts = k :: r ∧ StartsExpr k
  | _, _, _, .chain _ h _ => by
    obtain ⟨k, r, rfl, hk⟩ := derives_head h
    exact ⟨k, _, rfl, hk⟩
  | _, _, _, .neg _ => ⟨_, _, rfl, .inr (.inl rfl)⟩
  | _, _, _, .not _ => ⟨_, _, rfl, .inr (.inr rfl)⟩
  | _, _, _, .primary h => derives_head h
  | _, _, _, .intLiteral _ => ⟨_, _, rfl, .inl trivial⟩
  | _, _, _, .boolLiteral _ => ⟨_, _, rfl, .inl trivial⟩
  | _, _, _, .identifier _ => ⟨_, _, rfl, .inl trivial⟩
  | _, _, _, .arrayIndex .. => ⟨_, _, rfl, .inl trivial⟩
  | _, _, _, .callNone _ => ⟨_, _, rfl, .inl trivial⟩
  | _, _, _, .call .. => ⟨_, _, rfl, .inl trivial⟩
  | _, _, _, .parens _ => ⟨_, _, rfl, .inl trivial⟩

/-- The distance of a level from the loosest one. -/
def depth : Level → Nat
  | .or => 0
  | .and => 1
  | .equality => 2
  | .comparison => 3
  | .additive => 4
  | .multiplicative => 5
  | .unary => 6
  | .primary => 7

theorem depth_le_next (l : Level) : depth l ≤ depth l.next := by
  cases l <;> decide

/-- A token of kind `k` does not continue a sentence of level `l`. -/
structure Stops (l : Level) (k : TokenKind) : Prop where
  operator : ∀ l' op, depth l ≤ depth l' → ¬Operator l' k op
  lParen : k ≠ .lParen
  lBracket : k ≠ .lBracket

/-- What comes after a sentence of level `l`. -/
def Follow (l : Level) (rest : List TokenKind) : Prop := ∃ k r, rest = k :: r ∧ Stops l k

theorem Follow.next {l : Level} {rest : List TokenKind} (h : Follow l rest) :
    Follow l.next rest := by
  obtain ⟨k, r, rfl, hk⟩ := h
  exact ⟨k, r, rfl, fun l' op hle ↦ hk.operator l' op (Nat.le_trans (depth_le_next l) hle), hk.lParen,
    hk.lBracket⟩

/-- The tokens that close an expression in the grammar. -/
theorem follow_of_mem {k : TokenKind} (hk : k ∈ [.rParen, .rBracket, .semicolon, .comma])
    (l : Level) (r : List TokenKind) : Follow l (k :: r) := by
  refine ⟨k, r, rfl, fun l' op _ hop ↦ ?_, ?_, ?_⟩
  · cases hop <;> simp at hk
  · rintro rfl
    simp at hk
  · rintro rfl
    simp at hk

theorem operator_unique {l l' : Level} {k : TokenKind} {op op' : BinaryOp}
    (h : Operator l k op) (h' : Operator l' k op') : l = l' ∧ op = op' := by
  cases h <;> cases h' <;> exact ⟨rfl, rfl⟩

/-- After an operand comes an operator of its level, or what follows the whole chain. -/
theorem chain_follow {l : Level} (hl : l ≠ .unary ∧ l ≠ .primary) {left e : Expr}
    {us rest : List TokenKind} (h : Chain l left us e) (hrest : Follow l rest) :
    Follow l.next (us ++ rest) := by
  cases h with
  | nil => exact hrest.next
  | cons hop =>
    refine ⟨_, _, rfl, fun l' op hle hop' ↦ ?_, ?_, ?_⟩
    · obtain ⟨rfl, -⟩ := operator_unique hop hop'
      cases hop <;> exact absurd hle (by decide)
    · rintro rfl
      cases hop
    · rintro rfl
      cases hop

/-! ## Expressions -/

/-- `p` accepts the sentences of level `l` of length at most `n`. -/
def AcceptsLevel (l : Level) (n : Nat) (p : ParserM Expr) : Prop :=
  ∀ ts rest e, Derives l ts e → ts.length ≤ n → Follow l rest →
    Accepts p Expr.eraseSpans ts rest e

/-- `operator` recognizes the operators of level `l`. -/
def Recognizes (l : Level) (operator : TokenKind → Option BinaryOp) : Prop :=
  ∀ kind op, Operator l kind op ↔ operator kind = some op

theorem parseBinaryLoop_accepts {l : Level} (hl : l ≠ .unary ∧ l ≠ .primary)
    {operator : TokenKind → Option BinaryOp} (hop : Recognizes l operator) {n : Nat}
    {operand : ParserM Expr} (hoperand : AcceptsLevel l.next n operand) :
    ∀ (fuel : Nat) (left : Expr) (us rest : List TokenKind) (e : Expr),
      Chain l left.eraseSpans us e → us.length < fuel → us.length ≤ n → Follow l rest →
      Accepts (parseBinaryLoop operator operand fuel left) Expr.eraseSpans us rest e
  | 0, _, _, _, _, _, hfuel, _, _ => absurd hfuel (Nat.not_lt_zero _)
  | fuel + 1, left, us, rest, e, h, hfuel, hn, hrest => by
    generalize hleft : left.eraseSpans = left' at h
    unfold parseBinaryLoop
    cases h with
    | nil =>
      obtain ⟨k, r, rfl, hk⟩ := hrest
      refine .current_bind rfl fun t ht ↦ ?_
      have hnone : operator t.kind = none := by
        rw [ht, Option.eq_none_iff_forall_ne_some]
        intro op h
        exact hk.operator l op (Nat.le_refl _) ((hop k op).mpr h)
      rw [hnone]
      exact .pure hleft
    | @cons _ kind op ts us left right e hop' hright hs =>
      refine .current_bind rfl fun t ht ↦ ?_
      rw [ht, (hop kind op).mp hop']
      simp only [List.length_cons, List.length_append] at hfuel hn
      refine .tail_bind (.bind (hoperand ts _ right hright (by omega) (chain_follow hl hs hrest))
        fun right' hr ↦ ?_)
      refine parseBinaryLoop_accepts hl hop hoperand fuel _ us rest e ?_ (by omega) (by omega) hrest
      rw [Expr.eraseSpans, hleft, hr]
      exact hs

theorem parseBinaryLevel_accepts {l : Level} (hl : l ≠ .unary ∧ l ≠ .primary)
    {operator : TokenKind → Option BinaryOp} (hop : Recognizes l operator) {n : Nat}
    {operand : ParserM Expr} (hoperand : AcceptsLevel l.next n operand) :
    AcceptsLevel l n (parseBinaryLevel operator operand n) := by
  intro ts rest e h hn hrest
  cases h with
  | @chain _ ts us left e _ hleft hs =>
    obtain ⟨k, r, rfl, -⟩ := derives_head hleft
    simp only [List.length_append, List.length_cons] at hn
    refine .bind (hoperand _ _ left hleft (by simp only [List.length_cons]; omega)
      (chain_follow hl hs hrest)) fun left' hl' ↦ ?_
    subst hl'
    exact parseBinaryLoop_accepts hl hop hoperand n left' us rest e hs (by omega) (by omega) hrest
  | _ => simp at hl

theorem recognizes_or : Recognizes .or orOperator := fun kind op ↦
  ⟨fun h ↦ by cases h; rfl, operator_or kind op⟩

theorem recognizes_and : Recognizes .and andOperator := fun kind op ↦
  ⟨fun h ↦ by cases h; rfl, operator_and kind op⟩

theorem recognizes_equality : Recognizes .equality equalityOperator := fun kind op ↦
  ⟨fun h ↦ by cases h <;> rfl, operator_equality kind op⟩

theorem recognizes_comparison : Recognizes .comparison comparisonOperator := fun kind op ↦
  ⟨fun h ↦ by cases h <;> rfl, operator_comparison kind op⟩

theorem recognizes_additive : Recognizes .additive additiveOperator := fun kind op ↦
  ⟨fun h ↦ by cases h <;> rfl, operator_additive kind op⟩

theorem recognizes_multiplicative : Recognizes .multiplicative multiplicativeOperator :=
  fun kind op ↦ ⟨fun h ↦ by cases h <;> rfl, operator_multiplicative kind op⟩

theorem moreArgs_follow {us : List TokenKind} {es : List Expr} (h : MoreArgs us es)
    (rest : List TokenKind) : Follow .or (us ++ .rParen :: rest) := by
  cases h with
  | nil => exact follow_of_mem (by simp) _ _
  | cons => exact follow_of_mem (by simp) _ _

theorem parseArgsLoop_accepts {n : Nat} {expr : ParserM Expr} (hexpr : AcceptsLevel .or n expr) :
    ∀ (fuel : Nat) (us rest : List TokenKind) (es : List Expr), MoreArgs us es →
      us.length < fuel → us.length ≤ n →
      Accepts (parseArgsLoop expr fuel) eraseSpansList us (.rParen :: rest) es
  | 0, _, _, _, _, hfuel, _ => absurd hfuel (Nat.not_lt_zero _)
  | fuel + 1, us, rest, es, h, hfuel, hn => by
    unfold parseArgsLoop
    cases h with
    | nil => exact .noMatch_bind rfl rfl (by simp) (.pure rfl)
    | @cons ts us e es h hs =>
      simp only [List.length_cons, List.length_append] at hfuel hn
      refine .matchToken_bind (.bind (hexpr ts _ e h (by omega) (moreArgs_follow hs rest))
        fun arg harg ↦ ?_)
      rw [← List.append_nil us]
      refine .bind (parseArgsLoop_accepts hexpr fuel us rest es hs (by omega) (by omega))
        fun args hargs ↦ .pure ?_
      rw [eraseSpansList, harg, hargs]

theorem parseArgs_accepts {n : Nat} {expr : ParserM Expr} (hexpr : AcceptsLevel .or n expr)
    {ts us rest : List TokenKind} {e : Expr} {es : List Expr} (h : Derives .or ts e)
    (hs : MoreArgs us es) (hn : (ts ++ us).length ≤ n) :
    Accepts (parseArgs expr (n + 1)) eraseSpansList (ts ++ us) (.rParen :: rest) (e :: es) := by
  obtain ⟨k, r, hts, hk⟩ := derives_head h
  simp only [List.length_append] at hn
  refine .current_bind (k := k) (by rw [hts]; rfl) fun t ht ↦ ?_
  have hne : t.kind ≠ .rParen := by
    rw [ht]
    rintro rfl
    rcases hk with hk | hk | hk <;> first | exact hk | cases hk
  rw [if_neg hne]
  refine .bind (hexpr ts _ e h (by omega) (moreArgs_follow hs rest)) fun arg harg ↦ ?_
  rw [← List.append_nil us]
  refine .bind (parseArgsLoop_accepts hexpr (n + 1) us rest es hs (by omega) (by omega))
    fun args hargs ↦ .pure ?_
  rw [eraseSpansList, harg, hargs]

theorem parseArgs_accepts_none {expr : ParserM Expr} {fuel : Nat} {rest : List TokenKind} :
    Accepts (parseArgs expr fuel) eraseSpansList [] (.rParen :: rest) [] := by
  refine .current_bind rfl fun t ht ↦ ?_
  rw [if_pos ht]
  exact .pure rfl

theorem parsePrimary_accepts {n : Nat} {expr : ParserM Expr} (hexpr : AcceptsLevel .or n expr) :
    AcceptsLevel .primary (n + 1) (parsePrimary expr (n + 1)) := by
  intro ts rest e h hn hrest
  obtain ⟨k, r, rfl, hk⟩ := hrest
  cases h with
  | chain hl => exact absurd rfl hl.2
  | intLiteral value =>
    refine .current_bind rfl fun t ht ↦ ?_
    rw [ht]
    exact .advance_bind (by simp) (.pure rfl)
  | boolLiteral value =>
    refine .current_bind rfl fun t ht ↦ ?_
    rw [ht]
    exact .advance_bind (by simp) (.pure rfl)
  | identifier name =>
    refine .current_bind rfl fun t ht ↦ ?_
    rw [ht]
    exact .advance_bind (by simp) (.noMatch_bind rfl rfl hk.lParen
      (.noMatch_bind rfl rfl hk.lBracket (.pure rfl)))
  | @arrayIndex name ts e h =>
    refine .current_bind rfl fun t ht ↦ ?_
    rw [ht]
    simp only [List.length_cons, List.length_append] at hn
    refine .advance_bind (by simp) (.noMatch_bind rfl rfl (by simp) (.matchToken_bind
      (.bind (hexpr ts _ e h (by omega) (follow_of_mem (by simp) _ _)) fun index hi ↦
        .expect_bind (.pure ?_))))
    rw [Expr.eraseSpans, hi]
  | callNone name =>
    refine .current_bind rfl fun t ht ↦ ?_
    rw [ht]
    refine .advance_bind (by simp) (.matchToken_bind ?_)
    rw [← List.nil_append [TokenKind.rParen]]
    refine .bind parseArgs_accepts_none fun args hargs ↦ .expect_bind (.pure ?_)
    rw [Expr.eraseSpans, hargs]
  | @call name ts us e es h hs =>
    refine .current_bind rfl fun t ht ↦ ?_
    rw [ht]
    simp only [List.length_cons, List.length_append] at hn
    refine .advance_bind (by simp) (.matchToken_bind (.bind (parseArgs_accepts hexpr h hs
      (by rw [List.length_append]; omega)) fun args hargs ↦ .expect_bind (.pure ?_)))
    rw [Expr.eraseSpans, hargs]
  | @parens ts e h =>
    refine .current_bind rfl fun t ht ↦ ?_
    rw [ht]
    simp only [List.length_cons, List.length_append] at hn
    exact .matchToken_bind (.bind (hexpr ts _ e h (by omega) (follow_of_mem (by simp) _ _))
      fun inner hi ↦ .expect_bind (.pure hi))

theorem parseUnary_accepts {n : Nat} {expr : ParserM Expr} (hexpr : AcceptsLevel .or n expr) :
    ∀ fuel, fuel ≤ n + 1 → AcceptsLevel .unary fuel (parseUnary expr fuel)
  | 0, _ => by
    intro ts rest e h hn
    obtain ⟨k, r, rfl, -⟩ := derives_head h
    simp at hn
  | fuel + 1, hle => by
    intro ts rest e h hn hrest
    have ih := parseUnary_accepts hexpr fuel (by omega)
    unfold parseUnary
    cases h with
    | chain hl => exact absurd rfl hl.1
    | @neg ts e h =>
      simp only [List.length_cons] at hn
      refine .current_bind rfl fun t _ ↦ .matchToken_bind ?_
      rw [← List.append_nil ts]
      refine .bind (ih ts _ e h (by omega) hrest) fun operand ho ↦ .pure ?_
      rw [Expr.eraseSpans, ho]
    | @not ts e h =>
      simp only [List.length_cons] at hn
      refine .current_bind rfl fun t _ ↦ .noMatch_bind rfl rfl (by simp) (.matchToken_bind ?_)
      rw [← List.append_nil ts]
      refine .bind (ih ts _ e h (by omega) hrest) fun operand ho ↦ .pure ?_
      rw [Expr.eraseSpans, ho]
    | primary h =>
      obtain ⟨k, r, rfl, hk⟩ := primary_head h
      refine .current_bind rfl fun t _ ↦ .noMatch_bind rfl rfl (by rintro rfl; exact hk)
        (.noMatch_bind rfl rfl (by rintro rfl; exact hk) ?_)
      have hinner : AcceptsLevel .or fuel expr := fun ts rest e h hlen hf ↦
        hexpr ts rest e h (by omega) hf
      exact parsePrimary_accepts hinner _ rest e h hn hrest.next

theorem parseExpr_accepts : ∀ fuel, AcceptsLevel .or fuel (parseExpr fuel)
  | 0 => by
    intro ts rest e h hn
    obtain ⟨k, r, rfl, -⟩ := derives_head h
    simp at hn
  | fuel + 1 => by
    have hunary := parseUnary_accepts (parseExpr_accepts fuel) (fuel + 1) (Nat.le_refl _)
    have hmul : AcceptsLevel .multiplicative (fuel + 1) (parseMultiplicative _ _) :=
      parseBinaryLevel_accepts (by simp) recognizes_multiplicative hunary
    have hadd : AcceptsLevel .additive (fuel + 1) (parseAdditive _ _) :=
      parseBinaryLevel_accepts (by simp) recognizes_additive hmul
    have hcmp : AcceptsLevel .comparison (fuel + 1) (parseComparison _ _) :=
      parseBinaryLevel_accepts (by simp) recognizes_comparison hadd
    have heq : AcceptsLevel .equality (fuel + 1) (parseEquality _ _) :=
      parseBinaryLevel_accepts (by simp) recognizes_equality hcmp
    have hand : AcceptsLevel .and (fuel + 1) (parseAnd _ _) :=
      parseBinaryLevel_accepts (by simp) recognizes_and heq
    exact parseBinaryLevel_accepts (by simp) recognizes_or hand

/-! ## The lookahead for assignments -/

theorem scanAssignment_skip {k : TokenKind} (hl : k ≠ .lBracket) (hr : k ≠ .rBracket)
    (he : k ≠ .eof) (d : Nat) (rest : List TokenKind) :
    scanAssignment d (k :: rest) = scanAssignment d rest := by
  cases k <;> first | rfl | contradiction

theorem operator_skip {l : Level} {k : TokenKind} {op : BinaryOp} (h : Operator l k op) :
    k ≠ .lBracket ∧ k ≠ .rBracket ∧ k ≠ .eof ∧ k ≠ .assign := by
  cases h <;> simp

mutual

/-- Inside brackets, the scan passes over a whole expression. -/
theorem scan_inside : ∀ {l : Level} {ts : List TokenKind} {e : Expr}, Derives l ts e →
    ∀ (d : Nat) (rest : List TokenKind),
      scanAssignment (d + 1) (ts ++ rest) = scanAssignment (d + 1) rest
  | _, _, _, .chain _ h hs, d, rest => by
    rw [List.append_assoc, scan_inside h, scan_inside_chain hs]
  | _, _, _, .neg h, d, rest => scan_inside h d rest
  | _, _, _, .not h, d, rest => scan_inside h d rest
  | _, _, _, .primary h, d, rest => scan_inside h d rest
  | _, _, _, .intLiteral _, _, _ => rfl
  | _, _, _, .boolLiteral _, _, _ => rfl
  | _, _, _, .identifier _, _, _ => rfl
  | _, _, _, @Derives.arrayIndex name ts _ h, d, rest => by
    show scanAssignment (d + 2) (ts ++ [.rBracket] ++ rest) = _
    rw [List.append_assoc, scan_inside h (d + 1)]
    rfl
  | _, _, _, .callNone _, _, _ => rfl
  | _, _, _, @Derives.call name ts us _ _ h hs, d, rest => by
    show scanAssignment (d + 1) (ts ++ us ++ [.rParen] ++ rest) = _
    rw [List.append_assoc, List.append_assoc, scan_inside h, scan_inside_args hs]
    rfl
  | _, _, _, @Derives.parens ts _ h, d, rest => by
    show scanAssignment (d + 1) (ts ++ [.rParen] ++ rest) = _
    rw [List.append_assoc, scan_inside h]
    rfl

theorem scan_inside_chain : ∀ {l : Level} {left : Expr} {us : List TokenKind} {e : Expr},
    Chain l left us e → ∀ (d : Nat) (rest : List TokenKind),
      scanAssignment (d + 1) (us ++ rest) = scanAssignment (d + 1) rest
  | _, _, _, _, .nil .., _, _ => rfl
  | _, _, _, _, .cons hop h hs, d, rest => by
    obtain ⟨hl, hr, he, -⟩ := operator_skip hop
    rw [List.cons_append, scanAssignment_skip hl hr he, List.append_assoc, scan_inside h,
      scan_inside_chain hs]

theorem scan_inside_args : ∀ {us : List TokenKind} {es : List Expr}, MoreArgs us es →
    ∀ (d : Nat) (rest : List TokenKind),
      scanAssignment (d + 1) (us ++ rest) = scanAssignment (d + 1) rest
  | _, _, .nil, _, _ => rfl
  | _, _, @MoreArgs.cons ts us _ _ h hs, d, rest => by
    show scanAssignment (d + 1) (ts ++ us ++ rest) = _
    rw [List.append_assoc, scan_inside h, scan_inside_args hs]

end

mutual

/-- No `=` occurs in an expression. -/
theorem assign_notMem : ∀ {l : Level} {ts : List TokenKind} {e : Expr}, Derives l ts e →
    TokenKind.assign ∉ ts
  | _, _, _, .chain _ h hs => by
    simp [assign_notMem h, assign_notMem_chain hs]
  | _, _, _, .neg h => by simp [assign_notMem h]
  | _, _, _, .not h => by simp [assign_notMem h]
  | _, _, _, .primary h => assign_notMem h
  | _, _, _, .intLiteral _ => by simp
  | _, _, _, .boolLiteral _ => by simp
  | _, _, _, .identifier _ => by simp
  | _, _, _, .arrayIndex _ h => by simp [assign_notMem h]
  | _, _, _, .callNone _ => by simp
  | _, _, _, .call _ h hs => by simp [assign_notMem h, assign_notMem_args hs]
  | _, _, _, .parens h => by simp [assign_notMem h]

theorem assign_notMem_chain : ∀ {l : Level} {left : Expr} {us : List TokenKind} {e : Expr},
    Chain l left us e → TokenKind.assign ∉ us
  | _, _, _, _, .nil .. => by simp
  | _, _, _, _, .cons hop h hs => by
    simp [assign_notMem h, assign_notMem_chain hs, (operator_skip hop).2.2.2.symm]

theorem assign_notMem_args : ∀ {us : List TokenKind} {es : List Expr}, MoreArgs us es →
    TokenKind.assign ∉ us
  | _, _, .nil => by simp
  | _, _, .cons h hs => by simp [assign_notMem h, assign_notMem_args hs]

end

/-- Tokens that the scan from depth 0 passes over, unless they hold a bracket: then it ends in
them, without having found an assignment. -/
def ScansOver (ts : List TokenKind) : Prop :=
  ∀ k r, k ≠ .assign → scanAssignment 0 (ts ++ k :: r) =
    if .lBracket ∈ ts then some false else scanAssignment 0 (k :: r)

theorem ScansOver.append {ts us : List TokenKind} (hts : ScansOver ts) (hus : ScansOver us)
    (hassign : TokenKind.assign ∉ us) : ScansOver (ts ++ us) := by
  intro k r hk
  rw [List.append_assoc]
  cases us with
  | nil => simpa using hts k r hk
  | cons u us =>
    have hu : u ≠ .assign := fun h ↦ hassign (h ▸ List.mem_cons_self)
    rw [List.cons_append, hts u _ hu, ← List.cons_append, hus k r hk]
    by_cases h : TokenKind.lBracket ∈ ts
    · simp [h]
    · simp only [h, if_false, List.mem_append, false_or]

theorem ScansOver.cons {u : TokenKind} {ts : List TokenKind} (hl : u ≠ .lBracket)
    (hr : u ≠ .rBracket) (he : u ≠ .eof) (hts : ScansOver ts) : ScansOver (u :: ts) := by
  intro k r hk
  rw [List.cons_append, scanAssignment_skip hl hr he, hts k r hk]
  simp [List.mem_cons, hl.symm]

theorem scansOver_nil : ScansOver [] := fun k r _ ↦ by simp

mutual

theorem scansOver_expr : ∀ {l : Level} {ts : List TokenKind} {e : Expr}, Derives l ts e →
    ScansOver ts
  | _, _, _, .chain _ h hs =>
    (scansOver_expr h).append (scansOver_chain hs) (assign_notMem_chain hs)
  | _, _, _, .neg h => .cons (by simp) (by simp) (by simp) (scansOver_expr h)
  | _, _, _, .not h => .cons (by simp) (by simp) (by simp) (scansOver_expr h)
  | _, _, _, .primary h => scansOver_expr h
  | _, _, _, .intLiteral _ => .cons (by simp) (by simp) (by simp) scansOver_nil
  | _, _, _, .boolLiteral _ => .cons (by simp) (by simp) (by simp) scansOver_nil
  | _, _, _, .identifier _ => .cons (by simp) (by simp) (by simp) scansOver_nil
  | _, _, _, @Derives.arrayIndex name ts _ h => by
    intro k r hk
    show scanAssignment 1 (ts ++ [.rBracket] ++ k :: r) = _
    rw [List.append_assoc, scan_inside h]
    simp [scanAssignment, hk]
  | _, _, _, .callNone _ =>
    .cons (by simp) (by simp) (by simp) (.cons (by simp) (by simp) (by simp)
      (.cons (by simp) (by simp) (by simp) scansOver_nil))
  | _, _, _, .call _ h hs =>
    .cons (by simp) (by simp) (by simp) (.cons (by simp) (by simp) (by simp)
      (((scansOver_expr h).append (scansOver_args hs) (assign_notMem_args hs)).append
        (.cons (by simp) (by simp) (by simp) scansOver_nil) (by simp)))
  | _, _, _, .parens h =>
    .cons (by simp) (by simp) (by simp) ((scansOver_expr h).append
      (.cons (by simp) (by simp) (by simp) scansOver_nil) (by simp))

theorem scansOver_chain : ∀ {l : Level} {left : Expr} {us : List TokenKind} {e : Expr},
    Chain l left us e → ScansOver us
  | _, _, _, _, .nil .. => scansOver_nil
  | _, _, _, _, .cons hop h hs => by
    obtain ⟨hl, hr, he, -⟩ := operator_skip hop
    exact .cons hl hr he ((scansOver_expr h).append (scansOver_chain hs) (assign_notMem_chain hs))

theorem scansOver_args : ∀ {us : List TokenKind} {es : List Expr}, MoreArgs us es →
    ScansOver us
  | _, _, .nil => scansOver_nil
  | _, _, .cons h hs =>
    .cons (by simp) (by simp) (by simp)
      ((scansOver_expr h).append (scansOver_args hs) (assign_notMem_args hs))

end

/-- The lookahead rejects an expression statement that starts with a name. -/
theorem assignmentAhead_exprStmt {l : Level} {ts : List TokenKind} {e : Expr} (h : Derives l ts e)
    {name : String} {r : List TokenKind} (hts : ts = .identifier name :: r)
    (rest : List TokenKind) : assignmentAhead (ts ++ .semicolon :: rest) = some false := by
  have hscan := scansOver_expr h .semicolon rest (by simp)
  have hassign := assign_notMem h
  subst hts
  cases r with
  | nil => rfl
  | cons k r =>
    have hk : k ≠ .assign := by
      rintro rfl
      simp at hassign
    by_cases hb : k = .lBracket
    · subst hb
      rw [if_pos (by simp)] at hscan
      exact hscan
    · rw [List.cons_append, List.cons_append, assignmentAhead]
      dsimp only [List.head?_cons]
      split <;> simp_all

theorem assignmentAhead_assignElement {ts : List TokenKind} {e : Expr} (h : Derives .or ts e)
    (name : String) (rest : List TokenKind) :
    assignmentAhead (.identifier name :: .lBracket :: (ts ++ .rBracket :: .assign :: rest)) =
      some true := by
  show scanAssignment 1 (ts ++ .rBracket :: .assign :: rest) = _
  rw [scan_inside h]
  rfl

theorem isAssignmentStart_bind {erase : α → β} {ts rest : List TokenKind} {b : β} {v : Bool}
    {f : Bool → ParserM α} (hv : assignmentAhead (ts ++ rest) = some v)
    (hf : Accepts (f v) erase ts rest b) : Accepts (isAssignmentStart >>= f) erase ts rest b := by
  intro s hs
  have hrun := run_isAssignmentStart ((congrArg assignmentAhead hs).trans hv)
  obtain ⟨a, s', hr, h⟩ := hf s hs
  exact ⟨a, s', by rw [EStateM.run_bind, hrun]; exact hr, h⟩

/-! ## Declarations and statements -/

theorem parseType_bind {erase : α → β} {ts rest : List TokenKind} {b : β} {kind : TokenKind}
    {t : Ty} (ht : TypeToken kind t) {f : Ty → ParserM α} (hf : Accepts (f t) erase ts rest b) :
    Accepts (parseType >>= f) erase (kind :: ts) rest b := by
  have htype : Accepts parseType id [kind] (ts ++ rest) t := by
    refine .current_bind rfl fun u hu ↦ ?_
    rw [hu]
    cases ht with
    | int => exact .advance_bind (by simp) (.pure rfl)
    | bool => exact .advance_bind (by simp) (.pure rfl)
  refine .bind htype fun a ha ↦ ?_
  obtain rfl : a = t := ha
  exact hf

/-- An expression closed by a semicolon. -/
theorem parseExpr_semicolon_accepts {fuel : Nat} {f : Expr → α} {erase : α → β} {b : β}
    {ts rest : List TokenKind} {e : Expr} (h : Derives .or ts e) (hlen : ts.length ≤ fuel)
    (hf : ∀ e', e'.eraseSpans = e → erase (f e') = b) {message : String} :
    Accepts (do
      let e ← parseExpr fuel
      expect .semicolon message
      return f e) erase (ts ++ [.semicolon]) rest b :=
  .bind (parseExpr_accepts fuel ts _ e h hlen (follow_of_mem (by simp) _ _)) fun e' he ↦
    .expect_bind (.pure (hf e' he))

theorem parseDeclarator_accepts {fuel : Nat} {ts rest : List TokenKind} {size : Option Int32}
    {init : Option Expr} (h : Declarator ts size init) (hlen : ts.length ≤ fuel) :
    Accepts (parseDeclarator fuel) (fun d ↦ (d.1, d.2.map Expr.eraseSpans)) ts rest
      (size, init) := by
  cases h with
  | array size =>
    refine .matchToken_bind (.current_bind rfl fun t ht ↦ ?_)
    rw [ht]
    exact .advance_bind (by simp) (.expect_bind (.expect_bind (.pure rfl)))
  | @init ts e h =>
    simp only [List.length_cons, List.length_append] at hlen
    refine .noMatch_bind rfl rfl (by simp) (.matchToken_bind
      (parseExpr_semicolon_accepts h (by omega) fun e' he ↦ ?_))
    rw [Option.map_some, he]
  | plain => exact .noMatch_bind rfl rfl (by simp) (.noMatch_bind rfl rfl (by simp)
      (.expect_bind (.pure rfl)))

theorem parseVarDecl_accepts {fuel : Nat} {kind : TokenKind} {t : Ty} (ht : TypeToken kind t)
    (name : String) {ts rest : List TokenKind} {size : Option Int32} {init : Option Expr}
    (h : Declarator ts size init) (hlen : ts.length ≤ fuel) :
    Accepts (parseVarDecl fuel) Stmt.eraseSpans (kind :: .identifier name :: ts) rest
      (.varDecl t name init size .default) := by
  refine .current_bind rfl fun _ _ ↦ parseType_bind ht (.identifier_bind ?_)
  rw [← List.append_nil ts]
  refine .bind (parseDeclarator_accepts h hlen) fun d hd ↦ .pure ?_
  obtain ⟨rfl, rfl⟩ := Prod.mk.inj hd
  rfl

theorem parseGlobal_accepts {fuel : Nat} {ts rest : List TokenKind} {g : GlobalVar}
    (h : GlobalDerives ts g) (hlen : ts.length ≤ fuel) :
    Accepts (parseGlobal fuel) GlobalVar.eraseSpans ts rest g := by
  cases h with
  | @globalDecl kind t ht name ts size init h =>
    simp only [List.length_cons] at hlen
    refine .current_bind rfl fun _ _ ↦ parseType_bind ht (.identifier_bind ?_)
    rw [← List.append_nil ts]
    refine .bind (parseDeclarator_accepts h (by omega)) fun d hd ↦ .pure ?_
    obtain ⟨rfl, rfl⟩ := Prod.mk.inj hd
    rfl

/-- The kinds of the first token of a statement. -/
def StartsStmt (kind : TokenKind) : Prop :=
  kind ∈ [.kwInt, .kwBool, .kwIf, .kwWhile, .kwReturn, .kwPrint] ∨ StartsExpr kind

theorem stmt_head {ts : List TokenKind} {st : Stmt} (h : StmtDerives ts st) :
    ∃ k r, ts = k :: r ∧ StartsStmt k := by
  cases h with
  | varDecl ht =>
    refine ⟨_, _, rfl, .inl ?_⟩
    cases ht <;> simp
  | assign | assignElement => exact ⟨_, _, rfl, .inr (.inl trivial)⟩
  | ifThen | ifElse | whileStmt | returnStmt | print => exact ⟨_, _, rfl, .inl (by simp)⟩
  | exprStmt h =>
    obtain ⟨k, r, rfl, hk⟩ := derives_head h
    exact ⟨k, _, rfl, .inr hk⟩

theorem startsStmt_ne {k : TokenKind} (h : StartsStmt k) :
    k ≠ .rBrace ∧ k ≠ .eof ∧ k ≠ .kwElse := by
  rcases h with h | h | h | h
  · simp only [List.mem_cons, List.not_mem_nil, or_false] at h
    rcases h with rfl | rfl | rfl | rfl | rfl | rfl <;> simp
  · cases k <;> first | exact h.elim | simp
  · subst h
    simp
  · subst h
    simp

/-- What comes after a statement: anything but an `else`. -/
def FollowStmt (rest : List TokenKind) : Prop := ∃ k r, rest = k :: r ∧ k ≠ .kwElse

/-- `stmt` accepts the statements of length at most `n`. -/
def AcceptsStmt (n : Nat) (stmt : ParserM Stmt) : Prop :=
  ∀ ts rest st, StmtDerives ts st → ts.length ≤ n → FollowStmt rest →
    Accepts stmt Stmt.eraseSpans ts rest st

theorem stmts_follow {ts : List TokenKind} {ss : List Stmt} (h : StmtsDerive ts ss)
    (rest : List TokenKind) : FollowStmt (ts ++ .rBrace :: rest) := by
  cases h with
  | nil => exact ⟨_, _, rfl, by simp⟩
  | cons h =>
    obtain ⟨k, r, rfl, hk⟩ := stmt_head h
    exact ⟨k, _, rfl, (startsStmt_ne hk).2.2⟩

theorem parseStmts_accepts {n : Nat} {stmt : ParserM Stmt} (hstmt : AcceptsStmt n stmt) :
    ∀ (fuel : Nat) (ts rest : List TokenKind) (ss : List Stmt), StmtsDerive ts ss →
      ts.length < fuel → ts.length ≤ n →
      Accepts (parseStmts stmt fuel) eraseSpansStmts ts (.rBrace :: rest) ss
  | 0, _, _, _, _, hfuel, _ => absurd hfuel (Nat.not_lt_zero _)
  | fuel + 1, ts, rest, ss, h, hfuel, hn => by
    unfold parseStmts
    cases h with
    | nil =>
      refine .current_bind rfl fun t ht ↦ ?_
      show Accepts (if t.kind = .rBrace ∨ t.kind = .eof then _ else _) _ _ _ _
      rw [if_pos (.inl ht)]
      exact .pure rfl
    | @cons ts us st ss h hs =>
      obtain ⟨k, r, hts, hk⟩ := stmt_head h
      obtain ⟨hbrace, heof, -⟩ := startsStmt_ne hk
      have hpos := List.length_pos_iff.mpr (stmtDerives_ne_nil h)
      simp only [List.length_append] at hfuel hn
      refine .current_bind (k := k) (by rw [hts]; rfl) fun t ht ↦ ?_
      show Accepts (if t.kind = .rBrace ∨ t.kind = .eof then _ else _) _ _ _ _
      rw [if_neg (by rw [ht]; simp [hbrace, heof])]
      refine .bind (hstmt ts _ st h (by omega) (stmts_follow hs rest)) fun s hst ↦ ?_
      rw [← List.append_nil us]
      refine .bind (parseStmts_accepts hstmt fuel us rest ss hs (by omega) (by omega))
        fun stmts hss ↦ .pure ?_
      rw [eraseSpansStmts, hst, hss]

theorem parseBlock_accepts {n : Nat} {stmt : ParserM Stmt} (hstmt : AcceptsStmt n stmt)
    {ts rest : List TokenKind} {ss : List Stmt} (h : BlockDerives ts ss)
    (hlen : ts.length ≤ n + 1) :
    Accepts (parseBlock stmt (n + 1)) eraseSpansStmts ts rest ss := by
  cases h with
  | block h =>
    simp only [List.length_cons, List.length_append, List.length_nil] at hlen
    exact .expect_bind (.bind (parseStmts_accepts hstmt (n + 1) _ rest ss h (by omega) (by omega))
      fun stmts hss ↦ .expect_bind (.pure hss))

/-- The head `"(" expr ")"` of `if` and `while`. -/
theorem parseCondition_bind {erase : α → β} {b : β} {keyword : TokenKind} {fuel : Nat}
    {message : String} {ts us rest : List TokenKind} {e : Expr} {f : Expr → ParserM α}
    (h : Derives .or ts e) (hlen : ts.length ≤ fuel)
    (hf : ∀ condition, condition.eraseSpans = e → Accepts (f condition) erase us rest b) :
    Accepts (do
      expect keyword message
      expect .lParen "Expected '('"
      let condition ← parseExpr fuel
      expect .rParen "Expected ')'"
      f condition) erase (keyword :: .lParen :: (ts ++ .rParen :: us)) rest b :=
  .expect_bind (.expect_bind (.bind (parseExpr_accepts fuel ts _ e h hlen
    (follow_of_mem (by simp) _ _)) fun condition hc ↦ .expect_bind (hf condition hc)))

/-! ### One statement each -/

section

variable {n fuel : Nat} {stmt : ParserM Stmt} {name : String} {ts us vs rest : List TokenKind}
  {e index : Expr} {body elseBody : List Stmt}

theorem parseAssignment_accepts (h : Derives .or ts e) (hlen : ts.length ≤ fuel) :
    Accepts (parseAssignment fuel) Stmt.eraseSpans
      (.identifier name :: .assign :: (ts ++ [.semicolon])) rest (.assign name none e .default) := by
  refine .current_bind rfl fun u _ ↦ .identifier_bind (.noMatch_bind rfl rfl (by simp)
    (.matchToken_bind (parseExpr_semicolon_accepts h hlen fun e' he ↦ ?_)))
  rw [Stmt.eraseSpans, he]
  rfl

/-- An assignment to an element of an array. -/
theorem parseAssignment_accepts_element (hi : Derives .or ts index) (h : Derives .or us e)
    (hindex : ts.length ≤ fuel) (hlen : us.length ≤ fuel) :
    Accepts (parseAssignment fuel) Stmt.eraseSpans
      (.identifier name :: .lBracket :: (ts ++ .rBracket :: .assign :: (us ++ [.semicolon]))) rest
      (.assign name (some index) e .default) := by
  refine .current_bind rfl fun u _ ↦ .identifier_bind (.matchToken_bind
    (.bind (parseExpr_accepts fuel ts _ index hi hindex (follow_of_mem (by simp) _ _))
      fun index' hi' ↦ .expect_bind (.expect_bind
        (parseExpr_semicolon_accepts h hlen fun e' he ↦ ?_))))
  rw [Stmt.eraseSpans, he, Option.map_some, hi']

/-- Without an `else` the next token decides. -/
theorem parseIf_accepts (hstmt : AcceptsStmt n stmt) (h : Derives .or ts e)
    (hb : BlockDerives us body) (hlen : ts.length ≤ n + 1) (hbody : us.length ≤ n + 1)
    (hrest : FollowStmt rest) :
    Accepts (parseIf stmt (n + 1)) Stmt.eraseSpans (.kwIf :: .lParen :: (ts ++ .rParen :: us)) rest
      (.ifStmt e body none .default) := by
  obtain ⟨k, r, rfl, hk⟩ := hrest
  refine .current_bind rfl fun u _ ↦ parseCondition_bind h hlen fun condition hc ↦ ?_
  rw [← List.append_nil us]
  refine .bind (parseBlock_accepts hstmt hb hbody) fun body' hbody ↦
    .noMatch_bind rfl rfl hk (.pure ?_)
  rw [Stmt.eraseSpans, hc, hbody]

theorem parseIf_accepts_else (hstmt : AcceptsStmt n stmt) (h : Derives .or ts e)
    (hb : BlockDerives us body) (he : BlockDerives vs elseBody) (hlen : ts.length ≤ n + 1)
    (hbody : us.length ≤ n + 1) (helse : vs.length ≤ n + 1) :
    Accepts (parseIf stmt (n + 1)) Stmt.eraseSpans
      (.kwIf :: .lParen :: (ts ++ .rParen :: (us ++ .kwElse :: vs))) rest
      (.ifStmt e body (some elseBody) .default) := by
  refine .current_bind rfl fun u _ ↦ parseCondition_bind h hlen fun condition hc ↦ ?_
  refine .bind (parseBlock_accepts hstmt hb hbody) fun body' hbody ↦ .matchToken_bind ?_
  rw [← List.append_nil vs]
  refine .bind (parseBlock_accepts hstmt he helse) fun elseBody' helse ↦ .pure ?_
  rw [Stmt.eraseSpans, hc, hbody, helse]

theorem parseWhile_accepts (hstmt : AcceptsStmt n stmt) (h : Derives .or ts e)
    (hb : BlockDerives us body) (hlen : ts.length ≤ n + 1) (hbody : us.length ≤ n + 1) :
    Accepts (parseWhile stmt (n + 1)) Stmt.eraseSpans
      (.kwWhile :: .lParen :: (ts ++ .rParen :: us)) rest (.whileStmt e body .default) := by
  refine .current_bind rfl fun u _ ↦ parseCondition_bind h hlen fun condition hc ↦ ?_
  rw [← List.append_nil us]
  refine .bind (parseBlock_accepts hstmt hb hbody) fun body' hbody ↦ .pure ?_
  rw [Stmt.eraseSpans, hc, hbody]

theorem parseReturn_accepts (h : Derives .or ts e) (hlen : ts.length ≤ fuel) :
    Accepts (parseReturn fuel) Stmt.eraseSpans (.kwReturn :: (ts ++ [.semicolon])) rest
      (.returnStmt e .default) := by
  refine .current_bind rfl fun u _ ↦ .expect_bind
    (parseExpr_semicolon_accepts h hlen fun e' he ↦ ?_)
  rw [Stmt.eraseSpans, he]

theorem parsePrint_accepts (h : Derives .or ts e) (hlen : ts.length ≤ fuel) :
    Accepts (parsePrint fuel) Stmt.eraseSpans (.kwPrint :: (ts ++ [.semicolon])) rest
      (.print e .default) := by
  refine .current_bind rfl fun u _ ↦ .expect_bind
    (parseExpr_semicolon_accepts h hlen fun e' he ↦ ?_)
  rw [Stmt.eraseSpans, he]

theorem parseExprStmt_accepts (h : Derives .or ts e) (hlen : ts.length ≤ fuel) :
    Accepts (parseExprStmt fuel) Stmt.eraseSpans (ts ++ [.semicolon]) rest
      (.exprStmt e .default) := by
  obtain ⟨k, r, hts, -⟩ := derives_head h
  refine .current_bind (k := k) (by rw [hts]; rfl) fun u _ ↦
    parseExpr_semicolon_accepts h hlen fun e' he ↦ ?_
  rw [Stmt.eraseSpans, he]

end

/-- The first token of a statement tells its kind, but for assignments and expressions, where the
lookahead does. -/
theorem parseStmt_accepts : ∀ fuel, AcceptsStmt fuel (parseStmt fuel)
  | 0 => by
    intro ts rest st h hn
    have := List.length_pos_iff.mpr (stmtDerives_ne_nil h)
    omega
  | fuel + 1 => by
    intro ts rest st h hn hrest
    have ih := parseStmt_accepts fuel
    cases h with
    | @varDecl kind t ht name ts size init h =>
      simp only [List.length_cons] at hn
      refine .current_bind rfl fun u hu ↦ ?_
      rw [hu]
      have hv : Accepts (parseVarDecl (fuel + 1)) Stmt.eraseSpans _ rest _ :=
        parseVarDecl_accepts ht name h (by omega)
      cases ht with
      | int => exact hv
      | bool => exact hv
    | @assign name ts e h =>
      simp only [List.length_cons, List.length_append] at hn
      refine .current_bind rfl fun u hu ↦ ?_
      rw [hu]
      exact isAssignmentStart_bind (v := true) rfl (parseAssignment_accepts h (by omega))
    | @assignElement name ts us index e hi h =>
      simp only [List.length_cons, List.length_append] at hn
      refine .current_bind rfl fun u hu ↦ ?_
      rw [hu]
      exact isAssignmentStart_bind (v := true)
        (by simpa using assignmentAhead_assignElement hi name (us ++ .semicolon :: rest))
        (parseAssignment_accepts_element hi h (by omega) (by omega))
    | @ifThen ts us e body h hb =>
      simp only [List.length_cons, List.length_append] at hn
      refine .current_bind rfl fun u hu ↦ ?_
      rw [hu]
      exact parseIf_accepts ih h hb (by omega) (by omega) hrest
    | @ifElse ts us vs e body elseBody h hb he =>
      simp only [List.length_cons, List.length_append] at hn
      refine .current_bind rfl fun u hu ↦ ?_
      rw [hu]
      exact parseIf_accepts_else ih h hb he (by omega) (by omega) (by omega)
    | @whileStmt ts us e body h hb =>
      simp only [List.length_cons, List.length_append] at hn
      refine .current_bind rfl fun u hu ↦ ?_
      rw [hu]
      exact parseWhile_accepts ih h hb (by omega) (by omega)
    | @returnStmt ts e h =>
      simp only [List.length_cons, List.length_append] at hn
      refine .current_bind rfl fun u hu ↦ ?_
      rw [hu]
      exact parseReturn_accepts h (by omega)
    | @print ts e h =>
      simp only [List.length_cons, List.length_append] at hn
      refine .current_bind rfl fun u hu ↦ ?_
      rw [hu]
      exact parsePrint_accepts h (by omega)
    | @exprStmt ts e h =>
      obtain ⟨k, r, hts, hk⟩ := derives_head h
      simp only [List.length_append, List.length_singleton] at hn
      have hstmt : Accepts (parseExprStmt (fuel + 1)) Stmt.eraseSpans (ts ++ [.semicolon]) rest
          (.exprStmt e .default) := parseExprStmt_accepts h (by omega)
      refine .current_bind (k := k) (by rw [hts]; rfl) fun u hu ↦ ?_
      rw [hu]
      rcases hk with hk | rfl | rfl
      · cases k with
        | identifier name =>
          exact isAssignmentStart_bind (v := false)
            (by simpa using assignmentAhead_exprStmt h hts rest) hstmt
        | intLiteral | boolLiteral | lParen => exact hstmt
        | _ => exact hk.elim
      · exact hstmt
      · exact hstmt

/-! ## Programs -/

theorem parseParam_accepts {ts rest : List TokenKind} {p : Param} (h : ParamDerives ts p) :
    Accepts parseParam Param.eraseSpans ts rest p := by
  cases h with
  | param ht name =>
    exact .current_bind rfl fun _ _ ↦ parseType_bind ht (.identifier_bind (.pure rfl))

theorem parseParamsLoop_accepts : ∀ (fuel : Nat) (us rest : List TokenKind) (ps : List Param),
    MoreParams us ps → us.length < fuel →
    Accepts (parseParamsLoop fuel) (List.map Param.eraseSpans) us (.rParen :: rest) ps
  | 0, _, _, _, _, hfuel => absurd hfuel (Nat.not_lt_zero _)
  | fuel + 1, us, rest, ps, h, hfuel => by
    unfold parseParamsLoop
    cases h with
    | nil => exact .noMatch_bind rfl rfl (by simp) (.pure rfl)
    | @cons ts us p ps h hs =>
      simp only [List.length_cons, List.length_append] at hfuel
      refine .matchToken_bind (.bind (parseParam_accepts h) fun param hp ↦ ?_)
      rw [← List.append_nil us]
      refine .bind (parseParamsLoop_accepts fuel us rest ps hs (by omega)) fun params hps ↦
        .pure ?_
      rw [List.map_cons, hp, hps]

theorem parseParams_accepts {fuel : Nat} {ts rest : List TokenKind} {ps : List Param}
    (h : ParamsDerive ts ps) (hlen : ts.length < fuel) :
    Accepts (parseParams fuel) (List.map Param.eraseSpans) ts (.rParen :: rest) ps := by
  cases h with
  | none =>
    refine .current_bind rfl fun t ht ↦ ?_
    rw [if_pos ht]
    exact .pure rfl
  | @params ts us p ps h hs =>
    have hhead : ∃ k r, ts = k :: r ∧ k ≠ .rParen := by
      cases h with
      | param ht =>
        refine ⟨_, _, rfl, ?_⟩
        cases ht <;> simp
    obtain ⟨k, r, hts, hk⟩ := hhead
    simp only [List.length_append] at hlen
    refine .current_bind (k := k) (by rw [hts]; rfl) fun t ht ↦ ?_
    rw [if_neg (by rw [ht]; exact hk)]
    refine .bind (parseParam_accepts h) fun param hp ↦ ?_
    rw [← List.append_nil us]
    refine .bind (parseParamsLoop_accepts fuel us rest ps hs (by omega)) fun params hps ↦ .pure ?_
    rw [List.map_cons, hp, hps]

theorem parseFunction_accepts {fuel : Nat} {ts rest : List TokenKind} {f : Function}
    (h : FunctionDerives ts f) (hlen : ts.length ≤ fuel) :
    Accepts (parseFunction fuel) Function.eraseSpans ts rest f := by
  cases h with
  | @function name ts us params body hp hb =>
    simp only [List.length_cons, List.length_append] at hlen
    obtain ⟨n, rfl⟩ : ∃ n, fuel = n + 1 := ⟨fuel - 1, by omega⟩
    refine .current_bind rfl fun _ _ ↦ .expect_bind (.identifier_bind (.expect_bind
      (.bind (parseParams_accepts hp (by omega)) fun params' hps ↦ .expect_bind ?_)))
    rw [← List.append_nil us]
    have hstmt : AcceptsStmt n (parseStmt (n + 1)) := fun ts rest st h hlen hf ↦
      parseStmt_accepts (n + 1) ts rest st h (by omega) hf
    refine .bind (parseBlock_accepts hstmt hb (by omega)) fun body' hbody ↦ .pure ?_
    rw [Function.eraseSpans, hps, hbody]

theorem parseProgram_accepts {n : Nat} : ∀ (fuel : Nat) (ts : List TokenKind) (p : Program),
    ProgramDerives ts p → ts.length < fuel → ts.length ≤ n →
    Accepts (parseProgram n fuel) Program.eraseSpans ts [.eof] p
  | 0, _, _, _, hfuel, _ => absurd hfuel (Nat.not_lt_zero _)
  | fuel + 1, ts, p, h, hfuel, hinner => by
    unfold parseProgram
    cases h with
    | nil =>
      refine .current_bind rfl fun t ht ↦ ?_
      rw [ht]
      exact .pure rfl
    | @globalDecl ts us g p h hs =>
      have hpos := List.length_pos_iff.mpr (globalDerives_ne_nil h)
      simp only [List.length_append] at hfuel hinner
      have hbody : Accepts (do
          let global ← parseGlobal n
          let program ← parseProgram n fuel
          return { program with globals := global :: program.globals }) Program.eraseSpans
          (ts ++ us) [.eof] { p with globals := g :: p.globals } := by
        refine .bind (parseGlobal_accepts h (by omega)) fun g' hg ↦ ?_
        rw [← List.append_nil us]
        refine .bind (parseProgram_accepts fuel us p hs (by omega) (by omega)) fun p' hp ↦ .pure ?_
        rw [← hg, ← hp]
        rfl
      cases h with
      | globalDecl ht =>
        refine .current_bind rfl fun t htk ↦ ?_
        rw [htk]
        cases ht with
        | int => exact hbody
        | bool => exact hbody
    | @function ts us f p h hs =>
      have hpos := List.length_pos_iff.mpr (functionDerives_ne_nil h)
      simp only [List.length_append] at hfuel hinner
      have hbody : Accepts (do
          let function ← parseFunction n
          let program ← parseProgram n fuel
          return { program with functions := function :: program.functions }) Program.eraseSpans
          (ts ++ us) [.eof] { p with functions := f :: p.functions } := by
        refine .bind (parseFunction_accepts h (by omega)) fun f' hf ↦ ?_
        rw [← List.append_nil us]
        refine .bind (parseProgram_accepts fuel us p hs (by omega) (by omega)) fun p' hp ↦ .pure ?_
        rw [← hf, ← hp]
        rfl
      cases h with
      | function =>
        refine .current_bind rfl fun t htk ↦ ?_
        rw [htk]
        exact hbody

end Parser

end MiniLang
