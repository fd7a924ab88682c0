import MiniLang.Syntax.Lexing

/-!
# Texts joined by line breaks

A token never goes over the end of a line, so the tokens of two texts with a line break between them
are those of the first and then those of the second. In a program the keyword `func` only stands at
the start of a function, so that a program can be cut before it.

## Joining

`Sentence s ts` says that the text has these tokens at its end and before another line, whatever is
on that line. Every text has tokens in this sense (`exists_sentence`): a run of letters or digits
ends at the line break, no operator has one in it, and a comment ends there. A text without a line
break behind it would not do, since two words could become one.

## Cutting

A declaration that is parsed from the joined text may not begin in one part and end in the other.
Derivations show where `func` can be: every token inside a declaration is `Inner`, and only the
first token of a function is `func` (`inner_of_functionDerives`). A program that is derived from
`ts ++ func :: ts'` is therefore a program from `ts` followed by one from the rest.
-/

namespace MiniLang

namespace Lexer

variable {s t : List UInt8} {kinds : List TokenKind} {ch : UInt8}

/-- The tokens of `s`, on their own and before another line. -/
structure Sentence (s : List UInt8) (ts : List TokenKind) : Prop where
  alone : Lexes s (ts ++ [.eof])
  joined : ∀ t kinds, Lexes t kinds → Lexes (s ++ byte '\n' :: t) (ts ++ kinds)

theorem sentence_nil : Sentence [] [] :=
  ⟨lexes_nil, fun _ _ h ↦ h.blank (byte '\n') (by decide)⟩

theorem head?_append_newline {p : UInt8 → Prop} (h : ∀ c ∈ s.head?, p c) (hnewline : p (byte '\n'))
    (t : List UInt8) : ∀ c ∈ (s ++ byte '\n' :: t).head?, p c := by
  cases s with
  | nil =>
    intro c hc
    rw [← Option.some_inj.mp hc]
    exact hnewline
  | cons ch s => exact h

/-- A rule that puts a token in front of any rest with an allowed first byte. -/
theorem Sentence.prepend {ts : List TokenKind} (h : Sentence s ts) (word : List UInt8)
    (us : List TokenKind) (p : UInt8 → Prop) (hp : ∀ c ∈ s.head?, p c) (hnewline : p (byte '\n'))
    (hrule : ∀ t kinds, (∀ c ∈ t.head?, p c) → Lexes t kinds → Lexes (word ++ t) (us ++ kinds)) :
    Sentence (word ++ s) (us ++ ts) := by
  constructor
  · rw [List.append_assoc]
    exact hrule s _ hp h.alone
  · intro t kinds ht
    rw [List.append_assoc, List.append_assoc]
    exact hrule _ _ (head?_append_newline hp hnewline t) (h.joined t kinds ht)

theorem Sentence.blank {ts : List TokenKind} (h : Sentence s ts) (hch : isWhitespace ch = true) :
    Sentence (ch :: s) ts :=
  h.prepend [ch] [] (fun _ ↦ True) (fun _ _ ↦ trivial) trivial
    fun _ _ _ ht ↦ ht.blank ch hch

theorem exists_span (q : UInt8 → Bool) (s : List UInt8) :
    ∃ word rest, s = word ++ rest ∧ (∀ c ∈ word, q c = true) ∧ ∀ c ∈ rest.head?, q c = false := by
  induction s with
  | nil => exact ⟨[], [], rfl, List.forall_mem_nil _, fun c hc ↦ (nomatch hc)⟩
  | cons ch s ih =>
    by_cases hch : q ch = true
    · obtain ⟨word, rest, rfl, hword, hrest⟩ := ih
      exact ⟨ch :: word, rest, rfl, List.forall_mem_cons.mpr ⟨hch, hword⟩, hrest⟩
    · refine ⟨[], ch :: s, rfl, List.forall_mem_nil _, fun c hc ↦ ?_⟩
      rw [← Option.some_inj.mp hc]
      exact (Bool.not_eq_true _).mp hch

theorem twoCharOperator_newline (ch : UInt8) : twoCharOperator ch (byte '\n') = none := by
  have heq : byte '\n' ≠ byte '=' := by decide
  have hand : byte '\n' ≠ byte '&' := by decide
  have hor : byte '\n' ≠ byte '|' := by decide
  simp [twoCharOperator, heq, hand, hor]

/-- A symbol of one or two bytes. -/
theorem sentence_symbol {ts : List TokenKind} (hch : IsSymbol ch)
    (hcomment : ¬(ch = byte '/' ∧ s.head? = some (byte '/'))) (h : Sentence s ts)
    (htail : ∃ us, Sentence s.tail us) : ∃ us, Sentence (ch :: s) us := by
  by_cases hpair : ∃ next kind, s.head? = some next ∧ twoCharOperator ch next = some kind
  · obtain ⟨next, kind, hnext, hkind⟩ := hpair
    cases s with
    | nil => cases hnext
    | cons c s =>
      obtain rfl : c = next := Option.some_inj.mp hnext
      obtain ⟨us, hus⟩ := htail
      refine ⟨kind :: us, ?_⟩
      exact hus.prepend [ch, c] [kind] (fun _ ↦ True) (fun _ _ ↦ trivial)
        trivial fun t kinds _ ht ↦ ht.symbol₂ ch c hch hkind
  · refine ⟨singleCharToken ch :: ts, ?_⟩
    refine h.prepend [ch] [singleCharToken ch]
      (fun c ↦ twoCharOperator ch c = none ∧ ¬(ch = byte '/' ∧ c = byte '/')) ?_ ?_ ?_
    · intro c hc
      refine ⟨?_, fun hslash ↦ hcomment ⟨hslash.1, hslash.2 ▸ hc⟩⟩
      cases hkind : twoCharOperator ch c with
      | none => rfl
      | some kind => exact absurd ⟨c, kind, hc, hkind⟩ hpair
    · refine ⟨twoCharOperator_newline ch, ?_⟩
      rintro ⟨-, heq⟩
      exact absurd heq (by decide)
    · intro t kinds hhead ht
      refine ht.symbol ch hch ?_ ?_
      · rintro ⟨hslash, hnext⟩
        exact (hhead _ hnext).2 ⟨hslash, rfl⟩
      · cases hnext : t.head? with
        | none => rfl
        | some c => exact (hhead c hnext).1

/-- Every text has tokens. -/
theorem exists_sentence (s : List UInt8) : ∃ ts, Sentence s ts := by
  induction hlength : s.length using Nat.strongRecOn generalizing s with
  | ind n ih =>
    subst hlength
    have hshorter (t : List UInt8) (ht : t.length < s.length) : ∃ ts, Sentence t ts :=
      ih t.length ht t rfl
    clear ih
    -- the first byte tells what the text begins with
    cases s with
    | nil => exact ⟨[], sentence_nil⟩
    | cons ch s =>
      by_cases hblank : isWhitespace ch = true
      · obtain ⟨ts, hs⟩ := hshorter s (Nat.lt_succ_self _)
        exact ⟨ts, hs.blank hblank⟩
      by_cases hcomment : ch = byte '/' ∧ s.head? = some (byte '/')
      · -- a comment, up to the end of its line
        obtain ⟨rfl, hnext⟩ := hcomment
        cases s with
        | nil => cases hnext
        | cons c s =>
          obtain rfl : c = byte '/' := Option.some_inj.mp hnext
          obtain ⟨body, rest, rfl, hbody, hrest⟩ := exists_span (· != byte '\n') s
          have hlt : rest.length < (byte '/' :: byte '/' :: (body ++ rest)).length := by
            rw [List.length_cons, List.length_cons, List.length_append]
            omega
          obtain ⟨ts, hs⟩ := hshorter rest hlt
          refine ⟨ts, ?_⟩
          exact hs.prepend (byte '/' :: byte '/' :: body) [] (· = byte '\n')
            (fun c hc ↦ bne_eq_false_iff_eq.mp (hrest c hc)) rfl
            fun t kinds hend ht ↦ ht.comment (fun c hc ↦ bne_iff_ne.mp (hbody c hc)) hend
      by_cases hident : isIdentifierChar ch = true
      · by_cases hdigit : isAsciiDigit ch = true
        · -- a number, up to the last digit
          obtain ⟨word, rest, rfl, hword, hrest⟩ := exists_span isAsciiDigit s
          have hlt : rest.length < (ch :: (word ++ rest)).length := by
            rw [List.length_cons, List.length_append]
            omega
          obtain ⟨ts, hs⟩ := hshorter rest hlt
          refine ⟨.intLiteral (digitsValue (ch :: word)) :: ts, ?_⟩
          exact hs.prepend (ch :: word) [.intLiteral (digitsValue (ch :: word))]
            (isAsciiDigit · = false) hrest (by decide) fun t kinds hend ht ↦
              ht.digitRun (List.forall_mem_cons.mpr ⟨hdigit, hword⟩) (List.cons_ne_nil _ _) hend
        · -- a word, up to its last character
          obtain ⟨word, rest, rfl, hword, hrest⟩ := exists_span isIdentifierChar s
          have hlt : rest.length < (ch :: (word ++ rest)).length := by
            rw [List.length_cons, List.length_append]
            omega
          obtain ⟨ts, hs⟩ := hshorter rest hlt
          refine ⟨keywordOrIdentifier (text (ch :: word)) :: ts, ?_⟩
          exact hs.prepend (ch :: word) [keywordOrIdentifier (text (ch :: word))]
            (isIdentifierChar · = false) hrest (by decide) fun t kinds hend ht ↦
              ht.identifier (List.forall_mem_cons.mpr ⟨hident, hword⟩)
                ((Bool.not_eq_true _).mp hdigit) hend
      · obtain ⟨ts, hs⟩ := hshorter s (Nat.lt_succ_self _)
        have hsymbol : IsSymbol ch :=
          ⟨(Bool.not_eq_true _).mp hident, (Bool.not_eq_true _).mp hblank⟩
        refine sentence_symbol hsymbol hcomment hs (hshorter s.tail ?_)
        rw [List.length_tail, List.length_cons]
        omega

end Lexer

/-! ## Cutting a program -/

namespace Grammar

/-- The tokens that stand inside a declaration. -/
def isInner : TokenKind → Bool
  | .kwFunc => false
  | .error _ => false
  | _ => true

def Inner (ts : List TokenKind) : Prop := ts.all isInner = true

theorem Inner.append {ts us : List TokenKind} (hts : Inner ts) (hus : Inner us) :
    Inner (ts ++ us) := by
  rw [Inner, List.all_append, hts, hus]
  rfl

theorem Inner.cons {k : TokenKind} {ts : List TokenKind} (hk : isInner k = true) (hts : Inner ts) :
    Inner (k :: ts) := by
  rw [Inner, List.all_cons, hk, hts]
  rfl

theorem Inner.snoc {k : TokenKind} {ts : List TokenKind} (hts : Inner ts) (hk : isInner k = true) :
    Inner (ts ++ [k]) := hts.append (.cons hk rfl)

theorem inner_of_operator {l : Level} {kind : TokenKind} {op : BinaryOp}
    (h : Operator l kind op) : isInner kind = true := by
  cases h <;> rfl

theorem inner_of_typeToken {kind : TokenKind} {t : Ty} (h : TypeToken kind t) :
    isInner kind = true := by
  cases h <;> rfl

mutual

theorem inner_of_derives : ∀ {l : Level} {ts : List TokenKind} {e : Expr},
    Derives l ts e → Inner ts
  | _, _, _, .chain _ h hs => (inner_of_derives h).append (inner_of_chain hs)
  | _, _, _, .neg (e := _) h => .cons rfl (inner_of_derives h)
  | _, _, _, .not (e := _) h => .cons rfl (inner_of_derives h)
  | _, _, _, .primary h => inner_of_derives h
  | _, _, _, .intLiteral _ => rfl
  | _, _, _, .boolLiteral _ => rfl
  | _, _, _, .identifier _ => rfl
  | _, _, _, .arrayIndex _ h => .cons rfl (.cons rfl ((inner_of_derives h).snoc rfl))
  | _, _, _, .callNone _ => rfl
  | _, _, _, .call _ h hs =>
    .cons rfl (.cons rfl (((inner_of_derives h).append (inner_of_moreArgs hs)).snoc rfl))
  | _, _, _, .parens h => .cons rfl ((inner_of_derives h).snoc rfl)

theorem inner_of_chain : ∀ {l : Level} {left : Expr} {ts : List TokenKind} {e : Expr},
    Chain l left ts e → Inner ts
  | _, _, _, _, .nil _ _ => rfl
  | _, _, _, _, .cons hop h hs =>
    .cons (inner_of_operator hop) ((inner_of_derives h).append (inner_of_chain hs))

theorem inner_of_moreArgs : ∀ {ts : List TokenKind} {es : List Expr}, MoreArgs ts es → Inner ts
  | _, _, .nil => rfl
  | _, _, .cons h hs => .cons rfl ((inner_of_derives h).append (inner_of_moreArgs hs))

end

theorem inner_of_declarator {ts : List TokenKind} {size : Option Int32} {init : Option Expr}
    (h : Declarator ts size init) : Inner ts := by
  cases h with
  | array => rfl
  | init h => exact .cons rfl ((inner_of_derives h).snoc rfl)
  | plain => rfl

mutual

theorem inner_of_stmtDerives : ∀ {ts : List TokenKind} {stmt : Stmt},
    StmtDerives ts stmt → Inner ts
  | _, _, .varDecl ht _ h =>
    .cons (inner_of_typeToken ht) (.cons rfl (inner_of_declarator h))
  | _, _, .assign _ h => .cons rfl (.cons rfl ((inner_of_derives h).snoc rfl))
  | _, _, .assignElement _ hi h =>
    .cons rfl (.cons rfl ((inner_of_derives hi).append
      (.cons rfl (.cons rfl ((inner_of_derives h).snoc rfl)))))
  | _, _, .ifThen h hb =>
    .cons rfl (.cons rfl ((inner_of_derives h).append (.cons rfl (inner_of_blockDerives hb))))
  | _, _, .ifElse h hb he =>
    .cons rfl (.cons rfl ((inner_of_derives h).append (.cons rfl
      ((inner_of_blockDerives hb).append (.cons rfl (inner_of_blockDerives he))))))
  | _, _, .whileStmt h hb =>
    .cons rfl (.cons rfl ((inner_of_derives h).append (.cons rfl (inner_of_blockDerives hb))))
  | _, _, .returnStmt h => .cons rfl ((inner_of_derives h).snoc rfl)
  | _, _, .print h => .cons rfl ((inner_of_derives h).snoc rfl)
  | _, _, .exprStmt h => (inner_of_derives h).snoc rfl

theorem inner_of_blockDerives : ∀ {ts : List TokenKind} {body : List Stmt},
    BlockDerives ts body → Inner ts
  | _, _, .block h => .cons rfl ((inner_of_stmtsDerive h).snoc rfl)

theorem inner_of_stmtsDerive : ∀ {ts : List TokenKind} {stmts : List Stmt},
    StmtsDerive ts stmts → Inner ts
  | _, _, .nil => rfl
  | _, _, .cons h hs => (inner_of_stmtDerives h).append (inner_of_stmtsDerive hs)

end

theorem inner_of_globalDerives {ts : List TokenKind} {g : GlobalVar} (h : GlobalDerives ts g) :
    Inner ts := by
  cases h with
  | globalDecl ht name h => exact .cons (inner_of_typeToken ht) (.cons rfl (inner_of_declarator h))

theorem inner_of_paramDerives {ts : List TokenKind} {p : Param} (h : ParamDerives ts p) :
    Inner ts := by
  cases h with
  | param ht name => exact .cons (inner_of_typeToken ht) rfl

theorem inner_of_moreParams {ts : List TokenKind} {ps : List Param} (h : MoreParams ts ps) :
    Inner ts := by
  induction h with
  | nil => rfl
  | cons h _ ih => exact .cons rfl ((inner_of_paramDerives h).append ih)

theorem inner_of_paramsDerive {ts : List TokenKind} {ps : List Param} (h : ParamsDerive ts ps) :
    Inner ts := by
  cases h with
  | none => rfl
  | params h hs => exact (inner_of_paramDerives h).append (inner_of_moreParams hs)

/-- Only the first token of a function is `func`. -/
theorem inner_of_functionDerives {ts : List TokenKind} {f : Function} (h : FunctionDerives ts f) :
    ∃ us, ts = .kwFunc :: us ∧ Inner us := by
  cases h with
  | function name hp hb =>
    exact ⟨_, rfl, .cons rfl (.cons rfl ((inner_of_paramsDerive hp).append
      (.cons rfl (inner_of_blockDerives hb))))⟩

/-- The declarations of two programs. -/
def Program.join (p q : Program) : Program :=
  ⟨p.globals ++ q.globals, p.functions ++ q.functions⟩

theorem ProgramDerives.join {ts us : List TokenKind} {p q : Program} (hp : ProgramDerives ts p)
    (hq : ProgramDerives us q) : ProgramDerives (ts ++ us) (Program.join p q) := by
  induction hp with
  | nil => exact hq
  | globalDecl h _ ih =>
    rw [List.append_assoc]
    exact .globalDecl h ih
  | function h _ ih =>
    rw [List.append_assoc]
    exact .function h ih

theorem not_mem_kwFunc {ts : List TokenKind} (h : Inner ts) : .kwFunc ∉ ts := by
  intro hmem
  cases List.all_eq_true.mp h _ hmem

/-- A program is cut before a token `func`. -/
theorem ProgramDerives.cut {ts us : List TokenKind} {p : Program}
    (h : ProgramDerives (ts ++ .kwFunc :: us) p) :
    ∃ p₁ p₂, ProgramDerives ts p₁ ∧ ProgramDerives (.kwFunc :: us) p₂ ∧
      p = Program.join p₁ p₂ := by
  generalize hall : ts ++ .kwFunc :: us = all at h
  induction h generalizing ts with
  | nil => cases List.append_eq_nil_iff.mp hall |>.2
  | @globalDecl vs ws g p hg hs ih =>
    rcases List.append_eq_append_iff.mp hall with ⟨cs, rfl, hrest⟩ | ⟨cs, rfl, hrest⟩
    · -- the token is not inside the declaration, so it starts what follows
      cases cs with
      | nil =>
        rw [List.nil_append] at hrest
        rw [List.append_nil] at hg
        have hfirst := ProgramDerives.globalDecl hg .nil
        rw [List.append_nil] at hfirst
        exact ⟨_, p, hfirst, hrest ▸ hs, rfl⟩
      | cons c cs =>
        obtain ⟨rfl, -⟩ := List.cons.inj hrest
        exact absurd (List.mem_append_right ts List.mem_cons_self)
          (not_mem_kwFunc (inner_of_globalDerives hg))
    · obtain ⟨p₁, p₂, h₁, h₂, rfl⟩ := ih hrest.symm
      exact ⟨_, p₂, .globalDecl hg h₁, h₂, rfl⟩
  -- a function has the token first and nowhere else
  | @function vs ws f p hf hs ih =>
    rcases List.append_eq_append_iff.mp hall with ⟨cs, rfl, hrest⟩ | ⟨cs, rfl, hrest⟩
    · cases ts with
      | nil =>
        refine ⟨⟨[], []⟩, ⟨p.globals, f :: p.functions⟩, .nil, ?_, rfl⟩
        rw [hrest]
        exact .function hf hs
      | cons k ts =>
        cases cs with
        | nil =>
          rw [List.nil_append] at hrest
          rw [List.append_nil] at hf
          have hfirst := ProgramDerives.function hf .nil
          rw [List.append_nil] at hfirst
          exact ⟨_, p, hfirst, hrest ▸ hs, rfl⟩
        | cons c cs =>
          obtain ⟨rfl, -⟩ := List.cons.inj hrest
          obtain ⟨us', htokens, hinner⟩ := inner_of_functionDerives hf
          obtain ⟨-, rfl⟩ := List.cons.inj htokens
          exact absurd (List.mem_append_right ts List.mem_cons_self) (not_mem_kwFunc hinner)
    · obtain ⟨p₁, p₂, h₁, h₂, rfl⟩ := ih hrest.symm
      exact ⟨_, p₂, .function hf h₁, h₂, rfl⟩

end Grammar

end MiniLang
