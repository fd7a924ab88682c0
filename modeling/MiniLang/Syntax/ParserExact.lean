import MiniLang.Syntax.Lexer
import MiniLang.Syntax.ParserComplete

/-!
# Exactness of the parser

A token list of the lexer ends with its only `Eof`. On such a list the parser succeeds exactly on
the sentences of the grammar, and its tree is the only one the grammar allows.
-/

namespace MiniLang

/-! ## The lexer's token lists -/

namespace Lexer

theorem length_advance_le (l : Lexer) : l.advance.rest.length ≤ l.rest.length := by
  unfold advance
  split
  · exact Nat.le_refl _
  · rename_i h
    rw [h]
    split <;> exact Nat.le_succ _

theorem length_advance_lt {l : Lexer} (h : l.rest ≠ []) :
    l.advance.rest.length < l.rest.length := by
  unfold advance
  split
  · contradiction
  · rename_i h
    rw [h]
    split <;> exact Nat.lt_succ_self _

theorem length_advanceWhile_le (p : UInt8 → Bool) : ∀ (s : List UInt8) (line column : Nat),
    (advanceWhile p s line column).2.rest.length ≤ s.length
  | [], _, _ => Nat.le_refl _
  | ch :: rest, line, column => by
    unfold advanceWhile
    split
    · exact Nat.le_succ_of_le (length_advanceWhile_le p rest _ _)
    · exact Nat.le_refl _

theorem length_takeWhile_le (p : UInt8 → Bool) (l : Lexer) :
    (l.takeWhile p).2.rest.length ≤ l.rest.length :=
  length_advanceWhile_le p l.rest l.line l.column

theorem length_takeWhile_lt {p : UInt8 → Bool} {l : Lexer} {ch : UInt8} {rest : List UInt8}
    (hl : l.rest = ch :: rest) (hp : p ch = true) :
    (l.takeWhile p).2.rest.length < l.rest.length := by
  unfold takeWhile
  rw [hl, advanceWhile, if_pos hp]
  exact Nat.lt_succ_of_le (length_advanceWhile_le p rest _ _)

theorem length_skip_le : ∀ (fuel : Nat) (l : Lexer),
    (skipWhitespaceAndComments fuel l).rest.length ≤ l.rest.length
  | 0, _ => Nat.le_refl _
  | fuel + 1, l => by
    unfold skipWhitespaceAndComments
    simp only
    have h := length_takeWhile_le isWhitespace l
    split
    · exact Nat.le_trans (length_skip_le fuel _) (Nat.le_trans (length_takeWhile_le _ _) h)
    · exact h

theorem keywordOrIdentifier_ne_eof (s : String) : keywordOrIdentifier s ≠ .eof := by
  unfold keywordOrIdentifier
  split <;> simp

theorem ite_ne {α : Type} {p : Prop} [Decidable p] {a b c : α} (ha : a ≠ c) (hb : b ≠ c) :
    (if p then a else b) ≠ c := by
  split <;> assumption

theorem singleCharToken_ne_eof (ch : UInt8) : singleCharToken ch ≠ .eof := by
  unfold singleCharToken
  repeat' apply ite_ne
  all_goals simp

theorem twoCharOperator_ne_eof {ch next : UInt8} {kind : TokenKind}
    (h : twoCharOperator ch next = some kind) : kind ≠ .eof := by
  unfold twoCharOperator at h
  rintro rfl
  repeat' split at h
  all_goals simp at h

/-- Every token but `Eof` consumes input. -/
theorem length_nextToken_lt {l : Lexer} (h : l.nextToken.1.kind ≠ .eof) :
    l.nextToken.2.rest.length < l.rest.length := by
  have hskip := length_skip_le (l.rest.length + 1) l
  unfold nextToken at h ⊢
  simp only at h ⊢
  generalize l.skipWhitespaceAndComments (l.rest.length + 1) = m at h hskip ⊢
  split at h
  · exact absurd rfl h
  · rename_i ch rest hm
    have hne : m.rest ≠ [] := by simp [hm]
    refine Nat.lt_of_lt_of_le ?_ hskip
    rw [hm]
    split
    · exact hm ▸ length_takeWhile_lt hm (by assumption)
    · split
      · rename_i hid
        refine hm ▸ length_takeWhile_lt hm ?_
        simp only [Bool.or_eq_true] at hid ⊢
        rcases hid with hid | hid
        · exact .inl (by simp [isAsciiAlphanumeric, hid])
        · exact .inr hid
      · split
        · exact hm ▸ Nat.lt_of_le_of_lt (length_advance_le _) (length_advance_lt hne)
        · exact hm ▸ length_advance_lt hne

theorem tokenizeLoop_eofEnded : ∀ (fuel : Nat) (l : Lexer), l.rest.length < fuel →
    EofEnded (tokenizeLoop fuel l)
  | 0, _, h => absurd h (Nat.not_lt_zero _)
  | fuel + 1, l, h => by
    unfold tokenizeLoop
    simp only
    split
    · exact ⟨[], _, rfl, by assumption, by simp⟩
    · rename_i hne
      have hlt := length_nextToken_lt hne
      obtain ⟨body, last, heq, hlast, hbody⟩ :=
        tokenizeLoop_eofEnded fuel l.nextToken.2 (by omega)
      exact ⟨l.nextToken.1 :: body, last, by rw [heq]; rfl, hlast,
        List.forall_mem_cons.mpr ⟨hne, hbody⟩⟩

end Lexer

theorem tokenize_eofEnded (source : List UInt8) : EofEnded (tokenize source) :=
  Lexer.tokenizeLoop_eofEnded _ _ (Nat.lt_succ_self _)

namespace Parser

open Grammar

/-! ## The end of a parse -/

/-- The loop over the declarations ends at `Eof`. -/
theorem parseProgram_stops_at_eof {n : Nat} : ∀ fuel : Nat,
    EStateM.Triple (fun _ ↦ True) (parseProgram n fuel)
      (fun _ s ↦ ∃ t r, s = t :: r ∧ t.kind = .eof) (fun _ _ ↦ True)
  | 0 => fun _ _ ↦ trivial
  | fuel + 1 => by
    have ih := parseProgram_stops_at_eof (n := n) fuel
    have hany : ∀ {α : Type} {P : List Token → Prop} (p : ParserM α),
        EStateM.Triple P p (fun _ _ ↦ True) (fun _ _ ↦ True) := by
      intro α P p s _
      cases EStateM.run p s <;> trivial
    refine EStateM.Triple.bind (Q := fun t s ↦ ∃ r, s = t :: r) (fun s _ ↦ ?_) fun t ↦ ?_
    · cases s with
      | nil => trivial
      | cons t r => exact ⟨r, rfl⟩
    · split
      · exact .pure fun s ⟨r, hs⟩ ↦ ⟨t, r, hs, by assumption⟩
      · exact .bind (hany _) fun _ ↦ ih.bind fun _ ↦ .pure fun _ h ↦ h
      · exact .bind (hany _) fun _ ↦ ih.bind fun _ ↦ .pure fun _ h ↦ h
      · exact .bind (hany _) fun _ ↦ ih.bind fun _ ↦ .pure fun _ h ↦ h
      · intro s _
        cases s <;> trivial

theorem kinds_of_eofEnded {tokens : List Token} (h : EofEnded tokens) :
    ∃ ts, tokens.map Token.kind = ts ++ [.eof] ∧ TokenKind.eof ∉ ts := by
  obtain ⟨body, last, rfl, hlast, hbody⟩ := h
  refine ⟨body.map Token.kind, by simp [hlast], fun hmem ↦ ?_⟩
  obtain ⟨t, ht, heq⟩ := List.mem_map.mp hmem
  exact hbody t ht heq

/-- A derivable token list parses to the tree of the derivation. -/
theorem parse_of_derives {tokens : List Token} {ts : List TokenKind} {q : Program}
    (hts : tokens.map Token.kind = ts ++ [.eof]) (h : ProgramDerives ts q) :
    ∃ p, parse tokens = .ok p ∧ p.eraseSpans = q := by
  have hlen : ts.length + 1 = tokens.length := by
    have := congrArg List.length hts
    simpa using this.symm
  obtain ⟨p, s', hr, -, hp⟩ := parseProgram_accepts (n := tokens.length + 1)
    (tokens.length + 1) ts q h (by omega) (by omega) tokens hts
  exact ⟨p, by rw [parse, hr], hp⟩

/-- A successful parse is a derivation of all tokens before `Eof`. -/
theorem derives_of_parse {tokens : List Token} (htokens : EofEnded tokens) {ts : List TokenKind}
    (hts : tokens.map Token.kind = ts ++ [.eof]) {p : Program} (h : parse tokens = .ok p) :
    ProgramDerives ts p.eraseSpans := by
  have hspec := parseProgram_parses (n := tokens.length + 1) (tokens.length + 1) tokens htokens
    (Nat.le_succ _) (Nat.le_succ _)
  have hend := parseProgram_stops_at_eof (n := tokens.length + 1) (tokens.length + 1) tokens
    trivial
  unfold parse at h
  unfold Parses at hspec
  cases hr : (parseProgram (tokens.length + 1) (tokens.length + 1)).run tokens with
  | error e s' =>
    rw [hr] at h
    cases h
  | ok p' s' =>
    rw [hr] at h hspec hend
    obtain rfl : p' = p := Except.ok.inj h
    obtain ⟨us, hus, hs', hd⟩ := hspec
    obtain ⟨t, r, rfl, ht⟩ := hend
    obtain rfl := hs'.eq_nil ht
    have heq : ts ++ [TokenKind.eof] = us ++ [.eof] := by rw [← hts, hus]; simp [ht]
    rwa [List.append_cancel_right heq]

/-- A failed parse reports a message. -/
theorem parse_error {tokens : List Token} (htokens : EofEnded tokens) {e : ParseFailure}
    (h : parse tokens = .error e) : ∃ message span, e = .error message span := by
  have hspec := parseProgram_parses (n := tokens.length + 1) (tokens.length + 1) tokens htokens
    (Nat.le_succ _) (Nat.le_succ _)
  unfold parse at h
  unfold Parses at hspec
  cases hr : (parseProgram (tokens.length + 1) (tokens.length + 1)).run tokens with
  | ok p' s' =>
    rw [hr] at h
    cases h
  | error e' s' =>
    rw [hr] at h hspec
    obtain rfl := Except.error.inj h
    exact hspec

/-- **Exactness.** On the tokens of any source the parser ends without reading past `Eof`, accepts
exactly the sentences of the grammar, and returns the unique tree of the sentence. -/
theorem parse_tokenize_exact (source : List UInt8) :
    ∃ ts, (tokenize source).map Token.kind = ts ++ [.eof] ∧ TokenKind.eof ∉ ts ∧
      parse (tokenize source) ≠ .error .overrun ∧ parse (tokenize source) ≠ .error .outOfFuel ∧
      ((∃ p, parse (tokenize source) = .ok p) ↔ ∃ q, ProgramDerives ts q) ∧
      ∀ p, parse (tokenize source) = .ok p →
        ProgramDerives ts p.eraseSpans ∧ ∀ q, ProgramDerives ts q → q = p.eraseSpans := by
  have htokens := tokenize_eofEnded source
  obtain ⟨ts, hts, heof⟩ := kinds_of_eofEnded htokens
  refine ⟨ts, hts, heof, fun h ↦ ?_, fun h ↦ ?_, ⟨fun ⟨p, hp⟩ ↦ ?_, fun ⟨q, hq⟩ ↦ ?_⟩,
    fun p hp ↦ ⟨derives_of_parse htokens hts hp, fun q hq ↦ ?_⟩⟩
  · obtain ⟨_, _, h⟩ := parse_error htokens h
    cases h
  · obtain ⟨_, _, h⟩ := parse_error htokens h
    cases h
  · exact ⟨_, derives_of_parse htokens hts hp⟩
  · obtain ⟨p, hp, -⟩ := parse_of_derives hts hq
    exact ⟨p, hp⟩
  · obtain ⟨p', hp', rfl⟩ := parse_of_derives hts hq
    rw [hp] at hp'
    rw [Except.ok.inj hp']

end Parser

end MiniLang
