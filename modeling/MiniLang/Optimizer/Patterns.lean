import MiniLang.Optimizer.Operands

/-!
# The patterns of the optimizer

Every pattern that a pass replaces, and what the pass puts in its place, leave the same operands.

## What a replacement has to do

`Replaces` compares two blocks of straight code on every list of operands, with any room on top of
it. Where the old block leaves operands, the new one leaves the same. Where the old one fails, it is
for want of room or of operands: the first is excused, since the new block may need less room, and
the second does not happen in the code of a verified program. A division is folded only where the
divisor is not zero and left out only where it is one, so there is no other failure. A replacement
is also no longer than what it replaces, and not everywhere shorter: the passes end because they go
over the code once.

## Arithmetic

The optimizer folds integers and normalises the result, the value machine computes with `Int32`. The
two agree because an `Int32` is determined by its integer modulo `2 ^ 32` (`ofInt_normalizeI32`).
From there each rule is an identity about `Int32`, or about one operand and a constant: a neutral
element on the right, a product with zero, a constant that is popped again.
-/

namespace MiniLang

namespace Optimizer

/-- The block `new` may stand for `old`. -/
structure Replaces (old new : List Instruction) : Prop where
  nonempty : old ≠ []
  length_le : new.length ≤ old.length
  old_onOperands : ∀ instr ∈ old, OnOperands instr
  new_onOperands : ∀ instr ∈ new, OnOperands instr
  same : ∀ room stack stack', blockOperands room old stack = .ok stack' →
    blockOperands room new stack = .ok stack'
  missing : ∀ room stack code, blockOperands room old stack = .error code →
    code = .stackOverflow ∨ code = .stackUnderflow

variable {a b : Int32} {room : Nat} {stack stack' : List Int32} {block : List Instruction}
  {code : TrapCode} {arg1 arg2 arg3 arg4 : Int32} {opcode : Opcode}

/-! ## Arithmetic -/

theorem ofInt_bmod (n : Int) : Int32.ofInt (n.bmod (2 ^ 32)) = Int32.ofInt n := by
  rw [← Int32.toInt_inj, Int32.toInt_ofInt, Int32.toInt_ofInt]
  exact Int.bmod_bmod ..

theorem ofInt_normalizeI32 (n : Int) : Int32.ofInt (normalizeI32 n) = Int32.ofInt n := by
  rw [normalizeI32_eq_bmod]
  exact ofInt_bmod n

theorem ofInt_flag {p q : Prop} [Decidable p] [Decidable q] (h : q ↔ p) :
    Int32.ofInt (if q then 1 else 0) = ValueVm.flag p := by
  rw [ValueVm.flag, if_congr h rfl rfl]
  split <;> rfl

/-- A folded value is what the machine computes. -/
theorem operands_of_folded {value : Int} (h : folded opcode a.toInt b.toInt = some value)
    (room : Nat) (stack : List Int32) :
    operands room ⟨opcode, arg1, arg2⟩ (b :: a :: stack) =
      pushed room (Int32.ofInt value) stack := by
  cases opcode with
  | add =>
    obtain rfl := Option.some_inj.mp h
    rw [← ValueVm.toInt_add, Int32.ofInt_toInt]
    rfl
  | sub =>
    obtain rfl := Option.some_inj.mp h
    rw [← ValueVm.toInt_sub, Int32.ofInt_toInt]
    rfl
  | mul =>
    obtain rfl := Option.some_inj.mp h
    rw [← ValueVm.toInt_mul, Int32.ofInt_toInt]
    rfl
  | div =>
    rw [folded] at h
    split at h
    · next hdiv =>
      obtain rfl := Option.some_inj.mp h
      have hne : b ≠ 0 := fun hb ↦ hdiv.1 (hb ▸ rfl)
      rw [← ofInt_normalizeI32, ← ValueVm.toInt_div, Int32.ofInt_toInt]
      exact if_neg hne
    · cases h
  | eq =>
    obtain rfl := Option.some_inj.mp h
    rw [ofInt_flag Int32.toInt_inj]
    rfl
  | ne =>
    obtain rfl := Option.some_inj.mp h
    rw [ofInt_flag (not_congr Int32.toInt_inj)]
    rfl
  | lt | gt =>
    obtain rfl := Option.some_inj.mp h
    rw [ofInt_flag Int32.lt_iff_toInt_lt.symm]
    rfl
  | le | ge =>
    obtain rfl := Option.some_inj.mp h
    rw [ofInt_flag Int32.le_iff_toInt_le.symm]
    rfl
  | _ => cases h

theorem onOperands_of_folded {value : Int} (h : folded opcode a.toInt b.toInt = some value) :
    OnOperands ⟨opcode, arg1, arg2⟩ := by
  cases opcode with
  | div => exact .inl (List.mem_of_elem_eq_true rfl)
  | add | sub | mul | eq | ne | lt | gt | le | ge => exact .inr rfl
  | _ => cases h

/-! ## Blocks -/

theorem onOperands_loadConst (arg1 arg2 : Int32) : OnOperands ⟨.loadConst, arg1, arg2⟩ :=
  .inl List.mem_cons_self

theorem pushed_cases (room : Nat) (value : Int32) (stack : List Int32) :
    stack.length < room ∧ pushed room value stack = .ok (value :: stack) ∨
      pushed room value stack = .error .stackOverflow := by
  rw [pushed]
  split
  · next h => exact .inl ⟨h, rfl⟩
  · exact .inr rfl

/-- The missing operands or the missing room of a block are those of its rest. -/
theorem blockOperands_loadConst (arg1 arg2 : Int32) (block : List Instruction) :
    stack.length < room ∧ blockOperands room (⟨.loadConst, arg1, arg2⟩ :: block) stack =
      blockOperands room block (arg1 :: stack) ∨
    blockOperands room (⟨.loadConst, arg1, arg2⟩ :: block) stack = .error .stackOverflow := by
  rw [blockOperands]
  rcases pushed_cases room arg1 stack with ⟨hlt, hpushed⟩ | hpushed
  · exact .inl ⟨hlt, by rw [operands, hpushed]; rfl⟩
  · exact .inr (by rw [operands, hpushed]; rfl)

theorem blockOperands_single (room : Nat) (instr : Instruction) (stack : List Int32) :
    blockOperands room [instr] stack = operands room instr stack := by
  rw [blockOperands]
  cases operands room instr stack with
  | ok stack => rfl
  | error code => rfl

/-- A constant and an instruction that makes a constant of it. -/
theorem replaces_loads {old : List Instruction} {value : Int32} (hne : old ≠ [])
    (hold : ∀ instr ∈ old, OnOperands instr)
    (hsame : ∀ room stack, blockOperands room old stack = pushed room value stack ∨
      blockOperands room old stack = .error .stackOverflow) :
    Replaces old [⟨.loadConst, value, 0⟩] where
  nonempty := hne
  length_le := List.length_pos_iff.mpr hne
  old_onOperands := hold
  new_onOperands instr hinstr := List.mem_singleton.mp hinstr ▸ onOperands_loadConst _ _
  same room stack stack' h := by
    rw [blockOperands_single]
    rcases hsame room stack with heq | heq
    · exact heq.symm.trans h
    · cases heq.symm.trans h
  missing room stack code h := by
    refine .inl ?_
    rcases hsame room stack with heq | heq
    · rcases pushed_cases room value stack with ⟨-, hpushed⟩ | hpushed
      · cases (heq.trans hpushed).symm.trans h
      · cases (heq.trans hpushed).symm.trans h
        rfl
    · cases heq.symm.trans h
      rfl

theorem replaces_binary {value : Int} (h : folded opcode a.toInt b.toInt = some value) :
    Replaces [⟨.loadConst, a, arg1⟩, ⟨.loadConst, b, arg2⟩, ⟨opcode, arg3, arg4⟩]
      [⟨.loadConst, Int32.ofInt value, 0⟩] := by
  refine replaces_loads (List.cons_ne_nil _ _) ?_ fun room stack ↦ ?_
  · intro instr hinstr
    simp only [List.mem_cons, List.not_mem_nil, or_false] at hinstr
    rcases hinstr with rfl | rfl | rfl
    · exact onOperands_loadConst _ _
    · exact onOperands_loadConst _ _
    · exact onOperands_of_folded h
  · rcases blockOperands_loadConst a arg1 _ with ⟨-, heq⟩ | heq
    · rw [heq]
      rcases blockOperands_loadConst b arg2 _ with ⟨-, heq⟩ | heq
      · rw [heq, blockOperands_single, operands_of_folded h]
        exact .inl rfl
      · exact .inr heq
    · exact .inr heq

/-- An instruction that replaces the top operand by a value of it. -/
theorem replaces_unary {f : Int32 → Int32} {value : Int32}
    (hop : OnOperands ⟨opcode, arg3, arg4⟩)
    (hf : ∀ room stack, operands room ⟨opcode, arg3, arg4⟩ (a :: stack) = pushed room (f a) stack)
    (hvalue : f a = value) :
    Replaces [⟨.loadConst, a, arg1⟩, ⟨opcode, arg3, arg4⟩] [⟨.loadConst, value, 0⟩] := by
  refine replaces_loads (List.cons_ne_nil _ _) ?_ fun room stack ↦ ?_
  · intro instr hinstr
    simp only [List.mem_cons, List.not_mem_nil, or_false] at hinstr
    rcases hinstr with rfl | rfl
    · exact onOperands_loadConst _ _
    · exact hop
  · rcases blockOperands_loadConst a arg1 _ with ⟨-, heq⟩ | heq
    · rw [heq, blockOperands_single, hf, hvalue]
      exact .inl rfl
    · exact .inr heq

/-- An operand that the next instruction leaves as it is. -/
theorem replaces_neutral (hop : OnOperands ⟨opcode, arg3, arg4⟩)
    (hempty : ∀ room, operands room ⟨opcode, arg3, arg4⟩ [b] = .error .stackUnderflow)
    (hsame : ∀ room a stack, operands room ⟨opcode, arg3, arg4⟩ (b :: a :: stack) =
      pushed room a stack) :
    Replaces [⟨.loadConst, b, arg1⟩, ⟨opcode, arg3, arg4⟩] [] where
  nonempty := List.cons_ne_nil _ _
  length_le := Nat.zero_le _
  old_onOperands instr hinstr := by
    simp only [List.mem_cons, List.not_mem_nil, or_false] at hinstr
    rcases hinstr with rfl | rfl
    · exact onOperands_loadConst _ _
    · exact hop
  new_onOperands instr hinstr := absurd hinstr List.not_mem_nil
  same room stack stack' h := by
    rcases blockOperands_loadConst b arg1 _ with ⟨-, heq⟩ | heq
    · rw [heq, blockOperands_single] at h
      rcases stack with _ | ⟨a, stack⟩
      · cases (hempty room).symm.trans h
      · rw [hsame] at h
        rcases pushed_cases room a stack with ⟨-, hpushed⟩ | hpushed
        · exact hpushed.symm.trans h
        · cases hpushed.symm.trans h
    · cases heq.symm.trans h
  missing room stack code h := by
    rcases blockOperands_loadConst b arg1 _ with ⟨-, heq⟩ | heq
    · rw [heq, blockOperands_single] at h
      rcases stack with _ | ⟨a, stack⟩
      · cases (hempty room).symm.trans h
        exact .inr rfl
      · rw [hsame] at h
        rcases pushed_cases room a stack with ⟨-, hpushed⟩ | hpushed
        · cases hpushed.symm.trans h
        · cases hpushed.symm.trans h
          exact .inl rfl
    · cases heq.symm.trans h
      exact .inl rfl

/-- A product with zero needs no factor. -/
theorem replaces_zero :
    Replaces [⟨.loadConst, 0, arg1⟩, ⟨.mul, arg3, arg4⟩] [⟨.pop, 0, 0⟩, ⟨.loadConst, 0, 0⟩] where
  nonempty := List.cons_ne_nil _ _
  length_le := le_rfl
  old_onOperands instr hinstr := by
    simp only [List.mem_cons, List.not_mem_nil, or_false] at hinstr
    rcases hinstr with rfl | rfl
    · exact onOperands_loadConst _ _
    · exact .inr rfl
  new_onOperands instr hinstr := by
    simp only [List.mem_cons, List.not_mem_nil, or_false] at hinstr
    rcases hinstr with rfl | rfl
    · exact .inl (List.mem_of_elem_eq_true rfl)
    · exact onOperands_loadConst _ _
  same room stack stack' h := by
    rcases blockOperands_loadConst 0 arg1 _ with ⟨-, heq⟩ | heq
    · rw [heq, blockOperands_single] at h
      rcases stack with _ | ⟨a, stack⟩
      · cases h
      · have hmul : pushed room (a * 0) stack = .ok stack' := h
        rw [Int32.mul_zero] at hmul
        exact (blockOperands_single room ⟨.loadConst, 0, 0⟩ stack).trans hmul
    · cases heq.symm.trans h
  missing room stack code h := by
    rcases blockOperands_loadConst 0 arg1 _ with ⟨-, heq⟩ | heq
    · rw [heq, blockOperands_single] at h
      rcases stack with _ | ⟨a, stack⟩
      · cases h
        exact .inr rfl
      · have hmul : pushed room (a * 0) stack = .error code := h
        rcases pushed_cases room (a * 0) stack with ⟨-, hpushed⟩ | hpushed
        · cases hpushed.symm.trans hmul
        · cases hpushed.symm.trans hmul
          exact .inl rfl
    · cases heq.symm.trans h
      exact .inl rfl

/-- A constant that nobody uses. -/
theorem replaces_dead (value : Int32) :
    Replaces [⟨.loadConst, value, arg1⟩, ⟨.pop, arg3, arg4⟩] [] where
  nonempty := List.cons_ne_nil _ _
  length_le := Nat.zero_le _
  old_onOperands instr hinstr := by
    simp only [List.mem_cons, List.not_mem_nil, or_false] at hinstr
    rcases hinstr with rfl | rfl
    · exact onOperands_loadConst _ _
    · exact .inl (List.mem_of_elem_eq_true rfl)
  new_onOperands instr hinstr := absurd hinstr List.not_mem_nil
  same room stack stack' h := by
    rcases blockOperands_loadConst value arg1 _ with ⟨-, heq⟩ | heq
    · rw [heq] at h
      exact h
    · cases heq.symm.trans h
  missing room stack code h := by
    rcases blockOperands_loadConst value arg1 _ with ⟨-, heq⟩ | heq
    · cases heq.symm.trans h
    · cases heq.symm.trans h
      exact .inl rfl

/-! ## Rules -/

/-- What a rule matches, and that it may be replaced. -/
def Matched (code new : List Instruction) (n : Nat) : Prop :=
  ∃ old rest, code = old ++ rest ∧ old.length = n ∧ 0 < n ∧ Replaces old new

theorem matched_foldBinary {code new : List Instruction} {n : Nat}
    (h : foldBinary code = some (new, n)) : Matched code new n := by
  rcases code with _ | ⟨⟨op0, a, arg1⟩, _ | ⟨⟨op1, b, arg2⟩, _ | ⟨⟨opcode, arg3, arg4⟩, rest⟩⟩⟩
  · cases h
  · cases h
  · cases h
  · rw [foldBinary] at h
    split at h
    · next hops =>
      obtain ⟨rfl, rfl⟩ := hops
      obtain ⟨value, hvalue, heq⟩ := Option.map_eq_some_iff.mp h
      obtain ⟨rfl, rfl⟩ := Prod.mk.inj heq
      exact ⟨_, rest, rfl, rfl, Nat.succ_pos _, replaces_binary hvalue⟩
    · cases h

theorem matched_foldUnary {code new : List Instruction} {n : Nat}
    (h : foldUnary code = some (new, n)) : Matched code new n := by
  rcases code with _ | ⟨⟨op0, a, arg1⟩, _ | ⟨⟨op1, arg3, arg4⟩, rest⟩⟩
  · cases h
  · cases h
  · rw [foldUnary] at h
    split at h
    · next hops =>
      obtain ⟨rfl, rfl⟩ := hops
      obtain ⟨rfl, rfl⟩ := Prod.mk.inj (Option.some_inj.mp h)
      refine ⟨_, rest, rfl, rfl, Nat.succ_pos _, replaces_unary (f := (- ·)) ?_ ?_ ?_⟩
      · exact .inl (List.mem_of_elem_eq_true rfl)
      · exact fun room stack ↦ rfl
      · rw [← ValueVm.toInt_neg, Int32.ofInt_toInt]
    · split at h
      · next hops =>
        obtain ⟨rfl, rfl⟩ := hops
        obtain ⟨rfl, rfl⟩ := Prod.mk.inj (Option.some_inj.mp h)
        refine ⟨_, rest, rfl, rfl, Nat.succ_pos _,
          replaces_unary (f := fun a ↦ ValueVm.flag (a = 0)) ?_ ?_ rfl⟩
        · exact .inl (List.mem_of_elem_eq_true rfl)
        · exact fun room stack ↦ rfl
      · cases h

theorem matched_foldRule {pos : Nat} {code new : List Instruction} {n : Nat}
    (h : foldRule pos code = some (new, n)) : Matched code new n := by
  rw [foldRule, Option.or_eq_some_iff] at h
  rcases h with h | ⟨-, h⟩
  · exact matched_foldBinary h
  · exact matched_foldUnary h

/-- An operator of which the constant is a neutral element on the right. -/
theorem replaces_neutral_operator {f : Int32 → Int32 → Int32} (hop : operator opcode = some f)
    (hoperands : ∀ room stack, operands room ⟨opcode, arg3, arg4⟩ stack =
      binaryOperands room f stack) (hf : ∀ a, f a b = a) :
    Replaces [⟨.loadConst, b, arg1⟩, ⟨opcode, arg3, arg4⟩] [] := by
  refine replaces_neutral (.inr (by rw [hop]; rfl)) (fun room ↦ hoperands room [b]) ?_
  intro room a stack
  rw [hoperands, binaryOperands, hf]

theorem matched_reduceRule {pos : Nat} {code new : List Instruction} {n : Nat}
    (h : reduceRule pos code = some (new, n)) : Matched code new n := by
  rcases code with _ | ⟨⟨op0, a, arg1⟩, _ | ⟨⟨op1, arg3, arg4⟩, rest⟩⟩
  · cases h
  · cases h
  rw [reduceRule] at h
  dsimp only at h
  split at h
  · next hops =>
    obtain ⟨rfl, rfl, rfl⟩ := hops
    obtain ⟨rfl, rfl⟩ := Prod.mk.inj (Option.some_inj.mp h)
    exact ⟨_, rest, rfl, rfl, Nat.succ_pos _, replaces_zero⟩
  split at h
  · next hops =>
    obtain ⟨rfl, rfl, rfl⟩ := hops
    obtain ⟨rfl, rfl⟩ := Prod.mk.inj (Option.some_inj.mp h)
    exact ⟨_, rest, rfl, rfl, Nat.succ_pos _,
      replaces_neutral_operator rfl (fun _ _ ↦ rfl) Int32.mul_one⟩
  split at h
  · next hops =>
    obtain ⟨rfl, rfl, rfl⟩ := hops
    obtain ⟨rfl, rfl⟩ := Prod.mk.inj (Option.some_inj.mp h)
    exact ⟨_, rest, rfl, rfl, Nat.succ_pos _,
      replaces_neutral_operator rfl (fun _ _ ↦ rfl) Int32.add_zero⟩
  split at h
  · next hops =>
    obtain ⟨rfl, rfl, rfl⟩ := hops
    obtain ⟨rfl, rfl⟩ := Prod.mk.inj (Option.some_inj.mp h)
    exact ⟨_, rest, rfl, rfl, Nat.succ_pos _,
      replaces_neutral_operator rfl (fun _ _ ↦ rfl) Int32.sub_zero⟩
  split at h
  · next hops =>
    obtain ⟨rfl, rfl, rfl⟩ := hops
    obtain ⟨rfl, rfl⟩ := Prod.mk.inj (Option.some_inj.mp h)
    refine ⟨_, rest, rfl, rfl, Nat.succ_pos _, replaces_neutral ?_ (fun room ↦ rfl) ?_⟩
    · exact .inl (List.mem_of_elem_eq_true rfl)
    · intro room a stack
      have hdiv : operands room ⟨.div, arg3, arg4⟩ (1 :: a :: stack) = pushed room (a / 1) stack :=
        rfl
      rw [hdiv, Int32.div_one]
  · cases h

/-- Only jumps are removed without a replacement. -/
theorem matched_peepholeRule {pos : Nat} {code new : List Instruction} {n : Nat}
    (hjumps : ∀ instr ∈ code, instr.opcode ∉ [.jump, .jumpIfFalse, .jumpIfTrue])
    (h : peepholeRule pos code = some (new, n)) : Matched code new n := by
  rcases code with _ | ⟨⟨op0, a, arg1⟩, _ | ⟨⟨op1, arg3, arg4⟩, rest⟩⟩
  · cases h
  · cases h
  rw [peepholeRule] at h
  split at h
  · next hops =>
    obtain ⟨rfl, rfl⟩ := hops
    obtain ⟨rfl, rfl⟩ := Prod.mk.inj (Option.some_inj.mp h)
    exact ⟨_, rest, rfl, rfl, Nat.succ_pos _, replaces_dead a⟩
  split at h
  · next hops =>
    obtain ⟨rfl, -⟩ := hops
    exact absurd List.mem_cons_self (hjumps _ List.mem_cons_self)
  · cases h

/-! ## Passes -/

/-- Control does not go on behind the instruction. -/
def Leaves (instr : Instruction) : Prop := instr.opcode = .return ∨ instr.opcode = .halt

/-- There is no jump in the code. -/
def NoJumps (instructions : List Instruction) : Prop :=
  ∀ instr ∈ instructions, instr.opcode ∉ [.jump, .jumpIfFalse, .jumpIfTrue]

/-- What a pass makes of the code. -/
abbrev Rewritten (instructions instructions' : List Instruction) : Prop :=
  Peephole.Rewrites Replaces (fun _ ↦ False) instructions instructions'

variable {instructions instructions' : List Instruction}

theorem OnOperands.not_jump {instr : Instruction} (h : OnOperands instr) :
    instr.opcode ∉ [.jump, .jumpIfFalse, .jumpIfTrue] := by
  intro hjump
  simp only [List.mem_cons, List.not_mem_nil, or_false] at hjump
  rcases hjump with hop | hop | hop
  all_goals
    rcases h with h | h
    · rw [hop] at h
      exact absurd h (by decide)
    · rw [hop] at h
      cases h

theorem Rewritten.noJumps (h : Rewritten instructions instructions')
    (hjumps : NoJumps instructions) : NoJumps instructions' :=
  h.forall_mem (fun _ _ hreplaces instr hinstr ↦ (hreplaces.new_onOperands instr hinstr).not_jump)
    hjumps

theorem rewritten_constantFolding (stats : OptimizationStats) (instructions : List Instruction) :
    Rewritten instructions (constantFolding stats instructions).1 :=
  Peephole.rewrites_scan (p := fun _ ↦ True) (fun _ _ _ _ _ ↦ matched_foldRule) 0 instructions
    fun _ _ ↦ trivial

theorem rewritten_strengthReduction (stats : OptimizationStats)
    (instructions : List Instruction) :
    Rewritten instructions (strengthReduction stats instructions).1 :=
  Peephole.rewrites_scan (p := fun _ ↦ True) (fun _ _ _ _ _ ↦ matched_reduceRule) 0 instructions
    fun _ _ ↦ trivial

theorem rewritten_peepholeOptimization (stats : OptimizationStats)
    (hjumps : NoJumps instructions) :
    Rewritten instructions (peepholeOptimization stats instructions).1 :=
  Peephole.rewrites_scan (fun _ _ _ _ ↦ matched_peepholeRule) 0 instructions hjumps

end Optimizer

end MiniLang
