import MiniLang.Jit.Operands
import MiniLang.Machine.Scalars

/-!
# The machine code computes the scalars

The native frame holds the locals and the operands of the bytecode, sign-extended, each in a word of
its own. The code of every instruction keeps it that way, but for a negation of the least 32-bit
value, which the machine code does not normalise.

## The relation

`Holds` says what is in the memory of the frame: the caller's `rbp`, the locals in their words, the
operands on the native stack in reverse order of their addresses. Registers are no part of it but
for `rbp` and `rsp`, since the emitted code keeps nothing in a register from one instruction of the
bytecode to the next. Within the code of an instruction `With` adds what has been loaded.

Words are compared as 64-bit vectors. A value of the bytecode is an `Int` within 32 bits, and its
word is the vector of that integer. Sums, differences and products are right after `movsxd`, for
which `movsxd_ofInt` is the one fact needed; comparisons leave flags that tell the order of 32-bit
values even though they are computed on 64 bits.

## Negation

The code of `Neg` has no `movsxd` behind it. The negation of a 32-bit value is one again unless the
value is `-2 ^ 31`, so the step lemma excludes this one operand (`NegatesLeast`), and nothing else.
-/

namespace MiniLang

open ByteMemory X86

/-! ## 32-bit values in 64-bit registers -/

theorem movsxd_ofInt (value : Int) :
    ((BitVec.ofInt 64 value).setWidth 32).signExtend 64 = BitVec.ofInt 64 (normalizeI32 value) := by
  rw [normalizeI32_eq_bmod, BitVec.signExtend, BitVec.toInt_setWidth, BitVec.toNat_ofInt]
  have hnonneg : 0 ≤ value % ((2 ^ 64 : Nat) : Int) := Int.emod_nonneg _ (by decide)
  have hmod : value % ((2 ^ 64 : Nat) : Int) % ((2 ^ 32 : Nat) : Int) =
      value % ((2 ^ 32 : Nat) : Int) := Int.emod_emod_of_dvd value (by decide)
  rw [Int.toNat_of_nonneg hnonneg, Int.bmod_def, Int.bmod_def, hmod]

theorem ofInt_sub (a b : Int) :
    BitVec.ofInt 64 a - BitVec.ofInt 64 b = BitVec.ofInt 64 (a - b) := by
  rw [BitVec.sub_eq_add_neg, ← BitVec.ofInt_neg, ← BitVec.ofInt_add, Int.sub_eq_add_neg]

theorem toInt_ofInt {a : Int} (h : IsI32 a) : (BitVec.ofInt 64 a).toInt = a := by
  rw [IsI32] at h
  rw [BitVec.toInt_ofInt, Int.bmod_def]
  omega

theorem toInt_ofInt_sub {a b : Int} (ha : IsI32 a) (hb : IsI32 b) :
    (BitVec.ofInt 64 (a - b)).toInt = a - b := by
  rw [IsI32] at ha hb
  rw [BitVec.toInt_ofInt, Int.bmod_def]
  omega

/-- The flags that a comparison of 32-bit values leaves. -/
theorem flags_cmp {a b : Int} (ha : IsI32 a) (hb : IsI32 b) :
    Machine.resultFlags (BitVec.ofInt 64 a - BitVec.ofInt 64 b)
      ((BitVec.ofInt 64 a).ssubOverflow (BitVec.ofInt 64 b)) = some ⟨a = b, a < b, false⟩ := by
  have hzero : BitVec.ofInt 64 (a - b) = 0 ↔ a = b := by
    rw [← BitVec.toInt_inj, toInt_ofInt_sub ha hb, show (0 : Word).toInt = 0 from rfl]
    omega
  have hsign : (BitVec.ofInt 64 (a - b)).msb = decide (a < b) := by
    rw [BitVec.msb_eq_toInt, toInt_ofInt_sub ha hb, decide_eq_decide]
    omega
  have hoverflow : (BitVec.ofInt 64 a).ssubOverflow (BitVec.ofInt 64 b) = false := by
    rw [BitVec.ssubOverflow, toInt_ofInt ha, toInt_ofInt hb]
    rw [IsI32] at ha hb
    simp only [ge_iff_le, Bool.or_eq_false_iff, decide_eq_false_iff_not]
    omega
  rw [Machine.resultFlags, ofInt_sub, hsign, hoverflow]
  simp only [hzero]

theorem flags_test {a : Int} (ha : IsI32 a) :
    ∃ sign, Machine.resultFlags (BitVec.ofInt 64 a &&& BitVec.ofInt 64 a) false =
      some ⟨a = 0, sign, false⟩ := by
  have hzero : BitVec.ofInt 64 a = 0 ↔ a = 0 := by
    rw [← BitVec.toInt_inj, toInt_ofInt ha, show (0 : Word).toInt = 0 from rfl]
  refine ⟨(BitVec.ofInt 64 a).msb, ?_⟩
  rw [BitVec.and_self, Machine.resultFlags]
  simp only [hzero]

/-- Setting the low byte and zero-extending it leaves the flag. -/
theorem movzx_set (word : Word) (p : Prop) [Decidable p] :
    ((word.extractLsb' 8 56 ++ (if p then 1 else 0 : Byte)).setWidth 8).setWidth 64 =
      BitVec.ofInt 64 (flag p) := by
  have hlow (b : Byte) : (word.extractLsb' 8 56 ++ b).setWidth 8 = b := by
    refine BitVec.eq_of_getLsbD_eq fun i hi ↦ ?_
    grind
  rw [hlow, flag]
  split <;> rfl

/-! ## Encodings -/

namespace MachineCode

theorem encodes_movImm32 (imm : Int32) :
    Encodes (movImm32 .rax imm) (.movImm .rax (BitVec.ofInt 64 imm.toInt)) := by
  intro rest
  have himm := imm32_emitI32 imm rest
  change ((imm32 (emitI32 imm ++ rest)).bind fun x ↦ some (Instr.movImm .rax x.1, x.2)) = _
  rw [himm]
  rfl

/-- A local, addressed from `rbp`. -/
def localOperand (offset : Int32) : Operand :=
  .mem (some .rbp) none (BitVec.ofInt 64 offset.toInt)

theorem encodes_loadLocal (offset : Int32) :
    Encodes (movLoad .rax .rbp offset) (.mov (.reg .rax) (localOperand offset)) :=
  encodes_movLoad (by decide) nofun

theorem encodes_storeLocal (offset : Int32) :
    Encodes (movStore .rbp offset .rax) (.mov (localOperand offset) (.reg .rax)) :=
  encodes_movStore (by decide) nofun

end MachineCode

/-! ## The native frame -/

/-- Where the frame is and what the caller left there. -/
structure NativeFrame where
  /-- The address of the return address, cell 0 of the frame. -/
  base : Word
  returnAddress : Word
  callerRbp : Word

namespace NativeFrame

/-- The frame holds the scalars: the caller's `rbp` in cell 1, the locals in the reserved cells
from 2 on, and the operands below them. -/
structure Holds (frame : NativeFrame) (s : Scalars) (m : Machine) : Prop where
  rbp : m.regs .rbp = cell frame.base 1
  rsp : m.regs .rsp = cell frame.base (1025 + s.stack.length)
  returnAddress : read m.mem (cell frame.base 0) = frame.returnAddress
  callerRbp : read m.mem (cell frame.base 1) = frame.callerRbp
  locals : ∀ slot value, s.locals[slot]? = some value → value ≠ i64Min →
    read m.mem (cell frame.base (2 + slot)) = BitVec.ofInt 64 value
  operands : ∀ height value, s.stack.reverse[height]? = some value →
    read m.mem (cell frame.base (1026 + height)) = BitVec.ofInt 64 value

variable {frame : NativeFrame} {s : Scalars} {m : Machine} {value : Int} {stack : List Int}

/-- Only the two frame registers and the memory matter. -/
theorem Holds.of_eq {m' : Machine} (h : frame.Holds s m) (hrbp : m'.regs .rbp = m.regs .rbp)
    (hrsp : m'.regs .rsp = m.regs .rsp) (hmem : m'.mem = m.mem) : frame.Holds s m' where
  rbp := hrbp.trans h.rbp
  rsp := hrsp.trans h.rsp
  returnAddress := hmem ▸ h.returnAddress
  callerRbp := hmem ▸ h.callerRbp
  locals := hmem ▸ h.locals
  operands := hmem ▸ h.operands

/-- The frame holds the scalars, and some registers hold values. -/
def With (frame : NativeFrame) (s : Scalars) (regs : List (Reg × Word)) (m : Machine) : Prop :=
  frame.Holds s m ∧ ∀ p ∈ regs, m.regs p.1 = p.2

theorem With.reg {regs : List (Reg × Word)} {reg : Reg} {word : Word}
    (h : frame.With s ((reg, word) :: regs) m) : m.regs reg = word :=
  h.2 _ List.mem_cons_self

/-- An instruction that computes a register. -/
theorem block_set {P : Machine → Prop} {bytes : List Byte} {instr : Instr} {dst : Reg}
    {word : Word} (henc : Encodes bytes instr) (hrsp : dst ≠ .rsp) (hrbp : dst ≠ .rbp)
    (hexec : ∀ m, P m → frame.Holds s m ∧ ∃ flags,
      m.exec instr = some ⟨Function.update m.regs dst word, flags, m.mem⟩) :
    Block P bytes (frame.With s [(dst, word)]) := by
  refine .single henc fun m hm ↦ ?_
  obtain ⟨h, flags, hexec⟩ := hexec m hm
  refine ⟨_, hexec, h.of_eq ?_ ?_ rfl, fun p hp ↦ ?_⟩
  · exact Function.update_of_ne hrbp.symm ..
  · exact Function.update_of_ne hrsp.symm ..
  · obtain rfl := List.mem_singleton.mp hp
    exact Function.update_self ..

theorem block_push {src : Reg} (hroom : s.stack.length < maxOperandStack)
    (hlength : s.locals.length = maxLocalSlots) (hsrc : src ≠ .rsp)
    (henc : Encodes (MachineCode.push src) (.push src)) :
    Block (frame.With s [(src, BitVec.ofInt 64 value)]) (MachineCode.push src)
      (frame.With { s with stack := value :: s.stack } [(src, BitVec.ofInt 64 value)]) := by
  refine .single henc fun m hm ↦ ?_
  have hvalue := hm.reg
  have h := hm.1
  have hlimit : maxOperandStack = 1000 := rfl
  have hslots : maxLocalSlots = 1024 := rfl
  have htop : m.regs .rsp - 8 = cell frame.base (1026 + s.stack.length) := by
    rw [h.rsp, ← cell_succ, Nat.add_right_comm]
  have hexec : m.exec (.push src) = some
      ⟨(m.setReg .rsp (cell frame.base (1026 + s.stack.length))).regs, m.flags,
      write m.mem (cell frame.base (1026 + s.stack.length)) (BitVec.ofInt 64 value)⟩ := by
    rw [← htop, ← hvalue]
    rfl
  have hkeep (k : Nat) (hk : k ≠ 1026 + s.stack.length) (hlt : k < 2 ^ 60) :
      read (write m.mem (cell frame.base (1026 + s.stack.length)) (BitVec.ofInt 64 value))
        (cell frame.base k) = read m.mem (cell frame.base k) :=
    read_write_cell _ _ _ hk.symm (by omega) hlt
  refine ⟨_, hexec, ⟨?_, ?_, ?_, ?_, ?_, ?_⟩, ?_⟩
  · dsimp only
    rw [m.regs_setReg_of_ne (by decide), h.rbp]
  · dsimp only
    rw [m.regs_setReg_self, List.length_cons,
      show 1025 + (s.stack.length + 1) = 1026 + s.stack.length by omega]
  · exact (hkeep 0 (by omega) (by omega)).trans h.returnAddress
  · exact (hkeep 1 (by omega) (by omega)).trans h.callerRbp
  · intro slot v hslot hset
    have hlt : slot < s.locals.length := (List.getElem?_eq_some_iff.mp hslot).1
    exact (hkeep (2 + slot) (by omega) (by omega)).trans (h.locals slot v hslot hset)
  · intro height v hheight
    have hlt := (List.getElem?_eq_some_iff.mp hheight).1
    simp only [List.reverse_cons, List.length_append, List.length_reverse,
      List.length_singleton] at hlt hheight
    rcases Nat.lt_or_eq_of_le (Nat.le_of_lt_succ hlt) with hlt | rfl
    · rw [List.getElem?_append_left (by rwa [List.length_reverse])] at hheight
      exact (hkeep (1026 + height) (by omega) (by omega)).trans (h.operands height v hheight)
    · rw [List.getElem?_append_right (by rw [List.length_reverse]), List.length_reverse,
        Nat.sub_self] at hheight
      obtain rfl := Option.some_inj.mp hheight
      exact read_write_self ..
  · intro p hp
    obtain rfl := List.mem_singleton.mp hp
    exact (m.regs_setReg_of_ne hsrc _).trans hvalue

theorem block_pop {dst : Reg} {regs : List (Reg × Word)} (hstack : s.stack = value :: stack)
    (hrsp : dst ≠ .rsp) (hrbp : dst ≠ .rbp) (hregs : ∀ p ∈ regs, p.1 ≠ dst ∧ p.1 ≠ .rsp)
    (henc : Encodes (MachineCode.pop dst) (.pop dst)) :
    Block (frame.With s regs) (MachineCode.pop dst)
      (frame.With { s with stack := stack } ((dst, BitVec.ofInt 64 value) :: regs)) := by
  refine .single henc fun m ⟨h, hm⟩ ↦ ?_
  have hreg {reg : Reg} (hreg : reg ≠ dst) (hsp : reg ≠ .rsp) :
      ((m.setReg .rsp (m.regs .rsp + 8)).setReg dst (read m.mem (m.regs .rsp))).regs reg =
        m.regs reg :=
    (Machine.regs_setReg_of_ne _ hreg _).trans (m.regs_setReg_of_ne hsp _)
  have htop : m.regs .rsp = cell frame.base (1026 + stack.length) := by
    rw [h.rsp, hstack, List.length_cons,
      show 1025 + (stack.length + 1) = 1026 + stack.length by omega]
  refine ⟨_, rfl, ⟨?_, ?_, h.returnAddress, h.callerRbp, h.locals, ?_⟩, ?_⟩
  · exact (hreg hrbp.symm (by decide)).trans h.rbp
  · have hrsp' : ((m.setReg .rsp (m.regs .rsp + 8)).setReg dst (read m.mem (m.regs .rsp))).regs
        .rsp = m.regs .rsp + 8 :=
      (Machine.regs_setReg_of_ne _ hrsp.symm _).trans (m.regs_setReg_self .rsp _)
    rw [hrsp', htop, show 1026 + stack.length = 1025 + stack.length + 1 by omega, cell_succ_add]
  · intro height v hheight
    have hlt := (List.getElem?_eq_some_iff.mp hheight).1
    refine h.operands height v ?_
    rw [hstack, List.reverse_cons, List.getElem?_append_left hlt]
    exact hheight
  · refine List.forall_mem_cons.mpr ⟨?_, fun p hp ↦ ?_⟩
    · refine (Machine.regs_setReg_self ..).trans ?_
      rw [htop]
      refine h.operands stack.length value ?_
      rw [hstack, List.reverse_cons,
        List.getElem?_append_right (by rw [List.length_reverse]), List.length_reverse, Nat.sub_self,
        List.getElem?_cons_zero]
    · exact (hreg (hregs p hp).1 (hregs p hp).2).trans (hm p hp)

/-! ## Locals -/

/-- The displacement of a local does not overflow. -/
theorem ofInt_localOffset {arg : Int32} {slot : Nat} (harg : 0 ≤ arg) (hslot : asUsize arg = slot)
    (hlt : slot < maxLocalSlots) : BitVec.ofInt 64 (JitCompiler.localOffset arg).toInt =
      -BitVec.ofNat 64 (8 * (slot + 1)) := by
  have hslots : maxLocalSlots = 1024 := rfl
  have htoInt : arg.toInt = slot := by
    rw [Int32.le_iff_toInt_le, Int32.toInt_zero] at harg
    rw [asUsize] at hslot
    have := arg.toInt_lt
    omega
  have hmul : (arg * 8).toInt = slot * 8 := by
    rw [Int32.toInt_mul, htoInt, show (8 : Int32).toInt = 8 from rfl]
    exact Int.bmod_eq_of_le (by omega) (by omega)
  have hadd : (8 + arg * 8).toInt = 8 + slot * 8 := by
    rw [Int32.toInt_add, hmul, show (8 : Int32).toInt = 8 from rfl]
    exact Int.bmod_eq_of_le (by omega) (by omega)
  have hoffset : (JitCompiler.localOffset arg).toInt = -((8 * (slot + 1) : Nat) : Int) := by
    rw [JitCompiler.localOffset, Int32.toInt_neg, hadd]
    refine (Int.bmod_eq_of_le (by omega) (by omega)).trans ?_
    push_cast
    omega
  rw [hoffset, BitVec.ofInt_neg, BitVec.ofInt_natCast]

/-- The offset of a local from `rbp`. -/
theorem cell_localOffset {arg : Int32} {slot : Nat} (base : Word)
    (harg : 0 ≤ arg) (hslot : asUsize arg = slot) (hlt : slot < maxLocalSlots) :
    cell base 1 + BitVec.ofInt 64 (JitCompiler.localOffset arg).toInt = cell base (2 + slot) := by
  rw [ofInt_localOffset harg hslot hlt, ← BitVec.sub_eq_add_neg,
    show 2 + slot = 1 + (slot + 1) by omega, ← cell_cell, cell, cell]

theorem address_local (m : Machine) (offset : Int32) :
    m.address (some .rbp) none (BitVec.ofInt 64 offset.toInt) =
      m.regs .rbp + BitVec.ofInt 64 offset.toInt := by
  simp [Machine.address]

theorem block_loadLocal {arg : Int32} {slot : Nat} (harg : 0 ≤ arg) (hslot : asUsize arg = slot)
    (hlt : slot < maxLocalSlots) (hget : s.locals[slot]? = some value) (hset : value ≠ i64Min) :
    Block (frame.With s []) (MachineCode.movLoad .rax .rbp (JitCompiler.localOffset arg))
      (frame.With s [(.rax, BitVec.ofInt 64 value)]) := by
  refine block_set (MachineCode.encodes_loadLocal _) (by decide) (by decide) fun m ⟨h, _⟩ ↦
    ⟨h, m.flags, ?_⟩
  have hread : read m.mem (m.address (some .rbp) none
      (BitVec.ofInt 64 (JitCompiler.localOffset arg).toInt)) = BitVec.ofInt 64 value := by
    rw [address_local, h.rbp, cell_localOffset frame.base harg hslot hlt]
    exact h.locals slot value hget hset
  rw [← hread]
  rfl

theorem block_storeLocal {arg : Int32} {slot : Nat} (harg : 0 ≤ arg) (hslot : asUsize arg = slot)
    (hlt : slot < maxLocalSlots) (hlength : s.locals.length = maxLocalSlots)
    (hroom : s.stack.length < maxOperandStack) :
    Block (frame.With s [(.rax, BitVec.ofInt 64 value)])
      (MachineCode.movStore .rbp (JitCompiler.localOffset arg) .rax)
      (frame.With { s with locals := s.locals.set slot value } []) := by
  refine .single (MachineCode.encodes_storeLocal _) fun m hm ↦ ?_
  have hvalue := hm.reg
  have h := hm.1
  have hlimit : maxOperandStack = 1000 := rfl
  have hslots : maxLocalSlots = 1024 := rfl
  have haddress : m.address (some .rbp) none
      (BitVec.ofInt 64 (JitCompiler.localOffset arg).toInt) = cell frame.base (2 + slot) := by
    rw [address_local, h.rbp, cell_localOffset frame.base harg hslot hlt]
  have hexec : m.exec (.mov (MachineCode.localOperand (JitCompiler.localOffset arg)) (.reg .rax)) =
      some { m with mem := write m.mem (cell frame.base (2 + slot)) (BitVec.ofInt 64 value) } := by
    rw [← haddress, ← hvalue]
    rfl
  have hkeep (k : Nat) (hk : k ≠ 2 + slot) (hlt : k < 2 ^ 60) :
      read (write m.mem (cell frame.base (2 + slot)) (BitVec.ofInt 64 value)) (cell frame.base k) =
        read m.mem (cell frame.base k) :=
    read_write_cell _ _ _ hk.symm (by omega) hlt
  refine ⟨_, hexec, ⟨h.rbp, h.rsp, ?_, ?_, ?_, ?_⟩, fun _ hp ↦ absurd hp List.not_mem_nil⟩
  · exact (hkeep 0 (by omega) (by omega)).trans h.returnAddress
  · exact (hkeep 1 (by omega) (by omega)).trans h.callerRbp
  · intro slot' v hslot' hset
    dsimp only at hslot'
    rw [List.getElem?_set] at hslot'
    split at hslot'
    · next heq =>
      subst heq
      rw [if_pos (hlength ▸ hlt)] at hslot'
      rw [← Option.some_inj.mp hslot']
      exact read_write_self ..
    · next hne =>
      have hlt' : slot' < s.locals.length := (List.getElem?_eq_some_iff.mp hslot').1
      exact (hkeep (2 + slot') (by omega) (by omega)).trans (h.locals slot' v hslot' hset)
  · intro height v hheight
    have hlt' := (List.getElem?_eq_some_iff.mp hheight).1
    simp only [List.length_reverse] at hlt'
    exact (hkeep (1026 + height) (by omega) (by omega)).trans (h.operands height v hheight)

/-! ## Instructions -/

theorem With.forget {regs : List (Reg × Word)} (h : frame.With s regs m) : frame.With s [] m :=
  ⟨h.1, fun _ hp ↦ absurd hp List.not_mem_nil⟩

theorem block_pushRax (hfits : s.Fits) (hroom : s.stack.length < maxOperandStack) :
    Block (frame.With s [(.rax, BitVec.ofInt 64 value)]) (MachineCode.push .rax)
      (frame.With { s with stack := value :: s.stack } []) :=
  (block_push hroom hfits.length (by decide) fun _ ↦ rfl).mono (fun _ h ↦ h) fun _ h ↦ h.forget

theorem block_popRax (hstack : s.stack = value :: stack) :
    Block (frame.With s []) (MachineCode.pop .rax)
      (frame.With { s with stack := stack } [(.rax, BitVec.ofInt 64 value)]) :=
  block_pop hstack (by decide) (by decide) (fun _ hp ↦ absurd hp List.not_mem_nil) fun _ ↦ rfl

/-- Both operands of a binary operation. -/
theorem block_popBoth {a b : Int} (hstack : s.stack = b :: a :: stack) :
    Block (frame.With s []) (MachineCode.pop .rcx ++ MachineCode.pop .rax)
      (frame.With { s with stack := stack }
        [(.rax, BitVec.ofInt 64 a), (.rcx, BitVec.ofInt 64 b)]) := by
  refine .append (block_pop hstack (by decide) (by decide) (fun _ hp ↦ absurd hp List.not_mem_nil)
    fun _ ↦ rfl) (block_pop rfl (by decide) (by decide) (fun p hp ↦ ?_) fun _ ↦ rfl)
  obtain rfl := List.mem_singleton.mp hp
  exact ⟨by simp, by simp⟩

theorem block_arithmetic {op : Reg → Reg → List Byte} {instr : Instr} {f : Int → Int → Int}
    {s' : Scalars} (hfits : s.Fits) (henc : Encodes (op .rax .rcx) instr)
    (hinstr : ∀ (a b : Int) (m : Machine), m.regs .rax = BitVec.ofInt 64 a →
      m.regs .rcx = BitVec.ofInt 64 b → ∃ flags, m.exec instr =
        some ⟨Function.update m.regs .rax (BitVec.ofInt 64 (f a b)), flags, m.mem⟩)
    (hexec : s.binary (fun a b ↦ normalizeI32 (wrapI64 (f a b))) = some s') :
    Block (frame.With s []) (JitCompiler.arithmetic op) (frame.With s' []) := by
  rw [Scalars.binary] at hexec
  split at hexec
  · next b a stack hstack =>
    obtain rfl := Option.some_inj.mp hexec
    obtain ⟨-, -, hrest⟩ := hfits.tail hstack
    obtain ⟨-, hroom, hrest⟩ := hrest.tail rfl
    have hop : Block (frame.With { s with stack := stack }
        [(.rax, BitVec.ofInt 64 a), (.rcx, BitVec.ofInt 64 b)]) (op .rax .rcx)
        (frame.With { s with stack := stack } [(.rax, BitVec.ofInt 64 (f a b))]) :=
      block_set henc (by decide) (by decide) fun m hm ↦
        ⟨hm.1, hinstr a b m hm.reg (hm.2 _ (List.mem_cons_of_mem _ List.mem_cons_self))⟩
    have hextend : Block (frame.With { s with stack := stack } [(.rax, BitVec.ofInt 64 (f a b))])
        (MachineCode.movsxd32 .rax .rax)
        (frame.With { s with stack := stack }
          [(.rax, BitVec.ofInt 64 (normalizeI32 (wrapI64 (f a b))))]) := by
      refine block_set (show Encodes _ (.movsxd .rax .rax) from fun _ ↦ rfl) (by decide) (by decide)
        fun m hm ↦ ⟨hm.1, m.flags, ?_⟩
      rw [normalizeI32_wrapI64, ← movsxd_ofInt, ← hm.reg]
      rfl
    exact (((block_popBoth hstack).append hop).append hextend).append (block_pushRax hrest hroom)
  · cases hexec

/-- A condition code as a value. -/
theorem block_flag {set : Reg → List Byte} {cond : Cond} {p : Prop} [Decidable p]
    {test : List Byte} {instr : Instr} {flags : Flags} {regs : List (Reg × Word)}
    (htest : Encodes test instr)
    (hinstr : ∀ m, frame.With s regs m → m.exec instr = some { m with flags := some flags })
    (hset : Encodes (set .rax) (.set cond .rax)) (hcond : cond.holds flags = decide p) :
    Block (frame.With s regs) (test ++ set .rax ++ MachineCode.movzx .rax .rax)
      (frame.With s [(.rax, BitVec.ofInt 64 (flag p))]) := by
  have hflags : Block (frame.With s regs) test fun m ↦ frame.Holds s m ∧ m.flags = some flags :=
    .single htest fun m hm ↦ ⟨_, hinstr m hm, hm.1.of_eq rfl rfl rfl, rfl⟩
  have hbyte : Block (fun m ↦ frame.Holds s m ∧ m.flags = some flags) (set .rax) fun m ↦
      frame.Holds s m ∧ ∃ word : Word,
        m.regs .rax = word.extractLsb' 8 56 ++ (if p then 1 else 0 : Byte) := by
    refine .single hset fun m ⟨h, hm⟩ ↦ ?_
    refine ⟨m.setReg .rax ((m.regs .rax).extractLsb' 8 56 ++ (if p then 1 else 0 : Byte)), ?_,
      h.of_eq (m.regs_setReg_of_ne (by decide) _) (m.regs_setReg_of_ne (by decide) _) rfl,
      m.regs .rax, m.regs_setReg_self .rax _⟩
    rw [Machine.exec, hm]
    change some (m.setReg .rax (_ ++ if cond.holds flags = true then 1 else 0)) = _
    simp only [hcond, decide_eq_true_eq]
  have henc : Encodes (MachineCode.movzx .rax .rax) (.movzx .rax .rax) := fun _ ↦ rfl
  refine (hflags.append hbyte).append (block_set henc
    (by decide) (by decide) fun m ⟨h, word, hm⟩ ↦ ⟨h, m.flags, ?_⟩)
  rw [← movzx_set word, ← hm]
  rfl

theorem holds_gt (a b : Int) : Cond.g.holds ⟨a = b, a < b, false⟩ = decide (a > b) := by
  rw [Bool.eq_iff_iff]
  simp [Cond.holds]
  omega

theorem holds_le (a b : Int) : Cond.le.holds ⟨a = b, a < b, false⟩ = decide (a ≤ b) := by
  rw [Bool.eq_iff_iff]
  simp [Cond.holds]
  omega

/-- A comparison. -/
theorem block_comparison {set : Reg → List Byte} {cond : Cond} {p : Int → Int → Prop}
    [∀ a b, Decidable (p a b)] {s' : Scalars} (hfits : s.Fits)
    (hset : Encodes (set .rax) (.set cond .rax))
    (hcond : ∀ a b, cond.holds ⟨a = b, a < b, false⟩ = decide (p a b))
    (hexec : s.binary (fun a b ↦ flag (p a b)) = some s') :
    Block (frame.With s []) (JitCompiler.comparison set) (frame.With s' []) := by
  rw [Scalars.binary] at hexec
  split at hexec
  · next b a stack hstack =>
    obtain rfl := Option.some_inj.mp hexec
    obtain ⟨hb, -, hrest⟩ := hfits.tail hstack
    obtain ⟨ha, hroom, hrest⟩ := hrest.tail rfl
    have hcmp (m : Machine) (hm : frame.With { s with stack := stack }
        [(.rax, BitVec.ofInt 64 a), (.rcx, BitVec.ofInt 64 b)] m) :
        m.exec (.cmp .rax .rcx) = some { m with flags := some ⟨a = b, a < b, false⟩ } := by
      have hrcx : m.regs .rcx = BitVec.ofInt 64 b :=
        hm.2 _ (List.mem_cons_of_mem _ List.mem_cons_self)
      rw [← flags_cmp ha hb, ← hm.reg, ← hrcx]
      rfl
    have hflag := block_flag (show Encodes (MachineCode.cmp .rax .rcx) (.cmp .rax .rcx)
      from fun _ ↦ rfl) hcmp hset (hcond a b)
    have hall := ((block_popBoth hstack).append hflag).append (block_pushRax hrest hroom)
    simp only [← List.append_assoc] at hall
    exact hall
  · cases hexec

/-- The negation of the least 32-bit value. -/
def NegatesLeast (s : Scalars) (instr : Instruction) : Prop :=
  instr.opcode = .neg ∧ s.stack.head? = some (-2 ^ 31)

section

variable {localCount : Nat} {arg1 arg2 : Int32} {s' : Scalars}

theorem block_execLoadConst (hfits : s.Fits)
    (hexec : s.exec localCount ⟨.loadConst, arg1, arg2⟩ = some s') :
    Block (frame.With s []) (JitCompiler.compileInstruction ⟨.loadConst, arg1, arg2⟩)
      (frame.With s' []) := by
  have hpush : s.push arg1.toInt = some s' := hexec
  rw [Scalars.push] at hpush
  split at hpush
  · next hroom =>
    obtain rfl := Option.some_inj.mp hpush
    exact .append (block_set (MachineCode.encodes_movImm32 arg1) (by decide) (by decide)
      fun m hm ↦ ⟨hm.1, m.flags, rfl⟩) (block_pushRax hfits hroom)
  · cases hpush

theorem block_execLoadLocal (hfits : s.Fits) (hlocals : localCount ≤ maxLocalSlots)
    (hexec : s.exec localCount ⟨.loadLocal, arg1, arg2⟩ = some s') :
    Block (frame.With s []) (JitCompiler.compileInstruction ⟨.loadLocal, arg1, arg2⟩)
      (frame.With s' []) := by
  rw [Scalars.exec] at hexec
  dsimp only at hexec
  split at hexec
  · next value hvalue =>
    split at hexec
    · cases hexec
    next hset =>
    obtain ⟨slot, hslot, hget⟩ := Option.bind_eq_some_iff.mp hvalue
    obtain ⟨harg, hlt, hslot⟩ := Scalars.of_slot? hslot
    rw [Scalars.push] at hexec
    split at hexec
    · next hroom =>
      obtain rfl := Option.some_inj.mp hexec
      exact (block_loadLocal harg hslot (Nat.lt_of_lt_of_le hlt hlocals) hget hset).append
        (block_pushRax hfits hroom)
    · cases hexec
  · cases hexec

theorem block_execStoreLocal (hfits : s.Fits) (hlocals : localCount ≤ maxLocalSlots)
    (hexec : s.exec localCount ⟨.storeLocal, arg1, arg2⟩ = some s') :
    Block (frame.With s []) (JitCompiler.compileInstruction ⟨.storeLocal, arg1, arg2⟩)
      (frame.With s' []) := by
  rw [Scalars.exec] at hexec
  dsimp only at hexec
  split at hexec
  · next value stack slot hstack hslot =>
    obtain rfl := Option.some_inj.mp hexec
    obtain ⟨harg, hlt, hslot⟩ := Scalars.of_slot? hslot
    exact (block_popRax hstack).append (block_storeLocal harg hslot
      (Nat.lt_of_lt_of_le hlt hlocals) hfits.length (hfits.tail hstack).2.1)
  · cases hexec

/-- The negation has no sign extension behind it, which only the least value would need. -/
theorem block_execNeg (hfits : s.Fits)
    (hexec : s.exec localCount ⟨.neg, arg1, arg2⟩ = some s')
    (hneg : ¬NegatesLeast s ⟨.neg, arg1, arg2⟩) :
    Block (frame.With s []) (JitCompiler.compileInstruction ⟨.neg, arg1, arg2⟩)
      (frame.With s' []) := by
  have hexec : s.unary (fun a ↦ normalizeI32 (-a)) = some s' := hexec
  rw [Scalars.unary] at hexec
  split at hexec
  · next a stack hstack =>
    obtain rfl := Option.some_inj.mp hexec
    obtain ⟨ha, hroom, hrest⟩ := hfits.tail hstack
    have hleast : a ≠ -2 ^ 31 := fun heq ↦ hneg ⟨rfl, by rw [hstack, heq]; rfl⟩
    have hnormal : normalizeI32 (-a) = -a := by
      rw [IsI32] at ha
      rw [normalizeI32_eq_bmod]
      exact Int.bmod_eq_of_le (by omega) (by omega)
    refine ((block_popRax hstack).append (block_set (show Encodes _ (.neg .rax) from fun _ ↦ rfl)
      (by decide) (by decide) fun m hm ↦ ⟨hm.1, ?_⟩)).append (block_pushRax hrest hroom)
    refine ⟨Machine.resultFlags (-m.regs .rax) ((0 : Word).ssubOverflow (m.regs .rax)), ?_⟩
    rw [hnormal, BitVec.ofInt_neg, ← hm.reg]
    rfl
  · cases hexec

theorem block_execNot (hfits : s.Fits) (hexec : s.exec localCount ⟨.not, arg1, arg2⟩ = some s') :
    Block (frame.With s []) (JitCompiler.compileInstruction ⟨.not, arg1, arg2⟩)
      (frame.With s' []) := by
  have hexec : s.unary (fun a ↦ flag (a = 0)) = some s' := hexec
  rw [Scalars.unary] at hexec
  split at hexec
  · next a stack hstack =>
    obtain rfl := Option.some_inj.mp hexec
    obtain ⟨ha, hroom, hrest⟩ := hfits.tail hstack
    obtain ⟨sign, hflags⟩ := flags_test ha
    have htest (m : Machine) (hm : frame.With { s with stack := stack }
        [(.rax, BitVec.ofInt 64 a)] m) :
        m.exec (.test .rax .rax) = some { m with flags := some ⟨a = 0, sign, false⟩ } := by
      rw [← hflags, ← hm.reg]
      rfl
    have hset : Encodes (MachineCode.sete .rax) (.set .e .rax) := fun _ ↦ rfl
    have hflag := block_flag (show Encodes (MachineCode.test .rax .rax) (.test .rax .rax)
      from fun _ ↦ rfl) htest hset rfl
    have hall := ((block_popRax hstack).append hflag).append (block_pushRax hrest hroom)
    simp only [← List.append_assoc] at hall
    exact hall
  · cases hexec

theorem block_execPop (hexec : s.exec localCount ⟨.pop, arg1, arg2⟩ = some s') :
    Block (frame.With s []) (JitCompiler.compileInstruction ⟨.pop, arg1, arg2⟩)
      (frame.With s' []) := by
  rw [Scalars.exec] at hexec
  dsimp only at hexec
  split at hexec
  · next value stack hstack =>
    obtain rfl := Option.some_inj.mp hexec
    exact (block_popRax hstack).mono (fun _ h ↦ h) fun _ h ↦ h.forget
  · cases hexec

/-- The operand is popped and pushed twice, from the same register. -/
theorem block_execDup (hfits : s.Fits) (hexec : s.exec localCount ⟨.dup, arg1, arg2⟩ = some s') :
    Block (frame.With s []) (JitCompiler.compileInstruction ⟨.dup, arg1, arg2⟩)
      (frame.With s' []) := by
  rw [Scalars.exec] at hexec
  dsimp only at hexec
  split at hexec
  · next value stack hstack =>
    rw [Scalars.push] at hexec
    split at hexec
    · next hroom =>
      obtain rfl := Option.some_inj.mp hexec
      obtain ⟨-, hroom', hrest⟩ := hfits.tail hstack
      have hlimit : stack.length < maxOperandStack := hroom'
      have hdup : Block (frame.With { s with stack := stack } [(.rax, BitVec.ofInt 64 value)])
          (MachineCode.push .rax)
          (frame.With { s with stack := value :: stack } [(.rax, BitVec.ofInt 64 value)]) :=
        block_push hlimit hrest.length (by decide) fun _ ↦ rfl
      rw [hstack] at hroom
      have hagain : Block (frame.With { s with stack := value :: stack }
          [(.rax, BitVec.ofInt 64 value)]) (MachineCode.push .rax)
          (frame.With { s with stack := value :: value :: stack }
            [(.rax, BitVec.ofInt 64 value)]) :=
        block_push hroom hrest.length (by decide) fun _ ↦ rfl
      rw [hstack]
      exact (((block_popRax hstack).append hdup).append hagain).mono (fun _ h ↦ h)
        fun _ h ↦ h.forget
    · cases hexec
  · cases hexec

end

/-- **The step lemma.** The code of an instruction has the effect of the instruction. -/
theorem block_compileInstruction {localCount : Nat} {instr : Instruction} {s' : Scalars}
    (hfits : s.Fits) (hlocals : localCount ≤ maxLocalSlots)
    (hexec : s.exec localCount instr = some s') (hneg : ¬NegatesLeast s instr) :
    Block (frame.With s []) (JitCompiler.compileInstruction instr) (frame.With s' []) := by
  obtain ⟨opcode, arg1, arg2⟩ := instr
  cases opcode with
  | loadConst => exact block_execLoadConst hfits hexec
  | loadLocal => exact block_execLoadLocal hfits hlocals hexec
  | storeLocal => exact block_execStoreLocal hfits hlocals hexec
  | add =>
    refine block_arithmetic hfits (show Encodes _ (.add .rax .rcx) from fun _ ↦ rfl)
      (fun a b m ha hb ↦ ?_) hexec
    exact ⟨_, by rw [BitVec.ofInt_add, ← ha, ← hb]; rfl⟩
  | sub =>
    refine block_arithmetic hfits (show Encodes _ (.sub .rax .rcx) from fun _ ↦ rfl)
      (fun a b m ha hb ↦ ?_) hexec
    exact ⟨_, by rw [← ofInt_sub, ← ha, ← hb]; rfl⟩
  | mul =>
    refine block_arithmetic hfits (show Encodes _ (.imul .rax .rcx) from fun _ ↦ rfl)
      (fun a b m ha hb ↦ ?_) hexec
    exact ⟨_, by rw [BitVec.ofInt_mul, ← ha, ← hb]; rfl⟩
  | neg => exact block_execNeg hfits hexec hneg
  | eq =>
    have hset : Encodes (MachineCode.sete .rax) (.set .e .rax) := fun _ ↦ rfl
    exact block_comparison hfits hset (fun _ _ ↦ rfl) hexec
  | ne =>
    have hset : Encodes (MachineCode.setne .rax) (.set .ne .rax) := fun _ ↦ rfl
    exact block_comparison hfits hset (fun a b ↦ by simp [Cond.holds]) hexec
  | lt =>
    have hset : Encodes (MachineCode.setl .rax) (.set .l .rax) := fun _ ↦ rfl
    exact block_comparison hfits hset (fun a b ↦ by simp [Cond.holds]) hexec
  | gt =>
    have hset : Encodes (MachineCode.setg .rax) (.set .g .rax) := fun _ ↦ rfl
    exact block_comparison hfits hset holds_gt hexec
  | le =>
    have hset : Encodes (MachineCode.setle .rax) (.set .le .rax) := fun _ ↦ rfl
    exact block_comparison hfits hset holds_le hexec
  | ge =>
    have hset : Encodes (MachineCode.setge .rax) (.set .ge .rax) := fun _ ↦ rfl
    exact block_comparison hfits hset (fun a b ↦ by rw [Bool.eq_iff_iff]; simp [Cond.holds]) hexec
  | not => exact block_execNot hfits hexec
  | pop => exact block_execPop hexec
  | dup => exact block_execDup hfits hexec
  | _ => cases hexec

end NativeFrame

end MiniLang
