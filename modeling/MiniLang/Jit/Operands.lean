import MiniLang.Jit.MachineCode

/-!
# Memory operands

What the bytes of `mov_load` and `mov_store` decode to. The special cases go by the whole number of
the base register where the encoding goes by its low three bits, and the SIB byte stands after the
displacement: `r13` without an offset and `rsp` or `r12` with one are not what was asked for, three
offsets apart that read the same either way.

## The decoder

The decoder is that of the processor and knows nothing of the emitter: a prefix, an opcode, a ModRM
byte, a SIB byte if the low bits of the base are 4, a displacement as the mode says. `modRM_modrm`
computes it on a ModRM byte put together from fields. From there each case of the emitter is one
lemma, by the register and the size of the offset.

## The misplaced byte

With a SIB byte the emitter writes the displacement first, so that the processor takes the first
byte of the displacement for the SIB byte and reads the displacement one byte further. The operand
is right only if that byte happens to mean the same base without an index, and the bytes moved down
by one spell the same offset. `eq_of_moved` solves this for four bytes.
-/

namespace MiniLang

open ByteMemory X86

namespace MachineCode

/-! ## Immediates -/

theorem emitI32_toBitVec (imm : Int32) :
    imm.toBitVec.extractLsb' 24 8 ++ imm.toBitVec.extractLsb' 16 8 ++
      imm.toBitVec.extractLsb' 8 8 ++ imm.toBitVec.extractLsb' 0 8 = imm.toBitVec := by
  refine BitVec.eq_of_getLsbD_eq fun i hi ↦ ?_
  grind

theorem imm32_emitI32 (imm : Int32) (rest : List Byte) :
    imm32 (emitI32 imm ++ rest) = some (BitVec.ofInt 64 imm.toInt, rest) := by
  have hsign : imm.toBitVec.signExtend 64 = BitVec.ofInt 64 imm.toInt := rfl
  rw [← hsign]
  conv_rhs => rw [← emitI32_toBitVec imm]
  rfl

theorem signExtend_asU8 {offset : Int32} (h : isI8 offset = true) :
    (asU8 offset).signExtend 64 = BitVec.ofInt 64 offset.toInt := by
  have hrange : -128 ≤ offset.toInt ∧ offset.toInt ≤ 127 := by
    rw [isI8, decide_eq_true_eq, Int32.le_iff_toInt_le, Int32.le_iff_toInt_le] at h
    exact h
  have hlow : (asU8 offset).toInt = offset.toInt := by
    have htoInt : offset.toInt = offset.toBitVec.toInt := rfl
    rw [htoInt, BitVec.toInt_eq_toNat_cond] at hrange
    rw [asU8, BitVec.toInt_setWidth, htoInt, BitVec.toInt_eq_toNat_cond, Int.bmod_def]
    have hlt := offset.toBitVec.isLt
    split at hrange <;> split <;> omega
  rw [BitVec.signExtend, hlow]

/-! ## Fields -/

/-- The bits of a register in a ModRM byte. -/
def low (reg : Reg) : BitVec 3 := reg.num.setWidth 3

/-- The bit of a register in the REX prefix. -/
def high (reg : Reg) : Bool := reg.num.getLsbD 3

theorem regOf_high_low (reg : Reg) : regOf (high reg) (low reg) = reg := by
  cases reg <;> rfl

theorem rexW_eq (r b : Reg) : rexW r b =
    [0x48 ||| (if high r then 0x04 else 0) ||| (if high b then 0x01 else 0)] := by
  cases r <;> cases b <;> rfl

theorem modrm_eq (mode : Byte) (reg rm : Reg) : modrm mode reg rm =
    [mode <<< 6 ||| (low reg).setWidth 8 <<< 3 ||| (low rm).setWidth 8] := by
  have hlow (r : Reg) : regByte r &&& 7 = (low r).setWidth 8 := by
    cases r <;> rfl
  rw [modrm, hlow, hlow]

/-- The instruction behind a prefix. -/
theorem decode_rexW (r b : Reg) (bytes : List Byte) :
    decode (rexW r b ++ bytes) = decodeOpcode ⟨true, high r, false, high b⟩ bytes := by
  rw [rexW_eq]
  cases high r <;> cases high b <;> rfl

theorem modrm_mod (mode : Byte) (reg rm : BitVec 3) :
    (mode <<< 6 ||| reg.setWidth 8 <<< 3 ||| rm.setWidth 8).extractLsb' 6 2 =
      mode.setWidth 2 := by
  refine BitVec.eq_of_getLsbD_eq fun i hi ↦ ?_
  have : i = 0 ∨ i = 1 := by omega
  rcases this with rfl | rfl <;> simp

theorem modrm_reg (mode : Byte) (reg rm : BitVec 3) :
    (mode <<< 6 ||| reg.setWidth 8 <<< 3 ||| rm.setWidth 8).extractLsb' 3 3 = reg := by
  refine BitVec.eq_of_getLsbD_eq fun i hi ↦ ?_
  have : i = 0 ∨ i = 1 ∨ i = 2 := by omega
  rcases this with rfl | rfl | rfl <;> simp

theorem modrm_rm (mode : Byte) (reg rm : BitVec 3) :
    (mode <<< 6 ||| reg.setWidth 8 <<< 3 ||| rm.setWidth 8).extractLsb' 0 3 = rm := by
  refine BitVec.eq_of_getLsbD_eq fun i hi ↦ ?_
  have : i = 0 ∨ i = 1 ∨ i = 2 := by omega
  rcases this with rfl | rfl | rfl <;> simp

/-! ## Decoding the operand -/

variable {reg base : Reg} {mode : Byte} {offset : Int32}

theorem modRM_modrm (h : mode.setWidth 2 ≠ (3 : BitVec 2)) (rest : List Byte) :
    modRM ⟨true, high reg, false, high base⟩ (modrm mode reg base ++ rest) =
      if low base = 4 then
        (sib ⟨true, high reg, false, high base⟩ (mode.setWidth 2) rest).map fun x ↦ (reg, x)
      else if low base = 5 ∧ mode.setWidth 2 = (0 : BitVec 2) then
        (imm32 rest).map fun x ↦ (reg, .ripRelative x.1, x.2)
      else
        (displacement (mode.setWidth 2) rest).map fun x ↦ (reg, .mem (some base) none x.1, x.2) := by
  rw [modrm_eq, List.singleton_append, modRM]
  simp only [modrm_mod, modrm_reg, modrm_rm, regOf_high_low]
  rw [if_neg h]
  split
  · cases sib _ _ rest <;> rfl
  · split
    · cases imm32 rest <;> rfl
    · cases displacement _ rest <;> rfl

/-- Registers that need a SIB byte. -/
theorem low_eq_four_iff : low base = 4 ↔ base = .rsp ∨ base = .r12 := by
  cases base <;> decide

theorem low_eq_five_iff : low base = 5 ↔ base = .rbp ∨ base = .r13 := by
  cases base <;> decide

theorem regByte_and_seven_iff : regByte base &&& 7 = 4 ↔ low base = 4 := by
  cases base <;> decide

/-- What `mov_load` and `mov_store` encode faithfully. -/
def Encodable (base : Reg) (offset : Int32) : Prop :=
  (base = .r13 → offset ≠ 0) ∧
    (base = .rsp ∨ base = .r12 → offset = 0 ∨ offset = 0x24 ∨ offset = 0x24242424)

instance : Decidable (Encodable base offset) := inferInstanceAs (Decidable (_ ∧ _))

/-- `[base + offset]` -/
def memory (base : Reg) (offset : Int32) : Operand :=
  .mem (some base) none (BitVec.ofInt 64 offset.toInt)

/-- Without a SIB byte all is well, but for `r13` without an offset. -/
theorem modRM_memOperand (h : ¬(base = .rsp ∨ base = .r12)) (hbase : base = .r13 → offset ≠ 0)
    (rest : List Byte) :
    modRM ⟨true, high reg, false, high base⟩ (memOperand reg base offset ++ rest) =
      some (reg, memory base offset, rest) := by
  have hlow : low base ≠ 4 := fun hlow ↦ h (low_eq_four_iff.mp hlow)
  rw [memOperand, if_neg (mt regByte_and_seven_iff.mp hlow)]
  split
  · next hzero =>
    have hfive : low base ≠ 5 := by
      intro hfive
      rcases low_eq_five_iff.mp hfive with rfl | rfl
      · exact hzero.2 rfl
      · exact hbase rfl hzero.1
    rw [modRM_modrm (by decide), if_neg hlow, if_neg fun hn ↦ hfive hn.1, hzero.1]
    rfl
  · split
    · next h8 =>
      rw [List.append_assoc, modRM_modrm (by decide), if_neg hlow, if_neg fun hn ↦ nomatch hn.2]
      change (some ((asU8 offset).signExtend 64, rest)).map _ = _
      rw [signExtend_asU8 h8]
      rfl
    · rw [List.append_assoc, modRM_modrm (by decide), if_neg hlow, if_neg fun hn ↦ nomatch hn.2]
      change (imm32 (emitI32 offset ++ rest)).map _ = _
      rw [imm32_emitI32]
      rfl

/-- `r13` without an offset reads as a displacement from the instruction pointer. -/
theorem modRM_r13 : modRM ⟨true, high reg, false, true⟩ (memOperand reg .r13 0) = none := by
  have hmod : modRM ⟨true, high reg, false, high .r13⟩ (modrm 0 reg .r13 ++ []) = _ :=
    modRM_modrm (by decide) []
  rw [List.append_nil] at hmod
  exact hmod

/-- Behind a SIB byte comes the displacement. -/
theorem displacement_of_sib {rex : Rex} {mod : BitVec 2} {byte : Byte} {rest rest' : List Byte}
    {sibBase : Option Reg} {index : Option (Reg × Nat)} {disp : Word} (hmod : mod ≠ 0)
    (h : sib rex mod (byte :: rest) = some (.mem sibBase index disp, rest')) :
    displacement mod rest = some (disp, rest') := by
  rw [sib, if_neg fun hn ↦ hmod hn.2] at h
  cases hdisp : displacement mod rest with
  | none =>
    rw [hdisp] at h
    cases h
  | some x =>
    rw [hdisp] at h
    cases h
    rfl

theorem toInt_ofInt_toInt (offset : Int32) :
    (BitVec.ofInt 64 offset.toInt).toInt = offset.toInt := by
  have hle := offset.toInt_le
  have hge := offset.le_toInt
  rw [show Int32.maxValue.toInt = 2147483647 from rfl] at hle
  rw [BitVec.toInt_ofInt, Int.bmod_def]
  omega

/-- The bytes of an offset, each moved down by one. -/
theorem eq_of_moved {offset : Int32}
    (h : (0x24 : Byte) ++ offset.toBitVec.extractLsb' 24 8 ++ offset.toBitVec.extractLsb' 16 8 ++
      offset.toBitVec.extractLsb' 8 8 = offset.toBitVec) : offset = 0x24242424 := by
  have h3 : offset.toBitVec.extractLsb' 24 8 = 0x24 := by
    rw [← h]
    refine BitVec.eq_of_getLsbD_eq fun i hi ↦ ?_
    grind
  have h2 : offset.toBitVec.extractLsb' 16 8 = 0x24 := by
    rw [← h]
    refine BitVec.eq_of_getLsbD_eq fun i hi ↦ ?_
    grind
  have h1 : offset.toBitVec.extractLsb' 8 8 = 0x24 := by
    rw [← h]
    refine BitVec.eq_of_getLsbD_eq fun i hi ↦ ?_
    grind
  apply Int32.toBitVec_inj.mp
  rw [← h, h1, h2, h3]
  rfl

/-- With a SIB byte only three offsets are read back. -/
theorem modRM_memOperand_sib (h : base = .rsp ∨ base = .r12) :
    modRM ⟨true, high reg, false, high base⟩ (memOperand reg base offset) =
      some (reg, memory base offset, []) ↔ offset = 0 ∨ offset = 0x24 ∨ offset = 0x24242424 := by
  have hlow : low base = 4 := low_eq_four_iff.mpr h
  have hfive : regByte base ≠ 5 := by
    rcases h with rfl | rfl <;> decide
  rw [memOperand, if_pos (regByte_and_seven_iff.mpr hlow)]
  split
  · next hzero =>
    rw [modRM_modrm (by decide), if_pos hlow, hzero.1]
    refine iff_of_true ?_ (Or.inl rfl)
    rcases h with rfl | rfl <;> cases high reg <;> rfl
  · next hzero =>
    have hne : offset ≠ 0 := fun h0 ↦ hzero ⟨h0, hfive⟩
    split
    · next h8 =>
      rw [List.append_assoc, modRM_modrm (by decide), if_pos hlow]
      constructor
      · intro heq
        obtain ⟨x, hsib, heq⟩ := Option.map_eq_some_iff.mp heq
        cases heq
        have hdisp : some ((0x24 : Word), []) = _ := displacement_of_sib (by decide) hsib
        have hword := congrArg BitVec.toInt (congrArg Prod.fst (Option.some.inj hdisp))
        rw [toInt_ofInt_toInt] at hword
        exact Or.inr (Or.inl (Int32.toInt_inj.mp hword.symm))
      · rintro (h0 | rfl | rfl)
        · exact absurd h0 hne
        · rcases h with rfl | rfl <;> cases high reg <;> rfl
        · exact absurd h8 (by decide)
    · next h8 =>
      rw [List.append_assoc, modRM_modrm (by decide), if_pos hlow]
      constructor
      · intro heq
        obtain ⟨x, hsib, heq⟩ := Option.map_eq_some_iff.mp heq
        cases heq
        have hdisp : some (((0x24 : Byte) ++ offset.toBitVec.extractLsb' 24 8 ++
            offset.toBitVec.extractLsb' 16 8 ++ offset.toBitVec.extractLsb' 8 8).signExtend 64,
              []) = _ := displacement_of_sib (by decide) hsib
        have hword := congrArg BitVec.toInt (congrArg Prod.fst (Option.some.inj hdisp))
        rw [toInt_ofInt_toInt, BitVec.toInt_signExtend_of_le (by decide)] at hword
        exact Or.inr (Or.inr (eq_of_moved (BitVec.toInt_inj.mp hword)))
      · rintro (h0 | rfl | rfl)
        · exact absurd h0 hne
        · exact absurd rfl h8
        · rcases h with rfl | rfl <;> cases high reg <;> rfl

/-- The operand is read back as `[base + offset]` where it is encoded faithfully. -/
theorem modRM_memOperand_iff :
    modRM ⟨true, high reg, false, high base⟩ (memOperand reg base offset) =
      some (reg, memory base offset, []) ↔ Encodable base offset := by
  by_cases hsib : base = .rsp ∨ base = .r12
  · rw [modRM_memOperand_sib hsib]
    refine ⟨fun h ↦ ⟨fun hbase ↦ ?_, fun _ ↦ h⟩, fun h ↦ h.2 hsib⟩
    rw [hbase] at hsib
    exact absurd hsib (by decide)
  · constructor
    · intro h
      refine ⟨fun hbase hzero ↦ ?_, fun hn ↦ absurd hn hsib⟩
      rw [hbase, hzero, show high .r13 = true from rfl, modRM_r13] at h
      cases h
    · intro h
      rw [← List.append_nil (memOperand _ _ _)]
      exact modRM_memOperand hsib h.1 []

/-! ## The two moves -/

theorem decode_movLoad (dst src : Reg) (offset : Int32) (rest : List Byte) :
    decode (movLoad dst src offset ++ rest) =
      (modRM ⟨true, high dst, false, high src⟩ (memOperand dst src offset ++ rest)).map fun x ↦
        (.mov (.reg x.1) x.2.1, x.2.2) := by
  rw [movLoad, List.append_assoc, List.append_assoc, decode_rexW]
  exact Option.map_eq_bind.symm

theorem decode_movStore (dst src : Reg) (offset : Int32) (rest : List Byte) :
    decode (movStore dst offset src ++ rest) =
      (modRM ⟨true, high src, false, high dst⟩ (memOperand src dst offset ++ rest)).map fun x ↦
        (.mov x.2.1 (.reg x.1), x.2.2) := by
  rw [movStore, List.append_assoc, List.append_assoc, decode_rexW]
  exact Option.map_eq_bind.symm

/-- Both moves read back as the move between `reg` and `[base + offset]`, with no byte left. -/
structure ReadsBack (reg base : Reg) (offset : Int32) : Prop where
  load : decode (movLoad reg base offset) = some (.mov (.reg reg) (memory base offset), [])
  store : decode (movStore base offset reg) = some (.mov (memory base offset) (.reg reg), [])

theorem readsBack_iff (reg base : Reg) (offset : Int32) :
    ReadsBack reg base offset ↔ Encodable base offset := by
  have hload := decode_movLoad reg base offset []
  have hstore := decode_movStore base reg offset []
  rw [List.append_nil, List.append_nil] at hload hstore
  rw [← @modRM_memOperand_iff reg]
  constructor
  · intro h
    obtain ⟨⟨dst, operand, left⟩, hx, heq⟩ := Option.map_eq_some_iff.mp (hload.symm.trans h.load)
    cases heq
    exact hx
  · intro h
    rw [h] at hload hstore
    exact ⟨hload, hstore⟩

/-- A load through `r13` reads as relative to the instruction pointer, short of its bytes. -/
theorem not_readsBack : ¬∀ reg base offset, ReadsBack reg base offset :=
  fun h ↦ nomatch (h .rax .r13 0).load

/-- For the bases that need no SIB byte, in front of any code. -/
theorem encodes_movLoad (h : ¬(base = .rsp ∨ base = .r12)) (hbase : base = .r13 → offset ≠ 0) :
    Encodes (movLoad reg base offset) (.mov (.reg reg) (memory base offset)) := by
  intro rest
  rw [decode_movLoad, modRM_memOperand h hbase]
  rfl

theorem encodes_movStore (h : ¬(base = .rsp ∨ base = .r12)) (hbase : base = .r13 → offset ≠ 0) :
    Encodes (movStore base offset reg) (.mov (memory base offset) (.reg reg)) := by
  intro rest
  rw [decode_movStore, modRM_memOperand h hbase]
  rfl

end MachineCode

end MiniLang
