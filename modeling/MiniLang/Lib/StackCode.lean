import Mathlib.Data.BitVec
import Mathlib.Tactic.Common

/-!
# Balanced stack code

Code for a stack machine is balanced when every instruction is reached with one depth of the operand
stack, deep enough for what the instruction pops. A piece of balanced code has a depth at its entry
and one at its exit; jumps may also lead to labels outside of the piece. The rules here put pieces
together.
-/

namespace StackCode

/-- What counts of the instructions of a stack machine. -/
structure Isa (ι : Type) where
  pops : ι → Nat
  pushes : ι → Nat
  /-- Where the instruction at an address may lead. -/
  successors : Nat → ι → List Nat

/-- Depths at addresses outside of a piece of code. -/
abbrev Labels := Nat → Nat → Prop

variable {ι : Type} {isa : Isa ι} {ok : ι → Prop} {ext ext' : Labels} {base h h' m : Nat}
  {code code' : List ι} {instr : ι}

/-- The depth after an instruction. -/
def Isa.after (isa : Isa ι) (instr : ι) (depth : Nat) : Nat :=
  depth - isa.pops instr + isa.pushes instr

/-- `depth` gives the depth at each address of the code and at its exit. -/
structure Isa.Depths (isa : Isa ι) (ok : ι → Prop) (ext : Labels) (base : Nat) (code : List ι)
    (depth : Nat → Nat) : Prop where
  valid : ∀ (i : Nat) (instr : ι), code[i]? = some instr → ok instr
  pops_le : ∀ (i : Nat) (instr : ι), code[i]? = some instr → isa.pops instr ≤ depth (base + i)
  next : ∀ (i : Nat) (instr : ι), code[i]? = some instr → ∀ t ∈ isa.successors (base + i) instr,
    base ≤ t ∧ t ≤ base + code.length ∧ depth t = isa.after instr (depth (base + i)) ∨
      ext t (isa.after instr (depth (base + i)))

/-- The code is entered with `h` operands and left with `h'`. -/
def Isa.Balanced (isa : Isa ι) (ok : ι → Prop) (ext : Labels) (base : Nat) (code : List ι)
    (h h' : Nat) : Prop :=
  ∃ depth, depth base = h ∧ depth (base + code.length) = h' ∧ isa.Depths ok ext base code depth

namespace Isa.Balanced

theorem nil (h : Nat) : isa.Balanced ok ext base [] h h :=
  ⟨fun _ ↦ h, rfl, rfl, fun _ _ hi ↦ absurd hi (by simp), fun _ _ hi ↦ absurd hi (by simp),
    fun _ _ hi ↦ absurd hi (by simp)⟩

/-- Only what the labels say is used of them. -/
theorem mono (hb : isa.Balanced ok ext base code h h') (hext : ∀ t d, ext t d → ext' t d) :
    isa.Balanced ok ext' base code h h' := by
  obtain ⟨depth, hentry, hexit, hd⟩ := hb
  exact ⟨depth, hentry, hexit, hd.valid, hd.pops_le,
    fun i instr hi t ht ↦ (hd.next i instr hi t ht).imp_right (hext t _)⟩

theorem append (hb : isa.Balanced ok ext base code h m)
    (hb' : isa.Balanced ok ext (base + code.length) code' m h') :
    isa.Balanced ok ext base (code ++ code') h h' := by
  obtain ⟨depth, rfl, hmid, hd⟩ := hb
  obtain ⟨depth', hmid', rfl, hd'⟩ := hb'
  have hlow {pc : Nat} (hpc : pc ≤ base + code.length) :
      (if pc < base + code.length then depth pc else depth' pc) = depth pc := by
    split
    · rfl
    · obtain rfl : pc = base + code.length := by omega
      rw [hmid, hmid']
  have hhigh {pc : Nat} (hpc : base + code.length ≤ pc) :
      (if pc < base + code.length then depth pc else depth' pc) = depth' pc :=
    if_neg (Nat.not_lt.mpr hpc)
  have hcases {i : Nat} {instr : ι} (hi : (code ++ code')[i]? = some instr) :
      code[i]? = some instr ∧ i < code.length ∨
        ∃ j, i = code.length + j ∧ code'[j]? = some instr := by
    rcases Nat.lt_or_ge i code.length with hlt | hge
    · rw [List.getElem?_append_left hlt] at hi
      exact .inl ⟨hi, hlt⟩
    · rw [List.getElem?_append_right hge] at hi
      exact .inr ⟨i - code.length, by omega, hi⟩
  refine ⟨fun pc ↦ if pc < base + code.length then depth pc else depth' pc,
    hlow (Nat.le_add_right ..), ?_, fun i instr hi ↦ ?_, fun i instr hi ↦ ?_,
    fun i instr hi t ht ↦ ?_⟩
  · rw [List.length_append, ← Nat.add_assoc]
    exact hhigh (Nat.le_add_right ..)
  · rcases hcases hi with ⟨hi, -⟩ | ⟨j, -, hj⟩
    · exact hd.valid i instr hi
    · exact hd'.valid j instr hj
  · rcases hcases hi with ⟨hi, hlt⟩ | ⟨j, rfl, hj⟩
    · rw [hlow (by omega)]
      exact hd.pops_le i instr hi
    · rw [hhigh (by omega), ← Nat.add_assoc]
      exact hd'.pops_le j instr hj
  · rw [List.length_append]
    rcases hcases hi with ⟨hi, hlt⟩ | ⟨j, rfl, hj⟩
    · rw [hlow (show base + i ≤ base + code.length by omega)]
      refine (hd.next i instr hi t ht).imp_left fun ⟨hle, hle', hdepth⟩ ↦ ⟨hle, by omega, ?_⟩
      rw [hlow hle', hdepth]
    · have haddress : base + (code.length + j) = base + code.length + j := by omega
      rw [haddress] at ht
      rw [haddress, hhigh (show base + code.length ≤ base + code.length + j by omega)]
      refine (hd'.next j instr hj t ht).imp_left fun ⟨hle, hle', hdepth⟩ ↦
        ⟨by omega, by omega, ?_⟩
      rw [hhigh hle, hdepth]

/-- The second piece is at `base'`. -/
theorem appendAt {base' : Nat} (hb : isa.Balanced ok ext base code h m)
    (hb' : isa.Balanced ok ext base' code' m h') (hbase : base' = base + code.length) :
    isa.Balanced ok ext base (code ++ code') h h' :=
  hb.append (hbase ▸ hb')

/-- One instruction. Where it does not lead to the next one, any depth will do there. -/
theorem single (hok : ok instr) (hpops : isa.pops instr ≤ h)
    (hnext : ∀ t ∈ isa.successors base instr,
      t = base + 1 ∧ h' = isa.after instr h ∨ ext t (isa.after instr h)) :
    isa.Balanced ok ext base [instr] h h' := by
  have hsingle {i : Nat} {instr' : ι} (hi : [instr][i]? = some instr') : i = 0 ∧ instr' = instr := by
    obtain ⟨hlt, rfl⟩ := List.getElem?_eq_some_iff.mp hi
    obtain rfl : i = 0 := by
      rw [List.length_singleton] at hlt
      omega
    exact ⟨rfl, rfl⟩
  refine ⟨fun pc ↦ if pc = base then h else h', if_pos rfl,
    if_neg (by rw [List.length_singleton]; omega), fun i instr' hi ↦ ?_, fun i instr' hi ↦ ?_,
    fun i instr' hi t ht ↦ ?_⟩
  · obtain ⟨rfl, rfl⟩ := hsingle hi
    exact hok
  · obtain ⟨rfl, rfl⟩ := hsingle hi
    exact Nat.le_trans hpops (Nat.le_of_eq (if_pos rfl).symm)
  · obtain ⟨rfl, rfl⟩ := hsingle hi
    rw [if_pos (Nat.add_zero base), List.length_singleton]
    refine (hnext t ht).imp_left ?_
    rintro ⟨rfl, heq⟩
    exact ⟨Nat.le_succ _, Nat.le_refl _, (if_neg (Nat.succ_ne_self _)).trans heq⟩

/-- Labels for the entry and the exit of the code. -/
theorem close (ext' : Labels) (hb : isa.Balanced ok ext' base code h h')
    (hext : ∀ t d, ext' t d → ext t d ∨ t = base ∧ d = h ∨ t = base + code.length ∧ d = h') :
    isa.Balanced ok ext base code h h' := by
  obtain ⟨depth, rfl, rfl, hd⟩ := hb
  refine ⟨depth, rfl, rfl, hd.valid, hd.pops_le, fun i instr hi t ht ↦ ?_⟩
  rcases hd.next i instr hi t ht with hinside | houtside
  · exact .inl hinside
  · rcases hext t _ houtside with houtside | ⟨rfl, heq⟩ | ⟨rfl, heq⟩
    · exact .inr houtside
    · exact .inl ⟨Nat.le_refl _, Nat.le_add_right .., heq.symm⟩
    · exact .inl ⟨Nat.le_add_right .., Nat.le_refl _, heq.symm⟩

end Isa.Balanced

end StackCode
