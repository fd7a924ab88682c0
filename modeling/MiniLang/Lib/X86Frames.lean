import MiniLang.Lib.X86

/-!
# Stack frames of x86-64 code

Straight-line code as a listing, piece by piece, so that every state of a run is at a known piece of
it; and a discipline for code that works in a frame: which instructions may stand where, for a known
height of the operand stack, whatever the values are. Code that keeps the discipline pushes and pops
below the reserved words only, and what the caller left in the frame stays.

## Listings

A run of machine code is at an address, and only the decoder says what instruction begins there. A
`Listing` pairs the bytes of each piece with the instruction that they encode. Since no piece is
empty, an offset that is the beginning of a piece determines it, and a run that starts at the first
piece is always at the beginning of one (`atPiece_of_reaches`).

## The discipline

`KeepsAll` goes from a shape of the frame to another along a list of instructions. A shape is a
height of the operand stack, and whether the flags are defined. Instructions may compute in scratch
registers, access the words of the locals through the frame pointer, push, and pop what was pushed.
Nothing is said about values, so a discipline is checked on the code and not on its runs.

## Calls

A frame is entered by pushing the frame pointer and reserving words, and left by restoring both.
`Framed` is code with such a head and tail and a disciplined body in between. All results are about
calls of framed code: where the stack is accessed, which words stay, that the call returns.
-/

namespace X86

open ByteMemory

/-! ## Listings -/

/-- A piece of code, with the instruction that it encodes. -/
structure Piece where
  bytes : List Byte
  instr : Instr
  encodes : Encodes bytes instr

abbrev Listing := List Piece

namespace Listing

def bytes (listing : Listing) : List Byte := listing.flatMap Piece.bytes

def instrs (listing : Listing) : List Instr := listing.map Piece.instr

@[simp] theorem bytes_nil : bytes [] = [] := rfl

@[simp] theorem bytes_cons (piece : Piece) (listing : Listing) :
    bytes (piece :: listing) = piece.bytes ++ bytes listing := List.flatMap_cons

@[simp] theorem bytes_append (listing listing' : Listing) :
    bytes (listing ++ listing') = bytes listing ++ bytes listing' := List.flatMap_append

@[simp] theorem instrs_append (listing listing' : Listing) :
    instrs (listing ++ listing') = instrs listing ++ instrs listing' := List.map_append

end Listing

/-- No instruction is encoded in no byte. -/
theorem Encodes.length_pos {bytes : List Byte} {instr : Instr} (h : Encodes bytes instr) :
    0 < bytes.length := by
  refine List.length_pos_iff.mpr fun hnil ↦ ?_
  subst hnil
  cases h []

namespace Listing

variable {listing : Listing} {i j : Nat}

/-- How far the first pieces reach. -/
def offset (listing : Listing) (i : Nat) : Nat := (bytes (listing.take i)).length

theorem offset_length (listing : Listing) :
    offset listing listing.length = (bytes listing).length := by
  rw [offset, List.take_length]

theorem offset_succ (h : i < listing.length) :
    offset listing (i + 1) = offset listing i + (listing[i]).bytes.length := by
  rw [offset, List.take_succ_eq_append_getElem h, bytes_append, List.length_append, offset,
    bytes_cons, bytes_nil, List.append_nil]

/-- Later pieces are further on. -/
theorem offset_lt_offset (hij : i < j) (hj : j ≤ listing.length) :
    offset listing i < offset listing j := by
  induction j with
  | zero => cases hij
  | succ j ih =>
    have hpos := (listing[j]).encodes.length_pos
    rw [offset_succ hj]
    rcases Nat.lt_or_eq_of_le (Nat.le_of_lt_succ hij) with hlt | rfl
    · have := ih hlt (Nat.le_of_succ_le hj)
      omega
    · omega

theorem offset_lt_iff (hi : i ≤ listing.length) (hj : j ≤ listing.length) :
    offset listing i < offset listing j ↔ i < j := by
  refine ⟨fun h ↦ ?_, fun h ↦ offset_lt_offset h hj⟩
  by_contra hle
  rcases Nat.lt_or_eq_of_le (Nat.le_of_not_lt hle) with hlt | rfl
  · have := offset_lt_offset hlt hi
    omega
  · omega

theorem offset_inj (hi : i ≤ listing.length) (hj : j ≤ listing.length)
    (h : offset listing i = offset listing j) : i = j := by
  rcases Nat.lt_trichotomy i j with hlt | heq | hlt
  · have := offset_lt_offset hlt hj
    omega
  · exact heq
  · have := offset_lt_offset hlt hi
    omega

/-- A piece with what stands before and after it. -/
theorem bytes_split (h : i < listing.length) : bytes listing =
    bytes (listing.take i) ++ ((listing[i]).bytes ++ bytes (listing.drop (i + 1))) := by
  rw [← bytes_cons, ← List.drop_eq_getElem_cons h, ← bytes_append, List.take_append_drop]

theorem instrs_take_succ (h : i < listing.length) :
    instrs (listing.take (i + 1)) = instrs (listing.take i) ++ [(listing[i]).instr] := by
  rw [List.take_succ_eq_append_getElem h, instrs_append]
  rfl

theorem offset_le (listing : Listing) (i : Nat) : offset listing i ≤ (bytes listing).length := by
  have h := bytes_append (listing.take i) (listing.drop i)
  rw [List.take_append_drop] at h
  rw [h, List.length_append, offset]
  exact Nat.le_add_right ..

end Listing

/-! ## Runs through a listing -/

section Runs

variable {origin : Word} {code post ret : List Byte} {listing : Listing} {m m' : Machine}
  {cpu : Cpu} {i : Nat}

theorem execAll_append (m : Machine) (instrs instrs' : List Instr) :
    m.execAll (instrs ++ instrs') = (m.execAll instrs).bind (·.execAll instrs') :=
  List.foldlM_append

theorem execAll_cons (m : Machine) (instr : Instr) (instrs : List Instr) :
    m.execAll (instr :: instrs) = (m.exec instr).bind (·.execAll instrs) := List.foldlM_cons

theorem execAll_singleton (m : Machine) (instr : Instr) :
    m.execAll [instr] = m.exec instr := by
  rw [execAll_cons]
  exact Option.bind_fun_some _

/-- What has been executed of code that executes. -/
theorem exists_execAll_take (h : m.execAll listing.instrs = some m') (i : Nat) :
    ∃ m₁, m.execAll (Listing.instrs (listing.take i)) = some m₁ := by
  rw [← List.take_append_drop i listing, Listing.instrs_append, execAll_append] at h
  obtain ⟨m₁, hm₁, -⟩ := Option.bind_eq_some_iff.mp h
  exact ⟨m₁, hm₁⟩

/-- The processor is about to execute the `i`-th piece of a run from `m`, or the `ret` behind the
last one. -/
structure AtPiece (origin : Word) (listing : Listing) (m : Machine) (i : Nat) (cpu : Cpu) :
    Prop where
  le : i ≤ listing.length
  rip : cpu.rip = origin + BitVec.ofNat 64 (listing.offset i)
  executed : m.execAll (Listing.instrs (listing.take i)) = some cpu.machine

theorem AtPiece.bytes (hcode : code = listing.bytes ++ post) (hi : i < listing.length) :
    code = Listing.bytes (listing.take i) ++
      ((listing[i]).bytes ++ (Listing.bytes (listing.drop (i + 1)) ++ post)) := by
  rw [hcode, Listing.bytes_split hi, List.append_assoc, List.append_assoc]

theorem step_atPiece (hcode : code = listing.bytes ++ post) (hlength : code.length < 2 ^ 64)
    (hexec : m.execAll listing.instrs = some m') (h : AtPiece origin listing m i cpu)
    (hi : i < listing.length) :
    ∃ cpu', step origin code cpu = .inl cpu' ∧ AtPiece origin listing m (i + 1) cpu' := by
  obtain ⟨rip, machine⟩ := cpu
  obtain ⟨-, rfl, hdone⟩ := h
  obtain ⟨m₁, htake⟩ := exists_execAll_take hexec (i + 1)
  have hpiece := htake
  rw [Listing.instrs_take_succ hi, execAll_append, hdone] at hpiece
  have hexec' := (execAll_singleton machine (listing[i]).instr).symm.trans hpiece
  have hstep := @step_of_encodes origin _ _ _ _ _ _ _ (AtPiece.bytes hcode hi) hlength
    (listing[i]).encodes hexec'
  refine ⟨⟨_, m₁⟩, hstep, ⟨hi, ?_, htake⟩⟩
  rw [List.length_append, Listing.offset_succ hi]
  rfl

theorem atPiece_zero (origin : Word) (listing : Listing) (m : Machine) :
    AtPiece origin listing m 0 ⟨origin, m⟩ :=
  ⟨Nat.zero_le _, (BitVec.add_zero origin).symm, rfl⟩

/-- The processor gets to every piece. -/
theorem exists_reaches_atPiece (hcode : code = listing.bytes ++ post)
    (hlength : code.length < 2 ^ 64) (hexec : m.execAll listing.instrs = some m') (hi : i ≤ listing.length) :
    ∃ cpu, Stepping.Reaches (step origin code) ⟨origin, m⟩ cpu ∧
      AtPiece origin listing m i cpu := by
  induction i with
  | zero => exact ⟨_, .refl _, atPiece_zero origin listing m⟩
  | succ i ih =>
    obtain ⟨cpu, hreaches, hat⟩ := ih (Nat.le_of_succ_le hi)
    obtain ⟨cpu', hstep, hat'⟩ := step_atPiece hcode hlength hexec hat hi
    exact ⟨cpu', hreaches.tail hstep, hat'⟩

/-- **Every state of a run is at a piece**, until the `ret` behind the last piece. -/
theorem atPiece_of_reaches (hcode : code = listing.bytes ++ (ret ++ post))
    (hlength : code.length < 2 ^ 64) (hret : Encodes ret .ret)
    (hexec : m.execAll listing.instrs = some m')
    (h : Stepping.Reaches (step origin code) ⟨origin, m⟩ cpu) :
    (∃ i, AtPiece origin listing m i cpu) ∨ Stepping.Reaches (step origin code)
      ⟨read m'.mem (m'.regs .rsp), m'.setReg .rsp (m'.regs .rsp + 8)⟩ cpu := by
  induction h with
  | refl => exact .inl ⟨0, atPiece_zero origin listing m⟩
  | @tail cpu cpu' _ hstep ih =>
    rcases ih with ⟨i, hat⟩ | hafter
    · rcases Nat.lt_or_eq_of_le hat.le with hi | rfl
      · obtain ⟨cpu'', hstep', hat'⟩ := step_atPiece hcode hlength hexec hat hi
        obtain rfl := Sum.inl.inj (hstep.symm.trans hstep')
        exact .inl ⟨i + 1, hat'⟩
      · obtain ⟨rip, machine⟩ := cpu
        obtain ⟨-, rfl, hdone⟩ := hat
        rw [List.take_length, hexec] at hdone
        obtain rfl := Option.some_inj.mp hdone
        rw [Listing.offset_length, @step_ret origin _ _ _ _ m' hcode hlength hret] at hstep
        exact .inr (Sum.inl.inj hstep ▸ .refl _)
    · exact .inr (hafter.tail hstep)

/-- Where a piece is. -/
theorem AtPiece.offset_eq (hcode : code = listing.bytes ++ post) (hlength : code.length < 2 ^ 64)
    (h : AtPiece origin listing m i cpu) : (cpu.rip - origin).toNat = listing.offset i := by
  have hle := listing.offset_le i
  rw [hcode, List.length_append] at hlength
  rw [h.rip, BitVec.add_comm, BitVec.add_sub_cancel, BitVec.toNat_ofNat]
  exact Nat.mod_eq_of_lt (by omega)

/-- What the processor finds at a piece, and behind the last one. -/
theorem AtPiece.instr_of_decode (hcode : code = listing.bytes ++ ret)
    (hlength : code.length < 2 ^ 64) (hret : Encodes ret .ret)
    (h : AtPiece origin listing m i cpu) {instr : Instr} {rest : List Byte}
    (hdecode : decode (code.drop (cpu.rip - origin).toNat) = some (instr, rest)) :
    listing.instrs[i]? = some instr ∨ i = listing.length ∧ instr = .ret := by
  rw [h.rip] at hdecode
  rcases Nat.lt_or_eq_of_le h.le with hi | rfl
  · obtain ⟨-, hpiece⟩ := @decode_offset origin _ _ _ _ _ (AtPiece.bytes hcode hi) hlength
      (listing[i]).encodes
    obtain ⟨rfl, -⟩ := Prod.mk.inj (Option.some_inj.mp (hdecode.symm.trans hpiece))
    refine .inl ?_
    rw [Listing.instrs, List.getElem?_map, List.getElem?_eq_getElem hi]
    rfl
  · have hlast : code = listing.bytes ++ (ret ++ []) := by
      rw [List.append_nil]
      exact hcode
    rw [Listing.offset_length] at hdecode
    obtain ⟨-, hpiece⟩ := @decode_offset origin _ _ _ _ _ hlast hlength hret
    exact .inr ⟨rfl, (Prod.mk.inj (Option.some_inj.mp (hdecode.symm.trans hpiece))).1⟩

end Runs

/-! ## Memory accesses -/

/-- The words that an instruction pushes to or pops from. -/
def Instr.stackAccesses (m : Machine) : Instr → List Word
  | .push _ => [m.regs .rsp - 8]
  | .pop _ | .ret => [m.regs .rsp]
  | _ => []

def Operand.accesses (m : Machine) : Operand → List Word
  | .mem base index disp => [m.address base index disp]
  | _ => []

/-- The words that an instruction names by their address. -/
def Instr.dataAccesses (m : Machine) : Instr → List Word
  | .mov dst src => dst.accesses m ++ src.accesses m
  | _ => []

/-- The register that an instruction computes from registers and immediates. -/
def Instr.computes : Instr → Option Reg
  | .movImm dst _ | .add dst _ | .sub dst _ | .imul dst _ | .neg dst | .movzx dst _
  | .movsxd dst _ => some dst
  | _ => none

/-- The instructions that do nothing but set the flags. -/
def Instr.compares : Instr → Bool
  | .cmp _ _ | .test _ _ => true
  | _ => false

section Accesses

variable {m : Machine} {instr : Instr} {dst : Reg}

theorem exec_computes (h : instr.computes = some dst) (m : Machine) : ∃ value flags,
    m.exec instr = some ⟨Function.update m.regs dst value, flags, m.mem⟩ := by
  cases instr with
  | movImm | add | sub | imul | neg | movzx | movsxd =>
    obtain rfl := Option.some_inj.mp h
    exact ⟨_, _, rfl⟩
  | _ => cases h

theorem exec_compares (h : instr.compares = true) (m : Machine) :
    ∃ flags, m.exec instr = some { m with flags := some flags } := by
  cases instr with
  | cmp | test => exact ⟨_, rfl⟩
  | _ => cases h

theorem accesses_of_computes (h : instr.computes = some dst) :
    instr.stackAccesses m = [] ∧ instr.dataAccesses m = [] := by
  cases instr with
  | push | pop | ret | mov => cases h
  | _ => exact ⟨rfl, rfl⟩

theorem accesses_of_compares (h : instr.compares = true) :
    instr.stackAccesses m = [] ∧ instr.dataAccesses m = [] := by
  cases instr with
  | push | pop | ret | mov => cases h
  | _ => exact ⟨rfl, rfl⟩

end Accesses

/-! ## The discipline -/

/-- What the discipline knows of a state: how many operands there are, and whether the flags are
defined. -/
structure Shape where
  height : Nat
  flags : Bool

/-- The `slot`-th word below the frame pointer. -/
def frameWord (slot : Nat) : Operand := .mem (some .rbp) none (-BitVec.ofNat 64 (8 * (slot + 1)))

/-- Registers that the code may change. -/
def Reg.Scratch (reg : Reg) : Prop := reg ≠ .rsp ∧ reg ≠ .rbp

/-- The instructions that code may use in a frame with `locals` words, where there is room for
`room` operands. -/
inductive Keeps (locals room : Nat) : Instr → Shape → Shape → Prop
  | push (src : Reg) {height : Nat} {flags : Bool} (h : height < room) :
      Keeps locals room (.push src) ⟨height, flags⟩ ⟨height + 1, flags⟩
  | pop {dst : Reg} (hdst : dst.Scratch) (height : Nat) (flags : Bool) :
      Keeps locals room (.pop dst) ⟨height + 1, flags⟩ ⟨height, flags⟩
  | load {dst : Reg} (hdst : dst.Scratch) {slot : Nat} (h : slot < locals) (shape : Shape) :
      Keeps locals room (.mov (.reg dst) (frameWord slot)) shape shape
  | store (src : Reg) {slot : Nat} (h : slot < locals) (shape : Shape) :
      Keeps locals room (.mov (frameWord slot) (.reg src)) shape shape
  | compute {instr : Instr} {dst : Reg} (h : instr.computes = some dst) (hdst : dst.Scratch)
      (height : Nat) (flags : Bool) : Keeps locals room instr ⟨height, flags⟩ ⟨height, false⟩
  | compare {instr : Instr} (h : instr.compares = true) (height : Nat) (flags : Bool) :
      Keeps locals room instr ⟨height, flags⟩ ⟨height, true⟩
  | set (cond : Cond) {dst : Reg} (hdst : dst.Scratch) (height : Nat) :
      Keeps locals room (.set cond dst) ⟨height, true⟩ ⟨height, false⟩

/-- Code that keeps the discipline. -/
inductive KeepsAll (locals room : Nat) : List Instr → Shape → Shape → Prop
  | nil (shape : Shape) : KeepsAll locals room [] shape shape
  | cons {instr : Instr} {instrs : List Instr} {shape shape' shape'' : Shape}
      (h : Keeps locals room instr shape shape') (hs : KeepsAll locals room instrs shape' shape'') :
      KeepsAll locals room (instr :: instrs) shape shape''

namespace KeepsAll

variable {locals room : Nat} {instrs instrs' : List Instr} {shape shape' shape'' : Shape}

theorem append (h : KeepsAll locals room instrs shape shape')
    (h' : KeepsAll locals room instrs' shape' shape'') :
    KeepsAll locals room (instrs ++ instrs') shape shape'' := by
  induction h with
  | nil => exact h'
  | cons hinstr _ ih => exact .cons hinstr (ih h')

theorem exists_of_append (h : KeepsAll locals room (instrs ++ instrs') shape shape'') :
    ∃ shape', KeepsAll locals room instrs shape shape' ∧
      KeepsAll locals room instrs' shape' shape'' := by
  induction instrs generalizing shape with
  | nil => exact ⟨shape, .nil shape, h⟩
  | cons instr instrs ih =>
    cases h with
    | cons hinstr hs =>
      obtain ⟨shape', hleft, hright⟩ := ih hs
      exact ⟨shape', .cons hinstr hleft, hright⟩

end KeepsAll

/-! ## Frames -/

/-- A frame with `reserved` words below the frame pointer and room for operands below them. -/
structure Frame where
  /-- The address of the return address. -/
  base : Word
  returnAddress : Word
  callerRbp : Word
  reserved : Nat
  room : Nat
  small : 1 + reserved + room < 2 ^ 60

namespace Frame

/-- Where the frame pointer points. -/
def pointer (frame : Frame) : Word := cell frame.base 1

variable {frame : Frame} {shape shape' : Shape} {m : Machine} {instr : Instr}
  {instrs : List Instr} {locals : Nat}

theorem cell_pointer (frame : Frame) (k : Nat) :
    cell frame.pointer k = cell frame.base (1 + k) := cell_cell ..

/-- A state of that shape in the frame. -/
structure Fits (frame : Frame) (shape : Shape) (m : Machine) : Prop where
  height_le : shape.height ≤ frame.room
  rbp : m.regs .rbp = frame.pointer
  rsp : m.regs .rsp = cell frame.pointer (frame.reserved + shape.height)
  returnAddress : read m.mem frame.base = frame.returnAddress
  callerRbp : read m.mem frame.pointer = frame.callerRbp
  flags : shape.flags = true → m.flags.isSome = true

/-- What is written below the frame pointer leaves what the caller put there. -/
theorem Fits.write (h : frame.Fits shape m) {k : Nat} (hpos : 0 < k)
    (hk : k ≤ frame.reserved + frame.room) (value : Word) :
    read (write m.mem (cell frame.pointer k) value) frame.base = frame.returnAddress ∧
      read (write m.mem (cell frame.pointer k) value) frame.pointer = frame.callerRbp := by
  have hsmall := frame.small
  have hbase := read_write_cell m.mem frame.base value (show 1 + k ≠ 0 by omega) (by omega)
    (by omega)
  have hpointer := read_write_cell m.mem frame.base value (show 1 + k ≠ 1 by omega) (by omega)
    (by omega)
  rw [← cell_pointer, cell_zero] at hbase
  rw [← cell_pointer] at hpointer
  exact ⟨hbase.trans h.returnAddress, hpointer.trans h.callerRbp⟩

/-- Registers but for the two of the frame do not matter. -/
theorem Fits.update (h : frame.Fits shape m) {dst : Reg} (hdst : dst.Scratch) (value : Word)
    {flags : Option Flags} {known : Bool} (hflags : known = true → flags.isSome = true) :
    frame.Fits ⟨shape.height, known⟩ ⟨Function.update m.regs dst value, flags, m.mem⟩ where
  height_le := h.height_le
  rbp := (Function.update_of_ne hdst.2.symm ..).trans h.rbp
  rsp := (Function.update_of_ne hdst.1.symm ..).trans h.rsp
  returnAddress := h.returnAddress
  callerRbp := h.callerRbp
  flags := hflags

theorem address_frameWord (h : frame.Fits shape m) (slot : Nat) :
    m.address (some .rbp) none (-BitVec.ofNat 64 (8 * (slot + 1))) =
      cell frame.pointer (slot + 1) := by
  have haddress : m.address (some .rbp) none (-BitVec.ofNat 64 (8 * (slot + 1))) =
      m.regs .rbp + -BitVec.ofNat 64 (8 * (slot + 1)) := by
    simp [Machine.address]
  rw [haddress, h.rbp, ← BitVec.sub_eq_add_neg]
  rfl

/-- **The step lemma.** An instruction of the discipline executes and keeps the frame. -/
theorem Fits.exec (h : frame.Fits shape m) (hlocals : locals ≤ frame.reserved)
    (hkeeps : Keeps locals frame.room instr shape shape') :
    ∃ m', m.exec instr = some m' ∧ frame.Fits shape' m' := by
  cases hkeeps with
  | @push src height flags hroom =>
    have htop : m.regs .rsp - 8 = cell frame.pointer (frame.reserved + (height + 1)) := by
      rw [h.rsp, ← Nat.add_assoc, cell_succ]
    have hcells := h.write (show 0 < frame.reserved + (height + 1) by omega) (by omega)
      (m.regs src)
    refine ⟨_, rfl, hroom, ?_, ?_, ?_, ?_, h.flags⟩
    · have hkeep := m.regs_setReg_of_ne (show Reg.rbp ≠ .rsp by decide) (m.regs .rsp - 8)
      exact hkeep.trans h.rbp
    · exact (m.regs_setReg_self .rsp _).trans htop
    · dsimp only
      rw [htop]
      exact hcells.1
    · dsimp only
      rw [htop]
      exact hcells.2
  | pop hdst height flags =>
    have hup : m.regs .rsp + 8 = cell frame.pointer (frame.reserved + height) := by
      rw [h.rsp, ← Nat.add_assoc, cell_succ_add]
    refine ⟨_, rfl, Nat.le_of_succ_le h.height_le, ?_, ?_, h.returnAddress, h.callerRbp, h.flags⟩
    · refine (Machine.regs_setReg_of_ne _ hdst.2.symm _).trans ?_
      exact (m.regs_setReg_of_ne (show Reg.rbp ≠ .rsp by decide) _).trans h.rbp
    · refine (Machine.regs_setReg_of_ne _ hdst.1.symm _).trans ?_
      exact (m.regs_setReg_self .rsp _).trans hup
  | load hdst hslot => exact ⟨_, rfl, h.update hdst _ h.flags⟩
  | @store src slot hslot =>
    have hcells := h.write (Nat.succ_pos slot) (by omega) (m.regs src)
    rw [← address_frameWord h] at hcells
    exact ⟨_, rfl, h.height_le, h.rbp, h.rsp, hcells.1, hcells.2, h.flags⟩
  | compute hcomputes hdst height flags =>
    obtain ⟨value, flags', hexec⟩ := exec_computes hcomputes m
    exact ⟨_, hexec, h.update hdst value nofun⟩
  | compare hcompares height flags =>
    obtain ⟨flags', hexec⟩ := exec_compares hcompares m
    exact ⟨_, hexec, h.height_le, h.rbp, h.rsp, h.returnAddress, h.callerRbp, fun _ ↦ rfl⟩
  | @set cond dst hdst height =>
    obtain ⟨flags, hflags⟩ := Option.isSome_iff_exists.mp (h.flags rfl)
    have hexec : m.exec (.set cond dst) = some (m.setReg dst ((m.regs dst).extractLsb' 8 56 ++
        (if cond.holds flags then 1 else 0 : Byte))) := by
      rw [Machine.exec, hflags]
      rfl
    exact ⟨_, hexec, h.update hdst _ nofun⟩

/-- Pushes and pops stay below the reserved words, and everything else within the locals. -/
theorem Fits.accesses (h : frame.Fits shape m)
    (hkeeps : Keeps locals frame.room instr shape shape') :
    (∀ a ∈ instr.stackAccesses m, ∃ k, 1 ≤ k ∧ k ≤ frame.room ∧
      a = cell frame.pointer (frame.reserved + k)) ∧
    ∀ a ∈ instr.dataAccesses m, ∃ slot < locals, a = cell frame.pointer (slot + 1) := by
  cases hkeeps with
  | @push src height flags hroom =>
    refine ⟨fun a ha ↦ ⟨height + 1, Nat.succ_pos _, hroom, ?_⟩,
      fun _ ha ↦ absurd ha List.not_mem_nil⟩
    rw [List.mem_singleton.mp ha, h.rsp, ← Nat.add_assoc, cell_succ]
  | pop hdst height flags =>
    refine ⟨fun a ha ↦ ⟨height + 1, Nat.succ_pos _, h.height_le, ?_⟩,
      fun _ ha ↦ absurd ha List.not_mem_nil⟩
    rw [List.mem_singleton.mp ha, h.rsp]
  | @load dst _ slot hslot =>
    refine ⟨fun _ ha ↦ absurd ha List.not_mem_nil, fun a ha ↦ ⟨slot, hslot, ?_⟩⟩
    rw [← address_frameWord h]
    exact List.mem_singleton.mp ha
  | @store src slot hslot =>
    refine ⟨fun _ ha ↦ absurd ha List.not_mem_nil, fun a ha ↦ ⟨slot, hslot, ?_⟩⟩
    rw [← address_frameWord h]
    exact List.mem_singleton.mp ha
  | compute hcomputes =>
    obtain ⟨hstack, hdata⟩ := accesses_of_computes (m := m) hcomputes
    rw [hstack, hdata]
    exact ⟨fun _ ha ↦ absurd ha List.not_mem_nil, fun _ ha ↦ absurd ha List.not_mem_nil⟩
  | compare hcompares =>
    obtain ⟨hstack, hdata⟩ := accesses_of_compares (m := m) hcompares
    rw [hstack, hdata]
    exact ⟨fun _ ha ↦ absurd ha List.not_mem_nil, fun _ ha ↦ absurd ha List.not_mem_nil⟩
  | set => exact ⟨fun _ ha ↦ absurd ha List.not_mem_nil, fun _ ha ↦ absurd ha List.not_mem_nil⟩

/-- **The run lemma.** -/
theorem Fits.execAll (h : frame.Fits shape m) (hlocals : locals ≤ frame.reserved)
    (hall : KeepsAll locals frame.room instrs shape shape') :
    ∃ m', m.execAll instrs = some m' ∧ frame.Fits shape' m' := by
  induction hall generalizing m with
  | nil => exact ⟨m, rfl, h⟩
  | cons hkeeps _ ih =>
    obtain ⟨m₁, hexec, h₁⟩ := h.exec hlocals hkeeps
    obtain ⟨m', hrest, h'⟩ := ih h₁
    exact ⟨m', by rw [execAll_cons, hexec]; exact hrest, h'⟩

/-! ## Entering and leaving -/

/-- The code that makes a frame. -/
def enter (reserved : Nat) : List Instr :=
  [.push .rbp, .mov (.reg .rbp) (.reg .rsp), .subImm .rsp (BitVec.ofNat 64 (8 * reserved))]

/-- The code that leaves it, up to the `ret`. -/
def leave : List Instr := [.mov (.reg .rsp) (.reg .rbp), .pop .rbp]

/-- The stack pointer is at the return address, and the frame pointer is the caller's. -/
structure Outside (frame : Frame) (m : Machine) : Prop where
  rsp : m.regs .rsp = frame.base
  rbp : m.regs .rbp = frame.callerRbp
  returnAddress : read m.mem frame.base = frame.returnAddress

theorem Outside.enter (h : frame.Outside m) :
    ∃ m', m.execAll (enter frame.reserved) = some m' ∧ frame.Fits ⟨0, false⟩ m' := by
  have htop : m.regs .rsp - 8 = frame.pointer := by
    rw [h.rsp, pointer, cell_succ, cell_zero]
  let m₁ : Machine := ⟨(m.setReg .rsp frame.pointer).regs, m.flags,
    ByteMemory.write m.mem frame.pointer (m.regs .rbp)⟩
  have hpush : m.exec (.push .rbp) = some m₁ := by
    rw [show m₁ = ⟨_, _, ByteMemory.write m.mem frame.pointer _⟩ from rfl, ← htop]
    rfl
  have hrsp : m₁.regs .rsp = frame.pointer := m.regs_setReg_self .rsp frame.pointer
  have hmov : m₁.exec (.mov (.reg .rbp) (.reg .rsp)) = some (m₁.setReg .rbp frame.pointer) := by
    rw [← hrsp]
    rfl
  have hrsp' : (m₁.setReg .rbp frame.pointer).regs .rsp = frame.pointer :=
    (m₁.regs_setReg_of_ne (show Reg.rsp ≠ .rbp by decide) _).trans hrsp
  have hexec : ∃ flags, m.execAll (Frame.enter frame.reserved) =
      some ⟨Function.update (m₁.setReg .rbp frame.pointer).regs .rsp
        (frame.pointer - BitVec.ofNat 64 (8 * frame.reserved)), flags, m₁.mem⟩ := by
    rw [Frame.enter, execAll_cons, hpush, Option.bind_some, execAll_cons, hmov, Option.bind_some,
      execAll_singleton, ← hrsp']
    exact ⟨_, rfl⟩
  obtain ⟨flags, hexec⟩ := hexec
  have hcell := read_write_cell m.mem frame.base (m.regs .rbp) (show 1 ≠ 0 by decide) (by decide)
    (by decide)
  rw [cell_zero] at hcell
  refine ⟨_, hexec, Nat.zero_le _, ?_, ?_, hcell.trans h.returnAddress,
    (read_write_self ..).trans h.rbp, nofun⟩
  · dsimp only
    rw [Function.update_of_ne (show Reg.rbp ≠ .rsp by decide)]
    exact m₁.regs_setReg_self .rbp frame.pointer
  · dsimp only
    rw [Function.update_self]
    rfl

theorem Fits.leave (h : frame.Fits shape m) :
    ∃ m', m.execAll leave = some m' ∧ frame.Outside m' := by
  refine ⟨_, rfl, ?_, ?_, h.returnAddress⟩
  · have hup : m.regs .rbp + 8 = frame.base := by
      rw [h.rbp, pointer, cell_succ_add, cell_zero]
    exact hup
  · exact (congrArg (read m.mem) h.rbp).trans h.callerRbp

end Frame

/-! ## The frame rule -/

/-- A function: code that makes a frame, code that keeps the discipline in it, code that leaves it,
and a `ret`. -/
structure Framed (code : List Byte) (frame : Frame) (locals : Nat) (head body tail : Listing)
    (shape : Shape) : Prop where
  size : code.length < 2 ^ 64
  bytes : ∃ ret, Encodes ret .ret ∧ code = Listing.bytes (head ++ (body ++ tail)) ++ ret
  locals_le : locals ≤ frame.reserved
  head : Listing.instrs head = Frame.enter frame.reserved
  body : KeepsAll locals frame.room (Listing.instrs body) ⟨0, false⟩ shape
  tail : Listing.instrs tail = Frame.leave

namespace Framed

variable {origin : Word} {code : List Byte} {frame : Frame} {locals : Nat}
  {head body tail : Listing} {shape shape' : Shape} {m : Machine} {cpu : Cpu} {i : Nat}

theorem exists_execAll (h : Framed code frame locals head body tail shape)
    (hm : frame.Outside m) :
    ∃ m', m.execAll (Listing.instrs (head ++ (body ++ tail))) = some m' ∧ frame.Outside m' := by
  obtain ⟨m₁, henter, h₁⟩ := hm.enter
  obtain ⟨m₂, hbody, h₂⟩ := h₁.execAll h.locals_le h.body
  obtain ⟨m₃, hleave, h₃⟩ := h₂.leave
  refine ⟨m₃, ?_, h₃⟩
  rw [Listing.instrs_append, Listing.instrs_append, execAll_append, h.head, henter,
    Option.bind_some, execAll_append, hbody, Option.bind_some, h.tail, hleave]

/-- The states in the body, of the shape that the discipline gives. -/
theorem fits (h : Framed code frame locals head body tail shape) (hm : frame.Outside m)
    (hat : AtPiece origin (head ++ (body ++ tail)) m (head.length + i) cpu) (hi : i ≤ body.length)
    (hall : KeepsAll locals frame.room (Listing.instrs (body.take i)) ⟨0, false⟩ shape') :
    frame.Fits shape' cpu.machine := by
  obtain ⟨m₁, henter, h₁⟩ := hm.enter
  obtain ⟨m₂, hbody, h₂⟩ := h₁.execAll h.locals_le hall
  have hdone := hat.executed
  rw [List.take_length_add_append, List.take_append_of_le_length hi, Listing.instrs_append,
    execAll_append, h.head, henter, Option.bind_some, hbody] at hdone
  exact Option.some_inj.mp hdone ▸ h₂

/-- The shape at each piece of the body. -/
theorem exists_keepsAll (h : Framed code frame locals head body tail shape) (i : Nat) :
    ∃ shape', KeepsAll locals frame.room (Listing.instrs (body.take i)) ⟨0, false⟩ shape' ∧
      KeepsAll locals frame.room (Listing.instrs (body.drop i)) shape' shape := by
  have hbody := h.body
  rw [← List.take_append_drop i body, Listing.instrs_append] at hbody
  exact hbody.exists_of_append

/-- What the body does to memory: its pushes and pops stay below the reserved words, and everything
else goes to the locals. -/
theorem accesses (h : Framed code frame locals head body tail shape) (hm : frame.Outside m)
    (hat : AtPiece origin (head ++ (body ++ tail)) m (head.length + i) cpu) {instr : Instr}
    (hi : (Listing.instrs body)[i]? = some instr) :
    (∀ a ∈ instr.stackAccesses cpu.machine, ∃ k, 1 ≤ k ∧ k ≤ frame.room ∧
      a = cell frame.pointer (frame.reserved + k)) ∧
    ∀ a ∈ instr.dataAccesses cpu.machine, ∃ slot < locals, a = cell frame.pointer (slot + 1) := by
  obtain ⟨hlt, rfl⟩ := List.getElem?_eq_some_iff.mp hi
  rw [Listing.instrs, List.length_map] at hlt
  obtain ⟨shape', htake, hdrop⟩ := h.exists_keepsAll i
  rw [List.drop_eq_getElem_cons hlt] at hdrop
  have hpiece : (Listing.instrs body)[i] = (body[i]).instr := List.getElem_map ..
  rw [hpiece]
  cases hdrop with
  | cons hkeeps _ => exact (h.fits hm hat (Nat.le_of_lt hlt) htake).accesses hkeeps

/-- **The frame rule.** A call comes back to the return address, with the stack and the frame
pointer of the caller. -/
theorem returns (h : Framed code frame locals head body tail shape) (hm : frame.Outside m)
    (houtside : code.length ≤ (frame.returnAddress - origin).toNat) :
    ∃ fuel cpu, Stepping.run (step origin code) fuel ⟨origin, m⟩ = some (.left cpu) ∧
      cpu.rip = frame.returnAddress ∧ cpu.machine.regs .rsp = frame.base + 8 ∧
      cpu.machine.regs .rbp = frame.callerRbp := by
  obtain ⟨ret, hret, hcode⟩ := h.bytes
  obtain ⟨m', hexec, hm'⟩ := h.exists_execAll hm
  obtain ⟨cpu, hreaches, hat⟩ :=
    @exists_reaches_atPiece origin _ _ _ _ _ _ hcode h.size hexec (Nat.le_refl _)
  obtain ⟨rip, machine⟩ := cpu
  obtain ⟨-, rfl, hdone⟩ := hat
  rw [List.take_length, hexec] at hdone
  obtain rfl := Option.some_inj.mp hdone
  have hlast : code = Listing.bytes (head ++ (body ++ tail)) ++ (ret ++ []) := by
    rw [List.append_nil]
    exact hcode
  have hstep := @step_ret origin _ _ _ _ m' hlast h.size hret
  rw [← Listing.offset_length, hm'.rsp, hm'.returnAddress] at hstep
  obtain ⟨fuel, hrun⟩ :=
    Stepping.exists_run_of_reaches (hreaches.tail hstep) (step_of_outside houtside)
  refine ⟨fuel, _, hrun, rfl, m'.regs_setReg_self .rsp _, ?_⟩
  exact (m'.regs_setReg_of_ne (show Reg.rbp ≠ .rsp by decide) _).trans hm'.rbp

/-- Every state of a call is at a piece of it, until control is back at the return address. -/
theorem atPiece_of_reaches (h : Framed code frame locals head body tail shape)
    (hm : frame.Outside m) (houtside : code.length ≤ (frame.returnAddress - origin).toNat)
    (hreaches : Stepping.Reaches (step origin code) ⟨origin, m⟩ cpu) :
    (∃ i, AtPiece origin (head ++ (body ++ tail)) m i cpu) ∨ cpu.rip = frame.returnAddress := by
  obtain ⟨ret, hret, hcode⟩ := h.bytes
  obtain ⟨m', hexec, hm'⟩ := h.exists_execAll hm
  have hlast : code = Listing.bytes (head ++ (body ++ tail)) ++ (ret ++ []) := by
    rw [List.append_nil]
    exact hcode
  refine (X86.atPiece_of_reaches hlast h.size hret hexec hreaches).imp_right fun hafter ↦ ?_
  rw [hm'.rsp, hm'.returnAddress] at hafter
  rw [hafter.eq_of_end (step_of_outside houtside)]

theorem length_head (h : Framed code frame locals head body tail shape) : head.length = 3 := by
  have hlength := congrArg List.length h.head
  rwa [Listing.instrs, List.length_map] at hlength

theorem length_tail (h : Framed code frame locals head body tail shape) : tail.length = 2 := by
  have hlength := congrArg List.length h.tail
  rwa [Listing.instrs, List.length_map] at hlength

/-- At the second piece of the code that leaves, the stack pointer is back at the frame pointer. -/
theorem rsp_of_leaving (h : Framed code frame locals head body tail shape) (hm : frame.Outside m)
    (hat : AtPiece origin (head ++ (body ++ tail)) m (head.length + (body.length + 1)) cpu) :
    cpu.machine.regs .rsp = frame.pointer := by
  obtain ⟨m₁, henter, h₁⟩ := hm.enter
  obtain ⟨m₂, hbody, h₂⟩ := h₁.execAll h.locals_le h.body
  have hmov : Listing.instrs (tail.take 1) = [.mov (.reg .rsp) (.reg .rbp)] := by
    rw [Listing.instrs, List.map_take, ← Listing.instrs, h.tail]
    rfl
  have hdone := hat.executed
  rw [List.take_length_add_append, List.take_length_add_append, Listing.instrs_append,
    Listing.instrs_append, execAll_append, h.head, henter, Option.bind_some, execAll_append, hbody,
    Option.bind_some, hmov, execAll_singleton] at hdone
  rw [← Option.some_inj.mp hdone]
  exact (m₂.regs_setReg_self .rsp _).trans h₂.rbp

/-- **Where the stack is accessed.** At the return address, at the saved frame pointer, and below
the reserved words. -/
theorem stackAccess_cases (h : Framed code frame locals head body tail shape)
    (hm : frame.Outside m) (hat : AtPiece origin (head ++ (body ++ tail)) m i cpu) {instr : Instr}
    {rest : List Byte} (hdecode : decode (code.drop (cpu.rip - origin).toNat) = some (instr, rest))
    {a : Word} (ha : a ∈ instr.stackAccesses cpu.machine) :
    a = frame.base ∨ a = frame.pointer ∨ ∃ k, 1 ≤ k ∧ k ≤ frame.room ∧
      a = cell frame.pointer (frame.reserved + k) := by
  obtain ⟨ret, hret, hcode⟩ := h.bytes
  obtain ⟨m', hexec, hm'⟩ := h.exists_execAll hm
  have hhead := h.length_head
  have htail := h.length_tail
  rcases hat.instr_of_decode hcode h.size hret hdecode with hinstr | ⟨rfl, rfl⟩
  · rw [Listing.instrs_append, Listing.instrs_append, h.head, h.tail] at hinstr
    by_cases hfirst : i < 3
    · -- in the head only the first instruction accesses the stack
      rw [List.getElem?_append_left hfirst] at hinstr
      have hi : i = 0 ∨ i = 1 ∨ i = 2 := by omega
      rcases hi with rfl | rfl | rfl
      · obtain rfl := Option.some_inj.mp hinstr
        obtain rfl := Option.some_inj.mp hat.executed
        rw [List.mem_singleton.mp ha, hm.rsp]
        exact .inr (.inl (by rw [Frame.pointer, cell_succ, cell_zero]))
      · obtain rfl := Option.some_inj.mp hinstr
        cases ha
      · obtain rfl := Option.some_inj.mp hinstr
        cases ha
    · obtain ⟨j, rfl⟩ := Nat.exists_eq_add_of_le (Nat.le_of_not_lt hfirst)
      have hlength : (Frame.enter frame.reserved).length = 3 := rfl
      rw [List.getElem?_append_right (by omega), hlength, Nat.add_sub_cancel_left] at hinstr
      by_cases hbody : j < (Listing.instrs body).length
      · rw [List.getElem?_append_left hbody] at hinstr
        exact .inr (.inr ((h.accesses hm (hhead ▸ hat) hinstr).1 a ha))
      · obtain ⟨k, rfl⟩ := Nat.exists_eq_add_of_le (Nat.le_of_not_lt hbody)
        rw [List.getElem?_append_right (by omega), Nat.add_sub_cancel_left] at hinstr
        rw [Listing.instrs, List.length_map, ← hhead] at hat
        match k, hinstr with
        | 0, hinstr =>
          obtain rfl := Option.some_inj.mp hinstr
          cases ha
        | 1, hinstr =>
          obtain rfl := Option.some_inj.mp hinstr
          rw [List.mem_singleton.mp ha]
          exact .inr (.inl (h.rsp_of_leaving hm hat))
  · have hdone := hat.executed
    rw [List.take_length, hexec] at hdone
    obtain rfl := Option.some_inj.mp hdone
    rw [List.mem_singleton.mp ha]
    exact .inl hm'.rsp

end Framed

end X86
