import MiniLang.Runtime.Alignment

/-!
# The bump allocator

`BumpAllocator`: a region handed out from its start, and taken back as a whole. The end of the new
block is a machine word and may wrap around: such a request is refused only when the word lies past
the end of the region. Otherwise the block leaves the region, or, when the aligned pointer itself is
the null pointer, nothing is returned although the allocator has moved.

## The invariant

A client keeps the blocks it has been handed since the last reset. Between two requests the next
pointer lies in the region, and every block that is held lies in the region before it, aligned as
requested and apart from the others. A request keeps this if the arithmetic for it does not wrap
around, and then it is served if the block fits, and refused if it does not.

## The exact condition

`NoWrap` is about one request in the state before it. A run in which every request has it is served
everywhere. In the other direction, the first request without it is answered as no request should
be: with a block that leaves the region, or not at all although the next pointer has moved.
-/

namespace MiniLang.Runtime

structure BumpAllocator where
  start : UInt64
  ptr : UInt64
  endPtr : UInt64
  capacity : UInt64
  allocationCount : UInt64
  bytesAllocated : UInt64
deriving DecidableEq

/-- `NonNull::new` -/
def nonNull (p : UInt64) : Option UInt64 := if p = 0 then none else some p

namespace BumpAllocator

/-- In the region that the system allocator provides at `start`. -/
def new (start capacity : UInt64) : BumpAllocator :=
  ⟨start, start, start + capacity, capacity, 0, 0⟩

def allocAligned (a : BumpAllocator) (size align : UInt64) : Option UInt64 × BumpAllocator :=
  let aligned := alignUp a.ptr align
  let newPtr := aligned + size
  if a.endPtr < newPtr then (none, a)
  else (nonNull aligned, { a with
    ptr := newPtr
    allocationCount := a.allocationCount + 1
    bytesAllocated := a.bytesAllocated + size })

def reset (a : BumpAllocator) : BumpAllocator :=
  { a with ptr := a.start, allocationCount := 0, bytesAllocated := 0 }

/-- Some aligned block of `size` bytes lies between the pointer and the end. -/
def Fits (a : BumpAllocator) (size align : UInt64) : Prop :=
  ∃ p, a.ptr.toNat ≤ p ∧ align.toNat ∣ p ∧ p + size.toNat ≤ a.endPtr.toNat

/-- The end of the block is a machine word, or wraps around to one past the end. -/
def NoWrap (a : BumpAllocator) (size align : UInt64) : Prop :=
  nextMultiple a.ptr.toNat align.toNat + size.toNat < 2 ^ 64 ∨
    a.endPtr.toNat < (nextMultiple a.ptr.toNat align.toNat + size.toNat) % 2 ^ 64

end BumpAllocator

/-! ## Clients -/

inductive BumpRequest
  | alloc (size align : UInt64)
  | reset

/-- The allocator and the blocks handed out since the last reset, with their sizes. -/
structure BumpClient where
  allocator : BumpAllocator
  blocks : List (UInt64 × UInt64)

namespace BumpClient

def handle (s : BumpClient) : BumpRequest → BumpClient
  | .alloc size align =>
    match s.allocator.allocAligned size align with
    | (some p, a) => ⟨a, (p, size) :: s.blocks⟩
    | (none, a) => ⟨a, s.blocks⟩
  | .reset => ⟨s.allocator.reset, []⟩

/-- An aligned block inside the region, apart from the blocks handed out before. -/
structure Placed (s : BumpClient) (p size align : UInt64) : Prop where
  aligned : align.toNat ∣ p.toNat
  start_le : s.allocator.start.toNat ≤ p.toNat
  le_end : p.toNat + size.toNat ≤ s.allocator.endPtr.toNat
  apart : ∀ block ∈ s.blocks, block.1.toNat + block.2.toNat ≤ p.toNat ∨
    p.toNat + size.toNat ≤ block.1.toNat

/-- A block is placed well, and a request that does not fit is refused and changes nothing. -/
structure Served (s : BumpClient) (size align : UInt64) : Prop where
  placed : ∀ p a, s.allocator.allocAligned size align = (some p, a) → s.Placed p size align
  refused : ¬s.allocator.Fits size align →
    s.allocator.allocAligned size align = (none, s.allocator)

/-- `P` holds of every allocation in a sequence of requests. -/
def Everywhere (P : BumpClient → UInt64 → UInt64 → Prop) : BumpClient → List BumpRequest → Prop
  | _, [] => True
  | s, .alloc size align :: requests =>
    P s size align ∧ Everywhere P (s.handle (.alloc size align)) requests
  | s, .reset :: requests => Everywhere P (s.handle .reset) requests

/-! ## The invariant -/

/-- The blocks lie below the pointer. -/
structure Inv (s : BumpClient) : Prop where
  start_pos : 0 < s.allocator.start.toNat
  start_le : s.allocator.start.toNat ≤ s.allocator.ptr.toNat
  le_end : s.allocator.ptr.toNat ≤ s.allocator.endPtr.toNat
  end_eq : s.allocator.endPtr.toNat = s.allocator.start.toNat + s.allocator.capacity.toNat
  below : ∀ block ∈ s.blocks, block.1.toNat + block.2.toNat ≤ s.allocator.ptr.toNat
  count : s.allocator.allocationCount = UInt64.ofNat s.blocks.length
  bytes : s.allocator.start.toNat + (s.blocks.map fun block ↦ block.2.toNat).sum ≤
    s.allocator.ptr.toNat

variable {s : BumpClient} {size align start capacity : UInt64} {k : Nat}

theorem inv_new (hstart : 0 < start.toNat) (hcapacity : start.toNat + capacity.toNat < 2 ^ 64) :
    Inv ⟨.new start capacity, []⟩ := by
  have hend : (start + capacity).toNat = start.toNat + capacity.toNat := by
    rw [UInt64.toNat_add, Nat.mod_eq_of_lt hcapacity]
  refine ⟨hstart, Nat.le_refl _, ?_, hend, nofun, rfl, Nat.le_refl _⟩
  exact hend ▸ Nat.le_add_right ..

theorem Inv.reset (h : s.Inv) : (s.handle .reset).Inv where
  start_pos := h.start_pos
  start_le := Nat.le_refl _
  le_end := h.start_le.trans h.le_end
  end_eq := h.end_eq
  below := nofun
  count := rfl
  bytes := Nat.le_refl _

theorem Inv.fits_iff (halign : 0 < align.toNat) : s.allocator.Fits size align ↔
    nextMultiple s.allocator.ptr.toNat align.toNat + size.toNat ≤ s.allocator.endPtr.toNat := by
  constructor
  · rintro ⟨p, hle, hdvd, hroom⟩
    have hnext := nextMultiple_le halign hle hdvd
    omega
  · intro h
    exact ⟨_, le_nextMultiple halign _, dvd_nextMultiple .., h⟩

/-- What a request does: the aligned pointer and the new one, as words. -/
theorem allocAligned_eq (a : BumpAllocator) (size : UInt64) (halign : align.toNat = 2 ^ k) :
    ∃ aligned newPtr : UInt64,
      aligned.toNat = nextMultiple a.ptr.toNat align.toNat % 2 ^ 64 ∧
      newPtr.toNat = (nextMultiple a.ptr.toNat align.toNat + size.toNat) % 2 ^ 64 ∧
      a.allocAligned size align = if a.endPtr < newPtr then (none, a) else (nonNull aligned, { a with
        ptr := newPtr
        allocationCount := a.allocationCount + 1
        bytesAllocated := a.bytesAllocated + size }) := by
  refine ⟨alignUp a.ptr align, alignUp a.ptr align + size, ?_, ?_, rfl⟩
  · rw [toNat_alignUp halign, halign]
  · rw [UInt64.toNat_add, toNat_alignUp halign, halign, Nat.mod_add_mod]

/-- Without a wrap a request is served at the next multiple if it fits, and refused otherwise. -/
theorem Inv.allocAligned (h : s.Inv) (halign : align.toNat = 2 ^ k)
    (hwrap : s.allocator.NoWrap size align) :
    (∃ p newPtr : UInt64, p.toNat = nextMultiple s.allocator.ptr.toNat align.toNat ∧
      newPtr.toNat = p.toNat + size.toNat ∧ newPtr.toNat ≤ s.allocator.endPtr.toNat ∧
      s.allocator.allocAligned size align = (some p, { s.allocator with
        ptr := newPtr
        allocationCount := s.allocator.allocationCount + 1
        bytesAllocated := s.allocator.bytesAllocated + size })) ∨
    ¬s.allocator.Fits size align ∧
      s.allocator.allocAligned size align = (none, s.allocator) := by
  have hpos : 0 < align.toNat := halign ▸ Nat.two_pow_pos k
  have hnext := le_nextMultiple hpos s.allocator.ptr.toNat
  have hend := s.allocator.endPtr.toNat_lt
  obtain ⟨p, newPtr, hp, hnew, heq⟩ := allocAligned_eq s.allocator size halign
  rw [heq, Inv.fits_iff hpos]
  by_cases hlt : s.allocator.endPtr < newPtr
  · refine .inr ⟨?_, if_pos hlt⟩
    have hlt := UInt64.lt_iff_toNat_lt.mp hlt
    have hmod := Nat.mod_le (nextMultiple s.allocator.ptr.toNat align.toNat + size.toNat) (2 ^ 64)
    omega
  · have hle := mt UInt64.lt_iff_toNat_lt.mpr hlt
    -- the word is not past the end, so that it has not wrapped
    have hsum : nextMultiple s.allocator.ptr.toNat align.toNat + size.toNat < 2 ^ 64 :=
      hwrap.resolve_right fun hn ↦ hle (hnew ▸ hn)
    rw [Nat.mod_eq_of_lt hsum] at hnew
    rw [Nat.mod_eq_of_lt (by omega)] at hp
    refine .inl ⟨p, newPtr, hp, hp ▸ hnew, by omega, ?_⟩
    have hstart := h.start_pos
    have hle' := h.start_le
    have hne : p ≠ 0 := by
      rintro rfl
      have hzero : (0 : UInt64).toNat = 0 := rfl
      omega
    rw [if_neg hlt, nonNull, if_neg hne]

theorem Inv.served (h : s.Inv) (halign : align.toNat = 2 ^ k)
    (hwrap : s.allocator.NoWrap size align) : s.Served size align := by
  have hpos : 0 < align.toNat := halign ▸ Nat.two_pow_pos k
  rcases h.allocAligned halign hwrap with ⟨p, newPtr, hp, hnew, hle, heq⟩ | ⟨hfits, heq⟩
  · have hnext := le_nextMultiple hpos s.allocator.ptr.toNat
    have hstart := h.start_le
    refine ⟨fun q a hq ↦ ?_, fun hfits ↦ ?_⟩
    · cases heq.symm.trans hq
      refine ⟨hp ▸ dvd_nextMultiple .., by omega, by omega, fun block hblock ↦ .inl ?_⟩
      exact (h.below block hblock).trans (hp ▸ hnext)
    · refine absurd ((Inv.fits_iff hpos).mpr ?_) hfits
      omega
  · refine ⟨fun p a hp ↦ ?_, fun _ ↦ heq⟩
    cases heq.symm.trans hp

theorem Inv.alloc (h : s.Inv) (halign : align.toNat = 2 ^ k)
    (hwrap : s.allocator.NoWrap size align) : (s.handle (.alloc size align)).Inv := by
  have hpos : 0 < align.toNat := halign ▸ Nat.two_pow_pos k
  rcases h.allocAligned halign hwrap with ⟨p, newPtr, hp, hnew, hle, heq⟩ | ⟨hfits, heq⟩
  · have hnext := le_nextMultiple hpos s.allocator.ptr.toNat
    have hstart := h.start_le
    have hbytes := h.bytes
    rw [handle, heq]
    refine ⟨h.start_pos, ?_, hle, h.end_eq, ?_, ?_, ?_⟩
    · change s.allocator.start.toNat ≤ newPtr.toNat
      omega
    · intro block hblock
      change _ ≤ newPtr.toNat
      rcases List.mem_cons.mp hblock with rfl | hblock
      · exact hnew.ge
      · have hbelow := h.below block hblock
        omega
    · change s.allocator.allocationCount + 1 = _
      rw [h.count, List.length_cons, UInt64.ofNat_add]
      rfl
    · rw [List.map_cons, List.sum_cons]
      change _ ≤ newPtr.toNat
      dsimp only
      omega
  · rw [handle, heq]
    exact h

/-- A wrapped request moves the allocator although it does not fit. -/
theorem Inv.noWrap (halign : align.toNat = 2 ^ k) (hserved : s.Served size align) :
    s.allocator.NoWrap size align := by
  by_contra hwrap
  obtain ⟨hsum, hmod⟩ := not_or.mp hwrap
  have hpos : 0 < align.toNat := halign ▸ Nat.two_pow_pos k
  have hend := s.allocator.endPtr.toNat_lt
  obtain ⟨p, newPtr, -, hnew, heq⟩ := allocAligned_eq s.allocator size halign
  have hfits : ¬s.allocator.Fits size align := by
    rw [Inv.fits_iff hpos]
    omega
  have hrefused := hserved.refused hfits
  rw [heq, if_neg (fun hlt ↦ hmod (hnew ▸ UInt64.lt_iff_toNat_lt.mp hlt))] at hrefused
  have hcount : s.allocator.allocationCount + 1 = s.allocator.allocationCount :=
    congrArg BumpAllocator.allocationCount (congrArg Prod.snd hrefused)
  grind

/-! ## Runs -/

/-- The alignments of the requests are powers of two. -/
def PowersOfTwo (requests : List BumpRequest) : Prop :=
  ∀ size align, .alloc size align ∈ requests → ∃ k, align.toNat = 2 ^ k

/-- From a state with the invariant, every request is served as it should be exactly when none
wraps around. -/
theorem Inv.everywhere_iff {requests : List BumpRequest} (h : s.Inv)
    (halign : PowersOfTwo requests) :
    Everywhere Served s requests ↔ Everywhere (fun s ↦ s.allocator.NoWrap) s requests := by
  induction requests generalizing s with
  | nil => exact Iff.rfl
  | cons request requests ih =>
    have hrest : PowersOfTwo requests := fun size align hmem ↦
      halign size align (List.mem_cons_of_mem _ hmem)
    cases request with
    | alloc size align =>
      obtain ⟨k, hk⟩ := halign size align List.mem_cons_self
      constructor
      · rintro ⟨hserved, hafter⟩
        have hwrap := Inv.noWrap hk hserved
        exact ⟨hwrap, (ih (h.alloc hk hwrap) hrest).mp hafter⟩
      · rintro ⟨hwrap, hafter⟩
        exact ⟨h.served hk hwrap, (ih (h.alloc hk hwrap) hrest).mpr hafter⟩
    | reset => exact ih h.reset hrest

/-- **Bump allocation stays in its region** exactly as long as no request wraps around. -/
theorem everywhere_served_iff {requests : List BumpRequest} (hstart : 0 < start.toNat)
    (hcapacity : start.toNat + capacity.toNat < 2 ^ 64) (halign : PowersOfTwo requests) :
    Everywhere Served ⟨.new start capacity, []⟩ requests ↔
      Everywhere (fun s ↦ s.allocator.NoWrap) ⟨.new start capacity, []⟩ requests :=
  (inv_new hstart hcapacity).everywhere_iff halign

/-- Requests of every kind: two blocks, a reset, and more than the region has. -/
def sampleRequests : List BumpRequest := [.alloc 100 8, .alloc 7 64, .reset, .alloc 2048 16]

theorem everywhere_served_sample : Everywhere Served ⟨.new 4096 1024, []⟩ sampleRequests := by
  refine (everywhere_served_iff (by decide) (by decide) ?_).mpr ?_
  · intro size align hmem
    simp only [sampleRequests, List.mem_cons, BumpRequest.alloc.injEq, reduceCtorEq,
      List.not_mem_nil, or_false, false_or] at hmem
    rcases hmem with ⟨-, rfl⟩ | ⟨-, rfl⟩ | ⟨-, rfl⟩
    · exact ⟨3, rfl⟩
    · exact ⟨6, rfl⟩
    · exact ⟨4, rfl⟩
  · exact ⟨.inl (by decide +kernel), .inl (by decide +kernel), .inl (by decide +kernel), trivial⟩

/-- A block of all the bytes from the region to the end of the address space is handed out. -/
theorem not_everywhere_served : ¬∀ (start capacity : UInt64) (requests : List BumpRequest),
    0 < start.toNat → start.toNat + capacity.toNat < 2 ^ 64 → PowersOfTwo requests →
      Everywhere Served ⟨.new start capacity, []⟩ requests := by
  intro h
  have hserved := (h 4096 1024 [.alloc (0 - 4096) 8] (by decide) (by decide) ?_).1
  · exact absurd (hserved.placed 4096 _ rfl).le_end (by decide)
  · intro size align hmem
    cases List.mem_singleton.mp hmem
    exact ⟨3, rfl⟩

end BumpClient

end MiniLang.Runtime
