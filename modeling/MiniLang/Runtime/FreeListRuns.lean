import MiniLang.Runtime.FreeListLayout

/-!
# Runs of the free-list allocator

A client asks for blocks, writes to the ones it holds and returns them, in any order. Every state
that it reaches is well formed: the free list and the blocks it holds tile the region.

## The client

Whether a free-list allocator is right cannot be said of the allocator alone, since it trusts the
pointers that it is given back and the memory between its headers. `Step` says what a client may do:
return a pointer that it got and has not returned, and write to the bytes that it asked for. The
pointers it holds are kept with these sizes.

## The invariant

`Client.Inv` adds to the layout that the used cells are the blocks handed out, one cell for each, no
smaller than what was asked for. A client's write falls between two headers and changes no word that
the layout speaks of. What a reader wants to know is `WellFormed`, which has no cells in it: the
free list in the order of its links, and the blocks of the pointers as their headers have them,
together cover the region without a gap or an overlap, and no two free ones touch. Once everything
is returned, there is one free block.
-/

namespace MiniLang.Runtime

open BlockList

open FreeListAllocator

/-- The allocator and the blocks handed out, each with the number of bytes asked for. -/
structure Client where
  allocator : FreeListAllocator
  live : List (Nat × UInt64)

namespace Client

/-- What a client may do. -/
inductive Step (s : Client) : Client → Prop
  | alloc {size : UInt64} {ptr : Nat} {a : FreeListAllocator} (hsize : size.toNat ≤ isizeMax)
      (h : s.allocator.alloc size = some (some ptr, a)) : Step s ⟨a, (ptr, size) :: s.live⟩
  | refuse {size : UInt64} {a : FreeListAllocator} (hsize : size.toNat ≤ isizeMax)
      (h : s.allocator.alloc size = some (none, a)) : Step s ⟨a, s.live⟩
  | free {ptr : Nat} {size : UInt64} {before after : List (Nat × UInt64)} {a : FreeListAllocator}
      (hlive : s.live = before ++ (ptr, size) :: after) (h : s.allocator.free ptr = some a) :
      Step s ⟨a, before ++ after⟩
  | write {ptr : Nat} {size : UInt64} (hlive : (ptr, size) ∈ s.live) (address value : Nat)
      (hlo : ptr ≤ address) (hhi : address < ptr + size.toNat) (haligned : 8 ∣ address) :
      Step s ⟨s.allocator.store address value, s.live⟩

/-- The states reached from a new allocator for `size` bytes at `start`. -/
inductive Reachable (start size : Nat) : Client → Prop
  | new (memory : Nat → Nat) : Reachable start size ⟨.new start size memory, []⟩
  | step {s s' : Client} (h : Reachable start size s) (hstep : s.Step s') : Reachable start size s'

end Client

/-- A region for a block header, where the system allocator puts it. -/
structure Region (start size : Nat) : Prop where
  pos : 0 < start
  aligned : 8 ∣ start
  header_le : headerSize.toNat ≤ size

/-! ## Well-formed states -/

/-- The free list, in the order of its links. -/
structure FreeBlocks (a : FreeListAllocator) (blocks : List Cell) : Prop where
  path : LinkPath a.next 0 a.freeList (blocks.map Cell.addr) 0
  free : ∀ c ∈ blocks, c.free = true
  header : ∀ c ∈ blocks, a.blockSize c.addr = c.size

/-- The block of a pointer, as its header has it. -/
def blockOf (a : FreeListAllocator) (ptr : Nat) : Cell :=
  ⟨ptr - headerSize.toNat, a.blockSize (ptr - headerSize.toNat), true⟩

structure Client.WellFormed (s : Client) (free : List Cell) : Prop where
  listed : FreeBlocks s.allocator free
  /-- Sorted, disjoint and never adjacent. -/
  apart : free.Pairwise fun c d ↦ c.stop < d.addr
  tiles : ∃ cells, Tiles s.allocator.start cells (s.allocator.start + s.allocator.size) ∧
    cells.Perm (free ++ s.live.map fun block ↦ blockOf s.allocator block.1)
  payload : ∀ block ∈ s.live, 8 ∣ block.1 ∧
    headerSize.toNat + block.2.toNat ≤ (blockOf s.allocator block.1).size
  bytes : s.allocator.bytesAllocated = s.allocator.size - (free.map Cell.size).sum
  count : s.allocator.allocationCount = s.live.length

/-! ## The invariant -/

/-- The partner of an element of the list on the left. -/
theorem forall₂_append_cons {α β : Type*} {r : α → β → Prop} {x : α} {xs ys : List α} {zs : List β}
    (h : List.Forall₂ r (xs ++ x :: ys) zs) : ∃ us z vs, zs = us ++ z :: vs ∧
      List.Forall₂ r xs us ∧ r x z ∧ List.Forall₂ r ys vs := by
  induction xs generalizing zs with
  | nil =>
    cases h with
    | cons hx hys => exact ⟨[], _, _, rfl, .nil, hx, hys⟩
  | cons w xs ih =>
    cases h with
    | cons hw hrest =>
      obtain ⟨us, z, vs, rfl, hxs, hx, hys⟩ := ih hrest
      exact ⟨_ :: us, z, vs, rfl, .cons hw hxs, hx, hys⟩

/-- The used cells are the blocks handed out. -/
structure Client.Inv (s : Client) (start size : Nat) (cells : List Cell) : Prop where
  layout : Layout s.allocator cells
  counts : Counts s.allocator cells
  start_eq : s.allocator.start = start
  size_eq : s.allocator.size = size
  held : ∃ used, (cells.filter Cell.used).Perm used ∧
    List.Forall₂ (fun block c ↦ block.1 = c.addr + 16 ∧ block.2.toNat + 16 ≤ c.size) s.live used

variable {start size : Nat} {s s' : Client} {cells : List Cell}

theorem inv_new (h : Region start size) (memory : Nat → Nat) :
    Client.Inv ⟨.new start size memory, []⟩ start size [⟨start, size, false⟩] := by
  have hsize : (FreeListAllocator.new start size memory).blockSize start = size := by
    rw [new, blockSize_setNext (by omega), blockSize_setSize, Function.update_self]
  have hnext : (FreeListAllocator.new start size memory).next start = 0 := by
    rw [new, next_setNext, Function.update_self]
  refine ⟨⟨⟨⟨rfl, rfl⟩, ?_, ?_, ?_⟩, ⟨rfl, h.pos.ne', hnext⟩, List.isChain_singleton _⟩,
    ⟨rfl, rfl⟩, rfl, rfl, [], .nil, .nil⟩
  · intro c hc
    rw [List.mem_singleton.mp hc]
    exact hsize
  · intro c hc
    rw [List.mem_singleton.mp hc]
    exact h.aligned
  · intro c hc
    rw [List.mem_singleton.mp hc]
    exact h.header_le

/-- The cell of a block handed out. -/
theorem Client.Inv.cell_of_live (h : s.Inv start size cells) {block : Nat × UInt64}
    (hlive : block ∈ s.live) :
    ∃ c ∈ cells, c.used = true ∧ block.1 = c.addr + 16 ∧ block.2.toNat + 16 ≤ c.size := by
  obtain ⟨used, hperm, hheld⟩ := h.held
  obtain ⟨before, after, hsplit⟩ := List.append_of_mem hlive
  rw [hsplit] at hheld
  obtain ⟨us, c, vs, rfl, -, ⟨haddr, hroom⟩, -⟩ := forall₂_append_cons hheld
  obtain ⟨hmem, hused⟩ := List.mem_filter.mp
    (hperm.mem_iff.mpr (List.mem_append_right us List.mem_cons_self))
  exact ⟨c, hmem, hused, haddr, hroom⟩

/-- Memory is written between the headers. -/
theorem Client.Inv.write (h : s.Inv start size cells) {block : Nat × UInt64}
    (hlive : block ∈ s.live) {address value : Nat} (hlo : block.1 ≤ address)
    (hhi : address < block.1 + block.2.toNat) :
    Client.Inv ⟨s.allocator.store address value, s.live⟩ start size cells := by
  obtain ⟨c, hc, -, haddr, hroom⟩ := h.cell_of_live hlive
  have haway : ∀ d ∈ cells, address ≠ d.addr ∧ address ≠ d.addr + 8 := by
    intro d hd
    obtain ⟨L, R, rfl⟩ := List.append_of_mem hc
    obtain ⟨hcarvedL, hcarvedR⟩ := h.layout.toCarved.around
    rcases List.mem_append.mp hd with hd | hd
    · have hleft := (hcarvedL.addr_lt hd).2
      omega
    · rcases List.mem_cons.mp hd with rfl | hd
      · omega
      · have hright := (hcarvedR.addr_lt hd).1
        rw [Cell.stop] at hright
        omega
  refine ⟨⟨h.layout.toCarved.congr fun d hd ↦ ?_, h.layout.path.congr fun q hq ↦ ?_,
    h.layout.coalesced⟩, ⟨h.counts.count, h.counts.bytes⟩, h.start_eq, h.size_eq, h.held⟩
  · exact Function.update_of_ne (haway d hd).1.symm ..
  · obtain ⟨d, hd, -, rfl⟩ := mem_freeAddrs hq
    exact Function.update_of_ne (haway d hd).2.symm ..

/-- A request returns, and keeps the invariant. -/
theorem Client.Inv.alloc (h : s.Inv start size cells) {request : UInt64}
    (hsize : request.toNat ≤ isizeMax) :
    s.allocator.alloc request = some (none, s.allocator) ∨ ∃ ptr a cells',
      s.allocator.alloc request = some (some ptr, a) ∧
      Client.Inv ⟨a, (ptr, request) :: s.live⟩ start size cells' := by
  rcases h.layout.alloc h.counts hsize with
    hnone | ⟨c, U, V, a, cells', hused, halloc, hmanages, hused', hroom⟩
  · exact .inl hnone
  · obtain ⟨used, hperm, hheld⟩ := h.held
    refine .inr ⟨_, a, cells', halloc, hmanages.layout, hmanages.counts,
      hmanages.start_eq.trans h.start_eq, hmanages.size_eq.trans h.size_eq, c :: used, ?_,
      .cons ⟨rfl, hroom⟩ hheld⟩
    rw [hused'] 
    rw [hused] at hperm
    exact List.perm_middle.trans (hperm.cons c)

/-- Returning a block returns, and keeps the invariant. -/
theorem Client.Inv.free (h : s.Inv start size cells) (hstart : 0 < start)
    {before after : List (Nat × UInt64)} {block : Nat × UInt64}
    (hlive : s.live = before ++ block :: after) : ∃ a cells',
      s.allocator.free block.1 = some a ∧
      Client.Inv ⟨a, before ++ after⟩ start size cells' := by
  obtain ⟨used, hperm, hheld⟩ := h.held
  rw [hlive] at hheld
  obtain ⟨us, c, vs, rfl, hbefore, ⟨haddr, hroom⟩, hafter⟩ := forall₂_append_cons hheld
  obtain ⟨hmem, hused⟩ := List.mem_filter.mp
    (hperm.mem_iff.mpr (List.mem_append_right us List.mem_cons_self))
  obtain ⟨L, R, rfl⟩ := List.append_of_mem hmem
  rw [← h.start_eq] at hstart
  obtain ⟨a, cells', hfree, hmanages, hused'⟩ := h.layout.free h.counts hstart hused
  rw [← haddr] at hfree
  refine ⟨a, cells', hfree, hmanages.layout, hmanages.counts,
    hmanages.start_eq.trans h.start_eq, hmanages.size_eq.trans h.size_eq, us ++ vs, ?_,
    List.rel_append hbefore hafter⟩
  rw [hused']
  rw [List.filter_append, List.filter_cons_of_pos hused] at hperm
  exact (List.perm_middle.symm.trans (hperm.trans List.perm_middle)).cons_inv

theorem Client.Inv.step (h : s.Inv start size cells) (hstart : 0 < start) (hstep : s.Step s') :
    ∃ cells', s'.Inv start size cells' := by
  cases hstep with
  | alloc hsize halloc =>
    rcases h.alloc hsize with hnone | ⟨ptr, a, cells', halloc', hinv⟩
    · cases halloc.symm.trans hnone
    · cases halloc.symm.trans halloc'
      exact ⟨cells', hinv⟩
  | refuse hsize halloc =>
    rcases h.alloc hsize with hnone | ⟨ptr, a, cells', halloc', hinv⟩
    · cases halloc.symm.trans hnone
      exact ⟨cells, h⟩
    · cases halloc.symm.trans halloc'
  | free hlive hfree =>
    obtain ⟨a, cells', hfree', hinv⟩ := h.free hstart hlive
    cases hfree.symm.trans hfree'
    exact ⟨cells', hinv⟩
  | write hlive address value hlo hhi _ => exact ⟨cells, h.write hlive hlo hhi⟩

theorem Client.Reachable.inv (h : Reachable start size s) (hregion : Region start size) :
    ∃ cells, s.Inv start size cells := by
  induction h with
  | new memory => exact ⟨_, inv_new hregion memory⟩
  | step _ hstep ih =>
    obtain ⟨cells, hinv⟩ := ih
    exact hinv.step hregion.pos hstep

/-! ## What the invariant says -/

theorem filter_free_append_used (cells : List Cell) :
    cells.Perm (cells.filter Cell.free ++ cells.filter Cell.used) := by
  refine (List.filter_append_perm Cell.used cells).symm.trans ?_
  exact List.perm_append_comm

theorem map_blockOf {a : FreeListAllocator} (h : Layout a cells) {live : List (Nat × UInt64)}
    {used : List Cell} (hheld : List.Forall₂ (fun block c ↦ block.1 = c.addr + 16 ∧
      block.2.toNat + 16 ≤ c.size) live used) (hused : ∀ c ∈ used, c ∈ cells ∧ c.used = true) :
    live.map (fun block ↦ blockOf a block.1) = used := by
  induction hheld with
  | nil => rfl
  | cons hblock _ ih =>
    obtain ⟨hc, hrest⟩ := List.forall_mem_cons.mp hused
    rw [List.map_cons, ih hrest, blockOf, hblock.1, headerSize_toNat, Nat.add_sub_cancel,
      h.header _ hc.1, ← hc.2]

theorem Client.Inv.wellFormed (h : s.Inv start size cells) :
    s.WellFormed (cells.filter Cell.free) := by
  obtain ⟨used, hperm, hheld⟩ := h.held
  have hblocks : s.live.map (fun block ↦ blockOf s.allocator block.1) = used :=
    map_blockOf h.layout hheld fun c hc ↦ List.mem_filter.mp (hperm.mem_iff.mpr hc)
  have hsum := h.layout.tiles.sum_size
  have hsplit := ((filter_free_append_used cells).map Cell.size).sum_nat
  rw [List.map_append, List.sum_append] at hsplit
  refine ⟨⟨h.layout.path, fun c hc ↦ (List.mem_filter.mp hc).2,
    fun c hc ↦ h.layout.header c (List.mem_filter.mp hc).1⟩, ?_, ?_, ?_, ?_, ?_⟩
  · exact h.layout.tiles.free_apart (fun c hc ↦ by have := h.layout.room c hc; omega)
      h.layout.coalesced
  · refine ⟨cells, h.layout.tiles, ?_⟩
    rw [hblocks]
    exact (filter_free_append_used cells).trans (hperm.append_left _)
  · intro block hblock
    obtain ⟨c, hc, -, haddr, hroom⟩ := h.cell_of_live hblock
    have halign := h.layout.aligned c hc
    rw [blockOf, haddr, headerSize_toNat, Nat.add_sub_cancel, h.layout.header c hc, Nat.add_comm 16]
    exact ⟨by omega, hroom⟩
  · rw [h.counts.bytes]
    omega
  · rw [h.counts.count, hperm.length_eq, hheld.length_eq]

/-- With nothing handed out the region is one free block. -/
theorem Client.Inv.free_all (h : s.Inv start size cells) (hsize : 0 < size) (hlive : s.live = []) :
    cells = [⟨start, size, false⟩] := by
  obtain ⟨used, hperm, hheld⟩ := h.held
  rw [hlive] at hheld
  cases hheld
  have hfree : ∀ c ∈ cells, c.free = true := by
    intro c hc
    by_contra hused
    have hmem : c ∈ cells.filter Cell.used := List.mem_filter.mpr ⟨hc, by
      rw [Cell.free, Bool.not_eq_true', Bool.not_eq_false] at hused
      exact hused⟩
    rw [hperm.eq_nil] at hmem
    cases hmem
  have htiles := h.layout.tiles
  rw [h.start_eq, h.size_eq] at htiles
  have hlength := h.layout.coalesced.length_le_one hfree
  rcases Nat.le_one_iff_eq_zero_or_eq_one.mp hlength with hzero | hone
  · rw [List.eq_nil_of_length_eq_zero hzero] at htiles
    have hempty : start = start + size := htiles
    omega
  · obtain ⟨⟨addr, cellSize, used⟩, rfl⟩ := List.length_eq_one_iff.mp hone
    obtain ⟨rfl, hstop⟩ := htiles
    have hstop : addr + cellSize = addr + size := hstop
    have hused : used = false := (Bool.not_eq_true' _).mp (hfree _ List.mem_cons_self)
    rw [hused, Nat.add_left_cancel hstop]

/-- The blocks are returned one after another. -/
def freeAll (a : FreeListAllocator) : List Nat → Option FreeListAllocator
  | [] => some a
  | ptr :: ptrs => (a.free ptr).bind fun a ↦ freeAll a ptrs

theorem Client.Inv.freeAll (h : s.Inv start size cells) (hregion : Region start size)
    {order : List Nat} (horder : order.Perm (s.live.map Prod.fst)) :
    ∃ a, freeAll s.allocator order = some a ∧ FreeBlocks a [⟨start, size, false⟩] := by
  induction order generalizing s cells with
  | nil =>
    have hlive : s.live = [] := List.map_eq_nil_iff.mp horder.nil_eq.symm
    have hpos : 0 < size := (show 0 < headerSize.toNat by decide).trans_le hregion.header_le
    have hlisted := h.wellFormed.listed
    rw [h.free_all hpos hlive] at hlisted
    exact ⟨s.allocator, rfl, hlisted⟩
  | cons ptr order ih =>
    obtain ⟨block, hblock, hptr⟩ := List.mem_map.mp (horder.mem_iff.mp List.mem_cons_self)
    obtain ⟨before, after, hlive⟩ := List.append_of_mem hblock
    obtain ⟨a, cells', hfree, hinv⟩ := h.free hregion.pos hlive
    rw [hlive, List.map_append, List.map_cons, hptr] at horder
    have hrest : order.Perm ((before ++ after).map Prod.fst) := by
      rw [List.map_append]
      exact (horder.trans List.perm_middle).cons_inv
    obtain ⟨a', hall, hblocks⟩ := ih hinv hrest
    rw [hptr] at hfree
    refine ⟨a', ?_, hblocks⟩
    rw [MiniLang.Runtime.freeAll, hfree]
    exact hall

/-- **The representation invariant of the free-list allocator.** Every state that a client reaches
is well formed, every request and every return of a block ends, and after the return of all blocks,
in any order, the region is one free block. -/
theorem freeList_wellFormed (hregion : Region start size) (h : Client.Reachable start size s) :
    s.allocator.start = start ∧ s.allocator.size = size ∧ (∃ free, s.WellFormed free) ∧
      (∀ request : UInt64, request.toNat ≤ isizeMax → (s.allocator.alloc request).isSome) ∧
      (∀ block ∈ s.live, (s.allocator.free block.1).isSome) ∧
      ∀ order : List Nat, order.Perm (s.live.map Prod.fst) →
        ∃ a, freeAll s.allocator order = some a ∧ FreeBlocks a [⟨start, size, false⟩] := by
  obtain ⟨cells, hinv⟩ := h.inv hregion
  refine ⟨hinv.start_eq, hinv.size_eq, ⟨_, hinv.wellFormed⟩, fun request hrequest ↦ ?_,
    fun block hblock ↦ ?_, fun order horder ↦ hinv.freeAll hregion horder⟩
  · rcases hinv.alloc hrequest with hnone | ⟨ptr, a, cells', halloc, -⟩
    · rw [hnone]
      rfl
    · rw [halloc]
      rfl
  · obtain ⟨before, after, hlive⟩ := List.append_of_mem hblock
    obtain ⟨a, -, hfree, -⟩ := hinv.free hregion.pos hlive
    rw [hfree]
    rfl

/-! ## A client -/

namespace Client

/-- A request for `request` bytes, granted or refused. -/
def request (s : Client) (request : UInt64) : Option Client :=
  (s.allocator.alloc request).map fun
    | (some ptr, a) => ⟨a, (ptr, request) :: s.live⟩
    | (none, a) => ⟨a, s.live⟩

/-- The return of the block at `i` among those held. -/
def giveBack (s : Client) (i : Nat) : Option Client :=
  s.live[i]?.bind fun block ↦ (s.allocator.free block.1).map fun a ↦ ⟨a, s.live.eraseIdx i⟩

theorem Reachable.request {n : UInt64} (h : Reachable start size s) (hsize : n.toNat ≤ isizeMax)
    (hrequest : s.request n = some s') : Reachable start size s' := by
  obtain ⟨⟨result, a⟩, halloc, rfl⟩ := Option.map_eq_some_iff.mp hrequest
  cases result with
  | none => exact h.step (.refuse hsize halloc)
  | some ptr => exact h.step (.alloc hsize halloc)

theorem Reachable.giveBack {i : Nat} (h : Reachable start size s)
    (hback : s.giveBack i = some s') : Reachable start size s' := by
  obtain ⟨block, hblock, hfree⟩ := Option.bind_eq_some_iff.mp hback
  obtain ⟨a, ha, rfl⟩ := Option.map_eq_some_iff.mp hfree
  obtain ⟨hi, rfl⟩ := List.getElem?_eq_some_iff.mp hblock
  have hlive : s.live = s.live.take i ++ s.live[i] :: s.live.drop (i + 1) := by
    rw [List.getElem_cons_drop, List.take_append_drop]
  rw [List.eraseIdx_eq_take_drop_succ]
  exact h.step (.free hlive ha)

end Client

/-- In a region of 1000 bytes, three blocks are handed out, the one in the middle is returned, and
the next request splits it. -/
def sampleClient : Option Client :=
  (Client.request ⟨.new 4096 1000 fun _ ↦ 0, []⟩ 100).bind fun s ↦ (s.request 200).bind fun s ↦
    (s.request 300).bind fun s ↦ (s.giveBack 1).bind fun s ↦ s.request 50

theorem sample_region : Region 4096 1000 := ⟨by decide, by decide, by decide⟩

theorem sample_reachable {s : Client} (h : sampleClient = some s) :
    Client.Reachable 4096 1000 s := by
  rw [sampleClient] at h
  obtain ⟨s₁, h₁, h⟩ := Option.bind_eq_some_iff.mp h
  obtain ⟨s₂, h₂, h⟩ := Option.bind_eq_some_iff.mp h
  obtain ⟨s₃, h₃, h⟩ := Option.bind_eq_some_iff.mp h
  obtain ⟨s₄, h₄, h⟩ := Option.bind_eq_some_iff.mp h
  have hnew := (@Client.Reachable.new 4096 1000 fun _ ↦ 0).request (by decide) h₁
  exact (((hnew.request (by decide) h₂).request (by decide) h₃).giveBack h₄).request (by decide) h

/-- The blocks are returned in another order than they were handed out. -/
theorem freeList_wellFormed_sample : ∃ s free a, sampleClient = some s ∧
    s.live = [(4232, 50), (4448, 300), (4112, 100)] ∧ s.WellFormed free ∧
      freeAll s.allocator [4448, 4112, 4232] = some a ∧ FreeBlocks a [⟨4096, 1000, false⟩] := by
  have hlive : sampleClient.map Client.live = some [(4232, 50), (4448, 300), (4112, 100)] := by
    decide +kernel
  obtain ⟨s, hs, hlive⟩ := Option.map_eq_some_iff.mp hlive
  obtain ⟨-, -, ⟨free, hfree⟩, -, -, hall⟩ :=
    freeList_wellFormed sample_region (sample_reachable hs)
  obtain ⟨a, ha, hblocks⟩ := hall [4448, 4112, 4232] (by rw [hlive]; decide)
  exact ⟨s, free, a, hs, hlive, hfree, ha, hblocks⟩

end MiniLang.Runtime
