import MiniLang.Lib.BlockList
import MiniLang.Runtime.Alignment

/-!
# The layout of the free-list allocator's region

`Layout a cells` says that the region of `a` is tiled by `cells`, that each cell has its size in its
header, that the free ones are linked in address order, and that no two neighbours are free. Each
operation is described by what it does to the cells.

## Memory and cells

The allocator has nothing but words in memory: a size and a link at the start of each block. The
cells are an account of the region that it does not keep. An operation reads and writes a few
headers, and the work is to show that headers do not overlap, so that a write to one leaves the
sizes and the links of all others; `Carved.separate` is the fact behind each of these frame lemmas.

## The operations

A request searches the list for the first free cell that is large enough, and then takes it whole or
its first bytes (`Layout.take`), with a new free cell behind them. A block that is returned goes
between two free cells in the order of addresses, and is joined with the one after it if they touch
(`joinNext`), and then with the one before (`joinPrev`). Both are stated for a list of cells cut
open at the cell in question, `L ++ c :: R`, so that the free cell before it is the last one in `L`
and the one after it the first in `R`. `Counts` keeps the two counters beside the cells.
-/

namespace MiniLang.Runtime

open BlockList

variable {a : FreeListAllocator} {p q prev current target mid n : Nat} {L R cells : List Cell}
  {c u : Cell}

def freeAddrs (cells : List Cell) : List Nat := (cells.filter Cell.free).map Cell.addr

theorem freeAddrs_nil : freeAddrs [] = [] := rfl

theorem freeAddrs_append (L R : List Cell) : freeAddrs (L ++ R) = freeAddrs L ++ freeAddrs R := by
  rw [freeAddrs, List.filter_append, List.map_append]
  rfl

theorem freeAddrs_cons_free (hc : c.free = true) (R : List Cell) :
    freeAddrs (c :: R) = c.addr :: freeAddrs R := by
  rw [freeAddrs, List.filter_cons_of_pos hc]
  rfl

theorem freeAddrs_cons_used (hc : c.free = false) (R : List Cell) :
    freeAddrs (c :: R) = freeAddrs R := by
  rw [freeAddrs, List.filter_cons_of_neg (by rw [hc]; exact Bool.false_ne_true)]
  rfl

theorem mem_freeAddrs (h : p ∈ freeAddrs cells) : ∃ c ∈ cells, c.free = true ∧ c.addr = p := by
  obtain ⟨c, hc, rfl⟩ := List.mem_map.mp h
  obtain ⟨hmem, hfree⟩ := List.mem_filter.mp hc
  exact ⟨c, hmem, hfree, rfl⟩

namespace FreeListAllocator

/-! ## Words -/

theorem next_setNext (a : FreeListAllocator) (p target : Nat) :
    (a.setNext p target).next = Function.update a.next p target := by
  funext q
  by_cases hq : q = p
  · rw [hq, Function.update_self]
    exact Function.update_self ..
  · rw [Function.update_of_ne hq]
    exact Function.update_of_ne (by omega) ..

theorem blockSize_setSize (a : FreeListAllocator) (p n : Nat) :
    (a.setSize p n).blockSize = Function.update a.blockSize p n := rfl

theorem next_setSize (hq : q + 8 ≠ p) : (a.setSize p n).next q = a.next q :=
  Function.update_of_ne hq ..

theorem blockSize_setNext (hq : q ≠ p + 8) : (a.setNext p target).blockSize q = a.blockSize q :=
  Function.update_of_ne hq ..

@[simp] theorem start_setNext : (a.setNext p target).start = a.start := rfl

@[simp] theorem size_setNext : (a.setNext p target).size = a.size := rfl

@[simp] theorem freeList_setNext : (a.setNext p target).freeList = a.freeList := rfl

@[simp] theorem start_setSize : (a.setSize p n).start = a.start := rfl

@[simp] theorem size_setSize : (a.setSize p n).size = a.size := rfl

@[simp] theorem freeList_setSize : (a.setSize p n).freeList = a.freeList := rfl

@[simp] theorem start_link : (a.link prev target).start = a.start := by
  rw [link]
  split <;> rfl

@[simp] theorem size_link : (a.link prev target).size = a.size := by
  rw [link]
  split <;> rfl

/-- Only the link of `prev` changes. -/
theorem next_link (hq : q ≠ prev) : (a.link prev target).next q = a.next q := by
  rw [link]
  split
  · rfl
  · rw [next_setNext, Function.update_of_ne hq]

theorem blockSize_link (hq : prev ≠ 0 → q ≠ prev + 8) :
    (a.link prev target).blockSize q = a.blockSize q := by
  rw [link]
  split
  case isTrue => rfl
  case isFalse hprev => exact blockSize_setNext (hq hprev)

theorem path_link {ps : List Nat} (h : LinkPath a.next 0 a.freeList ps mid) (hps : ps.Nodup) :
    LinkPath (a.link (ps.getLastD 0) target).next 0 (a.link (ps.getLastD 0) target).freeList ps
      target := by
  rcases List.eq_nil_or_concat ps with rfl | ⟨qs, p, rfl⟩
  · rfl
  · rw [List.concat_eq_append] at h hps ⊢
    have hp : p ≠ 0 := h.ne_null (List.mem_append_right qs List.mem_cons_self)
    have hnot : p ∉ qs := fun hmem ↦
      (List.nodup_append.mp hps).2.2 p hmem p List.mem_cons_self rfl
    rw [List.getLastD_concat, link, if_neg hp, next_setNext]
    exact h.redirect hnot

/-! ## Layouts -/

theorem headerSize_toNat : headerSize.toNat = 16 := rfl

theorem minBlockSize_toNat : minBlockSize.toNat = 24 := rfl

/-- The cells tile the bytes from `lo` to `hi`, and each has a header. -/
structure Carved (a : FreeListAllocator) (lo : Nat) (cells : List Cell) (hi : Nat) : Prop where
  tiles : Tiles lo cells hi
  header : ∀ c ∈ cells, a.blockSize c.addr = c.size
  aligned : ∀ c ∈ cells, 8 ∣ c.addr
  room : ∀ c ∈ cells, 16 ≤ c.size

/-- The region of `a` is carved into `cells`, and the free ones are linked. -/
structure Layout (a : FreeListAllocator) (cells : List Cell) : Prop extends
    Carved a a.start cells (a.start + a.size) where
  path : LinkPath a.next 0 a.freeList (freeAddrs cells) 0
  coalesced : Coalesced cells

variable {b : FreeListAllocator} {lo hi : Nat}

namespace Carved

theorem append (hL : Carved a lo L mid) (hR : Carved a mid R hi) : Carved a lo (L ++ R) hi :=
  ⟨hL.tiles.append hR.tiles, List.forall_mem_append.mpr ⟨hL.header, hR.header⟩,
    List.forall_mem_append.mpr ⟨hL.aligned, hR.aligned⟩,
    List.forall_mem_append.mpr ⟨hL.room, hR.room⟩⟩

theorem split (h : Carved a lo (L ++ R) hi) : ∃ mid, Carved a lo L mid ∧ Carved a mid R hi := by
  obtain ⟨mid, hL, hR⟩ := h.tiles.split
  obtain ⟨hheaderL, hheaderR⟩ := List.forall_mem_append.mp h.header
  obtain ⟨halignedL, halignedR⟩ := List.forall_mem_append.mp h.aligned
  obtain ⟨hroomL, hroomR⟩ := List.forall_mem_append.mp h.room
  exact ⟨mid, ⟨hL, hheaderL, halignedL, hroomL⟩, ⟨hR, hheaderR, halignedR, hroomR⟩⟩

theorem cons (c : Cell) (hheader : a.blockSize c.addr = c.size) (haligned : 8 ∣ c.addr) (hroom : 16 ≤ c.size)
    (hR : Carved a c.stop R hi) : Carved a c.addr (c :: R) hi :=
  ⟨⟨rfl, hR.tiles⟩, List.forall_mem_cons.mpr ⟨hheader, hR.header⟩,
    List.forall_mem_cons.mpr ⟨haligned, hR.aligned⟩, List.forall_mem_cons.mpr ⟨hroom, hR.room⟩⟩

theorem around (h : Carved a lo (L ++ c :: R) hi) : Carved a lo L c.addr ∧ Carved a c.stop R hi := by
  obtain ⟨mid, hL, hR⟩ := h.split
  obtain ⟨rfl, htiles⟩ := hR.tiles
  exact ⟨hL, htiles, (List.forall_mem_cons.mp hR.header).2, (List.forall_mem_cons.mp hR.aligned).2,
    (List.forall_mem_cons.mp hR.room).2⟩

theorem congr (h : Carved a lo cells hi)
    (hsize : ∀ c ∈ cells, b.blockSize c.addr = a.blockSize c.addr) : Carved b lo cells hi :=
  ⟨h.tiles, fun c hc ↦ (hsize c hc).trans (h.header c hc), h.aligned, h.room⟩

/-- Before the end of the region there is room for a header. -/
theorem addr_lt (h : Carved a lo cells hi) (hc : c ∈ cells) : lo ≤ c.addr ∧ c.addr + 16 ≤ hi := by
  obtain ⟨hlo, hhi⟩ := h.tiles.bounds hc
  have hroom := h.room c hc
  rw [Cell.stop] at hhi
  exact ⟨hlo, by omega⟩

/-- Headers do not overlap. -/
theorem separate (h : Carved a lo cells hi) {d : Cell} (hc : c ∈ cells) (hd : d ∈ cells) :
    c.addr = d.addr ∨ c.addr + 16 ≤ d.addr ∨ d.addr + 16 ≤ c.addr := by
  obtain ⟨L, R, rfl⟩ := List.append_of_mem hc
  rcases List.mem_append.mp hd with hd | hd
  · exact .inr (.inr (h.around.1.addr_lt hd).2)
  · rcases List.mem_cons.mp hd with rfl | hd
    · exact .inl rfl
    · have hroom := h.room c hc
      have hright := (h.around.2.addr_lt hd).1
      rw [Cell.stop] at hright
      exact .inr (.inl (by omega))

theorem nodup_freeAddrs (h : Carved a lo cells hi) : (freeAddrs cells).Nodup := by
  have hlt : cells.Pairwise fun c d ↦ c.addr < d.addr := by
    refine h.tiles.pairwise.imp_of_mem fun {c d} hc _ hcd ↦ ?_
    have hroom := h.room c hc
    rw [Cell.stop] at hcd
    omega
  exact (hlt.filter Cell.free).map _ fun c d hcd ↦ Nat.ne_of_lt hcd

/-- Links do not touch the sizes. -/
theorem setNext (h : Carved a lo cells hi) (hc : c ∈ cells) :
    Carved (a.setNext c.addr target) lo cells hi :=
  h.congr fun d hd ↦ blockSize_setNext (by have := h.separate hc hd; omega)

theorem link (h : Carved a lo cells hi) (hprev : prev = 0 ∨ ∃ c ∈ cells, prev = c.addr) :
    Carved (a.link prev target) lo cells hi := by
  refine h.congr fun d hd ↦ blockSize_link fun hnull ↦ ?_
  rcases hprev with rfl | ⟨c, hc, rfl⟩
  · exact absurd rfl hnull
  · have := h.separate hc hd
    omega

end Carved

/-- The last free cell, if any. -/
theorem last_freeAddrs (L : List Cell) :
    (freeAddrs L).getLastD 0 = 0 ∨ ∃ d ∈ L, (freeAddrs L).getLastD 0 = d.addr := by
  rcases List.eq_nil_or_concat (freeAddrs L) with hnil | ⟨qs, p, hconcat⟩
  · rw [hnil]
    exact .inl rfl
  · obtain ⟨d, hd, -, rfl⟩ : ∃ d ∈ L, d.free = true ∧ d.addr = p :=
      mem_freeAddrs (by rw [hconcat, List.concat_eq_append]; exact List.mem_concat_self)
    rw [hconcat, List.concat_eq_append, List.getLastD_concat]
    exact .inr ⟨d, hd, rfl⟩

/-! ## Searching -/

/-- The search ends, without a block or at the first one that is large enough. -/
theorem firstFit_spec {cells : List Cell} {fuel : Nat}
    (hpath : LinkPath a.next 0 current (freeAddrs cells) 0)
    (hheader : ∀ c ∈ cells, a.blockSize c.addr = c.size) (hfuel : cells.length < fuel) :
    (a.firstFit n fuel prev current = some none ∧ ∀ c ∈ cells, c.free = true → c.size < n) ∨
      ∃ L c R, cells = L ++ c :: R ∧ c.free = true ∧ n ≤ c.size ∧
        (∀ d ∈ L, d.free = true → d.size < n) ∧
        a.firstFit n fuel prev current = some (some ((freeAddrs L).getLastD prev, c.addr)) := by
  induction cells generalizing prev current fuel with
  | nil =>
    obtain ⟨fuel, rfl⟩ : ∃ k, fuel = k + 1 := ⟨fuel - 1, by omega⟩
    refine .inl ⟨?_, fun c hc ↦ absurd hc List.not_mem_nil⟩
    have hnull : current = 0 := hpath
    rw [firstFit, if_pos hnull]
  | cons c cells ih =>
    obtain ⟨hc, hcells⟩ := List.forall_mem_cons.mp hheader
    rw [List.length_cons] at hfuel
    cases hfree : c.free with
    | false =>
      -- a used cell is not on the list
      rw [freeAddrs_cons_used hfree] at hpath
      rcases ih hpath hcells (show cells.length < fuel by omega) with ⟨hnone, hsmall⟩ | ⟨L, d, R, rfl, hd, hn, hL, hfind⟩
      · refine .inl ⟨hnone, List.forall_mem_cons.mpr ⟨fun h ↦ ?_, hsmall⟩⟩
        rw [hfree] at h
        cases h
      · refine .inr ⟨c :: L, d, R, rfl, hd, hn, List.forall_mem_cons.mpr ⟨fun h ↦ ?_, hL⟩, ?_⟩
        · rw [hfree] at h
          cases h
        · rw [freeAddrs_cons_used hfree]
          exact hfind
    | true =>
      obtain ⟨fuel, rfl⟩ : ∃ k, fuel = k + 1 := ⟨fuel - 1, by omega⟩
      rw [freeAddrs_cons_free hfree] at hpath
      obtain ⟨rfl, hnull, hrest⟩ := hpath
      rw [firstFit, if_neg hnull, hc]
      by_cases hn : n ≤ c.size
      · rw [if_pos hn]
        exact .inr ⟨[], c, cells, rfl, hfree, hn, fun d hd ↦ absurd hd List.not_mem_nil, rfl⟩
      · rw [if_neg hn]
        rcases ih hrest hcells (show cells.length < fuel by omega) with ⟨hnone, hsmall⟩ | ⟨L, d, R, rfl, hd, hnd, hL, hfind⟩
        · exact .inl ⟨hnone, List.forall_mem_cons.mpr ⟨fun _ ↦ Nat.not_le.mp hn, hsmall⟩⟩
        · refine .inr ⟨c :: L, d, R, rfl, hd, hnd,
            List.forall_mem_cons.mpr ⟨fun _ ↦ Nat.not_le.mp hn, hL⟩, ?_⟩
          rw [hfind, freeAddrs_cons_free hfree, List.getLastD_cons]

/-- The search for the place of `c` ends around it. -/
theorem locate_spec {fuel : Nat} (hpath : LinkPath a.next 0 current (freeAddrs L ++ freeAddrs R) 0)
    (hL : ∀ d ∈ L, d.addr < p) (hR : ∀ d ∈ R, p ≤ d.addr) (hfuel : L.length < fuel) :
    ∃ mid, a.locate p fuel prev current = some ((freeAddrs L).getLastD prev, mid) ∧
      LinkPath a.next 0 current (freeAddrs L) mid ∧ LinkPath a.next 0 mid (freeAddrs R) 0 := by
  induction L generalizing prev current fuel with
  | nil =>
    obtain ⟨fuel, rfl⟩ : ∃ k, fuel = k + 1 := ⟨fuel - 1, by omega⟩
    refine ⟨current, ?_, rfl, hpath⟩
    have hstop : ¬(current ≠ 0 ∧ current < p) := by
      rintro ⟨hnull, hlt⟩
      cases hfirst : freeAddrs R with
      | nil =>
        rw [hfirst] at hpath
        exact hnull hpath
      | cons q qs =>
        obtain ⟨d, hd, -, rfl⟩ : ∃ d ∈ R, d.free = true ∧ d.addr = q :=
          mem_freeAddrs (by rw [hfirst]; exact List.mem_cons_self)
        rw [hfirst] at hpath
        obtain ⟨rfl, -⟩ := hpath
        exact absurd hlt (Nat.not_lt.mpr (hR d hd))
    rw [locate, if_neg hstop]
    rfl
  | cons c L ih =>
    obtain ⟨hc, hL⟩ := List.forall_mem_cons.mp hL
    rw [List.length_cons] at hfuel
    cases hfree : c.free with
    | false =>
      rw [freeAddrs_cons_used hfree] at hpath ⊢
      exact ih hpath hL (by omega)
    | true =>
      obtain ⟨fuel, rfl⟩ : ∃ k, fuel = k + 1 := ⟨fuel - 1, by omega⟩
      rw [freeAddrs_cons_free hfree, List.cons_append] at hpath
      obtain ⟨rfl, hnull, hrest⟩ := hpath
      obtain ⟨mid, hfind, hleft, hright⟩ := ih hrest hL (show L.length < fuel by omega)
      rw [locate, if_pos ⟨hnull, hc⟩, freeAddrs_cons_free hfree, List.getLastD_cons]
      exact ⟨mid, hfind, ⟨rfl, hnull, hleft⟩, hright⟩

/-! ## Taking a block -/

/-- The links when the last free cell of `L` is linked to the first one of `R`. -/
theorem Carved.path_link (h : Carved a lo (L ++ R) hi)
    (hL : LinkPath a.next 0 a.freeList (freeAddrs L) mid) (hR : LinkPath a.next 0 target (freeAddrs R) 0) :
    LinkPath (a.link ((freeAddrs L).getLastD 0) target).next 0
      (a.link ((freeAddrs L).getLastD 0) target).freeList (freeAddrs (L ++ R)) 0 := by
  obtain ⟨middle, hcarvedL, hcarvedR⟩ := h.split
  rw [freeAddrs_append]
  refine (FreeListAllocator.path_link hL hcarvedL.nodup_freeAddrs).append (hR.congr fun q hq ↦ ?_)
  refine next_link fun heq ↦ ?_
  obtain ⟨d, hd, -, rfl⟩ := mem_freeAddrs hq
  have hright := hcarvedR.addr_lt hd
  rcases last_freeAddrs L with hlast | ⟨e, he, hlast⟩
  · exact hR.ne_null hq (heq.trans hlast)
  · have hleft := hcarvedL.addr_lt he
    omega

/-- The last free cell of `L` is a cell. -/
theorem Carved.link_last (h : Carved a lo (L ++ R) hi) :
    Carved (a.link ((freeAddrs L).getLastD 0) target) lo (L ++ R) hi := by
  refine h.link ?_
  rcases last_freeAddrs L with hlast | ⟨d, hd, hlast⟩
  · exact .inl hlast
  · exact .inr ⟨d, List.mem_append_left _ hd, hlast⟩

/-- A used cell `c` between linked cells. -/
theorem Carved.layout_link (h : Carved a a.start (L ++ c :: R) (a.start + a.size))
    (hused : c.free = false) (hL : LinkPath a.next 0 a.freeList (freeAddrs L) mid)
    (hR : LinkPath a.next 0 target (freeAddrs R) 0)
    (hcoalesced : Coalesced (L ++ c :: R)) :
    Layout ((a.link ((freeAddrs L).getLastD 0) target).setNext c.addr 0) (L ++ c :: R) := by
  have hmem : c ∈ L ++ c :: R := List.mem_append_right _ List.mem_cons_self
  have hpath := h.path_link hL (R := c :: R) (by rwa [freeAddrs_cons_used hused])
  have hcarved : Carved ((a.link ((freeAddrs L).getLastD 0) target).setNext c.addr 0) a.start
      (L ++ c :: R) (a.start + a.size) := h.link_last.setNext hmem
  rw [← @start_link a ((freeAddrs L).getLastD 0) target,
    ← @size_link a ((freeAddrs L).getLastD 0) target] at hcarved
  refine ⟨hcarved, ?_, hcoalesced⟩
  rw [next_setNext, freeList_setNext]
  refine hpath.congr fun q hq ↦ Function.update_of_ne ?_ ..
  rintro rfl
  rw [freeAddrs_append, freeAddrs_cons_used hused] at hq
  rcases List.mem_append.mp hq with hq | hq
  · obtain ⟨d, hd, -, heq⟩ := mem_freeAddrs hq
    have := h.around.1.addr_lt hd
    omega
  · obtain ⟨d, hd, -, heq⟩ := mem_freeAddrs hq
    have hright := h.around.2.addr_lt hd
    have hroom := h.room c hmem
    rw [Cell.stop] at hright
    omega

/-- The bytes and the number of the used cells. -/
structure Counts (a : FreeListAllocator) (cells : List Cell) : Prop where
  count : a.allocationCount = (cells.filter Cell.used).length
  bytes : a.bytesAllocated = ((cells.filter Cell.used).map Cell.size).sum

/-- What splitting the block at `p` writes: its own header and a new one. -/
theorem split_words {s : Nat} (hmin : 24 ≤ n) (hn : n ≤ s) :
    (a.split n p).blockSize p = n ∧ (a.split n p).blockSize (p + n) = a.blockSize p - n ∧
      (a.split n p).next (p + n) = a.next p ∧
      ∀ q, q + 16 ≤ p ∨ p + s ≤ q ∧ n + 24 ≤ s →
        (a.split n p).blockSize q = a.blockSize q ∧ (a.split n p).next q = a.next q := by
  have hsizes (q : Nat) (hq : q ≠ p) (hlink : q ≠ p + n + 8) : (a.split n p).blockSize q =
      Function.update a.blockSize (p + n) (a.blockSize p - n) q := by
    rw [split, blockSize_setSize, Function.update_of_ne hq, blockSize_setNext hlink,
      blockSize_setSize]
  have hlinks (q : Nat) (hq : q + 8 ≠ p) (hnew : q + 8 ≠ p + n) : (a.split n p).next q =
      Function.update a.next (p + n) (a.next p) q := by
    rw [split, next_setSize hq, next_setNext, next_setSize (by omega)]
    by_cases hself : q = p + n
    · rw [hself, Function.update_self, Function.update_self]
    · rw [Function.update_of_ne hself, Function.update_of_ne hself, next_setSize hnew]
  refine ⟨?_, ?_, ?_, fun q hq ↦ ⟨?_, ?_⟩⟩
  · rw [split, blockSize_setSize, Function.update_self]
  · rw [hsizes _ (by omega) (by omega), Function.update_self]
  · rw [hlinks _ (by omega) (by omega), Function.update_self]
  · rw [hsizes _ (by omega) (by omega), Function.update_of_ne (by omega)]
  · rw [hlinks _ (by omega) (by omega), Function.update_of_ne (by omega)]

/-- The block at `c` is taken whole, or its first `n` bytes are. -/
theorem Layout.take (h : Layout a (L ++ c :: R)) (hfree : c.free = true) (hn : n ≤ c.size)
    (hmin : 24 ≤ n) (haligned : 8 ∣ n) :
    ∃ m rest, n ≤ m ∧ (∀ d ∈ rest, d.free = true) ∧
      Layout (a.take n ((freeAddrs L).getLastD 0) c.addr)
        (L ++ ⟨c.addr, m, true⟩ :: (rest ++ R)) := by
  have hpath := h.path
  rw [freeAddrs_append, freeAddrs_cons_free hfree] at hpath
  obtain ⟨mid, hleft, rfl, hnull, hright⟩ := hpath.split
  have hheader : a.blockSize c.addr = c.size :=
    h.header c (List.mem_append_right _ List.mem_cons_self)
  have halign : 8 ∣ c.addr := h.aligned c (List.mem_append_right _ List.mem_cons_self)
  obtain ⟨hcarvedL, hcarvedR⟩ := h.toCarved.around
  obtain ⟨hcoalescedL, hcoalescedR⟩ := h.coalesced.split
  by_cases hsplit : minBlockSize.toNat ≤ a.blockSize c.addr - n
  · -- the rest becomes a free block after the taken one
    rw [hheader, minBlockSize_toNat] at hsplit
    obtain ⟨htaken, hrest, hnext, hframe⟩ := @split_words a c.addr n c.size hmin hn
    rw [hheader] at hrest
    have hbefore (q : Nat) (hq : q + 16 ≤ c.addr) := hframe q (.inl hq)
    have hafter (q : Nat) (hq : c.addr + c.size ≤ q) := hframe q (.inr ⟨hq, by omega⟩)
    refine ⟨n, [⟨c.addr + n, c.size - n, false⟩], le_refl _, ?_, ?_⟩
    · intro d hd
      rw [List.mem_singleton.mp hd]
      rfl
    have hstop : c.addr + n + (c.size - n) = c.stop := by
      rw [Cell.stop]
      omega
    have hcarved : Carved (a.split n c.addr) a.start
        (L ++ ⟨c.addr, n, true⟩ :: ⟨c.addr + n, c.size - n, false⟩ :: R) (a.start + a.size) := by
      refine (hcarvedL.congr fun d hd ↦ (hbefore _ (hcarvedL.addr_lt hd).2).1).append ?_
      refine .cons ⟨c.addr, n, true⟩ htaken halign (show 16 ≤ n by omega) ?_
      refine .cons ⟨c.addr + n, c.size - n, false⟩ hrest (Nat.dvd_add halign haligned)
        (show 16 ≤ c.size - n by omega) ?_
      rw [Cell.stop, hstop]
      exact hcarvedR.congr fun d hd ↦ (hafter _ (hcarvedR.addr_lt hd).1).1
    have hleft' : LinkPath (a.split n c.addr).next 0 (a.split n c.addr).freeList (freeAddrs L) c.addr := by
      refine hleft.congr fun q hq ↦ ?_
      obtain ⟨d, hd, -, rfl⟩ := mem_freeAddrs hq
      exact (hbefore _ (hcarvedL.addr_lt hd).2).2
    have hright' : LinkPath (a.split n c.addr).next 0 (c.addr + n)
        (freeAddrs (⟨c.addr + n, c.size - n, false⟩ :: R)) 0 := by
      rw [freeAddrs_cons_free rfl]
      refine ⟨rfl, (show c.addr + n ≠ 0 by omega), ?_⟩
      rw [hnext]
      refine hright.congr fun q hq ↦ ?_
      obtain ⟨d, hd, -, rfl⟩ := mem_freeAddrs hq
      exact (hafter _ (hcarvedR.addr_lt hd).1).2
    have hlayout := hcarved.layout_link rfl hleft' hright' (hcoalescedL.around_used
      (@Coalesced.replace [] R c _ hcoalescedR (Bool.not_eq_true' _ ▸ hfree).symm) rfl)
    rw [FreeListAllocator.take]
    simp only [if_pos (show minBlockSize.toNat ≤ a.blockSize c.addr - n by
      rw [hheader]
      exact hsplit)]
    exact ⟨⟨hlayout.tiles, hlayout.header, hlayout.aligned, hlayout.room⟩, hlayout.path,
      hlayout.coalesced⟩
  -- too little would be left for a block: the cell is taken whole
  · refine ⟨c.size, [], hn, fun d hd ↦ absurd hd List.not_mem_nil, ?_⟩
    have hcarved : Carved a a.start (L ++ ⟨c.addr, c.size, true⟩ :: R) (a.start + a.size) :=
      hcarvedL.append
        (.cons ⟨c.addr, c.size, true⟩ hheader halign (show 16 ≤ c.size by omega) hcarvedR)
    have hlayout := hcarved.layout_link rfl hleft hright
      (hcoalescedL.around_used hcoalescedR.tail rfl)
    rw [FreeListAllocator.take]
    simp only [if_neg hsplit]
    exact ⟨⟨hlayout.tiles, hlayout.header, hlayout.aligned, hlayout.room⟩, hlayout.path,
      hlayout.coalesced⟩

/-! ## Returning a block -/

/-- A header is rewritten, and no other one. -/
theorem rewrite_words (a : FreeListAllocator) (p n target : Nat) :
    ((a.setSize p n).setNext p target).blockSize p = n ∧
      ((a.setSize p n).setNext p target).next p = target ∧
      ∀ q, q + 16 ≤ p ∨ p + 16 ≤ q →
        ((a.setSize p n).setNext p target).blockSize q = a.blockSize q ∧
        ((a.setSize p n).setNext p target).next q = a.next q := by
  refine ⟨?_, ?_, fun q hq ↦ ⟨?_, ?_⟩⟩
  · rw [blockSize_setNext (by omega), blockSize_setSize, Function.update_self]
  · rw [next_setNext, Function.update_self]
  · rw [blockSize_setNext (by omega), blockSize_setSize, Function.update_of_ne (by omega)]
  · rw [next_setNext, Function.update_of_ne (by omega), next_setSize (by omega)]

theorem setNext_eq (a : FreeListAllocator) (p target : Nat) :
    a.setNext p target = (a.setSize p (a.blockSize p)).setNext p target := by
  have hself : a.setSize p (a.blockSize p) = a := by
    rw [setSize, store, blockSize, Function.update_eq_self]
  rw [hself]

/-- One cell is replaced by another at the same address. -/
theorem Carved.rewrite (hL : Carved a lo L p) (hR : Carved a mid R hi) (hn : 16 ≤ n) (h8 : 8 ∣ p)
    (hmid : p + n = mid) (used : Bool) :
    Carved ((a.setSize p n).setNext p target) lo (L ++ ⟨p, n, used⟩ :: R) hi := by
  obtain ⟨hsize, -, hframe⟩ := rewrite_words a p n target
  refine (hL.congr fun d hd ↦ (hframe _ (.inl (hL.addr_lt hd).2)).1).append ?_
  refine .cons ⟨p, n, used⟩ hsize h8 hn ?_
  rw [Cell.stop, hmid]
  refine hR.congr fun d hd ↦ (hframe _ (.inr ?_)).1
  have := (hR.addr_lt hd).1
  omega

/-- The links before and after a rewritten header. -/
theorem path_rewrite (hL : Carved a lo L p) (hR : Carved a mid R hi) (hmid : p + 16 ≤ mid)
    {head tail last : Nat} (hleft : LinkPath a.next 0 head (freeAddrs L) tail)
    (hright : LinkPath a.next 0 target (freeAddrs R) last) :
    LinkPath ((a.setSize p n).setNext p target).next 0 head (freeAddrs L) tail ∧
      LinkPath ((a.setSize p n).setNext p target).next 0
        (((a.setSize p n).setNext p target).next p) (freeAddrs R) last := by
  obtain ⟨-, hnext, hframe⟩ := rewrite_words a p n target
  refine ⟨hleft.congr fun q hq ↦ ?_, ?_⟩
  · obtain ⟨d, hd, -, rfl⟩ := mem_freeAddrs hq
    exact (hframe _ (.inl (hL.addr_lt hd).2)).2
  · rw [hnext]
    refine hright.congr fun q hq ↦ ?_
    obtain ⟨d, hd, -, rfl⟩ := mem_freeAddrs hq
    exact (hframe _ (.inr (hmid.trans (hR.addr_lt hd).1))).2

@[simp] theorem start_joinNext : (a.joinNext p current).start = a.start := by
  rw [joinNext]
  split <;> rfl

@[simp] theorem size_joinNext : (a.joinNext p current).size = a.size := by
  rw [joinNext]
  split <;> rfl

/-- The returned block at `p`, joined with the free block after it, if there is one. -/
structure Returned (a : FreeListAllocator) (L R : List Cell) (p mid s : Nat) : Prop where
  carved : Carved a a.start (L ++ ⟨p, s, false⟩ :: R) (a.start + a.size)
  left : LinkPath a.next 0 a.freeList (freeAddrs L) mid
  right : LinkPath a.next 0 (a.next p) (freeAddrs R) 0
  coalesced : Coalesced (⟨p, s, false⟩ :: R)

/-- The first free block is not where the cells begin, unless their first one is free. -/
theorem Carved.free_ne (h : Carved a lo R hi) (hpath : LinkPath a.next 0 current (freeAddrs R) 0)
    (hpos : 0 < lo) (hused : ¬∃ d R', R = d :: R' ∧ d.free = true) : current ≠ lo := by
  rintro rfl
  cases haddrs : freeAddrs R with
  | nil =>
    rw [haddrs] at hpath
    obtain rfl : current = 0 := hpath
    exact absurd rfl hpos.ne'
  | cons q qs =>
    obtain ⟨d, hd, hfree, rfl⟩ : ∃ d ∈ R, d.free = true ∧ d.addr = q :=
      mem_freeAddrs (by rw [haddrs]; exact List.mem_cons_self)
    rw [haddrs] at hpath
    obtain ⟨haddr, -⟩ := hpath
    obtain ⟨e, R', rfl⟩ : ∃ e R', R = e :: R' := List.exists_cons_of_ne_nil (List.ne_nil_of_mem hd)
    rcases List.mem_cons.mp hd with rfl | hd
    · exact hused ⟨_, R', rfl, hfree⟩
    · have hnext := ((h.around (L := [])).2.addr_lt hd).1
      have hsize := h.room e List.mem_cons_self
      have hstart : e.addr = current := h.tiles.1
      rw [Cell.stop] at hnext
      omega

theorem Layout.joinNext (h : Layout a (L ++ c :: R)) (hpos : 0 < c.addr)
    (hL : LinkPath a.next 0 a.freeList (freeAddrs L) mid) (hR : LinkPath a.next 0 mid (freeAddrs R) 0) :
    ∃ s R', Returned (a.joinNext c.addr mid) L R' c.addr mid s ∧
      R'.filter Cell.used = R.filter Cell.used := by
  have hmem : c ∈ L ++ c :: R := List.mem_append_right _ List.mem_cons_self
  have hheader : a.blockSize c.addr = c.size := h.header c hmem
  have halign : 8 ∣ c.addr := h.aligned c hmem
  have hroom : 16 ≤ c.size := h.room c hmem
  obtain ⟨hcarvedL, hcarvedR⟩ := h.toCarved.around
  have hcoalesced : Coalesced R := h.coalesced.split.2.tail
  -- the block after `c` is joined when it is free
  by_cases hjoin : ∃ d R', R = d :: R' ∧ d.free = true
  · obtain ⟨d, R', rfl, hd⟩ := hjoin
    rw [freeAddrs_cons_free hd] at hR
    obtain ⟨rfl, -, hrest⟩ := hR
    have haddr : d.addr = c.stop := hcarvedR.tiles.1
    have hsize : a.blockSize d.addr = d.size := hcarvedR.header d List.mem_cons_self
    have hcarved' : Carved a d.stop R' (a.start + a.size) := hcarvedR.around (L := []).2
    have hstop : c.addr + (c.size + d.size) = d.stop := by
      rw [Cell.stop, haddr, Cell.stop, Nat.add_assoc]
    have hrewrite : a.joinNext c.addr d.addr =
        (a.setSize c.addr (c.size + d.size)).setNext c.addr (a.next d.addr) := by
      rw [FreeListAllocator.joinNext, if_pos (by rw [hheader, haddr, Cell.stop]), hheader, hsize]
      have hlink : d.addr + 8 ≠ c.addr := by
        rw [haddr, Cell.stop]
        omega
      dsimp only
      rw [next_setSize hlink]
    rw [hrewrite]
    have hbefore : c.addr + 16 ≤ d.stop := by omega
    obtain ⟨hleft, hright⟩ :=
      path_rewrite (n := c.size + d.size) hcarvedL hcarved' hbefore hL hrest
    have hfree : d.used = false := (Bool.not_eq_true' _).mp hd
    refine ⟨c.size + d.size, R', ⟨?_, hleft, hright, ?_⟩, ?_⟩
    · exact hcarvedL.rewrite hcarved' (by omega) halign hstop false
    · exact @Coalesced.replace [] R' d _ hcoalesced hfree.symm
    · rw [List.filter_cons_of_neg (by rw [hfree]; exact Bool.false_ne_true)]
  -- otherwise `mid` is not where `c` ends: it is null, or a used cell comes before it
  · have hne : ¬c.addr + a.blockSize c.addr = mid := by
      rw [hheader]
      exact (hcarvedR.free_ne hR (Nat.add_pos_left hpos _) hjoin).symm
    have hrewrite : a.joinNext c.addr mid = (a.setSize c.addr c.size).setNext c.addr mid := by
      rw [FreeListAllocator.joinNext, if_neg hne, setNext_eq, hheader]
    rw [hrewrite]
    have hbefore : c.addr + 16 ≤ c.stop := Nat.add_le_add_left hroom _
    obtain ⟨hleft, hright⟩ := path_rewrite (n := c.size) hcarvedL hcarvedR hbefore hL hR
    refine ⟨c.size, R, ⟨?_, hleft, hright, ?_⟩, rfl⟩
    · exact hcarvedL.rewrite hcarvedR hroom halign rfl false
    · cases R with
      | nil => exact List.isChain_singleton _
      | cons d R' =>
        refine List.isChain_cons_cons.mpr ⟨.inr ?_, hcoalesced⟩
        by_contra hused
        exact hjoin ⟨d, R', rfl, by rw [Cell.free, Bool.eq_false_of_not_eq_true hused]; rfl⟩

/-- The last free block does not end where the cells end, unless their last one is free. -/
theorem Carved.last_free_end (h : Carved a lo L p)
    (hused : ¬∃ L' d, L = L' ++ [d] ∧ d.free = true) :
    ¬((freeAddrs L).getLastD 0 ≠ 0 ∧
      (freeAddrs L).getLastD 0 + a.blockSize ((freeAddrs L).getLastD 0) = p) := by
  rintro ⟨hnull, heq⟩
  obtain ⟨L', d, rfl⟩ : ∃ L' d, L = L' ++ [d] := by
    rcases List.eq_nil_or_concat L with rfl | ⟨L', d, rfl⟩
    · exact absurd rfl hnull
    · exact ⟨L', d, List.concat_eq_append⟩
  have hlast : d.free = false := by
    by_contra hfree
    exact hused ⟨L', d, rfl, Bool.eq_true_of_not_eq_false hfree⟩
  rw [freeAddrs_append, freeAddrs_cons_used hlast, freeAddrs_nil, List.append_nil] at hnull heq
  obtain ⟨hcarved, hend⟩ := h.around
  have hstop : d.addr + d.size = p := hend.tiles
  have hroom := h.room d List.mem_concat_self
  rcases last_freeAddrs L' with hempty | ⟨e, he, hfirst⟩
  · exact hnull hempty
  · have hsize := hcarved.header e he
    have hbefore := (hcarved.tiles.bounds he).2
    rw [Cell.stop] at hbefore
    rw [hfirst, hsize] at heq
    omega

theorem Returned.joinPrev {s : Nat} (h : Returned a L R p mid s) (hpos : 0 < p)
    (hL : Coalesced L) : ∃ cells, Layout (a.joinPrev ((freeAddrs L).getLastD 0) p) cells ∧
      cells.filter Cell.used = L.filter Cell.used ++ R.filter Cell.used := by
  obtain ⟨hcarvedL, hcarvedR⟩ := h.carved.around
  have hmem : (⟨p, s, false⟩ : Cell) ∈ L ++ ⟨p, s, false⟩ :: R :=
    List.mem_append_right _ List.mem_cons_self
  have hheader : a.blockSize p = s := h.carved.header _ hmem
  have hroom : 16 ≤ s := h.carved.room _ hmem
  -- the block before `p` is joined when it is free
  by_cases hjoin : ∃ L' d, L = L' ++ [d] ∧ d.free = true
  · obtain ⟨L', d, rfl, hd⟩ := hjoin
    have hlast : (freeAddrs (L' ++ [d])).getLastD 0 = d.addr := by
      rw [freeAddrs_append, freeAddrs_cons_free hd]
      exact List.getLastD_concat ..
    have hsize : a.blockSize d.addr = d.size := hcarvedL.header d List.mem_concat_self
    have hdroom : 16 ≤ d.size := hcarvedL.room d List.mem_concat_self
    obtain ⟨hcarved', hend⟩ := hcarvedL.around
    have hstop : d.addr + d.size = p := hend.tiles
    have hleft := h.left
    rw [freeAddrs_append, freeAddrs_cons_free hd] at hleft
    obtain ⟨middle, hleft, rfl, hnull, -⟩ := hleft.split
    have hrewrite : a.joinPrev d.addr p =
        (a.setSize d.addr (d.size + s)).setNext d.addr (a.next p) := by
      rw [FreeListAllocator.joinPrev, hsize, hheader, if_pos ⟨hnull, hstop⟩]
      have hlink : p + 8 ≠ d.addr := by omega
      dsimp only
      rw [next_setSize hlink]
    rw [hlast, hrewrite]
    have hcarvedR' : Carved a (p + s) R (a.start + a.size) := hcarvedR
    have hbefore : d.addr + 16 ≤ p + s := by omega
    obtain ⟨hleft, hright⟩ :=
      path_rewrite (n := d.size + s) hcarved' hcarvedR' hbefore hleft h.right
    have hfree : d.used = false := (Bool.not_eq_true' _).mp hd
    refine ⟨L' ++ ⟨d.addr, d.size + s, false⟩ :: R, ⟨?_, ?_, ?_⟩, ?_⟩
    · exact hcarved'.rewrite hcarvedR' (by omega)
        (hcarvedL.aligned d List.mem_concat_self) (by omega) false
    · rw [freeAddrs_append, freeAddrs_cons_free rfl]
      exact hleft.append ⟨rfl, hnull, hright⟩
    · obtain ⟨hL', -, hlinked⟩ := List.isChain_append.mp hL
      refine List.isChain_append.mpr ⟨hL', @Coalesced.replace [] R _ _ h.coalesced rfl, ?_⟩
      intro e he d' hd'
      obtain rfl := Option.some.inj hd'
      rw [← hfree]
      exact hlinked e he d rfl
    · rw [List.filter_append, List.filter_append, List.filter_cons_of_neg (by exact Bool.false_ne_true),
        List.filter_cons_of_neg (by rw [hfree]; exact Bool.false_ne_true), List.filter_nil,
        List.append_nil]
  -- otherwise the last free cell does not end at `p`: a used cell comes between
  · rw [FreeListAllocator.joinPrev, if_neg (hcarvedL.last_free_end hjoin)]
    have hright : LinkPath a.next 0 p (freeAddrs (⟨p, s, false⟩ :: R)) 0 := by
      rw [freeAddrs_cons_free rfl]
      exact ⟨rfl, hpos.ne', h.right⟩
    have hcarved := @Carved.link_last a p L _ _ _ h.carved
    rw [← @start_link a ((freeAddrs L).getLastD 0) p,
      ← @size_link a ((freeAddrs L).getLastD 0) p] at hcarved
    refine ⟨L ++ ⟨p, s, false⟩ :: R, ⟨hcarved, h.carved.path_link h.left hright, ?_⟩, ?_⟩
    · refine List.isChain_append.mpr ⟨hL, h.coalesced, fun d hd e he ↦ .inl ?_⟩
      by_contra hused
      obtain ⟨L', rfl⟩ := List.getLast?_eq_some_iff.mp hd
      exact hjoin ⟨L', d, rfl, by rw [Cell.free, Bool.eq_false_of_not_eq_true hused]; rfl⟩
    · rw [List.filter_append, List.filter_cons_of_neg (by exact Bool.false_ne_true)]

/-! ## Requests -/

/-- Rounding up to a multiple of eight. -/
theorem alignUp_toNat {size : UInt64} (h : size.toNat + 7 < 2 ^ 64) :
    (alignUp size alignment).toNat = (size.toNat + 7) / 8 * 8 := by
  have height : alignment.toNat = 2 ^ 3 := rfl
  rw [toNat_alignUp height, nextMultiple, Nat.mod_eq_of_lt (by omega)]
  rfl

theorem requestSize_spec {size : UInt64} (h : size.toNat ≤ isizeMax) :
    size.toNat + 16 ≤ requestSize size ∧ 24 ≤ requestSize size ∧ 8 ∣ requestSize size := by
  have hbound : size.toNat ≤ 2 ^ 63 - 1 := h
  have hsum : (size + headerSize).toNat = size.toNat + 16 := by
    rw [UInt64.toNat_add, headerSize_toNat, Nat.mod_eq_of_lt (by omega)]
  have halign : (alignUp (size + headerSize) alignment).toNat = (size.toNat + 16 + 7) / 8 * 8 := by
    rw [alignUp_toNat (by omega), hsum]
  have hmax : requestSize size = max ((size.toNat + 16 + 7) / 8 * 8) 24 := by
    rw [requestSize, halign, minBlockSize_toNat]
  rw [hmax]
  omega
/-! ## Operations -/

theorem Carved.length_le (h : Carved a lo cells hi) : cells.length ≤ hi - lo := by
  have hsum := h.tiles.sum_size
  have hlength : cells.length ≤ (cells.map Cell.size).sum := by
    have hroom := h.room
    clear h hsum
    induction cells with
    | nil => exact Nat.zero_le _
    | cons c cells ih =>
      obtain ⟨hc, hcells⟩ := List.forall_mem_cons.mp hroom
      have := ih hcells
      rw [List.length_cons, List.map_cons, List.sum_cons]
      omega
  omega

/-- The result of a step on the cells: `b` manages the region of `a` with `cells`. -/
structure Manages (a b : FreeListAllocator) (cells : List Cell) : Prop where
  layout : Layout b cells
  counts : Counts b cells
  start_eq : b.start = a.start
  size_eq : b.size = a.size

@[simp] theorem start_take : (a.take n prev current).start = a.start := by
  rw [take]
  split <;> exact start_link

@[simp] theorem size_take : (a.take n prev current).size = a.size := by
  rw [take]
  split <;> exact size_link

theorem counts_link (a : FreeListAllocator) (prev target : Nat) :
    (a.link prev target).allocationCount = a.allocationCount ∧
      (a.link prev target).bytesAllocated = a.bytesAllocated := by
  rw [link]
  split <;> exact ⟨rfl, rfl⟩

theorem counts_take (a : FreeListAllocator) (n prev p : Nat) :
    (a.take n prev p).allocationCount = a.allocationCount + 1 ∧
      (a.take n prev p).bytesAllocated = a.bytesAllocated + (a.take n prev p).blockSize p := by
  rw [take]
  split
  · obtain ⟨hcount, hbytes⟩ := counts_link (a.split n p) prev (p + n)
    exact ⟨congrArg (· + 1) hcount, congrArg (· + _) hbytes⟩
  · obtain ⟨hcount, hbytes⟩ := counts_link a prev (a.next p)
    exact ⟨congrArg (· + 1) hcount, congrArg (· + _) hbytes⟩

/-- A request is refused, or one more cell is used. -/
theorem Layout.alloc (h : Layout a cells) (hcounts : Counts a cells) {size : UInt64}
    (hsize : size.toNat ≤ isizeMax) :
    a.alloc size = some (none, a) ∨ ∃ c U V b cells', cells.filter Cell.used = U ++ V ∧
      a.alloc size = some (some (c.addr + 16), b) ∧ Manages a b cells' ∧
      cells'.filter Cell.used = U ++ c :: V ∧ size.toNat + 16 ≤ c.size := by
  obtain ⟨hroom, hmin, haligned⟩ := requestSize_spec hsize
  have hfuel : cells.length < a.size + 1 := by
    have := h.toCarved.length_le
    omega
  rcases @firstFit_spec a 0 _ (requestSize size) _ _ h.path h.header hfuel with
    ⟨hnone, -⟩ | ⟨L, c, R, rfl, hfree, hn, -, hfind⟩
  -- no free cell is large enough
  · left
    rw [FreeListAllocator.alloc, hnone]
  · right
    obtain ⟨m, rest, hm, hrest, hlayout⟩ := h.take hfree hn hmin haligned
    obtain ⟨hcount, hbytes⟩ := counts_take a (requestSize size) ((freeAddrs L).getLastD 0) c.addr
    have hc : c.used = false := (Bool.not_eq_true' _).mp hfree
    have hused : (L ++ c :: R).filter Cell.used = L.filter Cell.used ++ R.filter Cell.used := by
      rw [List.filter_append, List.filter_cons_of_neg (by rw [hc]; exact Bool.false_ne_true)]
    have hused' : (L ++ ⟨c.addr, m, true⟩ :: (rest ++ R)).filter Cell.used =
        L.filter Cell.used ++ ⟨c.addr, m, true⟩ :: R.filter Cell.used := by
      have hnone : rest.filter Cell.used = [] := by
        refine List.filter_eq_nil_iff.mpr fun d hd ↦ ?_
        rw [(Bool.not_eq_true' _).mp (hrest d hd)]
        exact Bool.false_ne_true
      rw [List.filter_append, List.filter_cons_of_pos rfl, List.filter_append, hnone,
        List.nil_append]
    refine ⟨⟨c.addr, m, true⟩, _, _, _, _, hused, ?_, ⟨hlayout, ⟨?_, ?_⟩, ?_, ?_⟩, hused', ?_⟩
    · rw [FreeListAllocator.alloc, hfind]
      rfl
    · rw [hcount, hcounts.count, hused, hused', List.length_append, List.length_append,
        List.length_cons, Nat.add_assoc]
    · rw [hbytes, hcounts.bytes, hused, hused', hlayout.header ⟨c.addr, m, true⟩
        (List.mem_append_right _ List.mem_cons_self)]
      simp only [List.map_append, List.map_cons, List.sum_append, List.sum_cons]
      omega
    · exact start_take
    · exact size_take
    · exact hroom.trans hm

theorem counts_joins (a : FreeListAllocator) (prev p current : Nat) :
    ((a.joinNext p current).joinPrev prev p).allocationCount = a.allocationCount ∧
      ((a.joinNext p current).joinPrev prev p).bytesAllocated = a.bytesAllocated ∧
      ((a.joinNext p current).joinPrev prev p).start = a.start ∧
      ((a.joinNext p current).joinPrev prev p).size = a.size := by
  rw [joinPrev, joinNext, link]
  split <;> split <;> first | exact ⟨rfl, rfl, rfl, rfl⟩ | (split <;> exact ⟨rfl, rfl, rfl, rfl⟩)

/-- A used cell becomes free. -/
theorem Layout.free (h : Layout a (L ++ c :: R)) (hcounts : Counts a (L ++ c :: R))
    (hstart : 0 < a.start) (hused : c.used = true) :
    ∃ b cells', a.free (c.addr + 16) = some b ∧ Manages a b cells' ∧
      cells'.filter Cell.used = L.filter Cell.used ++ R.filter Cell.used := by
  have hmem : c ∈ L ++ c :: R := List.mem_append_right _ List.mem_cons_self
  have hpos : 0 < c.addr := hstart.trans_le (h.toCarved.addr_lt hmem).1
  have hheader : a.blockSize c.addr = c.size := h.header c hmem
  have hfree : c.free = false := by rw [Cell.free, hused]; rfl
  obtain ⟨hcarvedL, hcarvedR⟩ := h.toCarved.around
  have hpath := h.path
  rw [freeAddrs_append, freeAddrs_cons_used hfree] at hpath
  have hfuel : L.length < a.size + 1 := by
    have := h.toCarved.length_le
    rw [List.length_append] at this
    omega
  let a' : FreeListAllocator := { a with
    allocationCount := a.allocationCount - 1
    bytesAllocated := a.bytesAllocated - a.blockSize c.addr }
  have hlayout : Layout a' (L ++ c :: R) :=
    ⟨⟨h.tiles, h.header, h.aligned, h.room⟩, h.path, h.coalesced⟩
  -- the free cells before and after `c`, in the order of addresses
  obtain ⟨mid, hfind, hleft, hright⟩ := @locate_spec a' c.addr 0 _ L R _ hpath
    (fun d hd ↦ by have := (hcarvedL.addr_lt hd).2; omega)
    (fun d hd ↦ by
      have := (hcarvedR.addr_lt hd).1
      rw [Cell.stop] at this
      omega) hfuel
  -- `c` is joined with the cell after it, and the result with the one before
  obtain ⟨s, R', hreturned, hfilter⟩ := hlayout.joinNext hpos hleft hright
  obtain ⟨cells', hlayout', hfilter'⟩ := hreturned.joinPrev hpos h.coalesced.split.1
  rw [hfilter] at hfilter'
  obtain ⟨hcount, hbytes, hstart', hsize'⟩ :=
    counts_joins a' ((freeAddrs L).getLastD 0) c.addr mid
  refine ⟨_, cells', ?_, ⟨hlayout', ⟨?_, ?_⟩, hstart', hsize'⟩, hfilter'⟩
  · rw [FreeListAllocator.free]
    dsimp only
    rw [headerSize_toNat, Nat.add_sub_cancel, hfind]
  · rw [hcount, hfilter', show a'.allocationCount = a.allocationCount - 1 from rfl, hcounts.count,
      List.filter_append, List.filter_cons_of_pos hused, List.length_append, List.length_append,
      List.length_cons]
    rfl
  · rw [hbytes, hfilter', show a'.bytesAllocated = a.bytesAllocated - a.blockSize c.addr from rfl,
      hcounts.bytes, hheader, List.filter_append, List.filter_cons_of_pos hused]
    simp only [List.map_append, List.map_cons, List.sum_append, List.sum_cons]
    omega

end FreeListAllocator

end MiniLang.Runtime
