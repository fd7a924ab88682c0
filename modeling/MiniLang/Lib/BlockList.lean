import Mathlib.Data.BitVec
import Mathlib.Data.List.Chain
import Mathlib.Logic.Function.Basic

/-!
# Blocks of a region and linked lists of addresses

A region is cut into cells, each used or free, and some of the cells are linked in memory. This file
has the two notions and what splitting and joining neighbours does to them: `LinkPath` is a linked
list between two pointers, `Tiles` says that cells follow one another without a gap.

## Reading off the list

Both are recursions over the list of nodes, so that an insertion or a removal in the middle is
`append` and `split`: take the list apart at the place that changes, and put the parts together
around what is new. A list determines what it links, by `unique`, and a change of the links
elsewhere does not affect it, by `congr`.

`Coalesced` says that no two free cells are neighbours. It is the reason that freeing a cell has to
look at its two neighbours only.
-/

namespace BlockList

/-! ## Linked lists -/

section LinkPath

variable {α : Type*} {next : α → α} {null head mid tail target : α} {ps qs : List α} {p : α}

/-- Following `next` from `head` passes exactly `ps` and arrives at `tail`. -/
def LinkPath (next : α → α) (null : α) : α → List α → α → Prop
  | head, [], tail => head = tail
  | head, p :: ps, tail => head = p ∧ p ≠ null ∧ LinkPath next null (next p) ps tail

theorem LinkPath.append (hps : LinkPath next null head ps mid) (hqs : LinkPath next null mid qs tail) :
    LinkPath next null head (ps ++ qs) tail := by
  induction ps generalizing head with
  | nil =>
    obtain rfl : head = mid := hps
    exact hqs
  | cons p ps ih =>
    obtain ⟨hhead, hnull, hrest⟩ := hps
    exact ⟨hhead, hnull, ih hrest⟩

theorem LinkPath.split (h : LinkPath next null head (ps ++ qs) tail) :
    ∃ mid, LinkPath next null head ps mid ∧ LinkPath next null mid qs tail := by
  induction ps generalizing head with
  | nil => exact ⟨head, rfl, h⟩
  | cons p ps ih =>
    obtain ⟨hhead, hnull, hrest⟩ := h
    obtain ⟨mid, hps, hqs⟩ := ih hrest
    exact ⟨mid, ⟨hhead, hnull, hps⟩, hqs⟩

/-- A path depends on the links of its own elements only. -/
theorem LinkPath.congr {next' : α → α} (h : LinkPath next null head ps tail)
    (hnext : ∀ p ∈ ps, next' p = next p) : LinkPath next' null head ps tail := by
  induction ps generalizing head with
  | nil => exact h
  | cons p ps ih =>
    obtain ⟨hhead, hnull, hrest⟩ := h
    obtain ⟨hp, hps⟩ := List.forall_mem_cons.mp hnext
    refine ⟨hhead, hnull, ?_⟩
    rw [hp]
    exact ih hrest hps

theorem LinkPath.ne_null (h : LinkPath next null head ps tail) (hp : p ∈ ps) : p ≠ null := by
  induction ps generalizing head with
  | nil => exact absurd hp List.not_mem_nil
  | cons q ps ih =>
    obtain ⟨-, hnull, hrest⟩ := h
    rcases List.mem_cons.mp hp with rfl | hp
    · exact hnull
    · exact ih hrest hp

/-- The elements are determined by the links. -/
theorem LinkPath.unique (hps : LinkPath next null head ps null) (hqs : LinkPath next null head qs null) :
    ps = qs := by
  induction ps generalizing head qs with
  | nil =>
    obtain rfl : head = null := hps
    cases qs with
    | nil => rfl
    | cons q qs =>
      obtain ⟨rfl, hnull, -⟩ := hqs
      exact absurd rfl hnull
  | cons p ps ih =>
    obtain ⟨rfl, hnull, hps⟩ := hps
    cases qs with
    | nil => exact absurd hqs hnull
    | cons q qs =>
      obtain ⟨rfl, -, hqs⟩ := hqs
      rw [ih hps hqs]

/-- The last link is redirected. -/
theorem LinkPath.redirect [DecidableEq α] (h : LinkPath next null head (ps ++ [p]) mid)
    (hp : p ∉ ps) : LinkPath (Function.update next p target) null head (ps ++ [p]) target := by
  obtain ⟨mid', hps, hmid', hnull, -⟩ := h.split
  have hrest : LinkPath (Function.update next p target) null head ps mid' := by
    refine hps.congr fun q hq ↦ Function.update_of_ne ?_ _ _
    rintro rfl
    exact hp hq
  exact hrest.append ⟨hmid', hnull, Function.update_self ..⟩

/-- Elements in a row, each linked to the next one. -/
theorem LinkPath.row {f : Nat → α} {n : Nat} (hne : ∀ i < n, f i ≠ null)
    (hnext : ∀ i < n, next (f i) = if i + 1 < n then f (i + 1) else tail) :
    LinkPath next null (if 0 < n then f 0 else tail) ((List.range n).map f) tail := by
  induction n generalizing f with
  | zero => rfl
  | succ n ih =>
    have hrest := ih (f := fun i ↦ f (i + 1)) (fun i hi ↦ hne (i + 1) (Nat.succ_lt_succ hi))
      fun i hi ↦ by
        rw [hnext (i + 1) (Nat.succ_lt_succ hi)]
        simp only [Nat.add_lt_add_iff_right]
    rw [List.range_succ_eq_map, List.map_cons, List.map_map, if_pos n.succ_pos]
    refine ⟨rfl, hne 0 n.succ_pos, ?_⟩
    rw [hnext 0 n.succ_pos]
    simp only [Nat.zero_add, Nat.lt_add_left_iff_pos]
    exact hrest

end LinkPath

/-! ## Cells -/

/-- A block of a region. -/
structure Cell where
  addr : Nat
  size : Nat
  used : Bool
  deriving DecidableEq, Repr

namespace Cell

def stop (c : Cell) : Nat := c.addr + c.size

def free (c : Cell) : Bool := !c.used

end Cell

/-- The cells follow one another from `lo` to `hi`. -/
def Tiles : Nat → List Cell → Nat → Prop
  | lo, [], hi => lo = hi
  | lo, c :: cs, hi => c.addr = lo ∧ Tiles c.stop cs hi

/-- No two neighbours are free. -/
def Coalesced (cells : List Cell) : Prop := cells.IsChain fun c d ↦ c.used = true ∨ d.used = true

section Tiles

variable {lo mid hi : Nat} {cs ds : List Cell} {c d : Cell}

theorem Tiles.append (hcs : Tiles lo cs mid) (hds : Tiles mid ds hi) : Tiles lo (cs ++ ds) hi := by
  induction cs generalizing lo with
  | nil =>
    obtain rfl : lo = mid := hcs
    exact hds
  | cons c cs ih => exact ⟨hcs.1, ih hcs.2⟩

theorem Tiles.split (h : Tiles lo (cs ++ ds) hi) : ∃ mid, Tiles lo cs mid ∧ Tiles mid ds hi := by
  induction cs generalizing lo with
  | nil => exact ⟨lo, rfl, h⟩
  | cons c cs ih =>
    obtain ⟨mid, hcs, hds⟩ := ih h.2
    exact ⟨mid, ⟨h.1, hcs⟩, hds⟩

theorem Tiles.le (h : Tiles lo cs hi) : lo ≤ hi := by
  induction cs generalizing lo with
  | nil => exact le_of_eq h
  | cons c cs ih =>
    obtain ⟨rfl, hcs⟩ := h
    exact (Nat.le_add_right c.addr c.size).trans (ih hcs)

theorem Tiles.bounds (h : Tiles lo cs hi) (hc : c ∈ cs) : lo ≤ c.addr ∧ c.stop ≤ hi := by
  induction cs generalizing lo with
  | nil => exact absurd hc List.not_mem_nil
  | cons d cs ih =>
    obtain ⟨rfl, hcs⟩ := h
    rcases List.mem_cons.mp hc with rfl | hc
    · exact ⟨le_refl _, hcs.le⟩
    · obtain ⟨hlo, hhi⟩ := ih hcs hc
      exact ⟨(Nat.le_add_right d.addr d.size).trans hlo, hhi⟩

theorem Tiles.sum_size (h : Tiles lo cs hi) : lo + (cs.map Cell.size).sum = hi := by
  induction cs generalizing lo with
  | nil => exact h
  | cons c cs ih =>
    obtain ⟨rfl, hcs⟩ := h
    rw [List.map_cons, List.sum_cons, ← Nat.add_assoc]
    exact ih hcs

theorem Tiles.pairwise (h : Tiles lo cs hi) : cs.Pairwise fun c d ↦ c.stop ≤ d.addr := by
  induction cs generalizing lo with
  | nil => exact .nil
  | cons c cs ih => exact .cons (fun d hd ↦ (h.2.bounds hd).1) (ih h.2)

/-- Free cells are apart when no two neighbours are free. -/
theorem Tiles.free_apart (h : Tiles lo cs hi) (hsize : ∀ c ∈ cs, 0 < c.size)
    (hchain : Coalesced cs) :
    (cs.filter Cell.free).Pairwise fun c d ↦ c.stop < d.addr := by
  induction cs generalizing lo with
  | nil => exact .nil
  | cons c cs ih =>
    obtain ⟨hc, hcs⟩ := List.forall_mem_cons.mp hsize
    have hrest := ih h.2 hcs hchain.tail
    cases hfree : c.free with
    | false => rwa [List.filter_cons_of_neg (by rw [hfree]; exact Bool.false_ne_true)]
    | true =>
      rw [List.filter_cons_of_pos hfree]
      refine .cons (fun d hd ↦ ?_) hrest
      obtain ⟨hmem, hd⟩ := List.mem_filter.mp hd
      cases cs with
      | nil => exact absurd hmem List.not_mem_nil
      | cons e cs =>
        -- the next cell is used, so it lies between the two
        have hused : e.used = true := by
          rcases (List.isChain_cons_cons.mp hchain).1 with hused | hused
          · rw [Cell.free, hused] at hfree
            cases hfree
          · exact hused
        rcases List.mem_cons.mp hmem with rfl | hmem
        · simp [Cell.free, hused] at hd
        · have he : 0 < e.size := (List.forall_mem_cons.mp hcs).1
          have haddr : e.addr = c.stop := h.2.1
          have hstop : e.addr + e.size ≤ d.addr := (h.2.2.bounds hmem).1
          omega

theorem Coalesced.split (h : Coalesced (cs ++ ds)) : Coalesced cs ∧ Coalesced ds := by
  obtain ⟨hcs, hds, -⟩ := List.isChain_append.mp h
  exact ⟨hcs, hds⟩

/-- Around a used cell anything coalesced may stand. -/
theorem Coalesced.around_used (hcs : Coalesced cs) (hds : Coalesced ds) (hc : c.used = true) :
    Coalesced (cs ++ c :: ds) := by
  refine List.isChain_append.mpr ⟨hcs, List.isChain_cons.mpr ⟨fun _ _ ↦ .inl hc, hds⟩, ?_⟩
  intro d _ e he
  obtain rfl : c = e := Option.some.inj he
  exact .inr hc

/-- A cell may be replaced by one of the same kind. -/
theorem Coalesced.replace (h : Coalesced (cs ++ c :: ds)) (hused : d.used = c.used) :
    Coalesced (cs ++ d :: ds) := by
  obtain ⟨hcs, hds, hlink⟩ := List.isChain_append.mp h
  obtain ⟨hhead, hrest⟩ := List.isChain_cons.mp hds
  refine List.isChain_append.mpr ⟨hcs, List.isChain_cons.mpr ⟨fun e he ↦ ?_, hrest⟩, ?_⟩
  · rw [hused]
    exact hhead e he
  · intro e he d' hd'
    obtain rfl : d = d' := Option.some.inj hd'
    rw [hused]
    exact hlink e he c rfl

/-- A coalesced tiling with free cells only has at most one. -/
theorem Coalesced.length_le_one (h : Coalesced cs) (hfree : ∀ c ∈ cs, c.free = true) :
    cs.length ≤ 1 := by
  match cs, h, hfree with
  | [], _, _ => exact Nat.zero_le _
  | [c], _, _ => exact le_refl _
  | c :: d :: cs, h, hfree =>
    have hc : c.free = true := hfree c List.mem_cons_self
    have hd : d.free = true := hfree d (List.mem_cons_of_mem _ List.mem_cons_self)
    rw [Cell.free, Bool.not_eq_true'] at hc hd
    rcases (List.isChain_cons_cons.mp h).1 with hused | hused
    · rw [hused] at hc
      cases hc
    · rw [hused] at hd
      cases hd

end Tiles

end BlockList
