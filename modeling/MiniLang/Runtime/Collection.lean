import MiniLang.Runtime.Collector
import MiniLang.Runtime.FreeListLayout

/-!
# What a collection does

`Objects gc objs` says that `objs` are the addresses of the headers in the list of `gc`. A
collection leaves the objects with a root, in their order, and clears their marks.

## Marking

For each root the source subtracts the size of a header and goes through its list of objects to see
whether one is there. `markAll` says what comes of it: the objects whose payload is a root are
marked, and a pointer that is no payload changes nothing. The list itself is not touched.

## Sweeping

The sweep walks the list with the link through which it got to the current object. A marked object
loses its mark and is walked past; an unmarked one is unlinked, its block released and the counters
lowered. `Swept` describes what becomes of the part of the list that has not been walked, so that
the induction is on that part, and the objects before it enter only through the last of them, whose
link is rewritten. Headers of distinct objects do not overlap, hence a write to one leaves the
others.

## The heap

`Heap` adds the blocks, which are apart, and the counters, which are sums over the objects. An
allocation puts a new header in front of the list.
-/

namespace MiniLang.Runtime

open BlockList

namespace GarbageCollector

variable {gc gc' : GarbageCollector} {objs kept rest : List Nat} {o p prev current ptr fuel : Nat}

/-- The objects in the list. -/
def Objects (gc : GarbageCollector) (objs : List Nat) : Prop :=
  LinkPath gc.next 0 gc.allObjects objs 0

/-- The pointer behind the header. -/
def payload (o : Nat) : Nat := o + gcHeaderSize.toNat

theorem gcHeaderSize_toNat : gcHeaderSize.toNat = 24 := rfl

/-! ## Marking -/

/-- The same objects with other marks. -/
def withMarks (gc : GarbageCollector) (marks : Nat → Bool) : GarbageCollector :=
  { gc with header := fun o ↦ { gc.header o with marked := marks o } }

def marks (gc : GarbageCollector) (o : Nat) : Bool := (gc.header o).marked

theorem isGcObject_eq {header : Nat} (h : LinkPath gc.next 0 current objs 0)
    (hfuel : objs.length < fuel) :
    gc.isGcObject header fuel current = .ok (decide (header ∈ objs)) := by
  induction objs generalizing current fuel with
  | nil =>
    obtain ⟨fuel, rfl⟩ : ∃ k, fuel = k + 1 := ⟨fuel - 1, by omega⟩
    have hnull : current = 0 := h
    rw [isGcObject, if_pos hnull]
    rfl
  | cons o objs ih =>
    rw [List.length_cons] at hfuel
    obtain ⟨fuel, rfl⟩ : ∃ k, fuel = k + 1 := ⟨fuel - 1, by omega⟩
    obtain ⟨rfl, hnull, hrest⟩ := h
    rw [isGcObject, if_neg hnull]
    by_cases heq : current = header
    · rw [if_pos heq, decide_eq_true (heq ▸ List.mem_cons_self)]
      rfl
    · rw [if_neg heq, ih hrest (by omega)]
      have hiff : header ∈ objs ↔ header ∈ current :: objs :=
        ⟨List.mem_cons_of_mem _, fun hmem ↦ (List.mem_cons.mp hmem).resolve_left (Ne.symm heq)⟩
      rw [decide_eq_decide.mpr hiff]

/-- The objects whose payload is one of `roots` are marked. -/
def markAll (objs roots : List Nat) (m : Nat → Bool) (o : Nat) : Bool :=
  m o || decide (o ∈ objs ∧ payload o ∈ roots)

theorem payload_ne_zero (o : Nat) : payload o ≠ 0 := Nat.succ_ne_zero (o + 23)

theorem markAll_of_unheld {roots : List Nat} (h : ∀ o ∈ objs, payload o ∉ roots) (m : Nat → Bool) :
    markAll objs roots m = m := by
  funext o
  rw [markAll, decide_eq_false (fun hmem ↦ h o hmem.1 hmem.2), Bool.or_false]

theorem markObject_eq (h : gc.Objects objs) (hfuel : objs.length < gc.listFuel) (ptr : Nat) :
    gc.markObject ptr = .ok (gc.withMarks (markAll objs [ptr] gc.marks)) := by
  rw [markObject]
  by_cases hnull : ptr = 0
  · have hunheld : ∀ o ∈ objs, payload o ∉ [ptr] := by
      intro o _ hmem
      exact payload_ne_zero o ((List.mem_singleton.mp hmem).trans hnull)
    rw [if_pos hnull, markAll_of_unheld hunheld]
    rfl
  · rw [if_neg hnull]
    dsimp only
    rw [isGcObject_eq h hfuel]
    by_cases hmem : ptr - gcHeaderSize.toNat ∈ objs
    · rw [decide_eq_true hmem]
      -- the object is marked, now or before
      have hmarks : markAll objs [ptr] gc.marks =
          Function.update gc.marks (ptr - gcHeaderSize.toNat) true := by
        funext o
        rw [markAll]
        by_cases ho : o = ptr - gcHeaderSize.toNat
        · have hpos : ptr - gcHeaderSize.toNat ≠ 0 := h.ne_null hmem
          rw [ho, Function.update_self, decide_eq_true, Bool.or_true]
          refine ⟨hmem, List.mem_singleton.mpr ?_⟩
          rw [payload]
          omega
        · rw [Function.update_of_ne ho, decide_eq_false, Bool.or_false]
          rintro ⟨-, hpayload⟩
          rw [List.mem_singleton, payload] at hpayload
          omega
      rw [hmarks]
      by_cases hmarked : (gc.header (ptr - gcHeaderSize.toNat)).marked = true
      · have hself : Function.update gc.marks (ptr - gcHeaderSize.toNat) true = gc.marks := by
          rw [← hmarked]
          exact Function.update_eq_self ..
        rw [hself]
        exact if_pos hmarked
      · have hset : gc.setHeader (ptr - gcHeaderSize.toNat)
            { gc.header (ptr - gcHeaderSize.toNat) with marked := true } =
            gc.withMarks (Function.update gc.marks (ptr - gcHeaderSize.toNat) true) := by
          rw [setHeader, withMarks]
          congr 1
          funext o
          by_cases ho : o = ptr - gcHeaderSize.toNat
          · rw [ho, Function.update_self, Function.update_self]
          · rw [Function.update_of_ne ho, Function.update_of_ne ho]
            rfl
        rw [← hset]
        exact if_neg hmarked
    · rw [decide_eq_false hmem]
      have hunheld : ∀ o ∈ objs, payload o ∉ [ptr] := by
        intro o ho hpayload
        rw [List.mem_singleton, payload] at hpayload
        refine hmem ?_
        rw [← hpayload, Nat.add_sub_cancel]
        exact ho
      rw [markAll_of_unheld hunheld]
      rfl

theorem markAll_cons (objs roots : List Nat) (ptr : Nat) (m : Nat → Bool) :
    markAll objs roots (markAll objs [ptr] m) = markAll objs (ptr :: roots) m := by
  funext o
  rw [markAll, markAll, markAll, Bool.or_assoc, ← Bool.decide_or]
  refine congrArg (m o || ·) (decide_eq_decide.mpr ?_)
  rw [← and_or_left, List.mem_singleton, List.mem_cons]

theorem mark_eq (h : gc.Objects objs) (hfuel : objs.length < gc.listFuel) :
    gc.mark = .ok (gc.withMarks (markAll objs gc.roots gc.marks)) := by
  have hloop (roots : List Nat) (m : Nat → Bool) :
      roots.foldlM markObject (gc.withMarks m) = .ok (gc.withMarks (markAll objs roots m)) := by
    induction roots generalizing m with
    | nil =>
      rw [markAll_of_unheld fun o _ ↦ List.not_mem_nil]
      rfl
    | cons ptr roots ih =>
      have hmark : (gc.withMarks m).markObject ptr =
          .ok (gc.withMarks (markAll objs [ptr] m)) :=
        @markObject_eq (gc.withMarks m) objs h hfuel ptr
      rw [List.foldlM_cons, hmark, ← markAll_cons objs roots ptr]
      exact ih (markAll objs [ptr] m)
  exact hloop gc.roots gc.marks

/-! ## Sweeping -/

/-- The objects of `rest` without a mark are freed, the others have lost it. -/
structure Swept (gc gc' : GarbageCollector) (kept rest : List Nat) : Prop where
  objects : gc'.Objects (kept ++ rest.filter gc.marks)
  content : ∀ o, (gc'.header o).size = (gc.header o).size ∧
    (gc'.header o).typeTag = (gc.header o).typeTag
  marks_eq : ∀ o, gc'.marks o = (gc.marks o && decide (o ∉ rest))
  roots_eq : gc'.roots = gc.roots
  threshold_eq : gc'.gcThreshold = gc.gcThreshold
  bytes_eq : gc'.bytesAllocated = gc.bytesAllocated -
    ((rest.filter (!gc.marks ·)).map fun o ↦ totalSize (gc.header o).size).sum
  stats_eq : gc'.stats = { gc.stats with
    bytesFreed := gc.stats.bytesFreed +
      ((rest.filter (!gc.marks ·)).map fun o ↦ totalSize (gc.header o).size).sum
    objectsFreed := gc.stats.objectsFreed + (rest.filter (!gc.marks ·)).length }

/-- The object at `p` without its mark. -/
def unmark (gc : GarbageCollector) (p : Nat) : GarbageCollector :=
  gc.setHeader p { gc.header p with marked := false }

theorem header_unmark (gc : GarbageCollector) (p o : Nat) :
    (gc.unmark p).header o = { gc.header o with marked := gc.marks o && decide (o ≠ p) } := by
  rw [unmark, setHeader]
  by_cases ho : o = p
  · rw [ho, decide_eq_false (not_not_intro rfl), Bool.and_false]
    exact Function.update_self ..
  · rw [decide_eq_true ho, Bool.and_true]
    exact Function.update_of_ne ho ..

theorem next_unmark (gc : GarbageCollector) (p : Nat) : (gc.unmark p).next = gc.next := by
  funext o
  rw [next, header_unmark]
  rfl

/-- Unlinking leaves the headers alone, but for the link of `prev`. -/
theorem header_release (gc : GarbageCollector) (prev p o : Nat) :
    ((gc.release prev p).header o).size = (gc.header o).size ∧
      ((gc.release prev p).header o).typeTag = (gc.header o).typeTag ∧
      (gc.release prev p).marks o = gc.marks o := by
  rw [marks, release]
  dsimp only
  by_cases hprev : prev = 0
  · rw [if_pos hprev]
    exact ⟨rfl, rfl, rfl⟩
  · rw [if_neg hprev, setHeader]
    dsimp only
    by_cases ho : o = prev
    · rw [ho, Function.update_self]
      exact ⟨rfl, rfl, rfl⟩
    · rw [Function.update_of_ne ho]
      exact ⟨rfl, rfl, rfl⟩

theorem release_fields (gc : GarbageCollector) (prev p : Nat) :
    (gc.release prev p).roots = gc.roots ∧ (gc.release prev p).gcThreshold = gc.gcThreshold ∧
      (gc.release prev p).bytesAllocated = gc.bytesAllocated - totalSize (gc.header p).size ∧
      (gc.release prev p).stats = { gc.stats with
        bytesFreed := gc.stats.bytesFreed + totalSize (gc.header p).size
        objectsFreed := gc.stats.objectsFreed + 1 } := by
  rw [release]
  dsimp only
  split <;> exact ⟨rfl, rfl, rfl, rfl⟩

theorem next_release (gc : GarbageCollector) (hprev : prev ≠ 0) (p : Nat) :
    (gc.release prev p).next = Function.update gc.next prev (gc.next p) ∧
      (gc.release prev p).allObjects = gc.allObjects := by
  rw [release]
  dsimp only
  rw [if_neg hprev]
  refine ⟨?_, rfl⟩
  funext o
  by_cases ho : o = prev
  · rw [ho, Function.update_self, next, setHeader]
    dsimp only
    rw [Function.update_self]
  · rw [Function.update_of_ne ho, next, setHeader]
    dsimp only
    rw [Function.update_of_ne ho]
    rfl

/-- The links around the object that is unlinked. -/
theorem path_release (hkept : LinkPath gc.next 0 gc.allObjects kept p)
    (hrest : LinkPath gc.next 0 (gc.next p) rest 0) (hnodup : (kept ++ p :: rest).Nodup) :
    LinkPath (gc.release (kept.getLastD 0) p).next 0 (gc.release (kept.getLastD 0) p).allObjects kept
        (gc.next p) ∧
      LinkPath (gc.release (kept.getLastD 0) p).next 0 (gc.next p) rest 0 := by
  rcases List.eq_nil_or_concat kept with rfl | ⟨others, last, rfl⟩
  · exact ⟨rfl, hrest⟩
  · rw [List.concat_eq_append] at hkept hnodup ⊢
    have hlast : last ≠ 0 := hkept.ne_null List.mem_concat_self
    obtain ⟨hothers, -, hapart⟩ := List.nodup_append.mp hnodup
    have hnot : last ∉ others := fun hmem ↦
      (List.nodup_append.mp hothers).2.2 last hmem last List.mem_cons_self rfl
    rw [List.getLastD_concat]
    obtain ⟨hnext, hall⟩ := next_release gc hlast p
    rw [hnext, hall]
    refine ⟨hkept.redirect hnot, hrest.congr fun o ho ↦ Function.update_of_ne ?_ ..⟩
    rintro rfl
    exact hapart o List.mem_concat_self o (List.mem_cons_of_mem _ ho) rfl

theorem Swept.keep (h : Swept (gc.unmark p) gc' (kept ++ [p]) rest) (hp : p ∉ rest)
    (hmarked : gc.marks p = true) : Swept gc gc' kept (p :: rest) := by
  have hmarks (o : Nat) : (gc.unmark p).marks o = (gc.marks o && decide (o ≠ p)) := by
    rw [marks, header_unmark]
  have hsize (o : Nat) : ((gc.unmark p).header o).size = (gc.header o).size := by
    rw [header_unmark]
  have hsame : ∀ o ∈ rest, (gc.unmark p).marks o = gc.marks o := by
    intro o ho
    have hne : o ≠ p := fun heq ↦ hp (heq ▸ ho)
    rw [hmarks, decide_eq_true hne, Bool.and_true]
  have hdead : rest.filter (!(gc.unmark p).marks ·) = (p :: rest).filter (!gc.marks ·) := by
    rw [List.filter_cons_of_neg (by rw [hmarked]; exact Bool.false_ne_true)]
    exact List.filter_congr fun o ho ↦ congrArg (!·) (hsame o ho)
  refine ⟨?_, fun o ↦ ?_, fun o ↦ ?_, h.roots_eq, h.threshold_eq, ?_, ?_⟩
  · have hobjects := h.objects
    rw [List.filter_congr hsame, List.append_assoc] at hobjects
    rw [List.filter_cons_of_pos hmarked]
    exact hobjects
  · rw [(h.content o).1, (h.content o).2, header_unmark]
    exact ⟨rfl, rfl⟩
  · rw [h.marks_eq, hmarks, Bool.and_assoc, ← Bool.decide_and]
    refine congrArg (gc.marks o && ·) (decide_eq_decide.mpr ?_)
    rw [List.mem_cons, not_or]
  · rw [h.bytes_eq, hdead]
    simp only [hsize]
    rfl
  · rw [h.stats_eq, hdead]
    simp only [hsize]
    rfl

theorem Swept.drop (h : Swept (gc.release prev p) gc' kept rest)
    (hmarked : gc.marks p = false) : Swept gc gc' kept (p :: rest) := by
  have hmarks : (gc.release prev p).marks = gc.marks :=
    funext fun o ↦ (header_release gc prev p o).2.2
  have hsize (o : Nat) : ((gc.release prev p).header o).size = (gc.header o).size :=
    (header_release gc prev p o).1
  obtain ⟨hroots, hthreshold, hbytes, hstats⟩ := release_fields gc prev p
  have hdead : (p :: rest).filter (!gc.marks ·) = p :: rest.filter (!gc.marks ·) :=
    List.filter_cons_of_pos (by rw [hmarked]; rfl)
  refine ⟨?_, fun o ↦ ?_, fun o ↦ ?_, h.roots_eq.trans hroots, h.threshold_eq.trans hthreshold,
    ?_, ?_⟩
  · have hobjects := h.objects
    rw [hmarks] at hobjects
    rw [List.filter_cons_of_neg (by rw [hmarked]; exact Bool.false_ne_true)]
    exact hobjects
  · rw [(h.content o).1, (h.content o).2]
    exact ⟨hsize o, (header_release gc prev p o).2.1⟩
  · rw [h.marks_eq, hmarks]
    by_cases ho : o = p
    · rw [ho, hmarked, Bool.false_and, Bool.false_and]
    · refine congrArg (gc.marks o && ·) (decide_eq_decide.mpr ?_)
      rw [List.mem_cons, not_or, and_iff_right ho]
  · rw [h.bytes_eq, hmarks, hdead, hbytes]
    simp only [hsize, List.map_cons, List.sum_cons]
    omega
  · rw [h.stats_eq, hmarks, hdead, hstats]
    simp only [hsize, List.map_cons, List.sum_cons, List.length_cons]
    congr 1
    · omega
    · omega

theorem sweepFrom_spec (hkept : LinkPath gc.next 0 gc.allObjects kept current)
    (hrest : LinkPath gc.next 0 current rest 0) (hnodup : (kept ++ rest).Nodup)
    (hfuel : rest.length < fuel) :
    ∃ gc', gc.sweepFrom fuel (kept.getLastD 0) current = .ok gc' ∧ Swept gc gc' kept rest := by
  induction rest generalizing gc kept current fuel with
  | nil =>
    obtain ⟨fuel, rfl⟩ : ∃ k, fuel = k + 1 := ⟨fuel - 1, by omega⟩
    obtain rfl : current = 0 := hrest
    refine ⟨gc, if_pos rfl, ?_, fun o ↦ ⟨rfl, rfl⟩, fun o ↦ ?_, rfl, rfl, rfl, rfl⟩
    · rw [List.filter_nil, List.append_nil]
      exact hkept
    · rw [decide_eq_true List.not_mem_nil, Bool.and_true]
  | cons o rest ih =>
    rw [List.length_cons] at hfuel
    obtain ⟨fuel, rfl⟩ : ∃ k, fuel = k + 1 := ⟨fuel - 1, by omega⟩
    obtain ⟨rfl, hnull, hrest⟩ := hrest
    rw [sweepFrom, if_neg hnull]
    dsimp only
    have hnot : current ∉ rest := (List.nodup_cons.mp (List.nodup_append.mp hnodup).2.1).1
    by_cases hmarked : (gc.header current).marked = true
    · rw [if_pos hmarked]
      -- the object stays, without its mark
      have hkept' : LinkPath (gc.unmark current).next 0 (gc.unmark current).allObjects
          (kept ++ [current]) (gc.next current) := by
        rw [next_unmark]
        exact hkept.append ⟨rfl, hnull, rfl⟩
      have hrest' : LinkPath (gc.unmark current).next 0 (gc.next current) rest 0 := by
        rw [next_unmark]
        exact hrest
      have hnodup' : (kept ++ [current] ++ rest).Nodup := by
        rw [List.append_assoc]
        exact hnodup
      obtain ⟨gc', hsweep, hswept⟩ := ih hkept' hrest' hnodup' (show rest.length < fuel by omega)
      rw [List.getLastD_concat] at hsweep
      exact ⟨gc', hsweep, hswept.keep hnot hmarked⟩
    · rw [if_neg hmarked]
      -- the object goes, and `kept` is linked to the one after it
      obtain ⟨hkept', hrest'⟩ := path_release hkept hrest hnodup
      have hnodup' : (kept ++ rest).Nodup := by
        obtain ⟨hleft, hright, hapart⟩ := List.nodup_append.mp hnodup
        exact List.nodup_append.mpr ⟨hleft, (List.nodup_cons.mp hright).2,
          fun x hx y hy ↦ hapart x hx y (List.mem_cons_of_mem _ hy)⟩
      obtain ⟨gc', hsweep, hswept⟩ := ih hkept' hrest' hnodup' (show rest.length < fuel by omega)
      exact ⟨gc', hsweep, hswept.drop (Bool.eq_false_of_not_eq_true hmarked)⟩

/-! ## Collecting -/

/-- The bytes of the object at `o`. -/
def total (gc : GarbageCollector) (o : Nat) : Nat := totalSize (gc.header o).size

/-- The list of objects, their blocks and the counters agree. -/
structure Heap (gc : GarbageCollector) (objs : List Nat) : Prop where
  objects : gc.Objects objs
  apart : objs.Pairwise fun o o' ↦ o + gc.total o ≤ o' ∨ o' + gc.total o' ≤ o
  room : ∀ o ∈ objs, gcHeaderSize.toNat ≤ gc.total o
  unmarked : ∀ o ∈ objs, gc.marks o = false
  bytes : gc.bytesAllocated = (objs.map gc.total).sum
  balance : gc.stats.bytesAllocated = gc.stats.bytesFreed + gc.bytesAllocated
  count : gc.stats.objectsAllocated = gc.stats.objectsFreed + objs.length

theorem Heap.nodup (h : gc.Heap objs) : objs.Nodup := by
  refine h.apart.imp_of_mem fun {o o'} ho ho' hapart heq ↦ ?_
  have hroom := h.room o ho
  rw [gcHeaderSize_toNat] at hroom
  rw [← heq] at hapart
  omega

theorem Heap.listFuel (h : gc.Heap objs) : objs.length < gc.listFuel := by
  rw [GarbageCollector.listFuel, h.count]
  omega

/-- The objects with a root. -/
def rooted (gc : GarbageCollector) (objs : List Nat) : List Nat :=
  objs.filter fun o ↦ decide (payload o ∈ gc.roots)

/-- What a collection changes. -/
structure Collected (gc gc' : GarbageCollector) (objs : List Nat) : Prop where
  heap : gc'.Heap (gc.rooted objs)
  content : ∀ o, (gc'.header o).size = (gc.header o).size ∧
    (gc'.header o).typeTag = (gc.header o).typeTag
  roots_eq : gc'.roots = gc.roots
  threshold_eq : gc'.gcThreshold = gc.gcThreshold

theorem sum_filter_add (objs : List Nat) (p : Nat → Bool) (f : Nat → Nat) :
    ((objs.filter p).map f).sum + ((objs.filter (!p ·)).map f).sum = (objs.map f).sum := by
  rw [← List.sum_append, ← List.map_append]
  exact ((List.filter_append_perm p objs).map f).sum_nat

theorem Heap.sweep (h : gc.Heap objs) :
    ∃ gc', (gc.withMarks (markAll objs gc.roots gc.marks)).sweep = .ok gc' ∧
      Collected gc gc' objs := by
  obtain ⟨gc', hsweep, hswept⟩ := @sweepFrom_spec
    (gc.withMarks (markAll objs gc.roots gc.marks)) [] objs gc.allObjects gc.listFuel rfl h.objects
    h.nodup h.listFuel
  -- the marks are the roots, since nothing was marked before
  have hmarks : ∀ o ∈ objs, markAll objs gc.roots gc.marks o = decide (payload o ∈ gc.roots) := by
    intro o ho
    rw [markAll, h.unmarked o ho, Bool.false_or]
    exact decide_eq_decide.mpr (and_iff_right ho)
  have hkept : objs.filter (markAll objs gc.roots gc.marks) = gc.rooted objs :=
    List.filter_congr hmarks
  have hdead : objs.filter (!markAll objs gc.roots gc.marks ·) =
      objs.filter fun o ↦ !decide (payload o ∈ gc.roots) :=
    List.filter_congr fun o ho ↦ congrArg (!·) (hmarks o ho)
  -- the bytes and the number of the objects, split into the kept and the freed ones
  have hsum : ((gc.rooted objs).map gc.total).sum +
      ((objs.filter fun o ↦ !decide (payload o ∈ gc.roots)).map gc.total).sum =
        gc.bytesAllocated := (sum_filter_add objs _ gc.total).trans h.bytes.symm
  have hlength : (gc.rooted objs).length +
      (objs.filter fun o ↦ !decide (payload o ∈ gc.roots)).length = objs.length := by
    rw [← List.length_append]
    exact (List.filter_append_perm _ objs).length_eq
  have htotal : gc'.total = gc.total := funext fun o ↦ congrArg totalSize (hswept.content o).1
  have hobjects : gc'.Objects ([] ++ objs.filter (markAll objs gc.roots gc.marks)) := hswept.objects
  have hgone : ∀ o, gc'.marks o = (markAll objs gc.roots gc.marks o && decide (o ∉ objs)) :=
    hswept.marks_eq
  have hbytes : gc'.bytesAllocated = gc.bytesAllocated -
      ((objs.filter (!markAll objs gc.roots gc.marks ·)).map gc.total).sum := hswept.bytes_eq
  have hstats : gc'.stats = { gc.stats with
      bytesFreed := gc.stats.bytesFreed +
        ((objs.filter (!markAll objs gc.roots gc.marks ·)).map gc.total).sum
      objectsFreed := gc.stats.objectsFreed +
        (objs.filter (!markAll objs gc.roots gc.marks ·)).length } := hswept.stats_eq
  rw [hkept, List.nil_append] at hobjects
  rw [hdead] at hbytes hstats
  refine ⟨gc', hsweep, ⟨hobjects, ?_, ?_, ?_, ?_, ?_, ?_⟩, hswept.content, hswept.roots_eq,
    hswept.threshold_eq⟩
  · rw [htotal]
    exact h.apart.filter _
  · rw [htotal]
    exact fun o ho ↦ h.room o (List.mem_filter.mp ho).1
  · intro o ho
    rw [hgone, decide_eq_false (not_not_intro (List.mem_filter.mp ho).1), Bool.and_false]
  · rw [htotal, hbytes]
    omega
  · have hbalance := h.balance
    rw [hbytes, hstats]
    dsimp only
    omega
  · have hcount := h.count
    rw [hstats]
    dsimp only
    omega

theorem Heap.collect (h : gc.Heap objs) :
    ∃ gc', gc.collect = .ok gc' ∧ Collected gc gc' objs := by
  obtain ⟨gc', hsweep, hcollected⟩ := h.sweep
  have hheap := hcollected.heap
  refine ⟨{ gc' with stats := { gc'.stats with gcCycles := gc'.stats.gcCycles + 1 } }, ?_,
    ⟨hheap.objects, hheap.apart, hheap.room, hheap.unmarked, hheap.bytes, hheap.balance,
      hheap.count⟩, hcollected.content, hcollected.roots_eq, hcollected.threshold_eq⟩
  rw [GarbageCollector.collect, mark_eq h.objects h.listFuel]
  exact congrArg (· >>= fun gc ↦ pure (f := Except Fault)
    { gc with stats := { gc.stats with gcCycles := gc.stats.gcCycles + 1 } }) hsweep

/-! ## Allocating -/

/-- A block that the system allocator may return: none, or one apart from all objects. -/
def Fresh (gc : GarbageCollector) (ptr : Nat) (size : UInt64) : Prop :=
  ptr = 0 ∨ 8 ∣ ptr ∧ ∀ objs, gc.Objects objs → ∀ o ∈ objs,
    ptr + totalSize size ≤ o ∨ o + gc.total o ≤ ptr

theorem totalSize_ge {size : UInt64} (hsize : size.toNat + 31 < 2 ^ 64) :
    24 + size.toNat ≤ totalSize size := by
  have hsum : (gcHeaderSize + size).toNat = 24 + size.toNat := by
    rw [UInt64.toNat_add, gcHeaderSize_toNat, Nat.mod_eq_of_lt (by omega)]
  rw [totalSize, FreeListAllocator.alignUp_toNat (by omega), hsum]
  omega

theorem Heap.initHeader (h : gc.Heap objs) {size : UInt64} (hsize : size.toNat + 31 < 2 ^ 64)
    (hnull : ptr ≠ 0) (hfresh : gc.Fresh ptr size) (typeTag : TypeTag) :
    (gc.initHeader ptr size typeTag).Heap (ptr :: objs) := by
  have hge := totalSize_ge hsize
  have hapart : ∀ o ∈ objs, ptr + totalSize size ≤ o ∨ o + gc.total o ≤ ptr :=
    (hfresh.resolve_left hnull).2 objs h.objects
  have hne : ∀ o ∈ objs, o ≠ ptr := by
    rintro o ho rfl
    have hroom := h.room o ho
    rw [gcHeaderSize_toNat] at hroom
    have := hapart o ho
    omega
  have hheader : ∀ o ∈ objs, (gc.initHeader ptr size typeTag).header o = gc.header o :=
    fun o ho ↦ Function.update_of_ne (hne o ho) ..
  have hself : (gc.initHeader ptr size typeTag).header ptr =
      ⟨size, false, typeTag, gc.allObjects⟩ := Function.update_self ..
  have htotal : ∀ o ∈ objs, (gc.initHeader ptr size typeTag).total o = gc.total o :=
    fun o ho ↦ by rw [total, total, hheader o ho]
  have htotal' : (gc.initHeader ptr size typeTag).total ptr = totalSize size :=
    by rw [total, hself]
  refine ⟨⟨rfl, hnull, ?_⟩, .cons (fun o ho ↦ ?_) ?_, List.forall_mem_cons.mpr ⟨?_, fun o ho ↦ ?_⟩,
    List.forall_mem_cons.mpr ⟨?_, fun o ho ↦ ?_⟩, ?_, ?_, ?_⟩
  · rw [next, hself]
    exact h.objects.congr fun o ho ↦ congrArg GcHeader.next (hheader o ho)
  · rw [htotal', htotal o ho]
    exact hapart o ho
  · refine h.apart.imp_of_mem fun {o o'} ho ho' hoo' ↦ ?_
    rw [htotal o ho, htotal o' ho']
    exact hoo'
  · rw [htotal', gcHeaderSize_toNat]
    omega
  · rw [htotal o ho]
    exact h.room o ho
  · rw [marks, hself]
  · rw [marks, hheader o ho]
    exact h.unmarked o ho
  · rw [List.map_cons, List.sum_cons, htotal', List.map_congr_left htotal, ← h.bytes, Nat.add_comm]
    rfl
  · have hbalance := h.balance
    change gc.stats.bytesAllocated + totalSize size =
      gc.stats.bytesFreed + (gc.bytesAllocated + totalSize size)
    omega
  · have hcount := h.count
    change gc.stats.objectsAllocated + 1 = gc.stats.objectsFreed + (objs.length + 1)
    omega

theorem Heap.collectIfFull (h : gc.Heap objs) (size : UInt64) :
    ∃ gc' objs', gc.collectIfFull size = .ok gc' ∧ gc'.Heap objs' := by
  rw [GarbageCollector.collectIfFull]
  split
  · obtain ⟨gc', hcollect, hcollected⟩ := h.collect
    exact ⟨gc', _, hcollect, hcollected.heap⟩
  · exact ⟨gc, objs, rfl, h⟩

/-- The system allocator is asked after a collection for want of room. -/
def FreshFor (gc : GarbageCollector) (ptr : Nat) (size : UInt64) : Prop :=
  ∀ gc', gc.collectIfFull size = .ok gc' → gc'.Fresh ptr size

theorem freshFor_of_objects {size : UInt64} (hfull : gc.collectIfFull size = .ok gc)
    (hobjects : gc.Objects objs) (haligned : 8 ∣ ptr)
    (hapart : ∀ o ∈ objs, ptr + totalSize size ≤ o ∨ o + gc.total o ≤ ptr) :
    gc.FreshFor ptr size := by
  intro gc' hfull'
  obtain rfl := Except.ok.inj (hfull.symm.trans hfull')
  refine .inr ⟨haligned, fun objs' hobjects' ↦ ?_⟩
  rwa [hobjects'.unique hobjects]

/-- An allocation keeps the heap, and what it returns is behind the header of an object. -/
theorem Heap.alloc (h : gc.Heap objs) {size : UInt64} (hsize : size.toNat + 31 < 2 ^ 64)
    {typeTag : TypeTag} {first second : Nat} (hfresh : gc.FreshFor first size) {r : Option Nat}
    (halloc : gc.alloc size typeTag first second = .ok (r, gc')) :
    ∃ objs', gc'.Heap objs' ∧ ∀ ptr, r = some ptr → first ≠ 0 ∧ ptr = payload first := by
  obtain ⟨gc₁, objs₁, hfull, hheap⟩ := h.collectIfFull size
  have hfresh₁ := hfresh gc₁ hfull
  rw [GarbageCollector.alloc, hfull] at halloc
  replace halloc : (if isizeMax - 7 < totalSize size then Except.ok (none, gc₁)
      else if first = 0 then gc₁.collect >>= fun gc ↦
        if second = 0 then Except.ok (none, gc) else Except.error .nullWrite
      else Except.ok (some (payload first), gc₁.initHeader first size typeTag)) =
        Except.ok (r, gc') := halloc
  split at halloc
  case isTrue =>
    cases halloc
    exact ⟨objs₁, hheap, fun ptr hptr ↦ (nomatch hptr)⟩
  case isFalse =>
    by_cases hnull : first = 0
    · rw [if_pos hnull] at halloc
      obtain ⟨gc₂, hcollect, hcollected⟩ := hheap.collect
      rw [hcollect] at halloc
      by_cases hsecond : second = 0
      · replace halloc : Except.ok (none, gc₂) = Except.ok (r, gc') :=
          (if_pos hsecond).symm.trans halloc
        cases halloc
        exact ⟨_, hcollected.heap, fun ptr hptr ↦ (nomatch hptr)⟩
      · cases (if_neg hsecond).symm.trans halloc
    · rw [if_neg hnull] at halloc
      cases halloc
      exact ⟨_, hheap.initHeader hsize hnull hfresh₁ typeTag,
        fun ptr hptr ↦ ⟨hnull, (Option.some.inj hptr).symm⟩⟩

end GarbageCollector

end MiniLang.Runtime
