import MiniLang.Runtime.Rooting

/-!
# Collections and failed allocations over whole runs

After any sequence of calls a collection leaves exactly the objects with a root, in their order,
with their bytes, and the counters agree with them. An allocation that the system allocator refuses
collects and asks again; the second pointer is then dropped in favour of the first, which is null.

## Collections

The invariant of a session has the objects as a list, with blocks that are apart and counters that
are their sums. A collection marks the objects whose payload pointer is a root and unlinks the
others. It writes to headers only, and a header lies outside the payload of every object, so the
contents of a survivor are what they were (`Heap.contents`). The block of a freed object goes back
to the system allocator, and nothing is said about its bytes.

## Allocations

An allocation may collect twice: once because the threshold is passed, and once because the system
allocator has returned null. `Asks` has the collector at each of the two points. In the source the
pointer of the second request is bound to a new variable within the block of the condition, and the
header is then written through the first pointer. `recovers_iff` states the two answers of the
system allocator as inputs; the model is that of the code as it is written, without the
optimizations that a compiler may make of an unused result.
-/

namespace MiniLang.Runtime

open BlockList

namespace GarbageCollector

variable {gc gc' : GarbageCollector} {objs rest : List Nat} {o p q prev current fuel : Nat}

/-! ## Headers that a collection leaves alone -/

theorem header_release_of_ne (hq : prev = 0 ∨ q ≠ prev) :
    (gc.release prev p).header q = gc.header q := by
  rw [release]
  dsimp only
  split
  · rfl
  · next hprev => exact Function.update_of_ne (hq.resolve_left hprev) ..

theorem header_sweepFrom (hrest : LinkPath gc.next 0 current rest 0) (hnodup : rest.Nodup)
    (hprev : prev ∉ rest) (hsweep : gc.sweepFrom fuel prev current = .ok gc') (hq : q ∉ rest)
    (hne : prev = 0 ∨ q ≠ prev) : gc'.header q = gc.header q := by
  induction rest generalizing gc prev current fuel with
  | nil =>
    obtain rfl : current = 0 := hrest
    cases fuel with
    | zero => cases hsweep
    | succ fuel =>
      rw [sweepFrom, if_pos rfl] at hsweep
      cases hsweep
      rfl
  | cons o rest ih =>
    obtain ⟨rfl, hnull, hrest⟩ := hrest
    obtain ⟨hnot, hnodup⟩ := List.nodup_cons.mp hnodup
    obtain ⟨hqne, hq⟩ := not_or.mp (mt List.mem_cons.mpr hq)
    obtain ⟨hprevne, hprev⟩ := not_or.mp (mt List.mem_cons.mpr hprev)
    cases fuel with
    | zero => cases hsweep
    | succ fuel =>
      rw [sweepFrom, if_neg hnull] at hsweep
      dsimp only at hsweep
      split at hsweep
      · -- the object stays
        have hpath : LinkPath (gc.unmark current).next 0 (gc.next current) rest 0 := by
          rw [next_unmark]
          exact hrest
        rw [ih hpath hnodup hnot hsweep hq (.inr hqne)]
        exact Function.update_of_ne hqne ..
      · -- the object goes
        have hpath : LinkPath (gc.release prev current).next 0 (gc.next current) rest 0 :=
          hrest.congr fun o ho ↦ congrArg GcHeader.next
            (header_release_of_ne (.inr (ne_of_mem_of_not_mem ho hprev)))
        rw [ih hpath hnodup hprev hsweep hq hne]
        exact header_release_of_ne hne

theorem Heap.header_collect (h : gc.Heap objs) (hcollect : gc.collect = .ok gc') (hq : q ∉ objs) :
    gc'.header q = gc.header q := by
  have hmark : (gc.withMarks (markAll objs gc.roots gc.marks)).header q = gc.header q := by
    have hsame : markAll objs gc.roots gc.marks q = gc.marks q := by
      rw [markAll, decide_eq_false (fun hmem ↦ hq hmem.1), Bool.or_false]
    change { gc.header q with marked := markAll objs gc.roots gc.marks q } = gc.header q
    rw [hsame]
    rfl
  rw [GarbageCollector.collect, mark_eq h.objects h.listFuel] at hcollect
  obtain ⟨swept, hsweep, -⟩ := h.sweep
  have hnull : 0 ∉ objs := fun hmem ↦ h.objects.ne_null hmem rfl
  have hheader : swept.header q = (gc.withMarks (markAll objs gc.roots gc.marks)).header q :=
    header_sweepFrom h.objects h.nodup hnull hsweep hq (.inl rfl)
  change ((gc.withMarks (markAll objs gc.roots gc.marks)).sweep >>= fun gc ↦ pure (f := Except Fault)
    { gc with stats := { gc.stats with gcCycles := gc.stats.gcCycles + 1 } }) = _ at hcollect
  rw [hsweep] at hcollect
  cases hcollect
  exact hheader.trans hmark

/-! ## What an allocation does -/

/-- The collections of an allocation: `full` is the collector when the system allocator is asked,
with the objects `objs'`, and `again` when it is asked again. -/
structure Asks (gc : GarbageCollector) (objs : List Nat) (size : UInt64)
    (full again : GarbageCollector) (objs' : List Nat) : Prop where
  full_eq : gc.collectIfFull size = .ok full
  cases : full = gc ∧ objs' = objs ∨ gc.Collected full objs ∧ objs' = gc.rooted objs
  heap : full.Heap objs'
  again_eq : full.collect = .ok again
  collected : full.Collected again objs'

theorem Heap.asks (h : gc.Heap objs) (size : UInt64) :
    ∃ full again objs', gc.Asks objs size full again objs' := by
  obtain ⟨full, objs', hfull, hcases, hheap⟩ : ∃ full objs', gc.collectIfFull size = .ok full ∧
      (full = gc ∧ objs' = objs ∨ gc.Collected full objs ∧ objs' = gc.rooted objs) ∧
        full.Heap objs' := by
    rw [GarbageCollector.collectIfFull]
    split
    · obtain ⟨gc', hcollect, hcollected⟩ := h.collect
      exact ⟨gc', _, hcollect, .inr ⟨hcollected, rfl⟩, hcollected.heap⟩
    · exact ⟨gc, objs, rfl, .inl ⟨rfl, rfl⟩, h⟩
  obtain ⟨again, hagain, hcollected⟩ := hheap.collect
  exact ⟨full, again, objs', hfull, hcases, hheap, hagain, hcollected⟩

theorem Asks.alloc_eq {size : UInt64} {full again : GarbageCollector} {objs' : List Nat}
    (h : gc.Asks objs size full again objs') (typeTag : TypeTag) (first second : Nat) :
    gc.alloc size typeTag first second =
      if isizeMax - 7 < totalSize size then .ok (none, full)
      else if first = 0 then
        if second = 0 then .ok (none, again) else .error .nullWrite
      else .ok (some (payload first), full.initHeader first size typeTag) := by
  rw [GarbageCollector.alloc, h.full_eq]
  change (if isizeMax - 7 < totalSize size then Except.ok (none, full)
    else if first = 0 then full.collect >>= fun gc ↦
      if second = 0 then Except.ok (none, gc) else Except.error .nullWrite
    else Except.ok (some (payload first), full.initHeader first size typeTag)) = _
  rw [h.again_eq]
  rfl

/-! ## Sizes -/

/-- The payload of every object has the bytes asked for. -/
def Sized (gc : GarbageCollector) (objs : List Nat) : Prop :=
  ∀ o ∈ objs, payload o + (gc.header o).size.toNat ≤ o + gc.total o

theorem Collected.sized (h : gc.Collected gc' objs) (hsized : gc.Sized objs) :
    gc'.Sized (gc.rooted objs) := by
  intro o ho
  rw [total, (h.content o).1]
  exact hsized o (List.mem_filter.mp ho).1

theorem Asks.sized {size : UInt64} {full again : GarbageCollector} {objs' : List Nat}
    (h : gc.Asks objs size full again objs') (hsized : gc.Sized objs) : full.Sized objs' := by
  rcases h.cases with ⟨rfl, rfl⟩ | ⟨hcollected, rfl⟩
  · exact hsized
  · exact hcollected.sized hsized

theorem Heap.alloc_sized (h : gc.Heap objs) (hsized : gc.Sized objs) {size : UInt64}
    (hsize : size.toNat + 31 < 2 ^ 64) {typeTag : TypeTag} {first second : Nat}
    (hfresh : gc.FreshFor first size) {r : Option Nat}
    (halloc : gc.alloc size typeTag first second = .ok (r, gc')) :
    ∃ objs', gc'.Heap objs' ∧ gc'.Sized objs' := by
  obtain ⟨full, again, objs', hasks⟩ := h.asks size
  have hfull := hasks.sized hsized
  rw [hasks.alloc_eq] at halloc
  split at halloc
  · cases halloc
    exact ⟨objs', hasks.heap, hfull⟩
  · split at halloc
    · split at halloc
      · cases halloc
        exact ⟨_, hasks.collected.heap, hasks.collected.sized hfull⟩
      · cases halloc
    · next hnull =>
      cases halloc
      have hheap := hasks.heap.initHeader hsize hnull (hfresh full hasks.full_eq) typeTag
      refine ⟨_, hheap, List.forall_mem_cons.mpr ⟨?_, fun o ho ↦ ?_⟩⟩
      · have hself : (full.initHeader first size typeTag).header first =
            ⟨size, false, typeTag, full.allObjects⟩ := Function.update_self ..
        have hge := totalSize_ge hsize
        rw [total, hself, payload, gcHeaderSize_toNat]
        dsimp only
        omega
      · have hne : o ≠ first := ne_of_mem_of_not_mem ho (List.nodup_cons.mp hheap.nodup).1
        have hold : (full.initHeader first size typeTag).header o = full.header o :=
          Function.update_of_ne hne ..
        rw [total, hold]
        exact hfull o ho

end GarbageCollector

open GarbageCollector

variable {s s' : Session}

theorem Session.Step.sized {objs : List Nat} (hstep : s.Step s') (h : s.gc.Heap objs)
    (hsized : s.gc.Sized objs) : ∃ objs', s'.gc.Heap objs' ∧ s'.gc.Sized objs' := by
  cases hstep with
  | @newArray len first second arr gc hsize hfresh hnew =>
    have hbytes : (arrayHeaderSize + len * 8).toNat + 31 < 2 ^ 64 := by
      have hmul : (len * 8).toNat = len.toNat * 8 := by
        rw [UInt64.toNat_mul, show (8 : UInt64).toNat = 8 from rfl, Nat.mod_eq_of_lt (by omega)]
      rw [UInt64.toNat_add, hmul, show arrayHeaderSize.toNat = 16 from rfl,
        Nat.mod_eq_of_lt (by omega)]
      omega
    rw [GcArray.new] at hnew
    cases halloc : s.gc.alloc (arrayHeaderSize + len * 8) .intArray first second with
    | error fault =>
      rw [halloc] at hnew
      cases hnew
    | ok result =>
      obtain ⟨r, gc'⟩ := result
      rw [halloc] at hnew
      have hresult := h.alloc_sized hsized hbytes hfresh halloc
      cases r with
      | none =>
        cases hnew
        exact hresult
      | some raw =>
        cases hnew
        exact hresult
  | alloc hsize hfresh halloc => exact h.alloc_sized hsized hsize hfresh halloc
  | collect hcollect =>
    obtain ⟨gc', hcollect', hcollected⟩ := h.collect
    cases hcollect.symm.trans hcollect'
    exact ⟨_, hcollected.heap, hcollected.sized hsized⟩
  | addRoot ptr => exact ⟨objs, h.withRoots _, hsized⟩
  | removeRoot ptr => exact ⟨objs, h.withRoots _, hsized⟩
  | clearRoots => exact ⟨objs, h.withRoots _, hsized⟩

theorem Session.Reachable.sized (h : Session.Reachable s) :
    ∃ objs, s.gc.Heap objs ∧ s.gc.Sized objs := by
  induction h with
  | new gcThreshold header =>
    exact ⟨[], ⟨rfl, .nil, nofun, nofun, rfl, rfl, rfl⟩, nofun⟩
  | step _ hstep ih =>
    obtain ⟨objs, hheap, hsized⟩ := ih
    exact hstep.sized hheap hsized

/-! ## Collections -/

namespace GarbageCollector

/-- Memory before and after a collection: a byte may differ in a header that has changed, and in the
block of an object that is gone, which belongs to the system allocator again. -/
def Rewrites (gc gc' : GarbageCollector) (objs objs' : List Nat) (before after : Nat → UInt8) :
    Prop :=
  ∀ x, after x ≠ before x →
    (∃ q, gc'.header q ≠ gc.header q ∧ q ≤ x ∧ x < q + gcHeaderSize.toNat) ∨
      ∃ o ∈ objs, o ∉ objs' ∧ o ≤ x ∧ x < o + gc.total o

/-- The objects `objs` of `gc` have been collected: those with a root are left. -/
structure CollectionLaw (gc gc' : GarbageCollector) (objs : List Nat) : Prop where
  objects : gc.Objects objs
  survivors : gc'.Objects (objs.filter fun o ↦ decide (payload o ∈ gc.roots))
  unmarked : ∀ o ∈ gc.rooted objs, gc'.marks o = false
  header : ∀ o ∈ gc.rooted objs, (gc'.header o).size = (gc.header o).size ∧
    (gc'.header o).typeTag = (gc.header o).typeTag
  contents : ∀ before after, Rewrites gc gc' objs (gc.rooted objs) before after →
    ∀ o ∈ gc.rooted objs, ∀ x, payload o ≤ x → x < payload o + (gc.header o).size.toNat →
      after x = before x
  roots_eq : gc'.roots = gc.roots
  bytes : gc'.bytesAllocated = ((gc.rooted objs).map gc'.total).sum
  balance : gc'.stats.bytesAllocated = gc'.stats.bytesFreed + gc'.bytesAllocated

variable {gc gc' : GarbageCollector} {objs : List Nat}

/-- The blocks of two objects. -/
theorem Heap.apart_of_ne (h : gc.Heap objs) {o o' : Nat} (ho : o ∈ objs) (ho' : o' ∈ objs)
    (hne : o ≠ o') : o + gc.total o ≤ o' ∨ o' + gc.total o' ≤ o := by
  have : Std.Symm fun p q ↦ p + gc.total p ≤ q ∨ q + gc.total q ≤ p := ⟨fun _ _ hpq ↦ hpq.symm⟩
  exact h.apart.forall ho ho' hne

/-- Neither a header that changes nor the block of a freed object reaches into a survivor. -/
theorem Heap.contents (h : gc.Heap objs) (hsized : gc.Sized objs) (hcollect : gc.collect = .ok gc')
    {before after : Nat → UInt8} (hrewrites : Rewrites gc gc' objs (gc.rooted objs) before after)
    {o x : Nat} (ho : o ∈ gc.rooted objs) (hlo : payload o ≤ x)
    (hhi : x < payload o + (gc.header o).size.toNat) : after x = before x := by
  have hmem : o ∈ objs := (List.mem_filter.mp ho).1
  have hroom := hsized o hmem
  have hpayload : payload o = o + 24 := rfl
  by_contra hne
  rcases hrewrites x hne with ⟨q, hq, hqlo, hqhi⟩ | ⟨q, hq, hgone, hqlo, hqhi⟩
  · rw [gcHeaderSize_toNat] at hqhi
    have hqmem : q ∈ objs := by
      by_contra hnot
      exact hq (h.header_collect hcollect hnot)
    have hqroom := h.room q hqmem
    rw [gcHeaderSize_toNat] at hqroom
    by_cases heq : o = q
    · omega
    · rcases h.apart_of_ne hmem hqmem heq with hapart | hapart <;> omega
  · have heq : o ≠ q := fun heq ↦ hgone (heq ▸ ho)
    rcases h.apart_of_ne hmem hq heq with hapart | hapart <;> omega

theorem Heap.collectionLaw (h : gc.Heap objs) (hsized : gc.Sized objs) :
    ∃ gc', gc.collect = .ok gc' ∧ gc.CollectionLaw gc' objs := by
  obtain ⟨gc', hcollect, hcollected⟩ := h.collect
  have hheap := hcollected.heap
  exact ⟨gc', hcollect, h.objects, hheap.objects, hheap.unmarked, fun o _ ↦ hcollected.content o,
    fun _ _ hrewrites _ ho _ hlo hhi ↦ h.contents hsized hcollect hrewrites ho hlo hhi,
    hcollected.roots_eq, hheap.bytes, hheap.balance⟩

end GarbageCollector

/-- **Collector correctness**: whatever calls came before, a collection ends and leaves the objects
with a root as they were. An allocation makes this collection or none before it asks for a block. -/
theorem collectionLaw_of_reachable (h : Session.Reachable s) :
    ∃ gc' objs, s.gc.collect = .ok gc' ∧ s.gc.CollectionLaw gc' objs ∧
      ∀ size, s.gc.collectIfFull size = .ok s.gc ∨ s.gc.collectIfFull size = .ok gc' := by
  obtain ⟨objs, hheap, hsized⟩ := h.sized
  obtain ⟨gc', hcollect, hlaw⟩ := hheap.collectionLaw hsized
  refine ⟨gc', objs, hcollect, hlaw, fun size ↦ ?_⟩
  rw [GarbageCollector.collectIfFull]
  split
  · exact .inr hcollect
  · exact .inl rfl

/-- Of three objects the one in the middle has no root. -/
theorem collectionLaw_of_reachable_rooted : ∃ gc', rootedSession.gc.collect = .ok gc' ∧
    rootedSession.gc.CollectionLaw gc' [12288, 8192, 4096] ∧ gc'.Objects [12288, 4096] ∧
      gc'.bytesAllocated = 96 ∧ gc'.stats.bytesFreed = 48 := by
  obtain ⟨gc', objs, hcollect, hlaw, -⟩ := collectionLaw_of_reachable rootedSession_reachable
  rw [hlaw.objects.unique rootedSession_objects] at hlaw
  have hbytes : rootedSession.gc.collect.map (fun gc ↦ (gc.bytesAllocated, gc.stats.bytesFreed)) =
    .ok (96, 48) := by decide +kernel
  rw [hcollect] at hbytes
  obtain ⟨hallocated, hfreed⟩ := Prod.mk.inj (Except.ok.inj hbytes)
  exact ⟨gc', hcollect, hlaw, hlaw.survivors, hallocated, hfreed⟩

/-! ## Failed allocations -/

namespace GarbageCollector

/-- The collector when the system allocator is asked a second time. -/
def Retried (gc again : GarbageCollector) (size : UInt64) : Prop :=
  ∃ full, gc.collectIfFull size = .ok full ∧ full.collect = .ok again

/-- What an allocation does when the system allocator answers with `first`, and then, if that is
null, with `second`. It is not asked for a block that makes no layout. -/
structure Recovers (gc : GarbageCollector) (size : UInt64) (typeTag : TypeTag)
    (first second : Nat) : Prop where
  retried : totalSize size ≤ isizeMax - 7 → first = 0 → second ≠ 0 →
    ∃ again, gc.Retried again size ∧ gc.alloc size typeTag first second =
      .ok (some (payload second), again.initHeader second size typeTag)
  refused : totalSize size ≤ isizeMax - 7 → first = 0 → second = 0 → ∀ objs, gc.Objects objs →
    ∃ again, gc.alloc size typeTag first second = .ok (none, again) ∧
      again.Objects (gc.rooted objs) ∧
      again.bytesAllocated = ((gc.rooted objs).map again.total).sum ∧
      again.stats.bytesAllocated = again.stats.bytesFreed + again.bytesAllocated
  no_nullWrite : gc.alloc size typeTag first second ≠ .error .nullWrite

variable {gc : GarbageCollector} {objs : List Nat}

/-- A second collection frees nothing more. -/
theorem Asks.again_objects {size : UInt64} {full again : GarbageCollector} {objs' : List Nat}
    (h : gc.Asks objs size full again objs') : full.rooted objs' = gc.rooted objs := by
  rcases h.cases with ⟨rfl, rfl⟩ | ⟨hcollected, rfl⟩
  · rfl
  · rw [rooted, rooted, hcollected.roots_eq, List.filter_filter]
    simp only [Bool.and_self]

end GarbageCollector

/-- **Exactly when an allocation recovers**: unless the second answer is the one that has a block. -/
theorem recovers_iff (h : Session.Reachable s) (size : UInt64) (typeTag : TypeTag)
    (first second : Nat) : s.gc.Recovers size typeTag first second ↔
      isizeMax - 7 < totalSize size ∨ first ≠ 0 ∨ second = 0 := by
  obtain ⟨objs, hheap, -⟩ := h.sized
  obtain ⟨full, again, objs', hasks⟩ := hheap.asks size
  have halloc := hasks.alloc_eq typeTag first second
  constructor
  · intro hrecovers
    by_contra hcondition
    obtain ⟨hlayout, hfirst, hsecond⟩ : ¬isizeMax - 7 < totalSize size ∧ first = 0 ∧
        second ≠ 0 := by tauto
    refine hrecovers.no_nullWrite ?_
    rw [halloc, if_neg hlayout, if_pos hfirst, if_neg hsecond]
  · intro hcondition
    refine ⟨fun hlayout hfirst hsecond ↦ ?_, fun hlayout hfirst hsecond objs₁ hobjs ↦ ?_, ?_⟩
    · rcases hcondition with hlt | hne | hzero
      · exact absurd hlt (Nat.not_lt.mpr hlayout)
      · exact absurd hfirst hne
      · exact absurd hzero hsecond
    · rw [if_neg (Nat.not_lt.mpr hlayout), if_pos hfirst, if_pos hsecond] at halloc
      have hagain := hasks.collected.heap
      rw [hasks.again_objects, hheap.objects.unique hobjs] at hagain
      exact ⟨again, halloc, hagain.objects, hagain.bytes, hagain.balance⟩
    · rw [halloc]
      split
      · exact nofun
      · split
        · split
          · exact nofun
          · next hlayout hfirst hsecond => tauto
        · exact nofun

/-- An empty collector writes through the null pointer. -/
theorem not_recovers : ¬∀ s : Session, s.Reachable → ∀ (size : UInt64) (typeTag : TypeTag)
    (first second : Nat), size.toNat + 31 < 2 ^ 64 → s.gc.FreshFor first size →
      (∀ again, s.gc.Retried again size → again.Fresh second size) →
        s.gc.Recovers size typeTag first second := by
  intro h
  have hobjects (gc : GarbageCollector) (hempty : gc.allObjects = 0) {objs : List Nat}
      (hobjs : gc.Objects objs) : objs = [] :=
    hobjs.unique (show gc.Objects [] from hempty)
  refine (h ⟨.new 1000 fun _ ↦ ⟨0, false, .blob, 0⟩, []⟩ (.new 1000 _) 8 .blob 0 4096 (by decide)
    (fun _ _ ↦ .inl rfl) ?_).no_nullWrite rfl
  rintro again ⟨full, hfull, hcollect⟩
  cases hfull
  cases hcollect
  refine .inr ⟨by decide, fun objs hobjs o ho ↦ ?_⟩
  rw [hobjects _ rfl hobjs] at ho
  cases ho

/-- The first answer is a block. -/
theorem recovers_iff_sample : sampleSession.gc.Recovers 8 .blob 8192 0 :=
  (recovers_iff sampleSession_reachable 8 .blob 8192 0).mpr (.inr (.inl (by decide)))

end MiniLang.Runtime
