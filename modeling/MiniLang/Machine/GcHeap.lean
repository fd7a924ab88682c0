import MiniLang.Machine.GcCollector

/-!
# Heap soundness

The heap invariant holds in every state of every run of the garbage-collected machine, whatever the
program: no reference a program can get hold of dangles, the free list and the id counter agree with
the heap, and the heap grows no further than the rooted arrays make necessary.

## Values in hand

An instruction pops a reference and uses it later. In between no root may refer to the array any
more, and the invariant has to keep it alive all the same, so `Keeps` carries the list of values
that the instruction has in hand before and after an operation. A pop moves a value from the stack
to the list, a push takes it back. An allocation is allowed only with an empty list, which is the
reason why a collection in the middle of an instruction frees nothing that the instruction still
needs: in the source the size is the instruction's own operand and nothing has been popped.

## The bound

`R` is the largest number of arrays rooted at any collection so far. A collection leaves the rooted
arrays only, and the heap gets a new slot only if no free one is left after it, hence the bound
`max 8 (R + 1)`. `R` grows along a run, so `Reachable` carries it as an index next to the state, and
the initialisation of the global arrays, which may collect as well, starts it.
-/

namespace MiniLang

namespace GcVm

open SlotTable (Tracked occupied mem_occupied)

variable {R R' : Nat} {held held' : List GcValue} {vm vm' : GcVm} {program : CompiledProgram}

/-! ## Instructions -/

/-- Not the trap of a reference to an array that is not there. -/
def NotDangling : Stop → Prop
  | .trap _ message => message ≠ "Invalid array reference"
  | .panic => True

theorem NotDangling.trap {code : TrapCode} {message : String}
    (h : message ≠ "Invalid array reference") : NotDangling (.trap code message) := h

/-- `x` keeps the heap invariant; `held` and `held'` are the values the instruction has in hand
before and after. -/
abbrev Keeps {α : Type} (R : Nat) (held : List GcValue) (x : GcVmM α) (held' : α → List GcValue) :
    Prop :=
  EStateM.Triple (HeapInv R held) x (fun a ↦ HeapInv R (held' a))
    fun e vm ↦ NotDangling e ∧ HeapInv R [] vm

namespace HeapInv

/-- The invariant depends on the heap and on what the roots refer to. -/
theorem of_roots (h : HeapInv R held vm) (hheap : vm'.heapArrays = vm.heapArrays)
    (hfree : vm'.freeArraySlots = vm.freeArraySlots) (hnext : vm'.nextArrayId = vm.nextArrayId)
    (hthreshold : vm'.gcThreshold = vm.gcThreshold)
    (hroots : ∀ id, .arrayRef id ∈ held' ∨ vm'.Holds (.arrayRef id) →
      .arrayRef id ∈ held ∨ vm.Holds (.arrayRef id)) : HeapInv R held' vm' where
  live id hid := hheap ▸ h.live id (hroots id hid)
  tracked := hheap ▸ hfree ▸ h.tracked
  nextArrayId := hheap ▸ hnext ▸ h.nextArrayId
  threshold := hthreshold ▸ h.threshold
  bounded := hheap ▸ h.bounded

theorem cons_int (h : HeapInv R held vm) (value : Int) : HeapInv R (.int value :: held) vm := by
  refine h.of_roots rfl rfl rfl rfl fun id hid ↦ hid.imp_left fun hmem ↦ ?_
  rcases List.mem_cons.mp hmem with heq | hmem
  · cases heq
  · exact hmem

theorem drop (h : HeapInv R held vm) : HeapInv R [] vm := h.mono le_rfl (List.nil_subset _)

end HeapInv

namespace Keeps

variable {α β : Type} {a : α} {mid : α → List GcValue} {post : β → List GcValue} {x : GcVmM α}
  {f : α → GcVmM β}

theorem bind (hx : Keeps R held x mid) (hf : ∀ a, Keeps R (mid a) (f a) post) :
    Keeps R held (x >>= f) post := EStateM.Triple.bind hx hf

theorem pure {post : α → List GcValue} (h : post a ⊆ held) :
    Keeps R held (Pure.pure a : GcVmM α) post :=
  EStateM.Triple.pure fun _ hvm ↦ hvm.mono le_rfl h

theorem trap {code : TrapCode} {message : String} {post : α → List GcValue}
    (h : message ≠ "Invalid array reference") :
    Keeps R held (GcVm.trap code message : GcVmM α) post :=
  EStateM.Triple.throw fun _ hvm ↦ ⟨h, hvm.drop⟩

theorem panic {post : α → List GcValue} : Keeps R held (throw .panic : GcVmM α) post :=
  EStateM.Triple.throw fun _ hvm ↦ ⟨trivial, hvm.drop⟩

theorem get_bind {f : GcVm → GcVmM β}
    (h : ∀ vm, HeapInv R held vm → EStateM.Triple (· = vm) (f vm) (fun b ↦ HeapInv R (post b))
      fun e vm ↦ NotDangling e ∧ HeapInv R [] vm) :
    Keeps R held (get >>= f) post :=
  fun vm hvm ↦ h vm hvm vm rfl

end Keeps

/-! ### Primitives -/

theorem toString_string (s : String) : toString s = s := rfl

theorem get_set {frame : GcCallFrame} {slot i : Nat} {value v : GcValue}
    (h : (frame.set slot value).get i = some v) : v = value ∨ frame.get i = some v := by
  rw [GcCallFrame.get, GcCallFrame.set, List.getElem?_set, List.getElem?_set] at h
  by_cases hi : slot = i
  · subst hi
    simp only [if_true] at h
    split at h
    · split at h
      · split at h
        · exact .inl (Option.some_inj.mp h).symm
        · cases h
      · cases h
    · cases h
  · simp only [if_neg hi] at h
    exact .inr h

theorem get_initParams {frame : GcCallFrame} {args : List GcValue} {slot i : Nat} {v : GcValue}
    (h : (frame.initParams slot args).get i = some v) : v ∈ args ∨ frame.get i = some v := by
  induction args generalizing frame slot with
  | nil => exact .inr h
  | cons arg args ih =>
    rcases ih h with hargs | hset
    · exact .inl (List.mem_cons_of_mem _ hargs)
    · rcases get_set hset with rfl | hframe
      · exact .inl List.mem_cons_self
      · exact .inr hframe

theorem get_new (localCount returnPc slot : Nat) :
    (GcCallFrame.new localCount returnPc).get slot = none := by
  rw [GcCallFrame.get, GcCallFrame.new, if_neg]
  rw [List.getElem?_replicate]
  split <;> simp

namespace Keeps

theorem pop : Keeps R held GcVm.pop fun value ↦ value :: held := by
  refine get_bind fun vm hvm ↦ ?_
  split
  · rintro _ rfl
    exact ⟨NotDangling.trap (by decide), hvm.drop⟩
  · next value stack hstack =>
    rintro _ rfl
    refine hvm.of_roots rfl rfl rfl rfl fun id hid ↦ ?_
    rw [Holds, hstack]
    rcases hid with hid | hid | hid
    · rcases List.mem_cons.mp hid with rfl | hid
      · exact .inr (.inl List.mem_cons_self)
      · exact .inl hid
    · exact .inr (.inl (List.mem_cons_of_mem _ hid))
    · exact .inr (.inr hid)

theorem popInt : Keeps R held GcVm.popInt fun _ ↦ held :=
  pop.bind fun _ ↦ pure (List.subset_cons_self _ _)

theorem push {value : GcValue} (h : value ∈ held) : Keeps R held (GcVm.push value) fun _ ↦ [] := by
  refine get_bind fun vm hvm ↦ ?_
  split
  · rintro _ rfl
    refine ⟨?_, hvm.drop⟩
    apply mt (congrArg String.toList)
    simp [toString_string]
  · rintro _ rfl
    refine hvm.of_roots rfl rfl rfl rfl fun id hid ↦ ?_
    rcases hid.resolve_left List.not_mem_nil with hid | hid
    · rcases List.mem_cons.mp hid with rfl | hid
      · exact .inl h
      · exact .inr (.inl hid)
    · exact .inr (.inr hid)

theorem pushInt {value : Int} : Keeps R held (GcVm.push (.int value)) fun _ ↦ [] :=
  EStateM.Triple.consequence (push List.mem_cons_self) (fun _ hvm ↦ hvm.cons_int value)
    (fun _ _ hvm ↦ hvm) fun _ _ hvm ↦ hvm

/-- The values of the current frame may be used like values popped. -/
theorem currentFrame :
    Keeps R held GcVm.currentFrame fun frame ↦ initialisedLocals frame ++ held := by
  refine get_bind fun vm hvm ↦ ?_
  split
  · rintro _ rfl
    exact ⟨NotDangling.trap (by decide), hvm.drop⟩
  · next frame frames hstack =>
    rintro _ rfl
    refine hvm.of_roots rfl rfl rfl rfl fun id hid ↦ ?_
    rcases hid with hid | hid
    · rcases List.mem_append.mp hid with hid | hid
      · obtain ⟨slot, hslot⟩ := mem_initialisedLocals.mp hid
        exact .inr (.inr (.inr ⟨frame, hstack ▸ List.mem_cons_self, slot, hslot⟩))
      · exact .inl hid
    · exact .inr hid

theorem currentLocalSlot (rawSlot : Int32) :
    Keeps R held (GcVm.currentLocalSlot rawSlot) fun _ ↦ held := by
  rw [GcVm.currentLocalSlot]
  split
  · refine trap (mt (congrArg String.toList) ?_)
    simp [toString_string]
  · refine currentFrame.bind fun frame ↦ ?_
    split
    · refine trap (mt (congrArg String.toList) ?_)
      simp [toString_string]
    · exact pure (List.subset_append_right _ _)

theorem globalSlot (rawSlot : Int32) : Keeps R held (GcVm.globalSlot rawSlot) fun _ ↦ held := by
  rw [GcVm.globalSlot]
  split
  · refine trap (mt (congrArg String.toList) ?_)
    simp [toString_string]
  · refine get_bind fun vm hvm ↦ ?_
    dsimp only
    split
    · rintro _ rfl
      refine ⟨mt (congrArg String.toList) ?_, hvm.drop⟩
      simp [toString_string]
    · rintro _ rfl
      exact hvm

theorem arraySize (rawSize : Int32) : Keeps R held (GcVm.arraySize rawSize) fun _ ↦ held := by
  rw [GcVm.arraySize]
  split
  · refine trap (mt (congrArg String.toList) ?_)
    simp [toString_string]
  · exact pure (List.Subset.refl _)

theorem globalArrayRange (rawBaseSlot rawArraySize : Int32) :
    Keeps R held (GcVm.globalArrayRange rawBaseSlot rawArraySize) fun _ ↦ held := by
  refine (globalSlot rawBaseSlot).bind fun baseSlot ↦ (arraySize rawArraySize).bind fun size ↦ ?_
  split
  · exact trap (by decide)
  · refine get_bind fun vm hvm ↦ ?_
    dsimp only
    split
    · rintro _ rfl
      refine ⟨mt (congrArg String.toList) ?_, hvm.drop⟩
      simp [toString_string]
    · rintro _ rfl
      exact hvm

theorem arrayIndex (rawIndex : Int) (size : Nat) :
    Keeps R held (GcVm.arrayIndex rawIndex size) fun _ ↦ held := by
  rw [GcVm.arrayIndex]
  split
  · refine trap (mt (congrArg String.toList) ?_)
    simp [toString_string]
  · exact pure (List.Subset.refl _)

theorem readGlobal (slot : Nat) : Keeps R held (GcVm.readGlobal slot) fun value ↦ value :: held := by
  refine get_bind fun vm hvm ↦ ?_
  split
  · next value hvalue =>
    rintro _ rfl
    refine hvm.of_roots rfl rfl rfl rfl fun id hid ↦ ?_
    rcases hid with hid | hid
    · rcases List.mem_cons.mp hid with rfl | hid
      · exact .inr (.inr (.inl (List.mem_of_getElem? hvalue)))
      · exact .inl hid
    · exact .inr hid
  · rintro _ rfl
    exact ⟨trivial, hvm.drop⟩

theorem writeGlobal {value : GcValue} (slot : Nat) (h : value ∈ held) :
    Keeps R held (GcVm.writeGlobal slot value) fun _ ↦ [] := by
  refine get_bind fun vm hvm ↦ ?_
  split
  · rintro _ rfl
    refine hvm.of_roots rfl rfl rfl rfl fun id hid ↦ ?_
    rcases hid.resolve_left List.not_mem_nil with hid | hid | hid
    · exact .inr (.inl hid)
    · rcases List.mem_or_eq_of_mem_set hid with hid | rfl
      · exact .inr (.inr (.inl hid))
      · exact .inl h
    · exact .inr (.inr (.inr hid))
  · rintro _ rfl
    exact ⟨trivial, hvm.drop⟩

theorem writeGlobalInt (slot : Nat) (value : Int) :
    Keeps R held (GcVm.writeGlobal slot (.int value)) fun _ ↦ [] :=
  EStateM.Triple.consequence (writeGlobal slot List.mem_cons_self) (fun _ hvm ↦ hvm.cons_int value)
    (fun _ _ hvm ↦ hvm) fun _ _ hvm ↦ hvm

theorem setLocal {value : GcValue} (slot : Nat) (h : value ∈ held) :
    Keeps R held (GcVm.setLocal slot value) fun _ ↦ [] := by
  refine get_bind fun vm hvm ↦ ?_
  split
  · rintro _ rfl
    exact ⟨NotDangling.trap (by decide), hvm.drop⟩
  · next frame frames hstack =>
    rintro _ rfl
    refine hvm.of_roots rfl rfl rfl rfl fun id hid ↦ ?_
    rcases hid.resolve_left List.not_mem_nil with hid | hid | ⟨frame', hmem, i, hi⟩
    · exact .inr (.inl hid)
    · exact .inr (.inr (.inl hid))
    · rcases List.mem_cons.mp hmem with rfl | hmem
      · rcases get_set hi with rfl | hi
        · exact .inl h
        · exact .inr (.inr (.inr ⟨frame, hstack ▸ List.mem_cons_self, i, hi⟩))
      · exact .inr (.inr (.inr ⟨frame', hstack ▸ List.mem_cons_of_mem _ hmem, i, hi⟩))

/-- A reference in hand leads to an array. -/
theorem exists_getArray {id : Nat} (hvm : HeapInv R held vm) (h : .arrayRef id ∈ held) :
    ∃ arr, vm.getArray id = some arr :=
  Option.isSome_iff_exists.mp (mem_occupied.mp (hvm.live id (.inl h)))

theorem loadElement {id : Nat} (index : Nat) (h : .arrayRef id ∈ held) :
    Keeps R held (GcVm.loadElement id index) fun value ↦ value :: held := by
  refine get_bind fun vm hvm ↦ ?_
  obtain ⟨arr, harr⟩ := exists_getArray hvm h
  rw [harr]
  dsimp only
  split
  · rintro _ rfl
    exact hvm.cons_int _
  · rintro _ rfl
    refine ⟨mt (congrArg String.toList) ?_, hvm.drop⟩
    simp [toString_string]

theorem storeElement {id : Nat} (index : Nat) (value : Int) (h : .arrayRef id ∈ held) :
    Keeps R held (GcVm.storeElement id index value) fun _ ↦ [] := by
  refine get_bind fun vm hvm ↦ ?_
  obtain ⟨arr, harr⟩ := exists_getArray hvm h
  rw [harr]
  dsimp only
  split
  · rintro _ rfl
    have hid := hvm.live id (.inl h)
    refine ⟨?_, hvm.tracked.overwrite hid, ?_, hvm.threshold, ?_⟩
    · intro id' hid'
      have hlive := hvm.live id' (.inr (hid'.resolve_left List.not_mem_nil))
      rw [mem_occupied, List.getElem?_set]
      by_cases heq : id = id'
      · simp [heq.symm, SlotTable.lt_of_mem_occupied hid]
      · rwa [if_neg heq, ← mem_occupied]
    · exact hvm.nextArrayId.trans List.length_set.symm
    · exact List.length_set.trans_le hvm.bounded
  · rintro _ rfl
    refine ⟨mt (congrArg String.toList) ?_, hvm.drop⟩
    simp [toString_string]

theorem popArgs (count : Nat) (args : List GcValue) :
    Keeps R (args ++ held) (GcVm.popArgs count args) fun args ↦ args ++ held := by
  induction count generalizing args with
  | zero => exact pure (List.Subset.refl _)
  | succ count ih => exact pop.bind fun arg ↦ ih (arg :: args)

end Keeps

/-! ### Opcodes -/

namespace Keeps

theorem binary (f : Int → Int → Int) : Keeps R held (GcVm.binary f) fun _ ↦ [] :=
  popInt.bind fun _ ↦ popInt.bind fun _ ↦ pushInt.bind fun _ ↦ pure (List.Subset.refl _)

theorem logical (f : Bool → Bool → Bool) : Keeps R held (GcVm.logical f) fun _ ↦ [] :=
  pop.bind fun _ ↦ pop.bind fun _ ↦ pushInt.bind fun _ ↦ pure (List.Subset.refl _)

/-- A state change that leaves the heap alone and adds no root. -/
theorem update {g : GcVm → GcVm} (h : ∀ vm, HeapInv R held vm → HeapInv R held' (g vm)) :
    Keeps R held (modify g) fun _ ↦ held' :=
  fun vm hvm ↦ h vm hvm

theorem jump (target : Nat) :
    Keeps R held (modify fun vm ↦ { vm with pc := target } : GcVmM Unit) fun _ ↦ held :=
  update fun _ hvm ↦ hvm.of_roots rfl rfl rfl rfl fun _ hid ↦ hid

theorem ret : Keeps R held GcVm.ret fun _ ↦ [] := by
  refine pop.bind fun value ↦ get_bind fun vm hvm ↦ ?_
  split
  · rintro _ rfl
    exact ⟨trivial, hvm.drop⟩
  · next frame frames hstack =>
    have hdrop : HeapInv R (value :: held) { vm with callStack := frames } := by
      refine hvm.of_roots rfl rfl rfl rfl fun id hid ↦ hid.imp_right fun hid ↦ ?_
      rcases hid with hid | hid | ⟨frame', hmem, hslot⟩
      · exact .inl hid
      · exact .inr (.inl hid)
      · exact .inr (.inr ⟨frame', hstack ▸ List.mem_cons_of_mem _ hmem, hslot⟩)
    have hframes : EStateM.Triple (· = vm)
        (modify fun vm ↦ { vm with callStack := frames } : GcVmM Unit)
        (fun _ ↦ HeapInv R (value :: held)) fun e vm ↦ NotDangling e ∧ HeapInv R [] vm := by
      rintro _ rfl
      exact hdrop
    refine EStateM.Triple.bind hframes fun _ ↦ ?_
    have hpush : Keeps R (value :: held) (do GcVm.push value; return false) fun _ ↦ [] :=
      (push List.mem_cons_self).bind fun _ ↦ pure (List.Subset.refl _)
    split
    · exact (jump frame.returnPc).bind fun _ ↦ hpush
    · exact hpush

theorem call (program : CompiledProgram) (arg1 arg2 : Int32) :
    Keeps R [] (GcVm.call program arg1 arg2) fun _ ↦ [] := by
  rw [GcVm.call]
  split
  · refine trap (mt (congrArg String.toList) ?_)
    simp [toString_string]
  split
  · refine trap (mt (congrArg String.toList) ?_)
    simp [toString_string]
  dsimp only
  split
  · refine trap (mt (congrArg String.toList) ?_)
    simp [toString_string]
  refine get_bind fun vm hvm ↦ ?_
  split
  · rintro _ rfl
    refine ⟨mt (congrArg String.toList) ?_, hvm.drop⟩
    simp [toString_string]
  split
  · rintro _ rfl
    refine ⟨mt (congrArg String.toList) ?_, hvm.drop⟩
    simp [toString_string]
  · refine EStateM.Triple.consequence (P := HeapInv R []) ?_ (fun _ heq ↦ heq ▸ hvm)
      (fun _ _ h ↦ h) fun _ _ h ↦ h
    refine (popArgs _ []).bind fun args ↦ (update fun vm hvm ↦ ?_).bind fun _ ↦
      pure (List.Subset.refl _)
    refine hvm.of_roots rfl rfl rfl rfl fun id hid ↦ ?_
    rcases hid.resolve_left List.not_mem_nil with hid | hid | ⟨frame, hmem, slot, hslot⟩
    · exact .inr (.inl hid)
    · exact .inr (.inr (.inl hid))
    · rcases List.mem_cons.mp hmem with rfl | hmem
      · rcases get_initParams hslot with hargs | hnew
        · exact .inl (List.mem_append_left _ hargs)
        · rw [get_new] at hnew
          cases hnew
      · exact .inr (.inr (.inr ⟨frame, hmem, slot, hslot⟩))

/-- The instruction is done with the values in hand. -/
theorem done {advance : Bool} : Keeps R held (Pure.pure advance) fun _ ↦ [] :=
  pure (List.nil_subset _)

variable {arg1 arg2 : Int32}

/-- A local that is initialised is a root, and may be pushed. -/
theorem execLoadLocal :
    Keeps R [] (GcVm.executeInstruction program .loadLocal arg1 arg2) fun _ ↦ [] := by
  refine (currentLocalSlot arg1).bind fun slot ↦ currentFrame.bind fun frame ↦ ?_
  split
  · next value hvalue =>
    have hmem := mem_initialisedLocals.mpr ⟨slot, hvalue⟩
    exact (push (List.mem_append_left _ hmem)).bind fun _ ↦ done
  · refine trap (mt (congrArg String.toList) ?_)
    simp [toString_string]

/-- A global array is on the heap or, without a reference, in the globals themselves. -/
theorem execArrayLoad :
    Keeps R [] (GcVm.executeInstruction program .arrayLoad arg1 arg2) fun _ ↦ [] := by
  refine (globalArrayRange arg1 arg2).bind fun range ↦ popInt.bind fun raw ↦
    (arrayIndex raw range.2).bind fun index ↦ (readGlobal range.1).bind fun base ↦ ?_
  split
  · exact (loadElement index List.mem_cons_self).bind fun _ ↦
      (push List.mem_cons_self).bind fun _ ↦ done
  · exact (readGlobal _).bind fun _ ↦ (push List.mem_cons_self).bind fun _ ↦ done

theorem execArrayStore :
    Keeps R [] (GcVm.executeInstruction program .arrayStore arg1 arg2) fun _ ↦ [] := by
  refine (globalArrayRange arg1 arg2).bind fun range ↦ popInt.bind fun value ↦ popInt.bind fun raw ↦
    (arrayIndex raw range.2).bind fun index ↦ (readGlobal range.1).bind fun base ↦ ?_
  split
  · exact (storeElement index value List.mem_cons_self).bind fun _ ↦ done
  · exact (writeGlobalInt _ value).bind fun _ ↦ done

/-- An array in a local is there, since the local is a root. -/
theorem execLocalArrayLoad :
    Keeps R [] (GcVm.executeInstruction program .localArrayLoad arg1 arg2) fun _ ↦ [] := by
  refine (currentLocalSlot arg1).bind fun slot ↦ (arraySize arg2).bind fun size ↦
    popInt.bind fun raw ↦ (arrayIndex raw size).bind fun index ↦ currentFrame.bind fun frame ↦ ?_
  split
  · next id hbase =>
    have hmem := mem_initialisedLocals.mpr ⟨slot, hbase⟩
    exact (loadElement index (List.mem_append_left _ hmem)).bind fun _ ↦
      (push List.mem_cons_self).bind fun _ ↦ done
  · exact pushInt.bind fun _ ↦ done
  · refine trap (mt (congrArg String.toList) ?_)
    simp [toString_string]

theorem execLocalArrayStore :
    Keeps R [] (GcVm.executeInstruction program .localArrayStore arg1 arg2) fun _ ↦ [] := by
  refine (currentLocalSlot arg1).bind fun slot ↦ (arraySize arg2).bind fun size ↦
    popInt.bind fun value ↦ popInt.bind fun raw ↦ (arrayIndex raw size).bind fun index ↦
    currentFrame.bind fun frame ↦ ?_
  split
  · next id hbase =>
    have hmem := mem_initialisedLocals.mpr ⟨slot, hbase⟩
    exact (storeElement index value (List.mem_append_left _ hmem)).bind fun _ ↦ done
  · exact trap (by decide)

/-- The copy is of a value that stays on the stack. -/
theorem execDup : Keeps R [] (GcVm.executeInstruction program .dup arg1 arg2) fun _ ↦ [] := by
  refine get_bind fun vm hvm ↦ ?_
  split
  · rintro _ rfl
    exact ⟨NotDangling.trap (by decide), hvm⟩
  · next value stack hstack =>
    have htop : HeapInv R [value] vm := by
      refine hvm.of_roots rfl rfl rfl rfl fun id hid ↦ .inr (hid.elim (fun hmem ↦ ?_) fun h ↦ h)
      exact .inl (hstack ▸ List.mem_cons.mpr (.inl (List.mem_singleton.mp hmem)))
    refine EStateM.Triple.consequence ((push List.mem_cons_self).bind fun _ ↦ done)
      (fun _ heq ↦ heq ▸ htop) (fun _ _ h ↦ h) fun _ _ h ↦ h

/-- All frames are given up, and with them the roots in their locals. -/
theorem execHalt : Keeps R [] (GcVm.executeInstruction program .halt arg1 arg2) fun _ ↦ [] := by
  refine (update fun _ hvm ↦ ?_).bind fun _ ↦ @done _ [] _
  refine hvm.of_roots rfl rfl rfl rfl fun id hid ↦ ?_
  rcases hid.resolve_left List.not_mem_nil with hid | hid | ⟨_, hmem, _⟩
  · exact .inr (.inl hid)
  · exact .inr (.inr (.inl hid))
  · cases hmem

/-- No opcode but the two allocations changes the set of arrays. -/
theorem executeInstruction {opcode : Opcode} (h : opcode ≠ .allocArray ∧ opcode ≠ .arrayNew) :
    Keeps R [] (GcVm.executeInstruction program opcode arg1 arg2) fun _ ↦ [] := by
  cases opcode with
  | loadConst => exact pushInt.bind fun _ ↦ done
  | loadLocal => exact execLoadLocal
  | storeLocal =>
    exact (currentLocalSlot arg1).bind fun slot ↦ pop.bind fun value ↦
      (setLocal slot List.mem_cons_self).bind fun _ ↦ done
  | loadGlobal =>
    exact (globalSlot arg1).bind fun slot ↦ (readGlobal slot).bind fun value ↦
      (push List.mem_cons_self).bind fun _ ↦ done
  | storeGlobal =>
    exact (globalSlot arg1).bind fun slot ↦ pop.bind fun value ↦
      (writeGlobal slot List.mem_cons_self).bind fun _ ↦ done
  | add | sub | mul | eq | ne | lt | gt | le | ge => exact binary _
  | and | or => exact logical _
  | div =>
    refine popInt.bind fun b ↦ popInt.bind fun a ↦ ?_
    split
    · exact trap (by decide)
    split
    · exact panic
    · exact pushInt.bind fun _ ↦ done
  | neg =>
    refine popInt.bind fun a ↦ ?_
    split
    · exact panic
    · exact pushInt.bind fun _ ↦ done
  | not => exact pop.bind fun _ ↦ pushInt.bind fun _ ↦ done
  | jump => exact (jump _).bind fun _ ↦ done
  | jumpIfFalse | jumpIfTrue =>
    refine pop.bind fun cond ↦ ?_
    split
    · exact (jump _).bind fun _ ↦ done
    · exact done
  | call => exact call program arg1 arg2
  | «return» => exact ret
  | arrayLoad => exact execArrayLoad
  | arrayStore => exact execArrayStore
  | localArrayLoad => exact execLocalArrayLoad
  | localArrayStore => exact execLocalArrayStore
  | print =>
    refine popInt.bind fun value ↦ (update fun _ hvm ↦ ?_).bind fun _ ↦ @done _ [] _
    exact hvm.of_roots rfl rfl rfl rfl fun _ hid ↦ hid
  | pop => exact pop.bind fun _ ↦ done
  | dup => exact execDup
  | halt => exact execHalt
  | arrayNew | allocArray => simp at h

end Keeps

/-! ### Allocation -/

theorem run_push (value : GcValue) (vm : GcVm) :
    (push value).run vm = if vm.stack.length ≥ maxOperandStack then
      .error (.trap .stackOverflow s!"Operand stack overflow (max {maxOperandStack} entries)") vm
    else .ok () { vm with stack := value :: vm.stack } := by
  by_cases h : vm.stack.length ≥ maxOperandStack <;>
    simp [push, trap, h]

namespace HeapInv

theorem mono_peak (h : HeapInv R [] vm') : HeapInv (max R (collectionPeak vm vm')) [] vm' :=
  h.mono (Nat.le_max_left _ _) (List.Subset.refl _)

/-- The two allocating opcodes: the collection they may run is the only one of the instruction. -/
theorem alloc (h : HeapInv R [] vm) (arg1 : Int32) :
    EStateM.Triple (· = vm) (GcVm.alloc arg1)
      (fun _ vm' ↦ HeapInv (max R (collectionPeak vm vm')) [] vm')
      fun e vm' ↦ NotDangling e ∧ HeapInv (max R (collectionPeak vm vm')) [] vm' := by
  rw [GcVm.alloc, GcVm.arraySize]
  intro s hs
  subst hs
  by_cases hneg : arg1 < 0
  · rw [if_pos hneg]
    refine ⟨NotDangling.trap (mt (congrArg String.toList) ?_), h.mono_peak⟩
    simp [toString_string]
  · rw [if_neg hneg]
    have halloc := h.allocArray (asUsize arg1)
    have hrun := run_push (.arrayRef (s.allocArray (asUsize arg1)).1) (s.allocArray (asUsize arg1)).2
    have hpush := Keeps.push List.mem_cons_self _ halloc
    simp only [pure_bind, EStateM.run_bind, EStateM.run_modifyGet]
    by_cases hover : (s.allocArray (asUsize arg1)).2.stack.length ≥ maxOperandStack
    · rw [if_pos hover] at hrun
      rw [hrun] at hpush ⊢
      exact hpush
    · rw [if_neg hover] at hrun
      rw [hrun] at hpush ⊢
      exact hpush

theorem executeInstruction (h : HeapInv R [] vm) (program : CompiledProgram) (opcode : Opcode) (arg1 arg2 : Int32) :
    EStateM.Triple (· = vm) (GcVm.executeInstruction program opcode arg1 arg2)
      (fun _ vm' ↦ HeapInv (max R (collectionPeak vm vm')) [] vm')
      fun e vm' ↦ NotDangling e ∧ HeapInv (max R (collectionPeak vm vm')) [] vm' := by
  by_cases hop : opcode ≠ .allocArray ∧ opcode ≠ .arrayNew
  · exact EStateM.Triple.consequence (Keeps.executeInstruction hop) (fun _ heq ↦ heq ▸ h)
      (fun _ _ h' ↦ h'.mono_peak) fun _ _ h' ↦ h'.imp_right mono_peak
  · rw [not_and_or, not_not, not_not] at hop
    rcases hop with rfl | rfl
    · exact h.alloc arg1
    · exact h.alloc arg1

end HeapInv

/-! ## Runs -/

/-- The state a transition ends in, whether the run goes on from there or not. -/
def stateAfter : GcVm ⊕ (GcVmHalt × GcVm) → GcVm
  | .inl vm => vm
  | .inr (_, vm) => vm

namespace HeapInv

theorem afterInstruction (h : HeapInv R [] vm) (before : GcVm) (instr : Instruction)
    (advance : Bool) : HeapInv R [] (stateAfter (GcVm.afterInstruction before instr vm advance)) ∧
      (stateAfter (GcVm.afterInstruction before instr vm advance)).gcCollections =
        vm.gcCollections := by
  have hpc : HeapInv R [] (if advance then { vm with pc := vm.pc + 1 } else vm) := by
    split
    · exact h.of_roots rfl rfl rfl rfl fun _ hid ↦ hid
    · exact h
  have hgc : (if advance then { vm with pc := vm.pc + 1 } else vm).gcCollections =
      vm.gcCollections := by
    split <;> rfl
  rw [GcVm.afterInstruction]
  generalize (if advance then { vm with pc := vm.pc + 1 } else vm) = after at hpc hgc ⊢
  dsimp only
  split
  · refine ⟨hpc.of_roots rfl rfl rfl rfl fun id hid ↦ ?_, hgc⟩
    exact hid.imp_right (Or.imp_left List.mem_of_mem_tail)
  · exact ⟨hpc.of_roots rfl rfl rfl rfl fun _ hid ↦ hid, hgc⟩

/-- **The step lemma.** -/
theorem step (h : HeapInv R [] vm) :
    HeapInv (max R (collectionPeak vm (stateAfter (GcVm.step program vm)))) []
      (stateAfter (GcVm.step program vm)) := by
  rw [GcVm.step]
  split
  · exact h.mono_peak
  split
  · exact h.mono_peak
  · next instr _ =>
    have hcycle : HeapInv R [] { vm with cycles := vm.cycles + 1 } :=
      h.of_roots rfl rfl rfl rfl fun _ hid ↦ hid
    have hexec := hcycle.executeInstruction program instr.opcode instr.arg1 instr.arg2
      _ rfl
    split
    · next advance after hrun =>
      rw [hrun] at hexec
      obtain ⟨hafter, hgc⟩ := hexec.afterInstruction vm instr advance
      rw [collectionPeak, hgc]
      exact hafter
    · next code message after hrun =>
      rw [hrun] at hexec
      exact hexec.2.of_roots rfl rfl rfl rfl fun _ hid ↦ hid
    · next after hrun =>
      rw [hrun] at hexec
      exact hexec.2

theorem afterInstruction_message {before : GcVm} {instr : Instruction} {advance : Bool}
    {result : GcVmResult}
    (h : GcVm.afterInstruction before instr vm advance = .inr (.result result, vm')) :
    result.trapMessage = "" := by
  rw [GcVm.afterInstruction] at h
  generalize (if advance then { vm with pc := vm.pc + 1 } else vm) = after at h
  dsimp only at h
  split at h
  · cases h
    rfl
  · cases h

/-- No step ends with the trap of a dangling reference. -/
theorem step_message (h : HeapInv R [] vm) {result : GcVmResult}
    (hstep : GcVm.step program vm = .inr (.result result, vm')) :
    result.trapMessage ≠ "Invalid array reference" := by
  rw [GcVm.step] at hstep
  split at hstep
  · cases hstep
    refine mt (congrArg String.toList) ?_
    simp [makeTrapResult, toString_string]
  split at hstep
  · cases hstep
    refine mt (congrArg String.toList) ?_
    simp [makeTrapResult, toString_string]
  · next instr _ =>
    have hcycle : HeapInv R [] { vm with cycles := vm.cycles + 1 } :=
      h.of_roots rfl rfl rfl rfl fun _ hid ↦ hid
    have hexec := hcycle.executeInstruction program instr.opcode instr.arg1 instr.arg2
      _ rfl
    split at hstep
    · rw [afterInstruction_message hstep]
      decide
    · next code message after hrun =>
      rw [hrun] at hexec
      cases hstep
      exact hexec.1
    · cases hstep

end HeapInv

/-- The largest number of arrays rooted at a collection during `initGlobalArrays`. -/
def initPeak : List GlobalInfo → GcVm → Nat
  | [], _ => 0
  | info :: infos, vm =>
    if info.isArray then
      let (id, vm') := vm.allocArray info.arraySize
      max (collectionPeak vm vm')
        (initPeak infos { vm' with globals := vm'.globals.set info.slot (.arrayRef id) })
    else initPeak infos vm

theorem HeapInv.initGlobalArrays {infos : List GlobalInfo} (h : HeapInv R [] vm)
    (hinit : GcVm.initGlobalArrays infos vm = some vm') :
    HeapInv (max R (initPeak infos vm)) [] vm' := by
  induction infos generalizing R vm with
  | nil =>
    cases hinit
    exact h.mono (Nat.le_max_left _ _) (List.Subset.refl _)
  | cons info infos ih =>
    rw [GcVm.initGlobalArrays] at hinit
    rw [initPeak]
    split at hinit
    · next harray =>
      dsimp only at hinit
      split at hinit
      · have halloc := h.allocArray info.arraySize
        rw [if_pos harray]
        dsimp only
        rw [← Nat.max_assoc]
        refine ih (halloc.of_roots rfl rfl rfl rfl fun id hid ↦ ?_) hinit
        rcases hid.resolve_left List.not_mem_nil with hid | hid | hid
        · exact .inr (.inl hid)
        · rcases List.mem_or_eq_of_mem_set hid with hid | heq
          · exact .inr (.inr (.inl hid))
          · exact .inl (heq ▸ List.mem_cons_self)
        · exact .inr (.inr (.inr hid))
      · cases hinit
    · next harray =>
      rw [if_neg harray]
      exact ih h hinit

/-- `vm` is a state that a run of `program` gets to, while it initializes the globals, in its loop
or when it ends, and `R` is the largest number of arrays rooted at any collection on the way. -/
inductive Reachable (program : CompiledProgram) : GcVm → Nat → Prop
  | init {vm : GcVm} {infos rest : List GlobalInfo} (maxCycles : Nat)
    (trace : Option (List TraceEvent)) : program.globals.values = infos ++ rest →
    initGlobalArrays infos { new with maxCycles := maxCycles, trace := trace } = some vm →
    Reachable program vm (initPeak infos { new with maxCycles := maxCycles, trace := trace })
  | start {vm : GcVm} (maxCycles : Nat) (trace : Option (List TraceEvent)) :
    GcVm.start program { new with maxCycles := maxCycles, trace := trace } = .inl vm →
    Reachable program vm
      (initPeak program.globals.values { new with maxCycles := maxCycles, trace := trace })
  | step {vm : GcVm} {R : Nat} : Reachable program vm R →
    Reachable program (stateAfter (GcVm.step program vm))
      (max R (collectionPeak vm (stateAfter (GcVm.step program vm))))

theorem heapInv_new (maxCycles : Nat) (trace : Option (List TraceEvent)) :
    HeapInv 0 [] { new with maxCycles := maxCycles, trace := trace } where
  live id hid := by
    rcases hid.resolve_left List.not_mem_nil with hid | hid | ⟨_, hmem, _⟩
    · cases hid
    · cases List.eq_of_mem_replicate hid
    · cases hmem
  tracked := .nil
  nextArrayId := rfl
  threshold := rfl
  bounded := Nat.zero_le _

/-- **The run lemma.** -/
theorem Reachable.heapInv (h : Reachable program vm R) : HeapInv R [] vm := by
  induction h with
  | init maxCycles trace _ hinit =>
    have hinv := (heapInv_new maxCycles trace).initGlobalArrays hinit
    rwa [Nat.zero_max] at hinv
  | start maxCycles trace hstart =>
    rw [GcVm.start] at hstart
    split at hstart
    · cases hstart
    split at hstart
    · cases hstart
    split at hstart
    · cases hstart
    · next vm hinit =>
      cases hstart
      have hinv := (heapInv_new maxCycles trace).initGlobalArrays hinit
      rw [Nat.zero_max] at hinv
      refine hinv.of_roots rfl rfl rfl rfl fun id hid ↦ ?_
      rcases hid.resolve_left List.not_mem_nil with hid | hid | ⟨frame, hmem, slot, hslot⟩
      · exact .inr (.inl hid)
      · exact .inr (.inr (.inl hid))
      · rcases List.mem_cons.mp hmem with rfl | hmem
        · rw [get_new] at hslot
          cases hslot
        · exact .inr (.inr (.inr ⟨frame, hmem, slot, hslot⟩))
  | step _ ih => exact ih.step

/-! ## Soundness -/

/-- The heap of `vm` is sound and within the bound that `R` rooted arrays give. -/
structure HeapSound (vm : GcVm) (R : Nat) : Prop where
  live : ∀ id, vm.Holds (.arrayRef id) → ∃ array, vm.heapArrays[id]? = some (some array)
  free_nodup : vm.freeArraySlots.Nodup
  mem_free : ∀ i, i ∈ vm.freeArraySlots ↔ vm.heapArrays[i]? = some none
  nextArrayId_eq : vm.nextArrayId = vm.heapArrays.length
  length_le : vm.heapArrays.length ≤ max MiniLang.gcThreshold (R + 1)

/-- `vm'` is `vm` with exactly the arrays freed that no root refers to. -/
structure Collected (vm vm' : GcVm) : Prop where
  freed : ∀ id, ¬vm.Holds (.arrayRef id) → vm'.getArray id = none
  kept : ∀ id, vm.Holds (.arrayRef id) →
    (vm'.getArray id).map HeapArray.data = (vm.getArray id).map HeapArray.data
  stack : vm'.stack = vm.stack
  globals : vm'.globals = vm.globals
  callStack : vm'.callStack = vm.callStack

theorem HeapInv.heapSound (h : HeapInv R [] vm) : HeapSound vm R where
  live id hid := SlotTable.getElem?_of_mem_occupied (h.live id (.inr hid))
  free_nodup := h.tracked.nodup
  mem_free := h.tracked.mem_iff
  nextArrayId_eq := h.nextArrayId
  length_le := h.bounded

theorem collected_collectGarbage (vm : GcVm) : Collected vm vm.collectGarbage where
  freed id hid := collectGarbage_freed (mt mem_rooted.mp hid)
  kept id hid := by
    rw [collectGarbage_kept (mem_rooted.mpr hid), Option.map_map]
    rfl
  stack := rfl
  globals := rfl
  callStack := rfl

/-- **Heap soundness.** In every state of every run the heap is sound, a collection frees exactly
the unreferenced arrays, an allocation hands out no slot that is still referenced, and no
instruction stops at a dangling reference. -/
theorem heap_sound (h : Reachable program vm R) :
    HeapSound vm R ∧ Collected vm vm.collectGarbage ∧
      (∀ size, ¬vm.Holds (.arrayRef (vm.allocArray size).1)) ∧
      ∀ result vm', GcVm.step program vm = .inr (.result result, vm') →
        result.trapMessage ≠ "Invalid array reference" :=
  ⟨h.heapInv.heapSound, collected_collectGarbage vm, h.heapInv.allocArray_fresh,
    fun _ _ hstep ↦ h.heapInv.step_message hstep⟩

/-- `main` allocates an array over and over and drops it. -/
def churn : CompiledProgram where
  instructions := [⟨.allocArray, 2, 0⟩, ⟨.pop, 0, 0⟩, ⟨.jump, 0, 0⟩]
  functions := AList.singleton 0 ⟨"main", 0, 0, 0, 0⟩
  globals := ∅
  mainFuncId := 0
  constants := []

/-- `main` keeps one array on the stack and one in a variable, and then allocates over and over. -/
def keepsTwo : CompiledProgram where
  instructions := [⟨.allocArray, 2, 0⟩, ⟨.allocArray, 3, 0⟩, ⟨.storeLocal, 0, 0⟩,
    ⟨.allocArray, 2, 0⟩, ⟨.pop, 0, 0⟩, ⟨.jump, 3, 0⟩]
  functions := AList.singleton 0 ⟨"main", 0, 0, 0, 1⟩
  globals := ∅
  mainFuncId := 0
  constants := []

/-- The state after `n` more steps, and the largest number of arrays rooted at any collection by
then. -/
def walk (program : CompiledProgram) : Nat → GcVm → Nat → GcVm × Nat
  | 0, vm, R => (vm, R)
  | n + 1, vm, R =>
    let vm' := stateAfter (GcVm.step program vm)
    walk program n vm' (max R (collectionPeak vm vm'))

theorem Reachable.walk (h : Reachable program vm R) (n : Nat) :
    Reachable program (walk program n vm R).1 (walk program n vm R).2 := by
  induction n generalizing vm R with
  | zero => exact h
  | succ n ih => exact ih h.step

/-- The ninth allocation collects: the two arrays that are held stay, six are freed, and the slot of
one of them is taken again. -/
theorem heap_sound_keepsTwo : ∃ vm, Reachable keepsTwo vm 2 ∧
    vm.stack = [.arrayRef 7, .arrayRef 0] ∧ vm.freeArraySlots = [6, 5, 4, 3, 2] ∧
    vm.gcCollections = 1 ∧ vm.gcObjectsFreed = 6 ∧ HeapSound vm 2 ∧ Collected vm vm.collectGarbage ∧
      (∀ size, ¬vm.Holds (.arrayRef (vm.allocArray size).1)) ∧
      ∀ result vm', GcVm.step keepsTwo vm = .inr (.result result, vm') →
        result.trapMessage ≠ "Invalid array reference" := by
  let vm₀ : GcVm := { new with maxCycles := 100, callStack := [GcCallFrame.new 1 usizeMax] }
  have hstart : Reachable keepsTwo vm₀ 0 := .start 100 none rfl
  have hwalk : (walk keepsTwo 22 vm₀ 0).2 = 2 ∧
      (walk keepsTwo 22 vm₀ 0).1.stack = [.arrayRef 7, .arrayRef 0] ∧
      (walk keepsTwo 22 vm₀ 0).1.freeArraySlots = [6, 5, 4, 3, 2] ∧
      (walk keepsTwo 22 vm₀ 0).1.gcCollections = 1 ∧
      (walk keepsTwo 22 vm₀ 0).1.gcObjectsFreed = 6 := by decide +kernel
  obtain ⟨hpeak, hstack, hfree, hcollections, hfreed⟩ := hwalk
  have hreached := hstart.walk 22
  rw [hpeak] at hreached
  exact ⟨_, hreached, hstack, hfree, hcollections, hfreed, heap_sound hreached⟩

end GcVm

end MiniLang
