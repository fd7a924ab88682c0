import MiniLang.Machine.GcHeap
import MiniLang.Machine.VmRules

/-!
# Execution rules of the garbage-collected machine

What each operand function of the machine does when its checks pass, as equations for `run`.
-/

namespace MiniLang

namespace GcVm

variable {vm : GcVm} {frame : GcCallFrame} {frames : List GcCallFrame} {value : GcValue}
  {stack : List GcValue} {raw rawSize : Int32} {slot id index : Nat} {arr : HeapArray}

theorem run_pop (h : vm.stack = value :: stack) :
    pop.run vm = .ok value { vm with stack := stack } := by
  simp only [pop, EStateM.run_bind, EStateM.run_get, h]
  rfl

theorem run_push_room (h : vm.stack.length < maxOperandStack) (value : GcValue) :
    (push value).run vm = .ok () { vm with stack := value :: vm.stack } := by
  rw [run_push, if_neg (Nat.not_le.mpr h)]

theorem run_push_full (h : maxOperandStack ≤ vm.stack.length) (value : GcValue) :
    (push value).run vm =
      .error (.trap .stackOverflow s!"Operand stack overflow (max {maxOperandStack} entries)")
        vm := by
  rw [run_push, if_pos h]

theorem run_currentFrame (h : vm.callStack = frame :: frames) :
    currentFrame.run vm = .ok frame vm := by
  simp [currentFrame, h]

theorem run_currentLocalSlot (hraw : 0 ≤ raw) (hstack : vm.callStack = frame :: frames)
    (hslot : asUsize raw < frame.locals.length) :
    (currentLocalSlot raw).run vm = .ok (asUsize raw) vm := by
  simp [currentLocalSlot, Int32.not_lt.mpr hraw, run_currentFrame hstack, Nat.not_le.mpr hslot]

theorem run_globalSlot (hraw : 0 ≤ raw) (hslot : asUsize raw < vm.globals.length) :
    (globalSlot raw).run vm = .ok (asUsize raw) vm := by
  simp [globalSlot, Int32.not_lt.mpr hraw, Nat.not_le.mpr hslot]

theorem run_arraySize (hraw : 0 ≤ raw) : (arraySize raw).run vm = .ok (asUsize raw) vm := by
  simp [arraySize, Int32.not_lt.mpr hraw]

theorem run_globalArrayRange (hraw : 0 ≤ raw) (hsize : 0 ≤ rawSize)
    (hslot : asUsize raw < vm.globals.length)
    (hlast : asUsize raw + asUsize rawSize ≤ vm.globals.length)
    (hlimit : vm.globals.length ≤ usizeMax) :
    (globalArrayRange raw rawSize).run vm = .ok (asUsize raw, asUsize rawSize) vm := by
  simp [globalArrayRange, run_globalSlot hraw hslot, run_arraySize hsize,
    checkedAdd_eq (Nat.le_trans hlast hlimit), Nat.not_lt.mpr hlast]

theorem run_readGlobal (h : vm.globals[slot]? = some value) :
    (readGlobal slot).run vm = .ok value vm := by
  simp [readGlobal, h]

theorem run_writeGlobal (h : slot < vm.globals.length) :
    (writeGlobal slot value).run vm = .ok () { vm with globals := vm.globals.set slot value } := by
  simp [writeGlobal, h]

theorem run_setLocal (h : vm.callStack = frame :: frames) :
    (setLocal slot value).run vm =
      .ok () { vm with callStack := frame.set slot value :: frames } := by
  simp [setLocal, h]

theorem run_loadElement {element : Int} (harr : vm.getArray id = some arr)
    (h : arr.data[index]? = some element) :
    (loadElement id index).run vm = .ok (.int element) vm := by
  simp [loadElement, harr, h]

theorem run_storeElement (harr : vm.getArray id = some arr) (h : index < arr.data.length)
    (element : Int) : (storeElement id index element).run vm = .ok () { vm with
      heapArrays := vm.heapArrays.set id (some { arr with data := arr.data.set index element }) } := by
  simp [storeElement, harr, h]

end GcVm

end MiniLang
