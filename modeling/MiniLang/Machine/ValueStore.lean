import MiniLang.Lib.Coupling
import MiniLang.Lib.FlatMemory
import MiniLang.Machine.ValueRules

/-!
# Variables in the vector of locals

How the reference machine stores the variables of the value machine. The variables of all frames lie
one after the other at the bottom of the vector, outermost frame first. A variable that holds an
array has the index of the array's first cell, behind the first `maxLocalSlots` cells, and no two
arrays share a cell.

## The invariant

`Placed cells locals` is that statement. The vector has no record of which cells belong to which
array, and arrays of frames that have returned stay in it; only the arrays that some variable holds
are spoken of. An array that has just been allocated is held by no variable yet: `FreshAt` says that
it lies behind all others, which is what lets it be stored without being compared with them.

There is one lemma for each change of the vector: a variable set, an element set, cells appended, a
frame entered and left.
-/

namespace MiniLang

open FlatMemory (Block Apart)

/-- The value is stored in the cell at `addr` itself. -/
def LocalValue.IsScalar : LocalValue → Prop
  | .array _ => False
  | _ => True

namespace ValueVm

variable {cells cells' new : List LocalValue} {locals locals' : List Int} {addr base size i : Nat}
  {cell : LocalValue} {data : List Int32} {value : Int32}

/-- The variable at `addr` holds what `cell` says. -/
def CellAt (locals : List Int) (addr : Nat) : LocalValue → Prop
  | .undefined => locals[addr]? = some i64Min
  | .int value => locals[addr]? = some value.toInt
  | .array data => ∃ base : Nat, locals[addr]? = some (base : Int) ∧ maxLocalSlots ≤ base ∧
      Block locals base (data.map Int32.toInt)

/-- The variables `cells` lie at the bottom of `locals`, and their arrays behind them. -/
structure Placed (cells : List LocalValue) (locals : List Int) : Prop where
  length_le : cells.length ≤ maxLocalSlots
  room : maxLocalSlots ≤ locals.length
  cellAt : ∀ (addr : Nat) (cell : LocalValue), cells[addr]? = some cell → CellAt locals addr cell
  apart : ∀ (addr addr' : Nat) (data data' : List Int32) (base base' : Nat), addr ≠ addr' →
    cells[addr]? = some (.array data) → cells[addr']? = some (.array data') →
    locals[addr]? = some (base : Int) → locals[addr']? = some (base' : Int) →
    Apart base data.length base' data'.length

/-- The array allocated last lies behind all others. -/
structure FreshAt (cells : List LocalValue) (locals : List Int) (base size : Nat) : Prop where
  block : Block locals base (List.replicate size 0)
  ends : base + size = locals.length
  behind : maxLocalSlots ≤ base
  last : ∀ (addr : Nat) (data : List Int32) (base' : Nat), cells[addr]? = some (.array data) →
    locals[addr]? = some (base' : Int) → base' + data.length ≤ base

theorem CellAt.congr (h : CellAt locals addr cell) (hlength : locals.length ≤ locals'.length)
    (haddr : locals'[addr]? = locals[addr]?)
    (hblocks : ∀ i, maxLocalSlots ≤ i → i < locals.length → locals'[i]? = locals[i]?) :
    CellAt locals' addr cell := by
  cases cell with
  | undefined => exact haddr.trans h
  | int value => exact haddr.trans h
  | array data =>
    obtain ⟨base, hbase, hbehind, hblock⟩ := h
    refine ⟨base, haddr.trans hbase, hbehind, hblock.congr hlength fun i hi ↦ ?_⟩
    have hinside := hblock.inside
    exact hblocks _ (by omega) (by omega)

/-- The index in a variable that holds an array. -/
theorem CellAt.array_eq (h : CellAt locals addr (.array data)) (hbase : locals[addr]? = some (base : Int)) :
    maxLocalSlots ≤ base ∧ Block locals base (data.map Int32.toInt) := by
  obtain ⟨base', hbase', hbehind, hblock⟩ := h
  obtain rfl : base' = base := by
    rw [hbase] at hbase'
    exact (Int.ofNat.inj (Option.some_inj.mp hbase')).symm
  exact ⟨hbehind, hblock⟩

namespace Placed

theorem lt_length (h : Placed cells locals) (haddr : addr < cells.length) : addr < locals.length :=
  haddr.trans_le (h.length_le.trans h.room)

theorem array_eq (h : Placed cells locals) (hcell : cells[addr]? = some (.array data))
    (hbase : locals[addr]? = some (base : Int)) :
    maxLocalSlots ≤ base ∧ Block locals base (data.map Int32.toInt) :=
  (h.cellAt _ _ hcell).array_eq hbase

/-- Variables come, go or change, but for arrays, which all stay where they are. -/
theorem revise (h : Placed cells locals) (hcount : cells'.length ≤ maxLocalSlots)
    (hlength : locals.length ≤ locals'.length)
    (hcells : ∀ (addr : Nat) (cell : LocalValue), cells'[addr]? = some cell →
      cells[addr]? = some cell ∧ locals'[addr]? = locals[addr]? ∨
        cell.IsScalar ∧ CellAt locals' addr cell)
    (hblocks : ∀ i, maxLocalSlots ≤ i → i < locals.length → locals'[i]? = locals[i]?) :
    Placed cells' locals' where
  length_le := hcount
  room := h.room.trans hlength
  cellAt addr cell hcell := by
    rcases hcells addr cell hcell with ⟨hold, haddr⟩ | ⟨-, hnew⟩
    · exact (h.cellAt addr cell hold).congr hlength haddr hblocks
    · exact hnew
  apart addr addr' data data' base base' hne hcell hcell' hbase hbase' := by
    obtain ⟨hold, haddr⟩ := (hcells _ _ hcell).resolve_right fun hscalar ↦ hscalar.1
    obtain ⟨hold', haddr'⟩ := (hcells _ _ hcell').resolve_right fun hscalar ↦ hscalar.1
    rw [haddr] at hbase
    rw [haddr'] at hbase'
    exact h.apart _ _ _ _ _ _ hne hold hold' hbase hbase'

theorem setInt (h : Placed cells locals) (haddr : addr < cells.length) (value : Int32) :
    Placed (cells.set addr (.int value)) (locals.set addr value.toInt) := by
  have hcount := h.length_le
  refine h.revise (List.length_set.trans_le hcount) List.length_set.ge (fun addr' cell hcell ↦ ?_)
    (fun i hi _ ↦ List.getElem?_set_ne (by omega))
  by_cases hne : addr = addr'
  · subst hne
    rw [List.getElem?_set_self haddr] at hcell
    obtain rfl := Option.some_inj.mp hcell
    exact .inr ⟨trivial, List.getElem?_set_self (h.lt_length haddr)⟩
  · rw [List.getElem?_set_ne hne] at hcell
    exact .inl ⟨hcell, List.getElem?_set_ne hne⟩

/-- An allocation. -/
theorem grow (h : Placed cells locals) (size : Nat) :
    Placed cells (locals ++ List.replicate size 0) := by
  refine h.revise h.length_le (by simp) (fun addr cell hcell ↦ .inl ⟨hcell, ?_⟩)
    (fun i _ hi ↦ List.getElem?_append_left hi)
  exact List.getElem?_append_left (h.lt_length (List.getElem?_eq_some_iff.mp hcell).1)

theorem freshAt (h : Placed cells locals) (size : Nat) :
    FreshAt cells (locals ++ List.replicate size 0) locals.length size where
  block := Block.grown _ _
  ends := by rw [List.length_append, List.length_replicate]
  behind := h.room
  last addr data base hcell hbase := by
    rw [List.getElem?_append_left (h.lt_length (List.getElem?_eq_some_iff.mp hcell).1)] at hbase
    have hinside := (h.array_eq hcell hbase).2.inside
    rw [List.length_map] at hinside
    exact hinside

/-- The fresh array gets a variable. -/
theorem setFresh (h : Placed cells locals) (hfresh : FreshAt cells locals base size)
    (haddr : addr < cells.length) :
    Placed (cells.set addr (.array (List.replicate size 0))) (locals.set addr (base : Int)) := by
  have hcount := h.length_le
  have hset {i : Nat} (hi : maxLocalSlots ≤ i) : (locals.set addr (base : Int))[i]? = locals[i]? :=
    List.getElem?_set_ne (by omega)
  -- every cell but the one at `addr` is as before
  have hcases {addr' : Nat} {cell : LocalValue}
      (hcell : (cells.set addr (.array (List.replicate size 0)))[addr']? = some cell) :
      addr' = addr ∧ cell = .array (List.replicate size 0) ∨ addr' ≠ addr ∧
        cells[addr']? = some cell ∧ (locals.set addr (base : Int))[addr']? = locals[addr']? := by
    by_cases hne : addr = addr'
    · subst hne
      rw [List.getElem?_set_self haddr] at hcell
      exact .inl ⟨rfl, (Option.some_inj.mp hcell).symm⟩
    · rw [List.getElem?_set_ne hne] at hcell
      exact .inr ⟨Ne.symm hne, hcell, List.getElem?_set_ne hne⟩
  have hnew {base' : Nat} (hbase' : (locals.set addr (base : Int))[addr]? = some (base' : Int)) :
      base' = base := by
    rw [List.getElem?_set_self (h.lt_length haddr)] at hbase'
    exact (Int.ofNat.inj (Option.some_inj.mp hbase')).symm
  constructor
  · exact List.length_set.trans_le hcount
  · exact h.room.trans List.length_set.ge
  · intro addr' cell hcell
    rcases hcases hcell with ⟨rfl, rfl⟩ | ⟨-, hold, hsame⟩
    · refine ⟨base, List.getElem?_set_self (h.lt_length haddr), hfresh.behind, ?_⟩
      rw [List.map_replicate]
      refine hfresh.block.congr List.length_set.ge fun i _ ↦ ?_
      have hbehind := hfresh.behind
      exact hset (by omega)
    · exact (h.cellAt _ _ hold).congr List.length_set.ge hsame fun i hi _ ↦ hset hi
  · intro a a' data data' b b' hne hcell hcell' hb hb'
    rcases hcases hcell with ⟨rfl, heq⟩ | ⟨-, hold, hsame⟩
    · rcases hcases hcell' with ⟨rfl, -⟩ | ⟨-, hold', hsame'⟩
      · exact absurd rfl hne
      · rw [hsame'] at hb'
        rw [hnew hb]
        exact .inr (hfresh.last _ _ _ hold' hb')
    · rw [hsame] at hb
      rcases hcases hcell' with ⟨rfl, heq⟩ | ⟨-, hold', hsame'⟩
      · rw [hnew hb']
        exact .inl (hfresh.last _ _ _ hold hb)
      · rw [hsame'] at hb'
        exact h.apart _ _ _ _ _ _ hne hold hold' hb hb'

/-- An element of an array changes. -/
theorem setElement (h : Placed cells locals) (hcell : cells[addr]? = some (.array data))
    (hbase : locals[addr]? = some (base : Int)) (hi : i < data.length) (value : Int32) :
    Placed (cells.set addr (.array (data.set i value))) (locals.set (base + i) value.toInt) := by
  have hcount := h.length_le
  obtain ⟨hbehind, hblock⟩ := h.array_eq hcell hbase
  have haddr := (List.getElem?_eq_some_iff.mp hcell).1
  have hlow {j : Nat} (hj : j < maxLocalSlots) :
      (locals.set (base + i) value.toInt)[j]? = locals[j]? :=
    List.getElem?_set_ne (by omega)
  have hlt {j : Nat} {c : LocalValue} (hj : cells[j]? = some c) : j < maxLocalSlots :=
    (List.getElem?_eq_some_iff.mp hj).1.trans_le hcount
  -- the array at `addr` has as many elements as before
  have harrays {j : Nat} {data' : List Int32}
      (hj : (cells.set addr (.array (data.set i value)))[j]? = some (.array data')) :
      ∃ old, cells[j]? = some (.array old) ∧ old.length = data'.length := by
    by_cases hne : addr = j
    · subst hne
      rw [List.getElem?_set_self haddr] at hj
      obtain rfl := LocalValue.array.inj (Option.some_inj.mp hj)
      exact ⟨data, hcell, List.length_set.symm⟩
    · rw [List.getElem?_set_ne hne] at hj
      exact ⟨data', hj, rfl⟩
  constructor
  · exact List.length_set.trans_le hcount
  · exact h.room.trans List.length_set.ge
  · intro j c hj
    by_cases hne : addr = j
    · subst hne
      rw [List.getElem?_set_self haddr] at hj
      obtain rfl := Option.some_inj.mp hj
      refine ⟨base, (hlow (hlt hcell)).trans hbase, hbehind, ?_⟩
      rw [List.map_set]
      exact hblock.set_inside _
    · rw [List.getElem?_set_ne hne] at hj
      have hold := h.cellAt _ _ hj
      cases c with
      | undefined => exact (hlow (hlt hj)).trans hold
      | int v => exact (hlow (hlt hj)).trans hold
      | array data' =>
        obtain ⟨base', hbase', hbehind', hblock'⟩ := hold
        refine ⟨base', (hlow (hlt hj)).trans hbase', hbehind', hblock'.set_outside ?_ _⟩
        rw [List.length_map]
        have hapart := h.apart _ _ _ _ _ _ hne hcell hj hbase hbase'
        rw [Apart] at hapart
        omega
  · intro a a' d d' b b' hne ha ha' hb hb'
    obtain ⟨old, hold, hlen⟩ := harrays ha
    obtain ⟨old', hold', hlen'⟩ := harrays ha'
    rw [hlow (hlt hold)] at hb
    rw [hlow (hlt hold')] at hb'
    rw [← hlen, ← hlen']
    exact h.apart _ _ _ _ _ _ hne hold hold' hb hb'

/-- A frame is entered. -/
theorem enter (h : Placed cells locals) (hcount : (cells ++ new).length ≤ maxLocalSlots)
    (hlength : locals'.length = locals.length)
    (hnew : ∀ (i : Nat) (cell : LocalValue), new[i]? = some cell → cell.IsScalar ∧ CellAt locals' (cells.length + i) cell)
    (houtside : ∀ j, j < cells.length ∨ cells.length + new.length ≤ j → locals'[j]? = locals[j]?) :
    Placed (cells ++ new) locals' := by
  rw [List.length_append] at hcount
  refine h.revise (by rwa [List.length_append]) hlength.ge (fun addr cell hcell ↦ ?_)
    (fun i hi _ ↦ houtside i (.inr (by omega)))
  rcases Nat.lt_or_ge addr cells.length with hlt | hge
  · rw [List.getElem?_append_left hlt] at hcell
    exact .inl ⟨hcell, houtside addr (.inl hlt)⟩
  · rw [List.getElem?_append_right hge] at hcell
    obtain ⟨hscalar, hat⟩ := hnew _ _ hcell
    rw [Nat.add_sub_cancel' hge] at hat
    exact .inr ⟨hscalar, hat⟩

/-- A frame is left. -/
theorem leave (h : Placed (cells ++ new) locals) : Placed cells locals := by
  have hcount := h.length_le
  rw [List.length_append] at hcount
  refine h.revise (by omega) le_rfl (fun addr cell hcell ↦ .inl ⟨?_, rfl⟩) fun _ _ _ ↦ rfl
  rw [List.getElem?_append_left (List.getElem?_eq_some_iff.mp hcell).1]
  exact hcell

end Placed

end ValueVm

end MiniLang
