import Mathlib.Algebra.Group.Nat.Defs
import Chvm.Lib.RwLock
import Chvm.Lib.Slots

/-!
# An address table (`virt.c`, `addr_table`)

The table and the critical sections of `adt_put_p` and `adt_free`, each as a function. The free
stack is the array of the source with its fill; what lies above the fill is stale.

`Accounted` says where every index of the table is: on the stack, popped by a put that has not
written its cell, allocated, or cleared by a free that has not pushed it. Each section moves one
index from one place to the next.
-/

set_option autoImplicit false

namespace Chvm.Virt

open Chvm.Lib

/-- `addr_table_code`. -/
inductive AddrTableCode
  | success
  | noSpace
  | newlyFull
  | newlyFree
deriving DecidableEq, Repr

/-- `addr_table_cell`; the physical address 0 is `NULL`. -/
structure AddrTableCell where
  lck : RwLock := {}
  allocated : Bool := false
  paddr : Nat := 0
deriving DecidableEq, Repr

/-- `addr_table`. -/
structure AddrTable where
  cap : Nat
  freeStack : List Nat
  stackFill : Nat
  cells : List AddrTableCell
deriving DecidableEq, Repr

/-- What `new_addr_table` asks `safe_malloc` for: the header, the free stack and the cells, in a word. -/
def addrTableBytes (cap : Nat) : Nat := (216 + 8 * cap + 216 * cap) % 2 ^ 64

/-- What it writes, as offsets and lengths: the header, each index of the free stack, each cell. -/
def initWrites (cap : Nat) : List (Nat × Nat) :=
  (0, 216) :: ((List.range cap).map fun i => (216 + 8 * i, 8)) ++
    (List.range cap).map fun i => (216 + 8 * cap + 216 * i, 216)

/-- `new_addr_table`, where the host has what it asks for. `none` is the error exit for capacity zero, or
a write behind the block that `safe_malloc` gave. -/
def newAddrTable (cap : Nat) : Option AddrTable :=
  if cap = 0 then none
  else if (initWrites cap).all fun w => w.1 + w.2 ≤ addrTableBytes cap then some
    { cap := cap
      freeStack := List.range cap
      stackFill := cap
      cells := List.replicate cap {} }
  else none

/-- The bytes of a table and its channel fit a word. -/
def FitsTable (cap : Nat) : Prop := 216 + 8 * cap + 216 * cap + 1 < 2 ^ 64

instance (cap : Nat) : Decidable (FitsTable cap) := inferInstanceAs (Decidable (_ < _))

theorem FitsTable.lt {cap : Nat} (h : FitsTable cap) : cap < 2 ^ 64 := by
  unfold FitsTable at h
  omega

theorem addrTableBytes_eq {cap : Nat} (h : FitsTable cap) : addrTableBytes cap = 216 + 8 * cap + 216 * cap :=
  Nat.mod_eq_of_lt (Nat.lt_of_succ_lt h)

/-- A table is written inside its block exactly when its size does not wrap. -/
theorem initWrites_inside {cap : Nat} (hpos : cap ≠ 0) :
    (initWrites cap).all (fun w => w.1 + w.2 ≤ addrTableBytes cap) = true ↔ FitsTable cap := by
  rw [List.all_eq_true]
  constructor
  · intro h
    have hlast : (216 + 8 * cap + 216 * (cap - 1), 216) ∈ initWrites cap :=
      List.mem_append_right _ (List.mem_map.mpr ⟨cap - 1, List.mem_range.mpr (by omega), rfl⟩)
    have hle := of_decide_eq_true (h _ hlast)
    simp only [addrTableBytes] at hle
    unfold FitsTable
    -- the remainder of a word is not below a sum of that size
    have hlt := Nat.mod_lt (216 + 8 * cap + 216 * cap) (show 0 < 2 ^ 64 by decide)
    omega
  · intro hfits w hw
    rw [addrTableBytes_eq hfits]
    simp only [initWrites, List.mem_append, List.mem_cons, List.mem_map, List.mem_range] at hw
    rcases hw with (rfl | ⟨i, hi, rfl⟩) | ⟨i, hi, rfl⟩ <;> exact decide_eq_true (by simp only; omega)

/-- The tables of `new_addr_table`. -/
theorem newAddrTable_eq_some {cap : Nat} {adt : AddrTable} : newAddrTable cap = some adt ↔
    cap ≠ 0 ∧ FitsTable cap ∧ adt =
      { cap := cap, freeStack := List.range cap, stackFill := cap, cells := List.replicate cap {} } := by
  unfold newAddrTable
  split
  next hzero => exact ⟨nofun, fun h => absurd hzero h.1⟩
  next hpos =>
    rw [← initWrites_inside hpos]
    split
    next hin => exact ⟨fun h => ⟨hpos, hin, (Option.some.inj h).symm⟩, fun h => congrArg some h.2.2.symm⟩
    next hout => exact ⟨nofun, fun h => absurd h.2.1 hout⟩

theorem newAddrTable_isSome {cap : Nat} (hpos : cap ≠ 0) : (newAddrTable cap).isSome ↔ FitsTable cap := by
  rw [Option.isSome_iff_exists]
  constructor
  · rintro ⟨adt, hadt⟩
    exact (newAddrTable_eq_some.mp hadt).2.1
  · exact fun hfits => ⟨_, newAddrTable_eq_some.mpr ⟨hpos, hfits, rfl⟩⟩

namespace AddrTable

/-- `adt_put_p` under `free_stack_lck`; `none` is `ADT_NO_SPACE`. -/
def popFree (adt : AddrTable) : Option (AddrTableCode × Nat × AddrTable) :=
  if adt.stackFill = 0 then none
  else
    let fill := adt.stackFill - 1
    some (if fill = 0 then .newlyFull else .success, adt.freeStack.getD fill 0,
      { adt with stackFill := fill })

/-- `adt_put_p` under the cell lock, which it keeps when `hold` is set; `none` waits for the lock. -/
def writeCell (adt : AddrTable) (freeInd : Nat) (t : Tid) (paddr : Nat) (hold : Bool) :
    Option AddrTable :=
  match adt.cells[freeInd]? with
  | none => none
  | some cell =>
    if cell.lck.isFree then
      some { adt with
        cells := adt.cells.set freeInd
          { lck := if hold then cell.lck.acqWrite t else cell.lck, allocated := true, paddr := paddr } }
    else none

/-- `adt_free` under the cell lock. `none` waits for the lock, `some none` is the error exit of
`adt_validate_cell_ind` or `adt_validate_cell`. -/
def clearCell (adt : AddrTable) (index : Nat) : Option (Option AddrTable) :=
  match adt.cells[index]? with
  | none => some none
  | some cell =>
    if cell.lck.isFree then
      if cell.allocated then
        some (some { adt with
          cells := adt.cells.set index { cell with allocated := false, paddr := 0 } })
      else some none
    else none

/-- `adt_free` under `free_stack_lck`. -/
def pushFree (adt : AddrTable) (index : Nat) : AddrTableCode × AddrTable :=
  (if adt.stackFill = 0 then .newlyFree else .success,
    { adt with
      freeStack := adt.freeStack.set adt.stackFill index
      stackFill := adt.stackFill + 1 })

/-- `adt_unlock` by a thread that holds the cell's lock. -/
def unlock (adt : AddrTable) (ind : Nat) (t : Tid) : Option AddrTable :=
  match adt.cells[ind]? with
  | none => none
  | some cell =>
    if cell.lck.holds t then
      some { adt with cells := adt.cells.set ind { cell with lck := cell.lck.release t } }
    else none

/-! ## Where the indices are -/

/-- The indices on the free stack, from the bottom. -/
def stack (adt : AddrTable) : List Nat := adt.freeStack.take adt.stackFill

def isAllocated (adt : AddrTable) (i : Nat) : Bool := (adt.cells[i]?).any (·.allocated)

/-- The indices of the allocated cells. -/
def allocated (adt : AddrTable) : List Nat := (List.range adt.cap).filter adt.isAllocated

/-- Every index is in one place, once. -/
structure Accounted (adt : AddrTable) (popped cleared : List Nat) : Prop where
  arrays : adt.freeStack.length = adt.cap ∧ adt.cells.length = adt.cap
  fill : adt.stackFill ≤ adt.cap
  perm : (adt.stack ++ popped ++ adt.allocated ++ cleared).Perm (List.range adt.cap)

/-- A free stack that holds an index shows it as its last. -/
theorem stack_eq_append {adt : AddrTable} (hlen : adt.stackFill ≤ adt.freeStack.length)
    (hfill : adt.stackFill ≠ 0) :
    adt.stack = adt.freeStack.take (adt.stackFill - 1) ++
      [adt.freeStack.getD (adt.stackFill - 1) 0] := by
  have hlt : adt.stackFill - 1 < adt.freeStack.length := by omega
  have hget : adt.freeStack.getD (adt.stackFill - 1) 0 = adt.freeStack[adt.stackFill - 1] := by
    rw [List.getD_eq_getElem?_getD, List.getElem?_eq_getElem hlt, Option.getD_some]
  unfold stack
  rw [hget, List.take_append_getElem hlt]
  congr 1
  omega

theorem stack_length {adt : AddrTable} {popped cleared : List Nat}
    (h : adt.Accounted popped cleared) : adt.stack.length = adt.stackFill := by
  unfold stack
  rw [List.length_take, h.arrays.1]
  exact Nat.min_eq_left h.fill

theorem popFree_eq_none {adt : AddrTable} : adt.popFree = none ↔ adt.stackFill = 0 := by
  unfold popFree
  split
  next h => exact ⟨fun _ => h, fun _ => rfl⟩
  next h => exact ⟨nofun, fun h' => absurd h' h⟩

/-- The pop takes the top, and its code says whether that emptied the stack. -/
theorem stackFill_of_popFree {adt adt' : AddrTable} {code : AddrTableCode} {i : Nat}
    (h : adt.popFree = some (code, i, adt')) :
    adt.stackFill = adt'.stackFill + 1 ∧ adt'.cap = adt.cap ∧ adt'.cells = adt.cells ∧
      code = if adt'.stackFill = 0 then .newlyFull else .success := by
  unfold popFree at h
  split at h
  · cases h
  next hfill =>
    cases h
    exact ⟨by show _ = adt.stackFill - 1 + 1; omega, rfl, rfl, rfl⟩

/-- The account of one index. -/
theorem Accounted.count {adt : AddrTable} {popped cleared : List Nat}
    (h : adt.Accounted popped cleared) (i : Nat) :
    adt.stack.count i + popped.count i + adt.allocated.count i + cleared.count i =
      if i < adt.cap then 1 else 0 := by
  have hcount := List.perm_iff_count.mp h.perm i
  simpa only [List.count_append, List.count_range] using hcount

theorem count_allocated (adt : AddrTable) (i : Nat) :
    adt.allocated.count i = if adt.isAllocated i = true ∧ i < adt.cap then 1 else 0 := by
  unfold allocated
  by_cases hp : adt.isAllocated i = true
  · rw [List.count_filter hp, List.count_range]
    simp only [hp, true_and]
  · rw [if_neg fun h => hp h.1]
    exact List.count_eq_zero.mpr fun hmem => hp (List.mem_filter.mp hmem).2

theorem Accounted.of_count {adt : AddrTable} {popped cleared : List Nat}
    (harrays : adt.freeStack.length = adt.cap ∧ adt.cells.length = adt.cap)
    (hfill : adt.stackFill ≤ adt.cap)
    (hcount : ∀ i, adt.stack.count i + popped.count i + adt.allocated.count i + cleared.count i =
      if i < adt.cap then 1 else 0) : adt.Accounted popped cleared where
  arrays := harrays
  fill := hfill
  perm := List.perm_iff_count.mpr fun i => by
    simpa only [List.count_append, List.count_range] using hcount i

theorem stack_eq_nil {adt : AddrTable} {popped cleared : List Nat}
    (h : adt.Accounted popped cleared) : adt.stack = [] ↔ adt.stackFill = 0 := by
  rw [← List.length_eq_zero_iff, stack_length h]

/-- The account is of the counts, not of the order. -/
theorem Accounted.of_counts {adt : AddrTable} {popped popped' cleared cleared' : List Nat}
    (h : adt.Accounted popped cleared) (hpopped : ∀ i, popped'.count i = popped.count i)
    (hcleared : ∀ i, cleared'.count i = cleared.count i) : adt.Accounted popped' cleared' :=
  .of_count h.arrays h.fill fun i => by
    rw [hpopped, hcleared]
    exact h.count i

theorem newAddrTable_eq {cap : Nat} {adt : AddrTable} (h : newAddrTable cap = some adt) :
    adt.cap = cap ∧ adt.stackFill ≠ 0 := by
  obtain ⟨hpos, -, rfl⟩ := newAddrTable_eq_some.mp h
  exact ⟨rfl, hpos⟩

theorem accounted_new {cap : Nat} {adt : AddrTable} (h : newAddrTable cap = some adt) :
    adt.Accounted [] [] := by
  obtain ⟨-, -, rfl⟩ := newAddrTable_eq_some.mp h
  refine .of_count ⟨List.length_range, List.length_replicate⟩ (Nat.le_refl _) fun i => ?_
  have hfree : isAllocated ⟨cap, List.range cap, cap, List.replicate cap {}⟩ i = false := by
    unfold isAllocated
    rw [List.getElem?_replicate]
    split <;> rfl
  have hstack : stack ⟨cap, List.range cap, cap, List.replicate cap {}⟩ = List.range cap := by
    unfold stack
    rw [List.take_of_length_le (Nat.le_of_eq List.length_range)]
  rw [count_allocated, hfree, hstack, List.count_range]
  simp only [List.count_nil, Bool.false_eq_true, false_and, if_false, Nat.add_zero]

variable {adt adt' : AddrTable} {popped popped' cleared cleared' : List Nat} {i : Nat}

theorem isAllocated_set {cell : AddrTableCell} (hlt : i < adt.cells.length) (j : Nat) :
    isAllocated { adt with cells := adt.cells.set i cell } j =
      if j = i then cell.allocated else adt.isAllocated j := by
  unfold isAllocated
  split
  next heq =>
    subst heq
    rw [List.getElem?_set_self hlt]
    rfl
  next hne => rw [List.getElem?_set_ne (Ne.symm hne)]

theorem isAllocated_writeCell {t : Tid} {paddr : Nat} {hold : Bool}
    (h : adt.writeCell i t paddr hold = some adt') (j : Nat) :
    adt'.isAllocated j = if j = i then true else adt.isAllocated j := by
  unfold writeCell at h
  split at h
  · cases h
  next cell hcell =>
    split at h
    · cases h
      exact isAllocated_set (List.getElem?_eq_some_iff.mp hcell).1 j
    · cases h

theorem isAllocated_clearCell (h : adt.clearCell i = some (some adt')) (j : Nat) :
    adt'.isAllocated j = if j = i then false else adt.isAllocated j := by
  unfold clearCell at h
  split at h
  · cases h
  next cell hcell =>
    split at h
    · split at h
      · cases h
        exact isAllocated_set (List.getElem?_eq_some_iff.mp hcell).1 j
      · cases h
    · cases h

theorem lt_of_isAllocated (h : adt.isAllocated i = true) : i < adt.cells.length := by
  unfold isAllocated at h
  cases hcell : adt.cells[i]? with
  | none =>
    rw [hcell] at h
    cases h
  | some cell => exact (List.getElem?_eq_some_iff.mp hcell).1

/-- An allocated cell is no error to free. -/
theorem clearCell_of_allocated (h : adt.isAllocated i = true) : adt.clearCell i ≠ some none := by
  unfold isAllocated at h
  unfold clearCell
  cases hcell : adt.cells[i]? with
  | none =>
    rw [hcell] at h
    cases h
  | some cell =>
    rw [hcell] at h
    have hallocated : cell.allocated = true := h
    simp only [hallocated, if_true]
    split <;> exact nofun

theorem allocated_of_clearCell (h : adt.clearCell i = some (some adt')) :
    adt.isAllocated i = true := by
  unfold clearCell at h
  split at h
  · cases h
  next cell hcell =>
    split at h
    · split at h
      · simpa only [isAllocated, hcell, Option.any_some]
      · cases h
    · cases h

theorem isAllocated_unlock {t : Tid} (h : adt.unlock i t = some adt') (j : Nat) :
    adt'.isAllocated j = adt.isAllocated j := by
  unfold unlock at h
  split at h
  · cases h
  next cell hcell =>
    split at h
    · cases h
      rw [isAllocated_set (List.getElem?_eq_some_iff.mp hcell).1]
      split
      next heq =>
        subst heq
        simp only [isAllocated, hcell, Option.any_some]
      next => rfl
    · cases h

/-- What the cell sections leave alone. -/
structure SameStack (adt adt' : AddrTable) : Prop where
  cap : adt'.cap = adt.cap
  freeStack : adt'.freeStack = adt.freeStack
  stackFill : adt'.stackFill = adt.stackFill
  cells : adt'.cells.length = adt.cells.length

theorem sameStack_writeCell {t : Tid} {paddr : Nat} {hold : Bool}
    (h : adt.writeCell i t paddr hold = some adt') : SameStack adt adt' := by
  unfold writeCell at h
  split at h
  · cases h
  · split at h
    · cases h
      exact ⟨rfl, rfl, rfl, List.length_set ..⟩
    · cases h

theorem sameStack_clearCell (h : adt.clearCell i = some (some adt')) : SameStack adt adt' := by
  unfold clearCell at h
  split at h
  · cases h
  · split at h
    · split at h
      · cases h
        exact ⟨rfl, rfl, rfl, List.length_set ..⟩
      · cases h
    · cases h

theorem sameStack_unlock {t : Tid} (h : adt.unlock i t = some adt') : SameStack adt adt' := by
  unfold unlock at h
  split at h
  · cases h
  · split at h
    · cases h
      exact ⟨rfl, rfl, rfl, List.length_set ..⟩
    · cases h

theorem SameStack.stack (h : SameStack adt adt') : adt'.stack = adt.stack := by
  unfold AddrTable.stack
  rw [h.freeStack, h.stackFill]

/-- The account after a cell section: the stack is the same, the allocated flags are given. -/
theorem Accounted.of_sameStack (h : adt.Accounted popped cleared) (hsame : SameStack adt adt')
    (hcount : ∀ j, popped'.count j + (if adt'.isAllocated j = true ∧ j < adt.cap then 1 else 0) +
      cleared'.count j = popped.count j +
        (if adt.isAllocated j = true ∧ j < adt.cap then 1 else 0) + cleared.count j) :
    adt'.Accounted popped' cleared' := by
  refine .of_count ?_ ?_ fun j => ?_
  · rw [hsame.freeStack, hsame.cells, hsame.cap]
    exact h.arrays
  · rw [hsame.stackFill, hsame.cap]
    exact h.fill
  · have hold := h.count j
    have hj := hcount j
    rw [count_allocated] at hold ⊢
    rw [hsame.stack, hsame.cap]
    omega

theorem count_singleton (i j : Nat) : [i].count j = if j = i then 1 else 0 := by
  rw [List.count_singleton]
  simp only [beq_iff_eq]
  exact if_congr eq_comm rfl rfl

/-- The pop of `adt_put_p` moves an index from the stack to the put. -/
theorem Accounted.pop (h : adt.Accounted popped cleared) {code : AddrTableCode}
    (hpop : adt.popFree = some (code, i, adt'))
    (hcount : ∀ j, popped'.count j = popped.count j + [i].count j) :
    adt'.Accounted popped' cleared := by
  unfold popFree at hpop
  split at hpop
  · cases hpop
  next hfill =>
    have hlen : adt.stackFill ≤ adt.freeStack.length := h.arrays.1 ▸ h.fill
    have hstack := stack_eq_append hlen hfill
    cases hpop
    refine .of_count h.arrays (Nat.le_trans (Nat.sub_le _ _) h.fill) fun j => ?_
    have hold := h.count j
    rw [hstack, List.count_append] at hold
    have hj := hcount j
    show (adt.freeStack.take (adt.stackFill - 1)).count j + popped'.count j + adt.allocated.count j +
      cleared.count j = if j < adt.cap then 1 else 0
    omega

/-- An index a put holds is not allocated. -/
theorem Accounted.of_popped (h : adt.Accounted popped cleared) (hi : i ∈ popped) :
    i < adt.cap ∧ adt.isAllocated i = false := by
  have hcount := h.count i
  have hpos := List.count_pos_iff.mpr hi
  rw [count_allocated] at hcount
  have hlt : i < adt.cap := by
    by_contra hge
    rw [if_neg hge] at hcount
    omega
  refine ⟨hlt, ?_⟩
  by_contra hallocated
  rw [Bool.not_eq_false] at hallocated
  simp only [hallocated, hlt, and_self, if_true] at hcount
  omega

/-- The write of `adt_put_p` allocates the index it popped. -/
theorem Accounted.write (h : adt.Accounted popped cleared) {t : Tid} {paddr : Nat} {hold : Bool}
    (hwrite : adt.writeCell i t paddr hold = some adt')
    (hcount : ∀ j, popped'.count j + [i].count j = popped.count j) :
    adt'.Accounted popped' cleared := by
  refine h.of_sameStack (sameStack_writeCell hwrite) fun j => ?_
  have hold := h.count j
  have hj := hcount j
  rw [count_allocated] at hold
  rw [count_singleton] at hj
  rw [isAllocated_writeCell hwrite]
  by_cases heq : j = i
  · -- the popped index was not allocated
    simp only [heq, if_true, true_and] at hold hj ⊢
    split_ifs at hold ⊢ <;> omega
  · simp only [if_neg heq] at hj ⊢
    omega

/-- The clear of `adt_free` takes an allocated index. -/
theorem Accounted.clear (h : adt.Accounted popped cleared)
    (hclear : adt.clearCell i = some (some adt'))
    (hcount : ∀ j, cleared'.count j = cleared.count j + [i].count j) :
    adt'.Accounted popped cleared' := by
  have hmem := allocated_of_clearCell hclear
  refine h.of_sameStack (sameStack_clearCell hclear) fun j => ?_
  have hj := hcount j
  rw [count_singleton] at hj
  rw [isAllocated_clearCell hclear]
  by_cases heq : j = i
  · have hcap : i < adt.cap := h.arrays.2 ▸ lt_of_isAllocated hmem
    simp only [heq, if_true, hmem, hcap, and_self, Bool.false_eq_true, false_and, if_false] at hj ⊢
    omega
  · simp only [if_neg heq] at hj ⊢
    omega

theorem Accounted.unlock (h : adt.Accounted popped cleared) {t : Tid}
    (hunlock : adt.unlock i t = some adt') : adt'.Accounted popped cleared :=
  h.of_sameStack (sameStack_unlock hunlock) fun j => by rw [isAllocated_unlock hunlock]

/-- The push of `adt_free` gives the index back to the stack. -/
theorem Accounted.push (h : adt.Accounted popped cleared)
    (hcount : ∀ j, cleared'.count j + [i].count j = cleared.count j) :
    (adt.pushFree i).2.Accounted popped cleared' := by
  have hroom : adt.stackFill < adt.cap := by
    have hlen := h.perm.length_eq
    have hstack := stack_length h
    have hi : 0 < cleared.count i := by
      have hcounti := hcount i
      rw [List.count_singleton_self] at hcounti
      omega
    have hcleared : 0 < cleared.length := List.length_pos_of_mem (List.count_pos_iff.mp hi)
    simp only [List.length_append, List.length_range, hstack] at hlen
    omega
  have hlt : adt.stackFill < adt.freeStack.length := h.arrays.1 ▸ hroom
  have hpush : (adt.pushFree i).2.stack = adt.stack ++ [i] := by
    show (adt.freeStack.set adt.stackFill i).take (adt.stackFill + 1) =
      adt.freeStack.take adt.stackFill ++ [i]
    have hset : adt.stackFill < (adt.freeStack.set adt.stackFill i).length := by
      rw [List.length_set]
      exact hlt
    rw [← List.take_append_getElem hset, List.getElem_set_self, List.take_set_of_le (Nat.le_refl _)]
  refine .of_count ⟨(List.length_set ..).trans h.arrays.1, h.arrays.2⟩ hroom fun j => ?_
  have hold := h.count j
  have hj := hcount j
  rw [hpush, List.count_append]
  show adt.stack.count j + [i].count j + popped.count j + adt.allocated.count j +
    cleared'.count j = if j < adt.cap then 1 else 0
  omega

end AddrTable

end Chvm.Virt
