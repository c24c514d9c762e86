import Chvm.Core.Heap

/-!
# The buffers of a broken collection (`data.c`)

What `util_bc` asks of the memory channels when it is used at its back end only: the collection, its
chain of tables and the two fields that say when a table is added. The elements are the matter of
`Util.Broken`.
-/

set_option autoImplicit false

namespace Chvm.Util

open Chvm.Core Chvm.Lib HeapM

/-- `util_bc`: `first` is the head of `tables` and `firstStart` 0, `last` is a place in `tables`, and
no table is ever deleted. -/
structure BcBuffers where
  addr : Nat
  cellSize : Nat
  tableSize : Nat
  tables : List Nat
  last : Nat
  lastEnd : Nat

/-- `sizeof(util_bc)`. -/
def bcSize : Nat := 56

namespace BcBuffers

/-- What `new_util_bc_table` asks for, behind a header of two pointers. -/
def tableBytes (cellSize tableSize : Nat) : Nat := 16 + cellSize * tableSize

/-- `new_util_bc_table`, for the collection at `addr`. -/
def newUtilBcTable (addr cellSize tableSize : Nat) : HeapM Nat := do
  let chnl ← getChnl addr
  safeMalloc chnl (tableBytes cellSize tableSize)

/-- `new_broken_collection`. -/
def newBrokenCollection (chnl : UInt8) (cellSize tableSize : Nat) : HeapM BcBuffers :=
  if cellSize = 0 ∨ tableSize = 0 then throw .errorExit
  else do
    let addr ← safeMalloc chnl bcSize
    let firstTable ← newUtilBcTable addr cellSize tableSize
    return { addr, cellSize, tableSize, tables := [firstTable], last := 0, lastEnd := 0 }

/-- `delete_broken_collection`. -/
def deleteBrokenCollection (bc : BcBuffers) : HeapM PUnit := do
  bc.tables.forM safeFree
  safeFree bc.addr

/-- `bc_empty`. -/
def bcEmpty (bc : BcBuffers) : Bool := bc.last = 0 && bc.lastEnd = 0

/-- `bc_push_back`. -/
def bcPushBack (bc : BcBuffers) : HeapM BcBuffers :=
  if bc.lastEnd + 1 < bc.tableSize then return { bc with lastEnd := bc.lastEnd + 1 }
  else if bc.last + 1 < bc.tables.length then return { bc with last := bc.last + 1, lastEnd := 0 }
  else do
    let newTable ← newUtilBcTable bc.addr bc.cellSize bc.tableSize
    return { bc with tables := bc.tables ++ [newTable], last := bc.last + 1, lastEnd := 0 }

/-- A loop of `bc_push_back`. -/
def bcPushBacks : Nat → BcBuffers → HeapM BcBuffers
  | 0, bc => return bc
  | n + 1, bc => do
    let bc ← bc.bcPushBack
    bcPushBacks n bc

/-- `bc_pop_back`. -/
def bcPopBack (bc : BcBuffers) : HeapM BcBuffers :=
  if bc.bcEmpty then throw .errorExit
  else if bc.lastEnd = 0 then
    return { bc with last := bc.last - 1, lastEnd := bc.tableSize - 1 }
  else return { bc with lastEnd := bc.lastEnd - 1 }

/-- The pointers of the collection. -/
def ptrs (bc : BcBuffers) : List Nat := bc.addr :: bc.tables

/-- The collection and its tables. -/
def count (bc : BcBuffers) : Nat := 1 + bc.tables.length

/-- The collection has `n` elements. -/
structure Holds (bc : BcBuffers) (n : Nat) : Prop where
  size_pos : 0 < bc.tableSize
  fits : tableBytes bc.cellSize bc.tableSize + 1 < 2 ^ 64
  last_lt : bc.last < bc.tables.length
  lastEnd_lt : bc.lastEnd < bc.tableSize
  fill : bc.last * bc.tableSize + bc.lastEnd = n

variable {bc : BcBuffers} {n m cellSize tableSize : Nat} {chnl : UInt8} {base : List (Nat × UInt8)}
  {rest : List Nat}

theorem Holds.empty_iff (h : bc.Holds n) : bc.bcEmpty = true ↔ n = 0 := by
  obtain ⟨hpos, -, -, -, hfill⟩ := h
  simp only [bcEmpty, Bool.and_eq_true, decide_eq_true_eq]
  constructor
  · rintro ⟨hlast, hend⟩
    rw [← hfill, hlast, hend, Nat.zero_mul]
  · intro hzero
    rw [hzero, Nat.add_eq_zero_iff, Nat.mul_eq_zero] at hfill
    exact ⟨hfill.1.resolve_right (Nat.ne_of_gt hpos), hfill.2⟩

theorem triple_newBrokenCollection (hcell : cellSize ≠ 0) (hsize : tableSize ≠ 0)
    (hfits : tableBytes cellSize tableSize + 1 < 2 ^ 64) :
    Triple OutOfMemory (Owned chnl base rest) (newBrokenCollection chnl cellSize tableSize)
      fun bc h => bc.Holds 0 ∧ Owned chnl base (bc.ptrs ++ rest) h := by
  unfold newBrokenCollection
  rw [if_neg (not_or.mpr ⟨hcell, hsize⟩)]
  refine (triple_safeMalloc (by decide)).bind fun addr => ?_
  refine (triple_mallocBeside List.mem_cons_self hfits).bind fun table => ?_
  intro h hown
  refine ⟨⟨Nat.pos_of_ne_zero hsize, hfits, Nat.zero_lt_one, Nat.pos_of_ne_zero hsize, ?_⟩, ?_⟩
  · exact Nat.zero_mul _
  · exact hown.perm (List.Perm.swap ..)

/-- A push adds an element, and a table when the chain has no more of them. -/
theorem triple_bcPushBack (hbc : bc.Holds n) :
    Triple OutOfMemory (Owned chnl base (bc.ptrs ++ rest)) bc.bcPushBack
      fun bc h => bc.Holds (n + 1) ∧ Owned chnl base (bc.ptrs ++ rest) h := by
  obtain ⟨hpos, hfits, hlast, hend, hfill⟩ := hbc
  have hnext : (bc.last + 1) * bc.tableSize = bc.last * bc.tableSize + bc.tableSize := Nat.succ_mul ..
  unfold bcPushBack
  split
  next hroom =>
    intro h hown
    refine ⟨⟨hpos, hfits, hlast, hroom, ?_⟩, hown⟩
    show bc.last * bc.tableSize + (bc.lastEnd + 1) = n + 1
    omega
  next hfull =>
    have hcount : (bc.last + 1) * bc.tableSize + 0 = n + 1 := by omega
    split
    next hchain =>
      intro h hown
      exact ⟨⟨hpos, hfits, hchain, hpos, hcount⟩, hown⟩
    next =>
      refine (triple_mallocBeside List.mem_cons_self hfits).bind fun table => ?_
      intro h hown
      refine ⟨⟨hpos, hfits, ?_, hpos, hcount⟩, hown.perm ?_⟩
      · show bc.last + 1 < (bc.tables ++ [table]).length
        rw [List.length_append]
        exact Nat.add_lt_add_right hlast 1
      · show (table :: bc.addr :: (bc.tables ++ rest)).Perm (bc.addr :: ((bc.tables ++ [table]) ++ rest))
        rw [List.append_assoc]
        exact (List.Perm.swap ..).trans (List.perm_middle.symm.cons _)

theorem triple_bcPushBacks (hbc : bc.Holds n) :
    Triple OutOfMemory (Owned chnl base (bc.ptrs ++ rest)) (bcPushBacks m bc)
      fun bc h => bc.Holds (n + m) ∧ Owned chnl base (bc.ptrs ++ rest) h := by
  induction m generalizing bc n with
  | zero => exact fun h hown => ⟨hbc, hown⟩
  | succ m ih =>
    refine (triple_bcPushBack hbc).bind fun bc' => Triple.of_fact fun hbc' => ?_
    have hcount : n + (m + 1) = n + 1 + m := by omega
    rw [hcount]
    exact ih hbc'

/-- A pop of what is there keeps the tables, and asks for nothing. -/
theorem triple_bcPopBack {stops : HeapStop → Prop} (hbc : bc.Holds (n + 1)) :
    Triple stops (Owned chnl base (bc.ptrs ++ rest)) bc.bcPopBack
      fun bc h => bc.Holds n ∧ Owned chnl base (bc.ptrs ++ rest) h := by
  have hsome : ¬ bc.bcEmpty = true := fun hempty => Nat.succ_ne_zero n (hbc.empty_iff.mp hempty)
  obtain ⟨hpos, hfits, hlast, hend, hfill⟩ := hbc
  unfold bcPopBack
  rw [if_neg hsome]
  split
  next hzero =>
    intro h hown
    cases hl : bc.last with
    | zero =>
      rw [hl, hzero] at hfill
      omega
    | succ last =>
      rw [hl, Nat.succ_mul] at hfill
      refine ⟨⟨hpos, hfits, ?_, Nat.sub_lt hpos Nat.one_pos, ?_⟩, hown⟩
      · show last + 1 - 1 < bc.tables.length
        omega
      · show (last + 1 - 1) * bc.tableSize + (bc.tableSize - 1) = n
        rw [Nat.add_sub_cancel]
        omega
  next hzero =>
    intro h hown
    refine ⟨⟨hpos, hfits, hlast, ?_, ?_⟩, hown⟩
    · show bc.lastEnd - 1 < bc.tableSize
      omega
    · show bc.last * bc.tableSize + (bc.lastEnd - 1) = n
      omega

/-- The order of `delete_broken_collection`. -/
def deleteOrder (bc : BcBuffers) : List Nat := bc.tables ++ [bc.addr]

theorem deleteBrokenCollection_eq (bc : BcBuffers) :
    bc.deleteBrokenCollection = bc.deleteOrder.forM safeFree := by
  simp [deleteBrokenCollection, deleteOrder]

theorem deleteOrder_perm (bc : BcBuffers) : bc.deleteOrder.Perm bc.ptrs :=
  List.perm_append_comm

end BcBuffers

end Chvm.Util
