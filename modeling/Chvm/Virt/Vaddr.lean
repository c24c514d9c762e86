import Mathlib.Algebra.Group.Nat.Defs
import Mathlib.Data.List.Basic

/-! Virtual addresses (`virt.h`): the index of a table in the address book and of a cell in it. -/

set_option autoImplicit false

namespace Chvm

/-- `UINT64_MAX`, the index no table, cell or root-set entry has. -/
def uint64Max : Nat := 2 ^ 64 - 1

/-- `addr_book_vaddr`. -/
structure Vaddr where
  tableIndex : Nat
  cellIndex : Nat
deriving DecidableEq, Repr

/-- `NULL_VADDR`. -/
def nullVaddr : Vaddr := ⟨uint64Max, uint64Max⟩

/-- `null_adb_addr`. -/
def nullAdbAddr (v : Vaddr) : Bool :=
  v.tableIndex == nullVaddr.tableIndex && v.cellIndex == nullVaddr.cellIndex

theorem nullAdbAddr_iff {v : Vaddr} : nullAdbAddr v = true ↔ v = nullVaddr := by
  obtain ⟨i, j⟩ := v
  simp only [nullAdbAddr, nullVaddr, Bool.and_eq_true, beq_iff_eq, Vaddr.mk.injEq]

end Chvm
