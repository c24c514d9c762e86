import Mathlib.Data.Set.Insert
import Chvm.Util.Broken

/-!
# The tables of a broken collection

`Shows` reads a collection as a chain of tables in three parts, those in front of the first cursor's
table, those from the first to the last, and those behind, and the cells of the middle part as what
is in front of the first element, the elements, and what is behind them. Each step of a push or pop
moves one boundary.
-/

set_option autoImplicit false

namespace Chvm.Util

open Chvm.Core Chvm.Lib

namespace Bc

/-- The forward links of the tables. -/
def next (bc : Bc) (a : Nat) : Option Nat := (bc.heap a).bind (·.next)

/-- The back links. -/
def prev (bc : Bc) (a : Nat) : Option Nat := (bc.heap a).bind (·.prev)

/-- The tables that are in memory. -/
def tables (bc : Bc) : Set Nat := {a | (bc.heap a).isSome = true}

/-- The cells of a table. -/
def cells (bc : Bc) (a : Nat) : List (List UInt8) :=
  match bc.heap a with
  | none => []
  | some table => cellsOf bc.cellSize bc.tableSize table.bytes

/-- The tables in memory are those of the chain. -/
def Whole (bc : Bc) (chain : List Nat) : Prop := ∀ a, a ∈ bc.tables ↔ a ∈ chain

/-- A step takes the tables of one chain to those of another, in the same mode. -/
structure Moves (bc bc' : Bc) (chain chain' : List Nat) : Prop where
  mode : bc'.deleteEmptyTables = bc.deleteEmptyTables
  whole : bc.Whole chain → bc'.Whole chain'

/-- A step that makes no table and frees none. -/
structure Kept (bc bc' : Bc) : Prop where
  mode : bc'.deleteEmptyTables = bc.deleteEmptyTables
  tables : bc'.tables = bc.tables

variable {bc bc' bc'' : Bc} {chain chain' chain'' : List Nat} {b : Nat}

theorem Kept.moves (h : bc.Kept bc') : bc.Moves bc' chain chain where
  mode := h.mode
  whole hwhole a := by rw [h.tables, hwhole a]

theorem Moves.trans (h : bc.Moves bc' chain chain') (h' : bc'.Moves bc'' chain' chain'') :
    bc.Moves bc'' chain chain'' where
  mode := h'.mode.trans h.mode
  whole hwhole := h'.whole (h.whole hwhole)

/-- A new table. -/
theorem Moves.of_insert (hmode : bc'.deleteEmptyTables = bc.deleteEmptyTables)
    (htables : bc'.tables = insert b bc.tables) (hchain : ∀ c, c ∈ chain' ↔ c = b ∨ c ∈ chain) :
    bc.Moves bc' chain chain' where
  mode := hmode
  whole hwhole c := by rw [htables, Set.mem_insert_iff, hchain c, hwhole c]

/-- A freed table. -/
theorem Moves.of_sdiff (hmode : bc'.deleteEmptyTables = bc.deleteEmptyTables)
    (htables : bc'.tables = bc.tables \ {b}) (hchain : ∀ c, c ∈ chain ↔ c = b ∨ c ∈ chain')
    (hb : ∀ c ∈ chain', c ≠ b) : bc.Moves bc' chain chain' where
  mode := hmode
  whole hwhole c := by
    rw [htables, Set.mem_sdiff, Set.mem_singleton_iff, hwhole c, hchain c, or_and_right,
      and_not_self_iff, false_or]
    exact and_iff_left_of_imp (hb c)

end Bc

structure Shows (cs ts : Nat) (bc : Bc) (pre mid post : List Nat)
    (front elems back : List (List UInt8)) : Prop where
  sizes : bc.cellSize = cs ∧ bc.tableSize = ts
  fits : 17 + cs * ts < 2 ^ 64
  linked : Linked bc.next bc.prev (pre ++ (mid ++ post)).head? (pre ++ (mid ++ post))
  nodup : (pre ++ (mid ++ post)).Nodup
  sized : ∀ a ∈ pre ++ (mid ++ post), ∃ table, bc.heap a = some table ∧
    table.bytes.length = cs * ts
  ends : bc.first = mid.head? ∧ bc.last = mid.getLast?
  nonempty : mid ≠ []
  cells : mid.flatMap bc.cells = front ++ (elems ++ back)
  start : front.length = bc.firstStart
  stop : back.length + bc.lastEnd = ts

variable {cs ts : Nat} {bc bc' : Bc} {pre mid post mid₁ mid₂ : List Nat}
  {front elems back : List (List UInt8)} {a b i : Nat} {table : BcTable} {src x : List UInt8}

/-! ## Reading a table -/

theorem Shows.length_cells (h : Shows cs ts bc pre mid post front elems back)
    (ha : a ∈ pre ++ (mid ++ post)) : (bc.cells a).length = ts := by
  obtain ⟨table, htable, -⟩ := h.sized a ha
  rw [Bc.cells, htable, ← h.sizes.2]
  exact length_cellsOf

theorem mem_of_mid (ha : a ∈ mid) : a ∈ pre ++ (mid ++ post) :=
  List.mem_append_right _ (List.mem_append_left _ ha)

/-- Where the elements end, in cells from the first table. -/
theorem Shows.length_mid (h : Shows cs ts bc pre mid post front elems back) :
    mid.length * ts = front.length + elems.length + back.length := by
  have hlen := congrArg List.length h.cells
  rw [length_flatMap_const fun a ha => h.length_cells (mem_of_mid ha), List.length_append,
    List.length_append] at hlen
  omega

theorem Shows.table_first (h : Shows cs ts bc pre mid post front elems back) :
    ∃ a mid' table, mid = a :: mid' ∧ bc.first = some a ∧ bc.heap a = some table ∧
      table.bytes.length = cs * ts ∧ bc.table bc.first = .ok (a, table) := by
  obtain ⟨a, mid', rfl⟩ := List.exists_cons_of_ne_nil h.nonempty
  obtain ⟨table, htable, hlen⟩ := h.sized a (mem_of_mid List.mem_cons_self)
  have hfirst : bc.first = some a := h.ends.1
  refine ⟨a, mid', table, rfl, hfirst, htable, hlen, ?_⟩
  unfold Bc.table
  simp only [hfirst, htable]

theorem Shows.table_last (h : Shows cs ts bc pre mid post front elems back) :
    ∃ mid' a table, mid = mid' ++ [a] ∧ bc.last = some a ∧ bc.heap a = some table ∧
      table.bytes.length = cs * ts ∧ bc.table bc.last = .ok (a, table) := by
  obtain ⟨mid', a, rfl⟩ := (List.eq_nil_or_concat' mid).resolve_left h.nonempty
  obtain ⟨table, htable, hlen⟩ := h.sized a (mem_of_mid (List.mem_append_right _ List.mem_cons_self))
  have hlast : bc.last = some a := by
    rw [h.ends.2, List.getLast?_append]
    rfl
  refine ⟨mid', a, table, rfl, hlast, htable, hlen, ?_⟩
  unfold Bc.table
  simp only [hlast, htable]

/-- An offset does not wrap. -/
theorem Shows.offset_eq (h : Shows cs ts bc pre mid post front elems back) (hi : i < ts) :
    bc.offset i = i * cs ∧ i * cs + cs ≤ cs * ts := by
  have hle : i * cs + cs ≤ cs * ts := by
    rw [← Nat.succ_mul, Nat.mul_comm cs]
    exact Nat.mul_le_mul_right cs hi
  have hfits := h.fits
  refine ⟨?_, hle⟩
  rw [Bc.offset, h.sizes.1, Nat.mod_eq_of_lt (by omega)]

/-- The read of a cell. -/
theorem Shows.load_cell (h : Shows cs ts bc pre mid post front elems back) (ha : a ∈ mid)
    (htable : bc.heap a = some table) (hi : i < ts) (hx : (bc.cells a)[i]? = some x) :
    table.load (bc.offset i) bc.cellSize = .ok x := by
  obtain ⟨hoff, hle⟩ := h.offset_eq hi
  obtain ⟨table', htable', hlen⟩ := h.sized a (mem_of_mid ha)
  cases htable.symm.trans htable'
  rw [Bc.cells, htable, h.sizes.1, h.sizes.2] at hx
  rw [BcTable.load, hoff, h.sizes.1, hlen, if_pos hle]
  exact congrArg Except.ok (Option.some.inj ((getElem?_cellsOf hi).symm.trans hx))

/-- The cell at an index of a table in the middle. -/
theorem Shows.load (mid₁ mid₂ : List Nat)
    (h : Shows cs ts bc pre (mid₁ ++ a :: mid₂) post front elems back)
    (htable : bc.heap a = some table) (hi : i < ts)
    (hx : (front ++ (elems ++ back))[mid₁.length * ts + i]? = some x) :
    table.load (bc.offset i) bc.cellSize = .ok x := by
  have hmid : ∀ c ∈ mid₁ ++ a :: mid₂, (bc.cells c).length = ts := fun c hc =>
    h.length_cells (mem_of_mid hc)
  have ha : a ∈ mid₁ ++ a :: mid₂ := List.mem_append_right _ List.mem_cons_self
  refine h.load_cell ha htable hi ?_
  rw [← hx, ← h.cells, getElem?_flatMap (fun c hc => hmid c (List.mem_append_left _ hc))]
  rw [hmid a ha]
  exact hi

/-! ## Writing a cell -/

theorem heap_setTable {t : BcTable} (c : Nat) :
    (bc.setTable a t).heap c = if c = a then some t else bc.heap c := by
  unfold Bc.setTable
  by_cases hc : c = a
  · simp only [hc, Function.update_self, if_true]
  · simp only [Function.update_of_ne hc, if_neg hc]

theorem next_setTable {t : BcTable} (c : Nat) :
    (bc.setTable a t).next c = if c = a then t.next else bc.next c := by
  unfold Bc.next Bc.setTable
  by_cases hc : c = a
  · simp only [hc, Function.update_self, if_true, Option.bind_some]
  · simp only [Function.update_of_ne hc, if_neg hc]

theorem prev_setTable {t : BcTable} (c : Nat) :
    (bc.setTable a t).prev c = if c = a then t.prev else bc.prev c := by
  unfold Bc.prev Bc.setTable
  by_cases hc : c = a
  · simp only [hc, Function.update_self, if_true, Option.bind_some]
  · simp only [Function.update_of_ne hc, if_neg hc]

theorem next_of_heap (htable : bc.heap a = some table) : bc.next a = table.next := by
  rw [Bc.next, htable, Option.bind_some]

theorem prev_of_heap (htable : bc.heap a = some table) : bc.prev a = table.prev := by
  rw [Bc.prev, htable, Option.bind_some]

theorem cells_of_heap (htable : bc.heap a = some table) :
    bc.cells a = cellsOf bc.cellSize bc.tableSize table.bytes := by
  rw [Bc.cells, htable]

theorem cells_setTable {t : BcTable} (c : Nat) : (bc.setTable a t).cells c =
    if c = a then cellsOf bc.cellSize bc.tableSize t.bytes else bc.cells c := by
  unfold Bc.cells Bc.setTable
  by_cases hc : c = a
  · simp only [hc, Function.update_self, if_true]
  · simp only [Function.update_of_ne hc, if_neg hc]

theorem mem_tables : a ∈ bc.tables ↔ (bc.heap a).isSome = true := Iff.rfl

theorem mem_tables_of_heap (htable : bc.heap a = some table) : a ∈ bc.tables :=
  Option.isSome_iff_exists.mpr ⟨table, htable⟩

theorem tables_setTable_insert (t : BcTable) : (bc.setTable a t).tables = insert a bc.tables := by
  ext c
  rw [Set.mem_insert_iff, mem_tables, mem_tables, heap_setTable]
  by_cases hc : c = a
  · rw [if_pos hc]
    exact iff_of_true rfl (.inl hc)
  · rw [if_neg hc]
    exact (or_iff_right hc).symm

theorem tables_setTable {t : BcTable} (htable : bc.heap a = some table) :
    (bc.setTable a t).tables = bc.tables := by
  rw [tables_setTable_insert, Set.insert_eq_of_mem (mem_tables_of_heap htable)]

/-- What a write leaves: the tables, with one cell of the middle set. -/
theorem Shows.store (mid₁ mid₂ : List Nat)
    (h : Shows cs ts bc pre (mid₁ ++ a :: mid₂) post front elems back)
    (htable : bc.heap a = some table) (hlen : table.bytes.length = cs * ts) (hi : i < ts)
    (hsrc : src.length = cs) :
    ∃ t, table.store (bc.offset i) src = .ok t ∧ t.next = table.next ∧ t.prev = table.prev ∧
      t.bytes.length = cs * ts ∧ (mid₁ ++ a :: mid₂).flatMap (bc.setTable a t).cells =
        (front ++ (elems ++ back)).set (mid₁.length * ts + i) src := by
  obtain ⟨hoff, hle⟩ := h.offset_eq hi
  have hroom : i * cs + src.length ≤ table.bytes.length := by
    rw [hsrc, hlen]
    exact hle
  have hmid : ∀ c ∈ mid₁ ++ a :: mid₂, (bc.cells c).length = ts := fun c hc =>
    h.length_cells (mem_of_mid hc)
  have ha : a ∉ mid₁ ∧ a ∉ mid₂ := by
    have hnodup := (List.nodup_append.mp (List.nodup_append.mp h.nodup).2.1).1
    obtain ⟨-, hcons, hdisjoint⟩ := List.nodup_append.mp hnodup
    exact ⟨fun hin => hdisjoint a hin a List.mem_cons_self rfl, (List.nodup_cons.mp hcons).1⟩
  refine ⟨{ table with bytes := splice table.bytes (i * cs) src }, ?_, rfl, rfl, ?_, ?_⟩
  · rw [BcTable.store, hoff, if_pos hroom]
  · exact (length_splice hroom).trans hlen
  · rw [← h.cells]
    refine flatMap_set (fun c hc => hmid c (List.mem_append_left _ hc)) ?_ ?_ (fun c hc => ?_)
      fun c hc => ?_
    · rw [hmid a (List.mem_append_right _ List.mem_cons_self)]
      exact hi
    · rw [cells_setTable, if_pos rfl, Bc.cells, htable, h.sizes.1, h.sizes.2]
      exact cellsOf_splice hlen hsrc hi
    · rw [cells_setTable, if_neg (ne_of_mem_of_not_mem hc ha.1)]
    · rw [cells_setTable, if_neg (ne_of_mem_of_not_mem hc ha.2)]

/-- The tables after a write. -/
theorem Shows.of_store (h : Shows cs ts bc pre mid post front elems back)
    (htable : bc.heap a = some table) {t : BcTable} (hnext : t.next = table.next)
    (hprev : t.prev = table.prev) (hlen : t.bytes.length = cs * ts) {front' elems' back' : List (List UInt8)}
    {firstStart lastEnd : Nat} (hcells : mid.flatMap (bc.setTable a t).cells = front' ++ (elems' ++ back'))
    (hstart : front'.length = firstStart) (hstop : back'.length + lastEnd = ts) :
    Shows cs ts { bc.setTable a t with firstStart := firstStart, lastEnd := lastEnd }
      pre mid post front' elems' back' where
  sizes := h.sizes
  fits := h.fits
  linked := by
    refine h.linked.congr (fun c _ => ?_) fun c _ => ?_
    · refine (next_setTable c).trans (ite_eq_right_iff.mpr fun heq => ?_)
      rw [heq, hnext, next_of_heap htable]
    · refine (prev_setTable c).trans (ite_eq_right_iff.mpr fun heq => ?_)
      rw [heq, hprev, prev_of_heap htable]
  nodup := h.nodup
  sized c hc := by
    by_cases heq : c = a
    · exact ⟨t, by rw [heq]; exact Function.update_self .., hlen⟩
    · obtain ⟨table', htable', hlen'⟩ := h.sized c hc
      exact ⟨table', (Function.update_of_ne heq ..).trans htable', hlen'⟩
  ends := h.ends
  nonempty := h.nonempty
  cells := hcells
  start := hstart
  stop := hstop

/-- An assignment right behind a prefix. -/
theorem set_behind {l₁ l₂ : List (List UInt8)} {y : List UInt8} {n : Nat} (hn : n = l₁.length) :
    (l₁ ++ y :: l₂).set n x = l₁ ++ x :: l₂ := by
  rw [hn, List.set_append_right _ _ (Nat.le_refl _), Nat.sub_self, List.set_cons_zero]

/-- An element that is written behind the last. -/
theorem Shows.putBack {y : List UInt8} (h : Shows cs ts bc pre mid post front elems (y :: back))
    (hsrc : src.length = cs) : ∃ bc', bc.putBack src = .ok bc' ∧
      bc.Kept bc' ∧ Shows cs ts bc' pre mid post front (elems ++ [src]) back := by
  obtain ⟨mid', a, table, rfl, -, htable, hlen, hread⟩ := h.table_last
  have hstop := h.stop
  have hmid := h.length_mid
  rw [List.length_cons] at hstop hmid
  rw [List.length_append, List.length_singleton, Nat.succ_mul] at hmid
  have hi : bc.lastEnd < ts := by omega
  obtain ⟨t, hstore, hnext, hprev, hlen', hcells⟩ := Shows.store _ [] h htable hlen hi hsrc
  refine ⟨{ bc.setTable a t with lastEnd := bc.lastEnd + 1 }, ?_, ⟨rfl, tables_setTable htable⟩,
    h.of_store htable hnext hprev hlen' (hcells.trans ?_) h.start (by omega)⟩
  · simp only [Bc.putBack, hread, hstore, bind, Except.bind, pure, Except.pure]
  · rw [← List.append_assoc, set_behind (by rw [List.length_append]; omega)]
    simp only [List.append_assoc, List.cons_append, List.nil_append]

/-- An element that is written in front of the first. -/
theorem Shows.putFront {y : List UInt8} (h : Shows cs ts bc pre mid post (front ++ [y]) elems back)
    (hle : bc.firstStart ≤ ts) (hsrc : src.length = cs) : ∃ bc', bc.putFront src = .ok bc' ∧
      bc.Kept bc' ∧ Shows cs ts bc' pre mid post front (src :: elems) back := by
  obtain ⟨a, mid', table, rfl, -, htable, hlen, hread⟩ := h.table_first
  have hstart := h.start
  rw [List.length_append, List.length_singleton] at hstart
  have hi : bc.firstStart - 1 < ts := by omega
  obtain ⟨t, hstore, hnext, hprev, hlen', hcells⟩ := Shows.store [] _ h htable hlen hi hsrc
  refine ⟨{ bc.setTable a t with firstStart := bc.firstStart - 1 }, ?_, ⟨rfl, tables_setTable htable⟩,
    h.of_store htable hnext hprev hlen' (hcells.trans ?_) (by omega) h.stop⟩
  · simp only [Bc.putFront, hread, hstore, bind, Except.bind, pure, Except.pure]
  · rw [List.append_assoc, List.singleton_append, set_behind (by rw [List.length_nil]; omega)]
    rfl

/-! ## Moving the cursors -/

variable {pre' mid' post' : List Nat} {front' elems' back' : List (List UInt8)}

/-- The same tables, read from other cursors. -/
theorem Shows.recut (h : Shows cs ts bc pre mid post front elems back) {first last : Option Nat}
    {firstStart lastEnd : Nat} (hchain : pre' ++ (mid' ++ post') = pre ++ (mid ++ post))
    (hnonempty : mid' ≠ []) (hfirst : first = mid'.head?) (hlast : last = mid'.getLast?)
    (hcells : mid'.flatMap bc.cells = front' ++ (elems' ++ back'))
    (hstart : front'.length = firstStart) (hstop : back'.length + lastEnd = ts) :
    Shows cs ts
      { bc with first := first, firstStart := firstStart, last := last, lastEnd := lastEnd }
      pre' mid' post' front' elems' back' where
  sizes := h.sizes
  fits := h.fits
  linked := by
    rw [hchain]
    exact h.linked
  nodup := hchain ▸ h.nodup
  sized := hchain ▸ h.sized
  ends := ⟨hfirst, hlast⟩
  nonempty := hnonempty
  cells := hcells
  start := hstart
  stop := hstop

/-- The last element is read. -/
theorem Shows.takeBack (h : Shows cs ts bc pre mid post front (elems ++ [x]) back)
    (hpos : bc.lastEnd ≠ 0) : ∃ bc', bc.takeBack = .ok (x, bc') ∧
      bc.Kept bc' ∧ Shows cs ts bc' pre mid post front elems (x :: back) := by
  obtain ⟨mid', a, table, rfl, -, htable, -, hread⟩ := h.table_last
  have hstop := h.stop
  have hmid := h.length_mid
  rw [List.length_append, List.length_singleton, Nat.succ_mul, List.length_append,
    List.length_singleton] at hmid
  have hload := Shows.load _ [] h (i := bc.lastEnd - 1) (x := x) htable (by omega) (by
    have hindex : mid'.length * ts + (bc.lastEnd - 1) = front.length + elems.length := by omega
    rw [hindex, List.getElem?_append_right (Nat.le_add_right ..), Nat.add_sub_cancel_left,
      List.append_assoc, List.getElem?_append_right (Nat.le_refl _), Nat.sub_self]
    rfl)
  refine ⟨{ bc with lastEnd := bc.lastEnd - 1 }, ?_, ⟨rfl, rfl⟩,
    h.recut rfl h.nonempty h.ends.1 h.ends.2 ?_ h.start ?_⟩
  · simp only [Bc.takeBack, hread, hload, bind, Except.bind, pure, Except.pure]
  · rw [h.cells]
    simp only [List.append_assoc, List.cons_append, List.nil_append]
  · rw [List.length_cons]
    omega

/-- The first element is read. -/
theorem Shows.takeFront (h : Shows cs ts bc pre mid post front (x :: elems) back)
    (hlt : bc.firstStart < ts) : ∃ bc', bc.takeFront = .ok (x, bc') ∧
      bc.Kept bc' ∧ Shows cs ts bc' pre mid post (front ++ [x]) elems back := by
  obtain ⟨a, mid', table, rfl, -, htable, hlen, hread⟩ := h.table_first
  have hload := Shows.load [] _ h (x := x) htable hlt (by
    rw [List.length_nil, Nat.zero_mul, Nat.zero_add, ← h.start,
      List.getElem?_append_right (Nat.le_refl _), Nat.sub_self]
    rfl)
  refine ⟨{ bc with firstStart := bc.firstStart + 1 }, ?_, ⟨rfl, rfl⟩,
    h.recut rfl h.nonempty h.ends.1 h.ends.2 ?_ ?_ h.stop⟩
  · simp only [Bc.takeFront, hread, hload, bind, Except.bind, pure, Except.pure]
  · rw [h.cells]
    simp only [List.append_assoc, List.cons_append, List.nil_append]
  · rw [List.length_append, List.length_singleton, h.start]

/-- The links of a table in the chain. -/
theorem Shows.links (h : Shows cs ts bc pre mid post front elems back) (l₁ l₂ : List Nat)
    (hchain : pre ++ (mid ++ post) = l₁ ++ a :: l₂) (htable : bc.heap a = some table) :
    table.prev = l₁.getLast? ∧ table.next = l₂.head? := by
  have hlinked := h.linked
  rw [hchain] at hlinked
  obtain ⟨hprev, hnext⟩ := hlinked.links
  unfold Bc.prev at hprev
  unfold Bc.next at hnext
  rw [htable] at hprev hnext
  exact ⟨hprev, hnext⟩

/-- Behind a full last table the next one is entered. -/
theorem Shows.advanceBack (h : Shows cs ts bc pre mid (b :: post) front elems []) :
    ∃ bc', bc.advanceBack = .ok bc' ∧ bc.Kept bc' ∧
      Shows cs ts bc' pre (mid ++ [b]) post front elems (bc.cells b) := by
  obtain ⟨mid', a, table, rfl, -, htable, -, hread⟩ := h.table_last
  have hnext : table.next = some b := (h.links (pre ++ mid') (b :: post)
    (by simp only [List.append_assoc, List.cons_append, List.nil_append]) htable).2
  have hb : b ∈ pre ++ ((mid' ++ [a]) ++ b :: post) :=
    List.mem_append_right _ (List.mem_append_right _ List.mem_cons_self)
  refine ⟨{ bc with last := some b, lastEnd := 0 }, ?_, ⟨rfl, rfl⟩,
    h.recut ?_ ?_ ?_ ?_ ?_ h.start ?_⟩
  · simp only [Bc.advanceBack, hread, hnext, bind, Except.bind, pure, Except.pure]
  · simp only [List.append_assoc, List.cons_append, List.nil_append]
  · exact List.append_ne_nil_of_right_ne_nil _ (List.cons_ne_nil b [])
  · rw [h.ends.1, List.head?_append_of_ne_nil _ h.nonempty]
  · rw [List.getLast?_append]
    rfl
  · rw [List.flatMap_append, h.cells, List.flatMap_singleton, List.append_nil, List.append_assoc]
  · rw [h.length_cells hb, Nat.add_zero]

/-- In front of a full first table the one before it is entered. -/
theorem Shows.retreatFront (h : Shows cs ts bc (pre ++ [b]) mid post [] elems back) :
    ∃ bc', bc.retreatFront = .ok bc' ∧ bc.Kept bc' ∧
      Shows cs ts bc' pre (b :: mid) post (bc.cells b) elems back := by
  obtain ⟨a, mid', table, rfl, -, htable, -, hread⟩ := h.table_first
  have hprev : table.prev = some b := by
    rw [(h.links (pre ++ [b]) (mid' ++ post) (by simp only [List.cons_append]) htable).1,
      List.getLast?_append]
    rfl
  have hb : b ∈ (pre ++ [b]) ++ ((a :: mid') ++ post) :=
    List.mem_append_left _ (List.mem_append_right _ List.mem_cons_self)
  refine ⟨{ bc with first := some b, firstStart := bc.tableSize }, ?_, ⟨rfl, rfl⟩,
    h.recut ?_ (List.cons_ne_nil b _) rfl ?_ ?_ ?_ h.stop⟩
  · simp only [Bc.retreatFront, hread, hprev, bind, Except.bind, pure, Except.pure]
  · simp only [List.append_assoc, List.cons_append, List.nil_append]
  · rw [h.ends.2, List.getLast?_cons_cons]
  · rw [List.flatMap_cons, h.cells, List.nil_append]
  · rw [h.length_cells hb, h.sizes.2]

/-- Before an empty last table the one in front of it is entered. -/
theorem Shows.retreatBack (h : Shows cs ts bc pre mid post front elems back) (hzero : bc.lastEnd = 0)
    (hne : elems ≠ []) : ∃ bc' mid' b, bc.retreatBack = .ok bc' ∧
      bc.Kept bc' ∧ pre ++ (mid' ++ b :: post) = pre ++ (mid ++ post) ∧
      Shows cs ts bc' pre mid' (b :: post) front elems [] := by
  obtain ⟨mid', a, table, rfl, -, htable, -, hread⟩ := h.table_last
  have hstop := h.stop
  have hcells := h.cells
  rw [List.flatMap_append, List.flatMap_singleton, ← List.append_assoc] at hcells
  have ha : (bc.cells a).length = back.length := by
    rw [h.length_cells (mem_of_mid (List.mem_append_right _ List.mem_cons_self))]
    omega
  obtain ⟨hmid, -⟩ := List.append_inj' hcells ha
  have hne' : mid' ≠ [] := by
    rintro rfl
    exact hne (List.append_eq_nil_iff.mp hmid.symm).2
  obtain ⟨mid'', b, rfl⟩ := (List.eq_nil_or_concat' mid').resolve_left hne'
  have hprev : table.prev = some b := by
    rw [(h.links (pre ++ (mid'' ++ [b])) post
      (by simp only [List.append_assoc, List.cons_append, List.nil_append]) htable).1,
      List.getLast?_append, List.getLast?_append]
    rfl
  have hchain : pre ++ ((mid'' ++ [b]) ++ a :: post) = pre ++ (((mid'' ++ [b]) ++ [a]) ++ post) := by
    simp only [List.append_assoc, List.cons_append, List.nil_append]
  refine ⟨{ bc with last := some b, lastEnd := bc.tableSize }, mid'' ++ [b], a, ?_, ⟨rfl, rfl⟩,
    hchain, h.recut hchain hne' ?_ ?_ ?_ h.start ?_⟩
  · simp only [Bc.retreatBack, hread, hprev, bind, Except.bind, pure, Except.pure]
  · rw [h.ends.1, List.head?_append_of_ne_nil _ hne']
  · rw [List.getLast?_append]
    rfl
  · rw [hmid, List.append_nil]
  · rw [h.sizes.2, List.length_nil, Nat.zero_add]

/-- Behind a first table that was read to its end the next one is entered. -/
theorem Shows.advanceFront (h : Shows cs ts bc pre mid post front elems back)
    (hfull : bc.firstStart = ts) (hne : back ≠ []) : ∃ bc' mid' b, bc.advanceFront = .ok bc' ∧
      bc.Kept bc' ∧ (pre ++ [b]) ++ (mid' ++ post) = pre ++ (mid ++ post) ∧
      Shows cs ts bc' (pre ++ [b]) mid' post [] elems back := by
  obtain ⟨a, mid', table, rfl, -, htable, -, hread⟩ := h.table_first
  have hcells := h.cells
  rw [List.flatMap_cons] at hcells
  have ha : (bc.cells a).length = front.length := by
    rw [h.length_cells (mem_of_mid List.mem_cons_self), h.start, hfull]
  obtain ⟨-, hmid⟩ := List.append_inj hcells ha
  have hne' : mid' ≠ [] := by
    rintro rfl
    exact hne (List.append_eq_nil_iff.mp hmid.symm).2
  obtain ⟨b, mid'', rfl⟩ := List.exists_cons_of_ne_nil hne'
  have hnext : table.next = some b :=
    (h.links pre (b :: (mid'' ++ post)) (by simp only [List.cons_append]) htable).2
  have hchain : (pre ++ [a]) ++ ((b :: mid'') ++ post) = pre ++ ((a :: b :: mid'') ++ post) := by
    simp only [List.append_assoc, List.cons_append, List.nil_append]
  refine ⟨{ bc with first := some b, firstStart := 0 }, b :: mid'', a, ?_, ⟨rfl, rfl⟩,
    hchain, h.recut hchain hne' rfl ?_ ?_ rfl h.stop⟩
  · simp only [Bc.advanceFront, hread, hnext, bind, Except.bind, pure, Except.pure]
  · rw [h.ends.2, List.getLast?_cons_cons]
  · rw [hmid, List.nil_append]

/-! ## New tables and freed ones -/

variable {host : Host}

/-- What a push asks of the host: memory that is not in use. -/
def BcHostOk (bc : Bc) (host : Host) : Prop := HostOk host fun raw => (bc.heap (raw + 1)).isSome = true

theorem newUtilBcTable_eq {inUse : Nat → Prop} (hfits : 17 + cs * ts < 2 ^ 64)
    (hhost : HostOk host inUse) :
    newUtilBcTable cs ts host = .error .exit ∧ host (17 + cs * ts) = none ∨
      ∃ raw table, newUtilBcTable cs ts host = .ok (raw + 1, table) ∧ ¬ inUse raw ∧
        table.next = none ∧ table.prev = none ∧ table.bytes.length = cs * ts := by
  have hsize : CoreMem.hostSize ((16 + cs * ts) % 2 ^ 64) = 17 + cs * ts := by
    unfold CoreMem.hostSize
    rw [Nat.mod_eq_of_lt (by omega : 16 + cs * ts < 2 ^ 64), Nat.mod_eq_of_lt (by omega)]
    omega
  unfold newUtilBcTable
  rw [hsize]
  cases hans : host (17 + cs * ts) with
  | none => exact .inl ⟨rfl, rfl⟩
  | some block =>
    obtain ⟨raw, bytes⟩ := block
    obtain ⟨hlen, -, -, hfree⟩ := hhost _ _ _ hans
    refine .inr ⟨raw, _, if_neg (by omega), hfree, rfl, rfl, ?_⟩
    rw [List.length_drop, hlen]
    omega

/-- A table that is not in use is none of the chain. -/
theorem Shows.ne_of_free (h : Shows cs ts bc pre mid post front elems back) (hfree : bc.heap b = none)
    {c : Nat} (hc : c ∈ pre ++ (mid ++ post)) : c ≠ b := by
  rintro rfl
  obtain ⟨t, ht, -⟩ := h.sized c hc
  rw [hfree] at ht
  cases ht

/-- The chain with another list of tables around the same middle. -/
theorem Shows.rechain (h : Shows cs ts bc pre mid post front elems back)
    (hsame : bc'.cellSize = bc.cellSize ∧ bc'.tableSize = bc.tableSize ∧ bc'.first = bc.first ∧
      bc'.firstStart = bc.firstStart ∧ bc'.last = bc.last ∧ bc'.lastEnd = bc.lastEnd)
    {first : Option Nat} (hlinked : Linked bc'.next bc'.prev first (pre' ++ (mid ++ post')))
    (hnodup : (pre' ++ (mid ++ post')).Nodup)
    (hsized : ∀ c ∈ pre' ++ (mid ++ post'), ∃ table, bc'.heap c = some table ∧
      table.bytes.length = cs * ts)
    (hcells : ∀ c ∈ mid, bc'.cells c = bc.cells c) :
    Shows cs ts bc' pre' mid post' front elems back := by
  obtain ⟨hcs, hts, hfirst, hstart, hlast, hend⟩ := hsame
  refine
    { sizes := ⟨hcs.trans h.sizes.1, hts.trans h.sizes.2⟩
      fits := h.fits
      linked := hlinked.head ▸ hlinked
      nodup := hnodup
      sized := hsized
      ends := ⟨hfirst.trans h.ends.1, hlast.trans h.ends.2⟩
      nonempty := h.nonempty
      cells := ?_
      start := h.start.trans hstart.symm
      stop := by rw [hend]; exact h.stop }
  rw [List.flatMap_def, List.map_congr_left hcells, ← List.flatMap_def]
  exact h.cells

/-- A table is relinked, and a new one is put into the heap. -/
theorem relinked (t new : BcTable) (b : Nat) (htable : bc.heap a = some table)
    (hbytes : t.bytes = table.bytes) :
    ∃ bc', (bc.setTable a t).setTable b new = bc' ∧
      (bc'.cellSize = bc.cellSize ∧ bc'.tableSize = bc.tableSize ∧ bc'.first = bc.first ∧
        bc'.firstStart = bc.firstStart ∧ bc'.last = bc.last ∧ bc'.lastEnd = bc.lastEnd) ∧
      (∀ c, bc'.next c = if c = b then new.next else if c = a then t.next else bc.next c) ∧
      (∀ c, bc'.prev c = if c = b then new.prev else if c = a then t.prev else bc.prev c) ∧
      (∀ c, c ≠ b → bc'.cells c = bc.cells c) ∧
      bc'.heap b = some new ∧ bc'.tables = insert b bc.tables ∧
      ∀ c, c ≠ b → ∀ d n, bc.heap c = some d → d.bytes.length = n →
        ∃ d, bc'.heap c = some d ∧ d.bytes.length = n := by
  refine ⟨_, rfl, ⟨rfl, rfl, rfl, rfl, rfl, rfl⟩, fun c => ?_, fun c => ?_, fun c hne => ?_, ?_, ?_,
    fun c hne d n hd hlen => ?_⟩
  · rw [next_setTable, next_setTable]
  · rw [prev_setTable, prev_setTable]
  · rw [cells_setTable, if_neg hne, cells_setTable]
    refine ite_eq_right_iff.mpr fun heq => ?_
    rw [heq, cells_of_heap htable, hbytes]
  · rw [heap_setTable, if_pos rfl]
  · rw [tables_setTable_insert, tables_setTable htable]
  · rw [heap_setTable, if_neg hne, heap_setTable]
    by_cases heq : c = a
    · rw [heq, htable] at hd
      cases hd
      exact ⟨t, if_pos heq, hbytes ▸ hlen⟩
    · exact ⟨d, (if_neg heq).trans hd, hlen⟩

/-- A table behind the last one of the chain. -/
theorem Shows.growBack (h : Shows cs ts bc pre mid [] front elems back) (hhost : BcHostOk bc host) :
    bc.growBack host = .error .exit ∧ host (17 + cs * ts) = none ∨ ∃ bc' b, bc.growBack host = .ok bc' ∧
      bc.Moves bc' (pre ++ (mid ++ [])) (pre ++ (mid ++ [b])) ∧
        Shows cs ts bc' pre mid [b] front elems back := by
  obtain ⟨mid', a, table, hmid, -, htable, hlen, hread⟩ := h.table_last
  have hlast : (pre ++ (mid ++ [])).getLast? = some a := by
    rw [hmid, List.append_nil, ← List.append_assoc, List.getLast?_append]
    rfl
  have hnext : table.next = none := (h.links (pre ++ mid') []
    (by rw [hmid, List.append_nil, List.append_assoc]) htable).2
  rcases newUtilBcTable_eq h.fits hhost with ⟨hnew, hnone⟩ | ⟨raw, new, hnew, hfree, hnewNext, -, hnewLen⟩
  · refine .inl ⟨?_, hnone⟩
    simp only [Bc.growBack, hread, hnext, h.sizes.1, h.sizes.2, hnew, bind, Except.bind]
  · have hne : ∀ c ∈ pre ++ (mid ++ []), c ≠ raw + 1 := fun c hc =>
      h.ne_of_free (Option.not_isSome_iff_eq_none.mp hfree) hc
    generalize raw + 1 = b at hne hnew
    obtain ⟨bc', hbc', hsame, hnexts, hprevs, hcells, hheap, htables, hsized⟩ := relinked
      { table with next := some b } { new with prev := some a } b htable rfl
    have hchain : pre ++ (mid ++ [b]) = (pre ++ (mid ++ [])) ++ [b] := by
      simp only [List.append_assoc, List.append_nil]
    have hlinked : Linked bc'.next bc'.prev (pre ++ (mid ++ [])).head? (pre ++ (mid ++ [b])) := by
      rw [hchain]
      refine h.linked.snoc h.nodup (List.ne_nil_of_mem (List.mem_of_getLast? hlast))
        (fun c hc hca => ?_) (fun c hc => ?_) (fun c hc => ?_) ?_ ?_
      · have hca' : c ≠ a := by
          rintro rfl
          exact hca hlast
        rw [hnexts, if_neg (hne c hc), if_neg hca']
      · cases hlast.symm.trans hc
        rw [hnexts, if_neg (hne a (List.mem_of_getLast? hlast)), if_pos rfl]
      · rw [hprevs, if_neg (hne c hc)]
        exact ite_eq_right_iff.mpr fun heq => by rw [heq, prev_of_heap htable]
      · rw [hnexts, if_pos rfl]
        exact hnewNext
      · rw [hprevs, if_pos rfl, hlast]
    refine .inr ⟨bc', b, ?_, .of_insert (hbc' ▸ rfl) htables fun c => ?_,
      h.rechain hsame hlinked ?_ (fun c hc => ?_) fun c hc =>
        hcells c (hne c (mem_of_mid hc))⟩
    · rw [← hbc']
      simp only [Bc.growBack, hread, hnext, h.sizes.1, h.sizes.2, hnew, bind, Except.bind, pure,
        Except.pure]
    · rw [hchain, List.mem_append, List.mem_singleton, or_comm]
    · rw [hchain]
      exact List.nodup_append.mpr ⟨h.nodup, List.nodup_singleton b, fun c hc d hd =>
        List.mem_singleton.mp hd ▸ hne c hc⟩
    · rw [hchain] at hc
      rcases List.mem_append.mp hc with hc | hc
      · obtain ⟨d, hd, hdlen⟩ := h.sized c hc
        exact hsized c (hne c hc) d _ hd hdlen
      · rw [List.mem_singleton.mp hc]
        exact ⟨_, hheap, hnewLen⟩

/-- A table in front of the first one of the chain. -/
theorem Shows.growFront (h : Shows cs ts bc [] mid post front elems back) (hhost : BcHostOk bc host) :
    bc.growFront host = .error .exit ∧ host (17 + cs * ts) = none ∨ ∃ bc' b, bc.growFront host = .ok bc' ∧
      bc.Moves bc' (mid ++ post) (b :: (mid ++ post)) ∧
        Shows cs ts bc' [b] mid post front elems back := by
  obtain ⟨a, mid', table, hmid, -, htable, hlen, hread⟩ := h.table_first
  have hfirst : ([] ++ (mid ++ post)).head? = some a := by
    rw [hmid]
    rfl
  have hprev : table.prev = none := (h.links [] (mid' ++ post) (by rw [hmid]; rfl) htable).1
  rcases newUtilBcTable_eq h.fits hhost with ⟨hnew, hnone⟩ | ⟨raw, new, hnew, hfree, -, hnewPrev, hnewLen⟩
  · refine .inl ⟨?_, hnone⟩
    simp only [Bc.growFront, hread, hprev, h.sizes.1, h.sizes.2, hnew, bind, Except.bind]
  · have hne : ∀ c ∈ [] ++ (mid ++ post), c ≠ raw + 1 := fun c hc =>
      h.ne_of_free (Option.not_isSome_iff_eq_none.mp hfree) hc
    generalize raw + 1 = b at hne hnew
    obtain ⟨bc', hbc', hsame, hnexts, hprevs, hcells, hheap, htables, hsized⟩ := relinked
      { table with prev := some b } { new with next := some a } b htable rfl
    have hlinked : Linked bc'.next bc'.prev (some b) ([b] ++ (mid ++ post)) := by
      refine h.linked.cons h.nodup (fun c hc => ?_) (fun c hc hca => ?_) (fun c hc => ?_) ?_ ?_
      · rw [hnexts, if_neg (hne c hc)]
        exact ite_eq_right_iff.mpr fun heq => by rw [heq, next_of_heap htable]
      · have hca' : c ≠ a := by
          rintro rfl
          exact hca hfirst
        rw [hprevs, if_neg (hne c hc), if_neg hca']
      · cases hfirst.symm.trans hc
        rw [hprevs, if_neg (hne a (List.mem_of_mem_head? hfirst)), if_pos rfl]
      · rw [hnexts, if_pos rfl, hfirst]
      · rw [hprevs, if_pos rfl]
        exact hnewPrev
    refine .inr ⟨bc', b, ?_, .of_insert (hbc' ▸ rfl) htables fun c => List.mem_cons,
      h.rechain hsame hlinked ?_ (fun c hc => ?_) fun c hc =>
        hcells c (hne c (List.mem_append_right [] (List.mem_append_left _ hc)))⟩
    · rw [← hbc']
      simp only [Bc.growFront, hread, hprev, h.sizes.1, h.sizes.2, hnew, bind, Except.bind, pure,
        Except.pure]
    · exact List.nodup_cons.mpr ⟨fun hb => hne b hb rfl, h.nodup⟩
    · rcases List.mem_cons.mp hc with rfl | hc
      · exact ⟨_, hheap, hnewLen⟩
      · obtain ⟨d, hd, hdlen⟩ := h.sized c hc
        exact hsized c (hne c hc) d _ hd hdlen

theorem heap_free (c : Nat) : Bc.heap { bc with heap := Function.update bc.heap b none } c =
    if c = b then none else bc.heap c :=
  Function.update_apply ..

theorem tables_free : Bc.tables { bc with heap := Function.update bc.heap b none } = bc.tables \ {b} := by
  ext c
  rw [Set.mem_sdiff, Set.mem_singleton_iff, mem_tables, mem_tables, heap_free]
  by_cases hc : c = b
  · rw [if_pos hc]
    exact iff_of_false Bool.false_ne_true fun h => h.2 hc
  · rw [if_neg hc]
    exact (and_iff_left hc).symm

/-- A table is freed, and another one relinked. -/
theorem trimmed {t : BcTable} (htable : bc.heap a = some table) (hbytes : t.bytes = table.bytes)
    (hab : a ≠ b) :
    ∃ bc', Bc.setTable { bc with heap := Function.update bc.heap b none } a t = bc' ∧
      (bc'.cellSize = bc.cellSize ∧ bc'.tableSize = bc.tableSize ∧ bc'.first = bc.first ∧
        bc'.firstStart = bc.firstStart ∧ bc'.last = bc.last ∧ bc'.lastEnd = bc.lastEnd) ∧
      (∀ c, c ≠ b → bc'.next c = if c = a then t.next else bc.next c) ∧
      (∀ c, c ≠ b → bc'.prev c = if c = a then t.prev else bc.prev c) ∧
      (∀ c, c ≠ b → bc'.cells c = bc.cells c) ∧ bc'.tables = bc.tables \ {b} ∧
      ∀ c, c ≠ b → ∀ d n, bc.heap c = some d → d.bytes.length = n →
        ∃ d, bc'.heap c = some d ∧ d.bytes.length = n := by
  have hheap : ∀ c, c ≠ b → Bc.heap { bc with heap := Function.update bc.heap b none } c = bc.heap c :=
    fun c hc => Function.update_of_ne hc ..
  refine ⟨_, rfl, ⟨rfl, rfl, rfl, rfl, rfl, rfl⟩, fun c hc => ?_, fun c hc => ?_, fun c hc => ?_, ?_,
    fun c hc d n hd hlen => ?_⟩
  · rw [next_setTable, Bc.next, hheap c hc]
    rfl
  · rw [prev_setTable, Bc.prev, hheap c hc]
    rfl
  · rw [cells_setTable]
    split
    next heq => rw [heq, cells_of_heap htable, hbytes]
    next =>
      rw [Bc.cells, hheap c hc]
      rfl
  · rw [tables_setTable ((hheap a hab).trans htable)]
    exact tables_free
  · rw [heap_setTable]
    by_cases heq : c = a
    · rw [heq, htable] at hd
      cases hd
      exact ⟨t, if_pos heq, hbytes ▸ hlen⟩
    · exact ⟨d, (if_neg heq).trans ((hheap c hc).trans hd), hlen⟩

/-- The table behind the last one is freed. -/
theorem Shows.trimBack (h : Shows cs ts bc pre mid [b] front elems back) :
    ∃ bc', bc.trimBack = .ok bc' ∧
      bc.Moves bc' (pre ++ (mid ++ [b])) (pre ++ (mid ++ [])) ∧
        Shows cs ts bc' pre mid [] front elems back := by
  obtain ⟨mid', a, table, hmid, -, htable, -, hread⟩ := h.table_last
  have hchain : pre ++ (mid ++ [b]) = (pre ++ (mid ++ [])) ++ [b] := by
    simp only [List.append_assoc, List.append_nil]
  have hnodup := h.nodup
  rw [hchain] at hnodup
  obtain ⟨hnodup, -, hdisjoint⟩ := List.nodup_append.mp hnodup
  have hne : ∀ c ∈ pre ++ (mid ++ []), c ≠ b := fun c hc => hdisjoint c hc b List.mem_cons_self
  have hlast : (pre ++ (mid ++ [])).getLast? = some a := by
    rw [hmid, List.append_nil, ← List.append_assoc, List.getLast?_append]
    rfl
  have hmem := List.mem_of_getLast? hlast
  have hnext : table.next = some b := (h.links (pre ++ mid') [b]
    (by rw [hmid]; simp only [List.append_assoc, List.cons_append, List.nil_append]) htable).2
  obtain ⟨freed, hfreed, -⟩ := h.sized b (by rw [hchain]; exact List.mem_append_right _ List.mem_cons_self)
  have hreadFreed : bc.table table.next = .ok (b, freed) := by
    unfold Bc.table
    simp only [hnext, hfreed]
  obtain ⟨bc', hbc', hsame, hnexts, hprevs, hcells, htables, hsized⟩ := trimmed (b := b)
    (t := { table with next := none }) htable rfl (hne a hmem)
  have hlinked : Linked bc'.next bc'.prev (pre ++ (mid ++ [b])).head? (pre ++ (mid ++ [])) := by
    have hold := h.linked
    rw [hchain] at hold ⊢
    refine hold.unsnoc hnodup (List.ne_nil_of_mem hmem) (fun c hc hca => ?_) (fun c hc => ?_)
      fun c hc => ?_
    · have hca' : c ≠ a := by
        rintro rfl
        exact hca hlast
      rw [hnexts c (hne c hc), if_neg hca']
    · cases hlast.symm.trans hc
      rw [hnexts a (hne a hmem), if_pos rfl]
    · rw [hprevs c (hne c hc)]
      exact ite_eq_right_iff.mpr fun heq => by rw [heq, prev_of_heap htable]
  refine ⟨bc', ?_, .of_sdiff (hbc' ▸ rfl) htables (fun c => ?_) hne, h.rechain hsame hlinked hnodup
    (fun c hc => ?_) fun c hc => hcells c (hne c (mem_of_mid hc))⟩
  · rw [← hbc']
    simp only [Bc.trimBack, hread, Bc.freeTable, hreadFreed, bind, Except.bind, pure, Except.pure]
  · rw [hchain, List.mem_append, List.mem_singleton, or_comm]
  · obtain ⟨d, hd, hdlen⟩ := h.sized c (by rw [hchain]; exact List.mem_append_left _ hc)
    exact hsized c (hne c hc) d _ hd hdlen

/-- The table in front of the first one is freed. -/
theorem Shows.trimFront (h : Shows cs ts bc [b] mid post front elems back) :
    ∃ bc', bc.trimFront = .ok bc' ∧
      bc.Moves bc' (b :: (mid ++ post)) (mid ++ post) ∧
        Shows cs ts bc' [] mid post front elems back := by
  obtain ⟨a, mid', table, hmid, -, htable, -, hread⟩ := h.table_first
  obtain ⟨hb, hnodup⟩ := List.nodup_cons.mp h.nodup
  have hne : ∀ c ∈ mid ++ post, c ≠ b := fun c hc => ne_of_mem_of_not_mem hc hb
  have hfirst : (mid ++ post).head? = some a := by
    rw [hmid]
    rfl
  have hmem := List.mem_of_mem_head? hfirst
  have hprev : table.prev = some b :=
    (h.links [b] (mid' ++ post) (by rw [hmid]; rfl) htable).1
  obtain ⟨freed, hfreed, -⟩ := h.sized b List.mem_cons_self
  have hreadFreed : bc.table table.prev = .ok (b, freed) := by
    unfold Bc.table
    simp only [hprev, hfreed]
  obtain ⟨bc', hbc', hsame, hnexts, hprevs, hcells, htables, hsized⟩ := trimmed (b := b)
    (t := { table with prev := none }) htable rfl (hne a hmem)
  have hlinked : Linked bc'.next bc'.prev (bc.next b) ([] ++ (mid ++ post)) := by
    refine h.linked.uncons hnodup (fun c hc => ?_) (fun c hc hca => ?_) fun c hc => ?_
    · rw [hnexts c (hne c hc)]
      exact ite_eq_right_iff.mpr fun heq => by rw [heq, next_of_heap htable]
    · have hca' : c ≠ a := by
        rintro rfl
        exact hca hfirst
      rw [hprevs c (hne c hc), if_neg hca']
    · cases hfirst.symm.trans hc
      rw [hprevs a (hne a hmem), if_pos rfl]
  refine ⟨bc', ?_, .of_sdiff (hbc' ▸ rfl) htables (fun c => List.mem_cons) hne, h.rechain hsame hlinked hnodup
    (fun c hc => ?_) fun c hc => hcells c (hne c (List.mem_append_right [] (List.mem_append_left _ hc)))⟩
  · rw [← hbc']
    simp only [Bc.trimFront, hread, Bc.freeTable, hreadFreed, bind, Except.bind, pure, Except.pure]
  · obtain ⟨d, hd, hdlen⟩ := h.sized c (List.mem_cons_of_mem b hc)
    exact hsized c (hne c hc) d _ hd hdlen

end Chvm.Util
