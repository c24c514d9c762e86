import Chvm.Util.Deque

/-!
# The table chain of a broken collection, accounted for

Every table in memory is in one chain, which only grows where tables are kept and is the tables in
use where empty ones are deleted. `OneChain` says so of a state, with what `bc_get_num_tables` and
`delete_broken_collection` find there, and `TablesAccounted` adds what the calls from the state do.
The invariant of a run is `Tabled`: the tables in memory are the chain that shows the list.
-/

set_option autoImplicit false

namespace Chvm.Util

open Chvm.Core Chvm.Lib

namespace Bc

/-- The table that is `n` tables behind the first. -/
def tableAt (bc : Bc) (n : Nat) : Option Nat := follow bc.next n bc.first

/-- The element `k` of the collection is in the table `a`. -/
def InTable (bc : Bc) (k a : Nat) : Prop := bc.tableAt ((bc.firstStart + k) / bc.tableSize) = some a

/-- The tables `l` lie behind one another from the pointer `p`, by one of the links. -/
def Walk (bc : Bc) (link : BcTable → Option Nat) : Option Nat → List Nat → Prop
  | p, [] => p = none
  | p, a :: l => p = some a ∧ ∃ table, bc.heap a = some table ∧ bc.Walk link (link table) l

end Bc

variable {cs ts : Nat} {bc bc' : Bc} {pre mid post chain l : List Nat}
  {front elems back : List (List UInt8)} {a b i k fuel : Nat} {x : List UInt8}
  {link : BcTable → Option Nat} {p p' : Option Nat} {host : Host} {s s' : BcRun} {del : Bool}

/-! ## The loops along a link -/

/-- A walk reads its own tables only. -/
theorem Bc.Walk.congr (hwalk : bc.Walk link p l) (hheap : ∀ c ∈ l, bc'.heap c = bc.heap c) :
    bc'.Walk link p l := by
  induction l generalizing p with
  | nil => exact hwalk
  | cons a l ih =>
    obtain ⟨hp, table, htable, hwalk⟩ := hwalk
    refine ⟨hp, table, (hheap a List.mem_cons_self).trans htable, ih hwalk fun c hc => ?_⟩
    exact hheap c (List.mem_cons_of_mem a hc)

theorem walk_of_seg {next prev : Nat → Option Nat} (hs : Seg next prev p' p l none)
    (hnext : ∀ a table, bc.heap a = some table → next a = link table)
    (hlive : ∀ a ∈ l, a ∈ bc.tables) : bc.Walk link p l := by
  induction l generalizing p' p with
  | nil => exact hs
  | cons a l ih =>
    obtain ⟨hp, -, hs⟩ := hs
    obtain ⟨table, htable⟩ := Option.isSome_iff_exists.mp (hlive a List.mem_cons_self)
    refine ⟨hp, table, htable, ?_⟩
    rw [← hnext a table htable]
    exact ih hs fun c hc => hlive c (List.mem_cons_of_mem a hc)

theorem countTablesFrom_eq (hwalk : bc.Walk link p l) (hfuel : l.length < fuel) (n : Nat) :
    bc.countTablesFrom link fuel p n = some (.ok (n + l.length)) := by
  induction l generalizing p fuel n with
  | nil =>
    obtain ⟨fuel, rfl⟩ := Nat.exists_eq_succ_of_ne_zero (Nat.ne_zero_of_lt hfuel)
    obtain rfl : p = none := hwalk
    rfl
  | cons a l ih =>
    obtain ⟨fuel, rfl⟩ := Nat.exists_eq_succ_of_ne_zero (Nat.ne_zero_of_lt hfuel)
    obtain ⟨rfl, table, htable, hwalk⟩ := hwalk
    have hread : bc.table (some a) = .ok (a, table) := by
      unfold Bc.table
      simp only [htable]
    simp only [Bc.countTablesFrom, hread, ih hwalk (Nat.lt_of_succ_lt_succ hfuel), List.length_cons]
    rw [Nat.add_assoc, Nat.add_comm 1]

/-- The loop frees the tables of the walk, each of them once and no other. -/
theorem freeTablesFrom_eq (hwalk : bc.Walk link p l) (hnodup : l.Nodup) (hfuel : l.length < fuel)
    (freed : List Nat) : ∃ bc', Bc.freeTablesFrom link fuel p freed bc = some (.ok (freed ++ l, bc')) ∧
      bc'.first = bc.first ∧ ∀ c, bc'.heap c = if c ∈ l then none else bc.heap c := by
  induction l generalizing bc p fuel freed with
  | nil =>
    obtain ⟨fuel, rfl⟩ := Nat.exists_eq_succ_of_ne_zero (Nat.ne_zero_of_lt hfuel)
    obtain rfl : p = none := hwalk
    refine ⟨bc, ?_, rfl, fun c => (if_neg List.not_mem_nil).symm⟩
    rw [List.append_nil]
    rfl
  | cons a l ih =>
    obtain ⟨fuel, rfl⟩ := Nat.exists_eq_succ_of_ne_zero (Nat.ne_zero_of_lt hfuel)
    obtain ⟨rfl, table, htable, hwalk⟩ := hwalk
    obtain ⟨ha, hnodup⟩ := List.nodup_cons.mp hnodup
    have hread : bc.table (some a) = .ok (a, table) := by
      unfold Bc.table
      simp only [htable]
    have hwalk' : Bc.Walk { bc with heap := Function.update bc.heap a none } link (link table) l :=
      hwalk.congr fun c hc => (heap_free c).trans (if_neg (ne_of_mem_of_not_mem hc ha))
    obtain ⟨bc', hfree, hfirst, hheap⟩ := ih hwalk' hnodup (Nat.lt_of_succ_lt_succ hfuel) (freed ++ [a])
    refine ⟨bc', ?_, hfirst, fun c => ?_⟩
    · rw [List.append_assoc, List.singleton_append] at hfree
      simp only [Bc.freeTablesFrom, Bc.freeTable, hread, bind, Except.bind, pure, Except.pure]
      exact hfree
    · rw [hheap c, heap_free]
      by_cases hc : c = a
      · rw [if_pos hc, ite_self, if_pos (hc ▸ List.mem_cons_self)]
      · rw [if_neg hc]
        exact if_congr (by rw [List.mem_cons, or_iff_right hc]) rfl rfl

/-! ## What a state shows -/

theorem Shows.mem_tables (h : Shows cs ts bc pre mid post front elems back)
    (ha : a ∈ pre ++ (mid ++ post)) : a ∈ bc.tables := by
  obtain ⟨table, htable, -⟩ := h.sized a ha
  exact mem_tables_of_heap htable

/-- The chain in two pieces, at the first pointer. -/
theorem Shows.segs (h : Shows cs ts bc pre mid post front elems back) :
    Seg bc.next bc.prev none (pre ++ (mid ++ post)).head? pre bc.first ∧
      Seg bc.next bc.prev pre.getLast? bc.first (mid ++ post) none := by
  obtain ⟨m, hpre, hrest⟩ := seg_append.mp h.linked
  have hm : m = bc.first := by
    rw [hrest.head, Option.or_none, List.head?_append_of_ne_nil _ h.nonempty, h.ends.1]
  subst hm
  rw [lastOr, Option.or_none] at hrest
  exact ⟨hpre, hrest⟩

/-- From the first table, the loops go back over those in front and on over the others. -/
theorem Shows.walks (h : Shows cs ts bc pre mid post front elems back) :
    ∃ a table, bc.table bc.first = .ok (a, table) ∧ bc.Walk (·.prev) table.prev pre.reverse ∧
      bc.Walk (·.next) bc.first (mid ++ post) := by
  obtain ⟨a, mid', table, hmid, -, htable, -, hread⟩ := h.table_first
  obtain ⟨hpre, hrest⟩ := h.segs
  refine ⟨a, table, hread, ?_, ?_⟩
  · have hprev : table.prev = lastOr none pre := by
      rw [(h.links pre (mid' ++ post) (by rw [hmid, List.cons_append]) htable).1, lastOr, Option.or_none]
    rw [hprev]
    refine walk_of_seg hpre.reverse (fun c t ht => prev_of_heap ht) fun c hc => ?_
    exact h.mem_tables (List.mem_append_left _ (List.mem_reverse.mp hc))
  · refine walk_of_seg hrest (fun c t ht => next_of_heap ht) fun c hc => ?_
    exact h.mem_tables (List.mem_append_right _ hc)

theorem Shows.numTables (h : Shows cs ts bc pre mid post front elems back)
    (hfuel : (pre ++ (mid ++ post)).length < fuel) :
    bc.bcGetNumTables fuel = some (.ok (pre ++ (mid ++ post)).length) := by
  obtain ⟨a, table, hread, hprev, hnext⟩ := h.walks
  rw [List.length_append] at hfuel ⊢
  have hback : bc.countTablesFrom (·.prev) fuel table.prev 0 = some (.ok (0 + pre.reverse.length)) :=
    countTablesFrom_eq hprev (by rw [List.length_reverse]; omega) 0
  have hon := countTablesFrom_eq hnext (by omega : _ < fuel) (0 + pre.reverse.length)
  rw [Nat.zero_add, List.length_reverse] at hback hon
  simp only [Bc.bcGetNumTables, hread, hback, hon]

/-- Every table of the chain is freed once, and no table is left. -/
theorem Shows.deleted (h : Shows cs ts bc pre mid post front elems back)
    (hwhole : bc.Whole (pre ++ (mid ++ post))) (hfuel : (pre ++ (mid ++ post)).length < fuel) :
    ∃ freed, bc.deleteBrokenCollection fuel = some (.ok (freed, fun _ => none)) ∧
      freed.Perm (pre ++ (mid ++ post)) := by
  obtain ⟨a, table, hread, hprev, hnext⟩ := h.walks
  obtain ⟨hpre, hrest, hdisjoint⟩ := List.nodup_append.mp h.nodup
  rw [List.length_append] at hfuel
  obtain ⟨bc₁, hfree₁, hfirst₁, hheap₁⟩ := freeTablesFrom_eq hprev (List.nodup_reverse.mpr hpre)
    (by rw [List.length_reverse]; omega : _ < fuel) []
  have hnext₁ : bc₁.Walk (·.next) bc₁.first (mid ++ post) := by
    rw [hfirst₁]
    refine hnext.congr fun c hc => (hheap₁ c).trans (if_neg fun hin => ?_)
    exact hdisjoint c (List.mem_reverse.mp hin) c hc rfl
  obtain ⟨bc₂, hfree₂, -, hheap₂⟩ := freeTablesFrom_eq hnext₁ hrest
    (by omega : _ < fuel) ([] ++ pre.reverse)
  have hnone : bc₂.heap = fun _ => none := by
    funext c
    rw [hheap₂ c, hheap₁ c, ite_eq_left_iff, ite_eq_left_iff]
    intro hrest hfront
    rw [← Option.not_isSome_iff_eq_none]
    intro hlive
    rcases List.mem_append.mp ((hwhole c).mp hlive) with hc | hc
    · exact hfront (List.mem_reverse.mpr hc)
    · exact hrest hc
  refine ⟨pre.reverse ++ (mid ++ post), ?_, (List.reverse_perm pre).append_right _⟩
  rw [List.nil_append] at hfree₁ hfree₂
  simp only [Bc.deleteBrokenCollection, hread, hfree₁, hfree₂, hnone]

theorem Shows.tableAt_eq (h : Shows cs ts bc pre mid post front elems back) (hi : i < mid.length) :
    bc.tableAt i = mid[i]? := by
  obtain ⟨-, hrest⟩ := h.segs
  rw [Bc.tableAt, hrest.follow_eq (by rw [List.length_append]; omega), List.getElem?_append_left hi]

/-- How many tables in front of it an element has. -/
theorem Shows.index_lt (h : Shows cs ts bc pre mid post front elems back) (hk : k < elems.length) :
    (bc.firstStart + k) / bc.tableSize < mid.length := by
  have hlen := h.length_mid
  rw [← h.start, h.sizes.2]
  refine Nat.div_lt_of_lt_mul ?_
  rw [Nat.mul_comm]
  omega

theorem Shows.mem_of_inTable (h : Shows cs ts bc pre mid post front elems back) (hk : k < elems.length)
    (hin : bc.InTable k a) : a ∈ mid := by
  rw [Bc.InTable, h.tableAt_eq (h.index_lt hk)] at hin
  exact List.mem_of_getElem? hin

/-- An element is in its cell of its table. -/
theorem Shows.element (h : Shows cs ts bc pre mid post front elems back) (hts : ts ≠ 0)
    (hx : elems[k]? = some x) : ∃ a ∈ mid, bc.InTable k a ∧
      (bc.cells a)[(bc.firstStart + k) % ts]? = some x := by
  obtain ⟨hk, -⟩ := List.getElem?_eq_some_iff.mp hx
  have hi := h.index_lt hk
  unfold Bc.InTable
  rw [h.tableAt_eq hi, h.sizes.2]
  rw [h.sizes.2] at hi
  generalize hn : (bc.firstStart + k) / ts = n at hi
  have hsplit : mid = mid.take n ++ mid[n] :: mid.drop (n + 1) := by
    rw [← List.drop_eq_getElem_cons hi, List.take_append_drop]
  have hlength : ∀ c ∈ mid, (bc.cells c).length = ts := fun c hc => h.length_cells (mem_of_mid hc)
  refine ⟨mid[n], List.getElem_mem hi, List.getElem?_eq_getElem hi, ?_⟩
  have hcell := congrArg (·[bc.firstStart + k]?) h.cells
  simp only [← h.start, List.getElem?_append_right (Nat.le_add_right ..), Nat.add_sub_cancel_left,
    List.getElem?_append_left hk, hx] at hcell
  have hpos : front.length + k = (mid.take n).length * ts + (bc.firstStart + k) % ts := by
    rw [List.length_take_of_le (Nat.le_of_lt hi), h.start, ← hn, Nat.div_add_mod']
  have hblock : ((mid.take n ++ mid[n] :: mid.drop (n + 1)).flatMap bc.cells)[(mid.take n).length * ts +
      (bc.firstStart + k) % ts]? = (bc.cells mid[n])[(bc.firstStart + k) % ts]? := by
    refine getElem?_flatMap (fun c hc => hlength c (List.mem_of_mem_take hc)) ?_
    rw [hlength _ (List.getElem_mem hi)]
    exact Nat.mod_lt _ (Nat.pos_of_ne_zero hts)
  rw [← hsplit, ← hpos, hcell] at hblock
  exact hblock.symm

/-- Where the chain is the tables in use, the cursors tell their number. -/
theorem Shows.count (h : Shows cs ts bc pre mid post front elems back) (hback : back ≠ []) :
    mid.length = (bc.firstStart + elems.length) / ts + 1 := by
  have hlen := h.length_mid
  have hstop := h.stop
  have hpos := List.length_pos_iff.mpr hback
  obtain ⟨n, hn⟩ := Nat.exists_eq_succ_of_ne_zero (List.length_pos_iff.mpr h.nonempty).ne'
  rw [hn, ← h.start]
  rw [hn, Nat.succ_mul] at hlen
  congr 1
  symm
  apply Nat.div_eq_of_lt_le
  · omega
  · rw [Nat.succ_mul]
    omega

/-- A new collection has one table. -/
example : (newBrokenCollection 1 2 true (hostAt 8)).map (·.bcGetNumTables 2) = .ok (some (.ok 1)) := rfl

/-! ## The frees of the pops -/

/-- A pop calls `safe_free`: the collection and its elements when it does, and the table it frees. -/
inductive Frees (s : BcRun) : BcAct → Bc → List (List UInt8) → Nat → Prop
  | popBack {bc : Bc} {b : Nat} : s.bc.bcEmpty = false → s.bc.lastEnd = 0 →
      s.bc.retreatBack = .ok bc → bc.deleteEmptyTables = true → bc.last.bind bc.next = some b →
      Frees s .popBack bc s.list b
  | popFront {cell : List UInt8} {bc₁ bc : Bc} {b : Nat} : s.bc.bcEmpty = false →
      s.bc.takeFront = .ok (cell, bc₁) → bc₁.firstStart = bc₁.tableSize →
      bc₁.advanceFront = .ok bc → bc.deleteEmptyTables = true → bc.first.bind bc.prev = some b →
      Frees s .popFront bc s.list.tail b

/-- Behind the table that `bc_pop_back` backs up to there is the one it may free, with no element. -/
theorem Laid.beforeTrimBack {l : List (List UInt8)} (h : Laid cs ts bc l chain) (hne : l ≠ [])
    (hzero : bc.lastEnd = 0) : ∃ bc' b, bc.retreatBack = .ok bc' ∧
      bc'.deleteEmptyTables = bc.deleteEmptyTables ∧ bc'.last.bind bc'.next = some b ∧
      (∀ k < l.length, ¬ bc'.InTable k b) ∧
      (bc.deleteEmptyTables = true → chain.getLast? = some b) := by
  obtain ⟨pre, mid, post, front, back, rfl, h, -, -, hdel⟩ := h
  obtain ⟨bc', mid', b, hret, hkept, hchain, h'⟩ := h.retreatBack hzero hne
  obtain ⟨mid'', a, table, hmid, hlast, htable, -, -⟩ := h'.table_last
  refine ⟨bc', b, hret, hkept.mode, ?_, fun k hk hin => ?_, fun hd => ?_⟩
  · rw [hlast, Option.bind_some, next_of_heap htable]
    exact (h'.links (pre ++ mid'') (b :: post)
      (by rw [hmid]; simp only [List.append_assoc, List.cons_append, List.nil_append]) htable).2
  · have hnodup := (List.nodup_append.mp h'.nodup).2.1
    exact (List.nodup_append.mp hnodup).2.2 b (h'.mem_of_inTable hk hin) b List.mem_cons_self rfl
  · rw [← hchain, (hdel hd).2, ← List.append_assoc, List.getLast?_append]
    rfl

theorem takeFront_eq (htake : bc.takeFront = .ok (x, bc')) :
    bc' = { bc with firstStart := bc.firstStart + 1 } := by
  unfold Bc.takeFront at htake
  simp only [bind, Except.bind, pure, Except.pure] at htake
  split at htake
  next => cases htake
  next =>
    split at htake
    next => cases htake
    next =>
      cases htake
      rfl

/-- In front of the table that `bc_pop_front` goes to there is the one it may free: its last element
was the one that is popped. -/
theorem Laid.beforeTrimFront {l : List (List UInt8)} (h : Laid cs ts bc (x :: l) chain)
    (hfull : bc.firstStart + 1 = ts) : ∃ bc₁ bc' b, bc.takeFront = .ok (x, bc₁) ∧
      bc₁.firstStart = bc₁.tableSize ∧ bc₁.advanceFront = .ok bc' ∧
      bc'.deleteEmptyTables = bc.deleteEmptyTables ∧ bc'.first.bind bc'.prev = some b ∧
      (∀ k < l.length, ¬ bc'.InTable k b) ∧
      (bc.deleteEmptyTables = true → chain.head? = some b) := by
  obtain ⟨pre, mid, post, front, back, rfl, h, hfront, hback, hdel⟩ := h
  have hstart := h.start
  obtain ⟨bc₁, htake, hkept₁, h₁⟩ := h.takeFront (by omega)
  have hstart₁ := h₁.start
  rw [List.length_append, List.length_singleton] at hstart₁
  have hend : bc₁.firstStart = ts := by omega
  obtain ⟨bc', mid', b, hadv, hkept', hchain, h'⟩ := h₁.advanceFront hend hback
  obtain ⟨a, mid'', table, hmid, hfirst, htable, -, -⟩ := h'.table_first
  refine ⟨bc₁, bc', b, htake, hend.trans h₁.sizes.2.symm, hadv, hkept'.mode.trans hkept₁.mode, ?_,
    fun k hk hin => ?_, fun hd => ?_⟩
  · rw [hfirst, Option.bind_some, prev_of_heap htable,
      (h'.links (pre ++ [b]) (mid'' ++ post) (by rw [hmid, List.cons_append]) htable).1,
      List.getLast?_append]
    rfl
  · have hmem : b ∈ mid' ++ post := List.mem_append_left _ (h'.mem_of_inTable hk hin)
    exact (List.nodup_append.mp h'.nodup).2.2 b (List.mem_append_right _ List.mem_cons_self) b hmem rfl
  · rw [← hchain, (hdel hd).1]
    rfl

/-! ## The account -/

/-- The tables in a state: those in front of the first table, those from the first to the last, and
those behind the last. -/
structure OneChain (ts : Nat) (del : Bool) (s : BcRun) (pre mid post : List Nat) : Prop where
  whole : s.bc.Whole (pre ++ (mid ++ post))
  linked : Linked s.bc.next s.bc.prev (pre ++ (mid ++ post)).head? (pre ++ (mid ++ post))
  nodup : (pre ++ (mid ++ post)).Nodup
  inverse : ∀ a b, s.bc.next a = some b ↔ s.bc.prev b = some a
  acyclic : ∀ a, ¬ Relation.TransGen (fun a b => s.bc.next a = some b) a a
  ends : mid ≠ [] ∧ s.bc.first = mid.head? ∧ s.bc.last = mid.getLast?
  elements : ∀ k x, s.list[k]? = some x → ∃ a ∈ mid, s.bc.InTable k a ∧
    (s.bc.cells a)[(s.bc.firstStart + k) % ts]? = some x
  trimmed : del = true → pre = [] ∧ post = []
  numTables : ∀ fuel, (pre ++ (mid ++ post)).length < fuel →
    s.bc.bcGetNumTables fuel = some (.ok (pre ++ (mid ++ post)).length)
  count : del = true →
    (pre ++ (mid ++ post)).length = (s.bc.firstStart + s.list.length) / ts + 1
  count_nil : del = true → s.list = [] → (pre ++ (mid ++ post)).length = 1
  deleted : ∀ fuel, (pre ++ (mid ++ post)).length < fuel →
    ∃ freed, s.bc.deleteBrokenCollection fuel = some (.ok (freed, fun _ => none)) ∧
      freed.Perm (pre ++ (mid ++ post))

/-- A call ends the process: the host has no table, or there is nothing to pop. -/
def Exits (s : BcRun) : BcAct → Prop
  | .pushBack src host => s.bc.bcPushBack src host = .error .exit ∧ ∃ size, host size = none
  | .pushFront src host => s.bc.bcPushFront src host = .error .exit ∧ ∃ size, host size = none
  | .popBack | .popFront => s.list = []

/-- The tables of a state are accounted for, and so are those that a call or a run from it takes
away. -/
structure TablesAccounted (ts : Nat) (del : Bool) (s : BcRun) : Prop where
  chain : ∃ pre mid post, OneChain ts del s pre mid post
  calls : ∀ act, BcRule s act → (∃ s', bcStep s act = some s') ∨ Exits s act
  kept : del = false → ∀ s', Reaches bcStep BcRule s s' → s.bc.tables ⊆ s'.bc.tables
  frees : ∀ act bc l a, Frees s act bc l a → ∀ k < l.length, ¬ bc.InTable k a
  lost : ∀ act s', BcRule s act → bcStep s act = some s' → ∀ a ∈ s.bc.tables, a ∉ s'.bc.tables →
    ∃ bc l, Frees s act bc l a

/-- The invariant of a run. -/
def Tabled (cs ts : Nat) (del : Bool) (s : BcRun) : Prop :=
  ∃ chain, Laid cs ts s.bc s.list chain ∧ s.bc.Whole chain ∧ s.bc.deleteEmptyTables = del

theorem bcStep_tabled {act : BcAct} (h : Tabled cs ts del s) (hts : ts ≠ 0) (hrule : BcRule s act)
    (hstep : bcStep s act = some s') : Tabled cs ts del s' := by
  obtain ⟨chain, hlaid, hwhole, hmode⟩ := h
  obtain ⟨chain', hlaid', hmoves, -⟩ := bcStep_laid hlaid hts hrule hstep
  exact ⟨chain', hlaid', hmoves.whole hwhole, hmoves.mode.trans hmode⟩

/-- Where empty tables are kept, a call keeps every table. -/
theorem bcStep_tables {act : BcAct} (h : Tabled cs ts false s) (hts : ts ≠ 0) (hrule : BcRule s act)
    (hstep : bcStep s act = some s') : s.bc.tables ⊆ s'.bc.tables := by
  obtain ⟨chain, hlaid, hwhole, hmode⟩ := h
  obtain ⟨chain', -, hmoves, hchain⟩ := bcStep_laid hlaid hts hrule hstep
  have hsub : chain ⊆ chain' := by
    cases act with
    | pushBack src host => exact List.IsPrefix.subset hchain
    | pushFront src host => exact List.IsSuffix.subset hchain
    | popBack =>
      rcases hchain with rfl | ⟨hd, -⟩
      · exact List.Subset.refl _
      · exact absurd (hmode.symm.trans hd) Bool.false_ne_true
    | popFront =>
      rcases hchain with rfl | ⟨hd, -⟩
      · exact List.Subset.refl _
      · exact absurd (hmode.symm.trans hd) Bool.false_ne_true
  intro a ha
  exact (hmoves.whole hwhole a).mpr (hsub ((hwhole a).mp ha))

theorem mem_tables_of_next (hab : bc.next a = some b) : a ∈ bc.tables := by
  obtain ⟨table, htable, -⟩ := Option.bind_eq_some_iff.mp hab
  exact mem_tables_of_heap htable

theorem mem_tables_of_prev (hab : bc.prev a = some b) : a ∈ bc.tables := by
  obtain ⟨table, htable, -⟩ := Option.bind_eq_some_iff.mp hab
  exact mem_tables_of_heap htable

theorem Tabled.oneChain (h : Tabled cs ts del s) (hts : ts ≠ 0) :
    ∃ pre mid post, OneChain ts del s pre mid post := by
  obtain ⟨chain, ⟨pre, mid, post, front, back, rfl, h, hfront, hback, hdel⟩, hwhole, rfl⟩ := h
  have hcount : s.bc.deleteEmptyTables = true →
      (pre ++ (mid ++ post)).length = (s.bc.firstStart + s.list.length) / ts + 1 := by
    intro hd
    obtain ⟨rfl, rfl⟩ := hdel hd
    rw [List.nil_append, List.append_nil]
    exact h.count hback
  refine ⟨pre, mid, post,
    { whole := hwhole
      linked := h.linked
      nodup := h.nodup
      inverse := fun a b => ⟨fun hab => ?_, fun hba => ?_⟩
      acyclic := fun a hcycle => ?_
      ends := ⟨h.nonempty, h.ends⟩
      elements := fun k x hx => h.element hts hx
      trimmed := hdel
      numTables := fun fuel hfuel => h.numTables hfuel
      count := hcount
      count_nil := fun hd hnil => ?_
      deleted := fun fuel hfuel => h.deleted hwhole hfuel }⟩
  · exact h.linked.prev_of_next ((hwhole a).mp (mem_tables_of_next hab)) hab
  · exact h.linked.next_of_prev ((hwhole b).mp (mem_tables_of_prev hba)) hba
  · obtain ⟨b, hab, -⟩ := Relation.TransGen.head'_iff.mp hcycle
    exact h.linked.acyclic h.nodup ((hwhole a).mp (mem_tables_of_next hab)) hcycle
  · rw [hcount hd, hnil, ← h.start]
    exact congrArg (· + 1) (Nat.div_eq_of_lt hfront)

theorem Tabled.calls (h : Tabled cs ts del s) (hts : ts ≠ 0) (act : BcAct) (hrule : BcRule s act) :
    (∃ s', bcStep s act = some s') ∨ Exits s act := by
  obtain ⟨chain, hlaid, -⟩ := h
  have hdeque : IsDeque s := (deque_iff.mpr ⟨chain, hlaid⟩).isDeque hts
  cases act with
  | pushBack src host =>
    rcases hdeque.pushBack src host hrule with ⟨bc', hok⟩ | hexit
    · exact .inl ⟨_, by rw [bcStep, hok]; rfl⟩
    · exact .inr hexit
  | pushFront src host =>
    rcases hdeque.pushFront src host hrule with ⟨bc', hok⟩ | hexit
    · exact .inl ⟨_, by rw [bcStep, hok]; rfl⟩
    · exact .inr hexit
  | popBack =>
    rcases List.eq_nil_or_concat' s.list with hnil | ⟨l, x, hlist⟩
    · exact .inr hnil
    · obtain ⟨bc', hok⟩ := hdeque.popBack.2 l x hlist
      exact .inl ⟨_, by rw [bcStep, hok]; rfl⟩
  | popFront =>
    cases hlist : s.list with
    | nil => exact .inr hlist
    | cons x l =>
      obtain ⟨bc', hok⟩ := hdeque.popFront.2 x l hlist
      exact .inl ⟨_, by rw [bcStep, hok]; rfl⟩

/-- A table is freed when no element is in it. -/
theorem Tabled.frees {l : List (List UInt8)} (h : Tabled cs ts del s) (act : BcAct)
    (hfree : Frees s act bc l a) (hk : k < l.length) : ¬ bc.InTable k a := by
  obtain ⟨chain, hlaid, -⟩ := h
  have hdeque := deque_iff.mpr ⟨chain, hlaid⟩
  cases hfree with
  | popBack hempty hzero hret _ ha =>
    have hne : s.list ≠ [] := fun hnil => Bool.false_ne_true (hempty.symm.trans (hdeque.empty_iff.mpr hnil))
    obtain ⟨bc', b, hret', -, hb, hnot, -⟩ := hlaid.beforeTrimBack hne hzero
    cases hret.symm.trans hret'
    cases ha.symm.trans hb
    exact hnot k hk
  | popFront hempty htake hfull hadv _ ha =>
    cases hlist : s.list with
    | nil => exact absurd (hempty.symm.trans (hdeque.empty_iff.mpr hlist)) Bool.false_ne_true
    | cons x l =>
      rw [hlist] at hlaid hk
      have hend : s.bc.firstStart + 1 = ts := by
        rw [takeFront_eq htake] at hfull
        exact hfull.trans hdeque.sizes.2
      obtain ⟨bc₁, bc', b, htake', -, hadv', -, hb, hnot, -⟩ := hlaid.beforeTrimFront hend
      cases htake.symm.trans htake'
      cases hadv.symm.trans hadv'
      cases ha.symm.trans hb
      exact hnot k hk

/-- A table that a call takes away is one that it frees. -/
theorem Tabled.lost {act : BcAct} (h : Tabled cs ts del s) (hts : ts ≠ 0) (hrule : BcRule s act)
    (hstep : bcStep s act = some s') (ha : a ∈ s.bc.tables) (ha' : a ∉ s'.bc.tables) :
    ∃ bc l, Frees s act bc l a := by
  obtain ⟨chain, hlaid, hwhole, -⟩ := h
  have hdeque := deque_iff.mpr ⟨chain, hlaid⟩
  obtain ⟨chain', -, hmoves, hchain⟩ := bcStep_laid hlaid hts hrule hstep
  have hin := (hwhole a).mp ha
  have hout : a ∉ chain' := fun hin => ha' ((hmoves.whole hwhole a).mpr hin)
  have hempty : s.list ≠ [] → s.bc.bcEmpty = false := fun hne =>
    Bool.eq_false_iff.mpr fun htrue => hne (hdeque.empty_iff.mp htrue)
  cases act with
  | pushBack src host => exact absurd (List.IsPrefix.subset hchain hin) hout
  | pushFront src host => exact absurd (List.IsSuffix.subset hchain hin) hout
  | popBack =>
    rcases hchain with rfl | ⟨hd, hzero, b, rfl⟩
    · exact absurd hin hout
    · have hne := (hdeque.isDeque hts).nonempty_of_popBack hstep
      obtain ⟨bc', c, hret, hmode, hc, -, hlast⟩ := hlaid.beforeTrimBack hne hzero
      obtain rfl : b = c := by
        have hbc := hlast hd
        rw [List.getLast?_append] at hbc
        exact Option.some.inj hbc
      obtain rfl := List.mem_singleton.mp ((List.mem_append.mp hin).resolve_left hout)
      exact ⟨bc', _, .popBack (hempty hne) hzero hret (hmode.trans hd) hc⟩
  | popFront =>
    rcases hchain with rfl | ⟨hd, hfull, b, rfl⟩
    · exact absurd hin hout
    · have hne := (hdeque.isDeque hts).nonempty_of_popFront hstep
      obtain ⟨x, l, hlist⟩ := List.exists_cons_of_ne_nil hne
      rw [hlist] at hlaid
      obtain ⟨bc₁, bc', c, htake, hend, hadv, hmode, hc, -, hhead⟩ :=
        hlaid.beforeTrimFront (hfull.trans hdeque.sizes.2)
      obtain rfl : b = c := Option.some.inj (hhead hd)
      obtain rfl := (List.mem_cons.mp hin).resolve_right hout
      exact ⟨bc', _, .popFront (hempty hne) htake hend hadv (hmode.trans hd) hc⟩

theorem Tabled.accounted (h : Tabled cs ts del s) (hts : ts ≠ 0) : TablesAccounted ts del s where
  chain := h.oneChain hts
  calls := h.calls hts
  kept := by
    rintro rfl s' hreach
    have hstep : ∀ m act m', (Tabled cs ts false m ∧ s.bc.tables ⊆ m.bc.tables) → BcRule m act →
        bcStep m act = some m' → Tabled cs ts false m' ∧ s.bc.tables ⊆ m'.bc.tables :=
      fun _ _ _ hm hrule hstep => ⟨bcStep_tabled hm.1 hts hrule hstep,
        hm.2.trans (bcStep_tables hm.1 hts hrule hstep)⟩
    exact (hreach.invariant hstep ⟨h, Set.Subset.refl _⟩).2
  frees _ _ _ _ hfree _ hk := h.frees _ hfree hk
  lost _ _ hrule hstep _ ha ha' := h.lost hts hrule hstep ha ha'

/-- **The tables of a broken collection are accounted for** in every run, exactly when the size of a
table fits a word: the header, the byte of the channel and the cells. -/
theorem broken_collection_tables (hcs : cs ≠ 0) (hts : ts ≠ 0) :
    (∀ host, HostOk host (fun _ => False) → newBrokenCollection cs ts del host ≠ .error .fault ∧
      ∀ bc, newBrokenCollection cs ts del host = .ok bc →
        ∀ s, Reaches bcStep BcRule ⟨bc, []⟩ s → TablesAccounted ts del s) ↔ 17 + cs * ts < 2 ^ 64 := by
  constructor
  · intro h
    by_contra hwraps
    obtain ⟨hnew, hrun⟩ := h (hostAt 8) (hostOk_hostAt (by decide) id)
    have hwrap := @newBrokenCollection_overruns cs ts del hcs hts hwraps
    rcases hwrap with hfault | ⟨bc, s, src, hok, hreach, hrule, hfault⟩
    · exact hnew hfault
    · rcases (hrun bc hok s hreach).calls _ hrule with ⟨s', hstep⟩ | ⟨hexit, -⟩
      · rw [bcStep, hfault] at hstep
        cases hstep
      · cases hfault.symm.trans hexit
  · intro hfits host hhost
    have hlaid : newBrokenCollection cs ts del host = .error .exit ∧ _ ∨ _ :=
      newBrokenCollection_laid hcs hts hfits hhost
    rcases hlaid with ⟨hexit, -⟩ | ⟨bc, a, hok, hmode, hwhole, hlaid⟩
    · rw [hexit]
      refine ⟨by simp, fun bc heq => ?_⟩
      cases heq
    · rw [hok]
      refine ⟨by simp, fun bc' heq s hreach => ?_⟩
      cases heq
      have hstep : ∀ m act m', Tabled cs ts del m → BcRule m act → bcStep m act = some m' →
          Tabled cs ts del m' := fun _ _ _ hm hrule hstep => bcStep_tabled hm hts hrule hstep
      have hrun : Tabled cs ts del s := hreach.invariant hstep ⟨[a], hlaid, hwhole, hmode⟩
      exact hrun.accounted hts

/-- Tables of two cells of one byte: the third push is to the second table, and the second pop frees
the first. -/
theorem broken_collection_tables_two : ∃ s : BcRun, s.list = [[3]] ∧ s.bc.heap 9 = none ∧
    TablesAccounted 2 true s := by
  obtain ⟨bc, s₁, s₂, hnew, h₁, h₂, hsize, hsize₁, hfree⟩ : ∃ bc s₁ s₂,
      newBrokenCollection 1 2 true (hostAt 8) = .ok bc ∧
      bcStep ⟨bc, []⟩ (.pushBack [1] fun _ => none) = some s₁ ∧
      bcStep s₁ (.pushBack [2] (hostAt 64)) = some s₂ ∧
      bc.cellSize = 1 ∧ s₁.bc.cellSize = 1 ∧ s₁.bc.heap 65 = none :=
    ⟨_, _, _, rfl, rfl, rfl, rfl, rfl, rfl⟩
  obtain ⟨s₃, s₄, s₅, h₃, h₄, h₅, hsize₂, hlist, hgone⟩ : ∃ s₃ s₄ s₅,
      bcStep s₂ (.pushBack [3] fun _ => none) = some s₃ ∧ bcStep s₃ .popFront = some s₄ ∧
      bcStep s₄ .popFront = some s₅ ∧ s₂.bc.cellSize = 1 ∧ s₅.list = [[3]] ∧ s₅.bc.heap 9 = none := by
    cases hnew
    cases h₁
    cases h₂
    exact ⟨_, _, _, rfl, rfl, rfl, rfl, rfl, rfl⟩
  have hrule₁ : BcRule ⟨bc, []⟩ (.pushBack [1] fun _ => none) := ⟨hsize.symm, hostOk_none⟩
  have hrule₂ : BcRule s₁ (.pushBack [2] (hostAt 64)) :=
    ⟨hsize₁.symm, hostOk_hostAt (by decide) (by rw [hfree]; exact Bool.false_ne_true)⟩
  have hrule₃ : BcRule s₂ (.pushBack [3] fun _ => none) := ⟨hsize₂.symm, hostOk_none⟩
  have hrule₄ : BcRule s₃ .popFront := trivial
  have hrule₅ : BcRule s₄ .popFront := trivial
  have hreach : Reaches bcStep BcRule ⟨bc, []⟩ s₅ :=
    (((((Reaches.refl _).snoc hrule₁ h₁).snoc hrule₂ h₂).snoc hrule₃ h₃).snoc hrule₄ h₄).snoc hrule₅ h₅
  have htables := (@broken_collection_tables 1 2 true (by decide) (by decide)).mpr (by decide)
    (hostAt 8) (hostOk_hostAt (by decide) id)
  exact ⟨s₅, hlist, hgone, htables.2 bc hnew s₅ hreach⟩

/-- Cells of one byte, two to the power of 64 less 16 of them: the size is zero, and the links of the
first table are not in its memory. -/
theorem links_outside_table : ¬ ∀ host, HostOk host (fun _ => False) →
    newBrokenCollection 1 (2 ^ 64 - 16) true host ≠ .error .fault ∧
      ∀ bc, newBrokenCollection 1 (2 ^ 64 - 16) true host = .ok bc →
        ∀ s, Reaches bcStep BcRule ⟨bc, []⟩ s → TablesAccounted (2 ^ 64 - 16) true s := by
  intro h
  exact (h (hostAt 8) (hostOk_hostAt (by decide) id)).1 rfl

end Chvm.Util
