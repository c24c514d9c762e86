import Chvm.Mb.Compact
import Chvm.Virt.Map

/-!
# A block for an array (`new_mem_block_arr`)

The capacity of the block is computed from the size of a cell, while each `mb_malloc` of a cell rounds it
up to an even number. The block holds its array exactly when it has room for the rounded cells: always
when the size of a cell is even, and for up to 33 cells when it is odd.
-/

set_option autoImplicit false

namespace Chvm.Mb

open Chvm.Lib Chvm.Virt Chvm.Ms

/-- `new_mem_block_arr`, in a buffer at `addr` that holds the bytes of `mem`. -/
def newMemBlockArr (addr : Nat) (mem : Mem) (cellSize minCells : Nat) : SpaceBlock :=
  newSpaceBlock addr mem ((cellSize + mapPadding) % 2 ^ 64 * minCells % 2 ^ 64)

/-- As many calls of `mb_malloc`, and the vaddrs they return. -/
def mbMallocTimes (t : Tid) (minBytes : Nat) :
    Nat → MemBlock → AddrBook → Option (List Vaddr × MemBlock × AddrBook)
  | 0, mb, adb => some ([], mb, adb)
  | times + 1, mb, adb =>
    match mbMallocP mb adb t minBytes false with
    | none => none
    | some (res, mb, adb) =>
      (mbMallocTimes t minBytes times mb adb).map fun r => (res.vaddr :: r.1, r.2)

/-- The free pieces, in the order of their addresses. -/
def frees (ps : List Piece) : List Piece := ps.filter (·.kind.isNone)

variable {mem : Mem} {mb mb' : MemBlock} {adb adb' : AddrBook} {A B l ps ps' : List Piece} {p q : Piece}
  {t : Tid} {n k cellSize minCells addr : Nat} {vs : List Vaddr} {hold : Bool} {res : MallocRes}

/-! ## The calls return -/

/-- A call adds at most one table to the book, of its capacity. -/
theorem size_mbMallocP (h : mbMallocP mb adb t n hold = some (res, mb', adb')) :
    adb'.book.length ≤ adb.book.length + 1 ∧ adb'.tableCap = adb.tableCap := by
  unfold mbMallocP at h
  split at h
  · cases h
    exact ⟨Nat.le_succ _, rfl⟩
  simp only at h
  split at h
  · cases h
    exact ⟨Nat.le_succ _, rfl⟩
  split at h
  · cases h
    exact ⟨Nat.le_succ _, rfl⟩
  split at h
  next mb₁ v adb₁ hcut hput =>
    cases h
    by_cases hlist : adb.freeList = none
    · obtain ⟨hlen, hcap⟩ := AddrBook.size_adbPutP_none hlist hput
      exact ⟨Nat.le_of_eq hlen, hcap⟩
    · obtain ⟨hlen, hcap⟩ := AddrBook.size_adbPutP hlist hput
      exact ⟨Nat.le_succ_of_le (Nat.le_of_eq hlen), hcap⟩
  · cases h

/-- While the book has room for a table, a call returns. -/
theorem mbMallocP_returns (h : Block mb adb ps l) (n : Nat) (t : Tid) (hold : Bool) (hroom : adb.TableRoom) :
    ∃ res mb' adb' ps' l', mbMallocP mb adb t n hold = some (res, mb', adb') ∧ Block mb' adb' ps' l' := by
  by_cases hfits : Fits mb n
  · obtain ⟨res, mb', adb', hres, -⟩ := mbMallocP_of_fits h hfits t hold hroom
    rcases mbMallocP_cases h hres with ⟨-, rfl, rfl⟩ | ⟨q, ps', l', -, -, -, hblock, -⟩
    · exact ⟨res, mb', adb', ps, l, hres, h⟩
    · exact ⟨res, mb', adb', ps', l', hres, hblock⟩
  · exact ⟨_, mb, adb, ps, l, mbMallocP_of_not_fits hfits adb t hold, h⟩

theorem mbMallocTimes_returns (h : Block mb adb ps l) (n : Nat) (t : Tid)
    (hroom : adb.book.length + k < 2 ^ 64) (htable : FitsTable adb.tableCap) :
    ∃ vs mb' adb', mbMallocTimes t n k mb adb = some (vs, mb', adb') ∧ vs.length = k := by
  induction k generalizing mb adb ps l with
  | zero => exact ⟨[], mb, adb, rfl, rfl⟩
  | succ k ih =>
    obtain ⟨res, mb₁, adb₁, ps₁, l₁, hres, hblock⟩ := mbMallocP_returns h n t false fun _ => ⟨by omega,
      htable⟩
    obtain ⟨hlen, hcap⟩ := size_mbMallocP hres
    obtain ⟨vs, mb', adb', hrest, hvs⟩ := ih hblock (by omega) (hcap ▸ htable)
    refine ⟨res.vaddr :: vs, mb', adb', ?_, congrArg (· + 1) hvs⟩
    simp only [mbMallocTimes, hres, hrest, Option.map_some]

/-! ## Room for all of them -/

/-- The one free piece of a block. -/
theorem frees_eq_singleton (h : frees (A ++ q :: B) = [p]) (hq : q.kind = none) :
    q = p ∧ frees A = [] ∧ frees B = [] := by
  unfold frees at *
  rw [List.filter_append, List.filter_cons_of_pos (by rw [hq]; rfl)] at h
  cases hA : A.filter (·.kind.isNone) with
  | nil =>
    rw [hA] at h
    obtain ⟨heq, hB⟩ := List.cons.inj h
    exact ⟨heq, rfl, hB⟩
  | cons r rs =>
    rw [hA] at h
    obtain ⟨-, hnil⟩ := List.cons.inj h
    exact absurd hnil (List.append_ne_nil_of_right_ne_nil _ (List.cons_ne_nil _ _))

/-- A request fits the one free piece exactly when its padded size does. -/
theorem Block.fits_one (h : Block mb adb ps l) (hfree : frees ps = [p]) (hn : n ≠ 0)
    (hle : padNumBytes n ≤ p.size) : Fits mb n := by
  have hl : l = [p] := by
    have hperm := h.laid.listed
    rw [List.append_nil] at hperm
    exact List.perm_singleton.mp (hfree ▸ hperm)
  have hhead := h.laid.linked.head
  subst hl
  obtain ⟨hp, -⟩ := h.laid.mem_listed.mp List.mem_cons_self
  refine ⟨hn, node p, hhead, ?_⟩
  rw [mpBToMp_node, (h.laid.kept p hp).size (h.laid.fit p hp)]
  exact hle

/-- A call takes its padded size off the one free piece, or all of it when it is the last one that
fits. -/
theorem CutOut.frees (h : CutOut k ps ps' q) (hfree : frees ps = [p]) (hq : q.kind.isSome = true) :
    p.size - k < mpMinSize ∨ ∃ p' : Piece, frees ps' = [p'] ∧ p'.size = p.size - k := by
  obtain ⟨A, r, B, B', rfl, hr, rfl, htaken⟩ := h
  obtain ⟨rfl, hA, hB⟩ := frees_eq_singleton hfree hr
  rcases htaken with ⟨hsmall, -⟩ | ⟨-, -, m, hm, hsize, rfl⟩
  · exact .inl hsmall
  · refine .inr ⟨m, ?_, hsize⟩
    unfold Mb.frees at *
    rw [List.filter_append, hA,
      List.filter_cons_of_neg (by rw [Option.isSome_iff_ne_none] at hq; simpa using hq),
      List.filter_cons_of_pos (by rw [hm]; rfl), hB]
    rfl

/-- Where the one free piece has room for all the requests, all of them are met. -/
theorem mallocs_all_of_room (h : Block mb adb ps l) (hfree : frees ps = [p]) (hn : n ≠ 0)
    (hle : k * padNumBytes n ≤ p.size) (hroom : adb.book.length + k < 2 ^ 64)
      (htable : FitsTable adb.tableCap)
    (hrun : mbMallocTimes t n k mb adb = some (vs, mb', adb')) : ∀ v ∈ vs, v ≠ nullVaddr := by
  induction k generalizing mb adb ps l p vs with
  | zero =>
    cases hrun
    exact nofun
  | succ k ih =>
    rw [Nat.succ_mul] at hle
    have hfits := h.fits_one hfree hn (by omega)
    obtain ⟨res, mb₁, adb₁, hres, hne⟩ := mbMallocP_of_fits h hfits t false fun _ => ⟨by omega, htable⟩
    simp only [mbMallocTimes, hres] at hrun
    obtain ⟨⟨vs', r⟩, hrest, heq⟩ := Option.map_eq_some_iff.mp hrun
    cases heq
    have hmin : mpMinSize ≤ padNumBytes n := (padNumBytes_fit n).2.1
    obtain ⟨hlen, hcap⟩ := size_mbMallocP hres
    rcases mbMallocP_exact h hres with ⟨rfl, -⟩ | ⟨q, ps₁, l₁, hkind, -, -, hcut, hblock, -⟩
    · exact absurd rfl hne
    have htail : ∀ v ∈ vs', v ≠ nullVaddr := by
      rcases hcut.frees hfree (by rw [hkind]; rfl) with hsmall | ⟨p', hfree', hsize⟩
      · -- the rest of the piece was too small for one more
        have hk : k = 0 := by
          by_contra hpos
          have hone : 1 * padNumBytes n ≤ k * padNumBytes n :=
            Nat.mul_le_mul_right _ (Nat.one_le_iff_ne_zero.mpr hpos)
          omega
        subst hk
        cases hrest
        exact nofun
      · exact ih hblock hfree' (by omega) (by omega) (hcap ▸ htable) hrest
    intro v hv
    rcases List.mem_cons.mp hv with rfl | hv
    · exact hne
    · exact htail v hv

/-! ## No room for all of them -/

/-- The bytes of the allocated pieces. -/
def allocSize (ps : List Piece) : Nat := ((allocs ps).map (·.size)).sum

theorem CutOut.allocSize (h : CutOut k ps ps' q) (hq : q.kind.isSome = true) :
    allocSize ps' = allocSize ps + q.size := by
  obtain ⟨A, r, B, B', rfl, hr, rfl, htaken⟩ := h
  have hB : allocs B' = allocs B := by
    rcases htaken with ⟨-, -, rfl⟩ | ⟨-, -, m, hm, -, rfl⟩
    · rfl
    · exact allocs_cons_free hm
  unfold Mb.allocSize
  rw [allocs_append, allocs_append, allocs_cons hq, allocs_cons_free hr, hB]
  simp only [List.map_append, List.map_cons, List.sum_append, List.sum_cons]
  omega

/-- The allocated pieces lie in the block. -/
theorem Block.allocSize_le (h : Block mb adb ps l) : allocSize ps ≤ mb.cap := by
  have hsum : mb.start + (ps.map (·.size)).sum = mb.stop := h.laid.tiles.sum_size
  have hfree := freeSize_add ps
  unfold MemBlock.stop at hsum
  unfold allocSize
  omega

/-- Requests that are all met have taken their padded size each. -/
theorem mallocs_charge (h : Block mb adb ps l) (hrun : mbMallocTimes t n k mb adb = some (vs, mb', adb'))
    (hall : ∀ v ∈ vs, v ≠ nullVaddr) : allocSize ps + k * padNumBytes n ≤ mb.cap := by
  induction k generalizing mb adb ps l vs with
  | zero =>
    rw [Nat.zero_mul]
    exact h.allocSize_le
  | succ k ih =>
    unfold mbMallocTimes at hrun
    split at hrun
    · cases hrun
    next res mb₁ adb₁ hres =>
      obtain ⟨⟨vs', r⟩, hrest, heq⟩ := Option.map_eq_some_iff.mp hrun
      cases heq
      rcases mbMallocP_exact h hres with ⟨rfl, -⟩ | ⟨q, ps₁, l₁, hkind, -, hsize, hcut, hblock, hchanged, -⟩
      · exact absurd rfl (hall nullVaddr List.mem_cons_self)
      have hle := ih hblock hrest fun v hv => hall v (List.mem_cons_of_mem _ hv)
      rw [hcut.allocSize (by rw [hkind]; rfl), hchanged.fields.2] at hle
      rw [Nat.succ_mul]
      omega

/-! ## The array -/

/-- The padded size of what is not empty, when nothing wraps. -/
theorem padNumBytes_eq (hpos : 0 < n) (hwrap : n + n % 2 + mapPadding < 2 ^ 64) :
    padNumBytes n = n + n % 2 + mapPadding := by
  have hpad : mapPadding = 32 := rfl
  unfold padNumBytes roundNumBytes mpMinSize mfpPadding mpPadding
  simp only
  split <;> split <;> omega

/-- The capacity has room for the padded cells exactly when a cell is even, or there are up to 33. -/
theorem array_room_iff (hcell : 0 < cellSize) (hcells : 0 < minCells)
    (hwrap : (cellSize + mapPadding) * minCells +
      (cellSize + mapPadding) * minCells % 2 + mapPadding < 2 ^ 64) :
    minCells * padNumBytes cellSize ≤ padNumBytes ((cellSize + mapPadding) * minCells) ↔
      cellSize % 2 = 0 ∨ minCells ≤ 33 := by
  have hpad : mapPadding = 32 := rfl
  have hle : cellSize + mapPadding ≤ (cellSize + mapPadding) * minCells := Nat.le_mul_of_pos_right _ hcells
  have hparity : (cellSize + mapPadding) * minCells % 2 = cellSize % 2 * (minCells % 2) := by
    have hcellmod : (cellSize + mapPadding) % 2 = cellSize % 2 := by omega
    rw [Nat.mul_mod, hcellmod]
    rcases Nat.mod_two_eq_zero_or_one cellSize with h | h <;>
      rcases Nat.mod_two_eq_zero_or_one minCells with h' | h' <;> rw [h, h']
  have hsum : minCells * (cellSize + cellSize % 2 + mapPadding) =
      (cellSize + mapPadding) * minCells + minCells * (cellSize % 2) := by
    rw [Nat.add_right_comm, Nat.mul_add, Nat.mul_comm minCells (cellSize + mapPadding)]
  rw [padNumBytes_eq hcell (by omega), padNumBytes_eq (by omega) hwrap, hsum, hparity]
  rcases Nat.mod_two_eq_zero_or_one cellSize with heven | hodd
  · rw [heven]
    omega
  · rw [hodd]
    omega

/-- The pieces of the block lie in the buffer the code asked for, and there is a vaddr for every cell. -/
def HoldsArray (b : SpaceBlock) (adb : AddrBook) (t : Tid) (cellSize minCells : Nat) : Prop :=
  b.mb.stop ≤ b.addr + b.size ∧ ∃ vs mb' adb',
    mbMallocTimes t cellSize minCells b.mb adb = some (vs, mb', adb') ∧
    vs.length = minCells ∧ ∀ v ∈ vs, v ≠ nullVaddr

/-- **A block created for an array holds that array**, in a buffer at any address, exactly when its bytes
with the header fit a word and either the size of a cell is even or there are up to 33 cells. -/
theorem array_block_holds (hcell : 0 < cellSize) (hcells : 0 < minCells)
    (hwrap : (cellSize + mapPadding) * minCells +
      (cellSize + mapPadding) * minCells % 2 + mapPadding < 2 ^ 64)
    (hquiet : adb.Quiet) (hroom : adb.book.length + minCells < 2 ^ 64) (htable : FitsTable adb.tableCap)
    (haddr : 0 < addr)
    (hbuffer : addr + (newMemBlockArr addr mem cellSize minCells).size < 2 ^ 64) (t : Tid) :
    HoldsArray (newMemBlockArr addr mem cellSize minCells) adb t cellSize minCells ↔
      memBlockHeaderSize + padNumBytes ((cellSize + mapPadding) * minCells) < 2 ^ 64 ∧
        (cellSize % 2 = 0 ∨ minCells ≤ 33) := by
  have hpad : mapPadding = 32 := rfl
  have hheader : memBlockHeaderSize = 224 := rfl
  have hle : cellSize + mapPadding ≤ (cellSize + mapPadding) * minCells := Nat.le_mul_of_pos_right _ hcells
  have hwords : (cellSize + mapPadding) % 2 ^ 64 * minCells % 2 ^ 64 =
      (cellSize + mapPadding) * minCells := by
    rw [Nat.mod_eq_of_lt (a := cellSize + mapPadding) (by omega), Nat.mod_eq_of_lt (by omega)]
  unfold newMemBlockArr at hbuffer ⊢
  rw [hwords] at hbuffer ⊢
  generalize hN : (cellSize + mapPadding) * minCells = N at hwrap hle hbuffer ⊢
  have hstop : (newSpaceBlock addr mem N).mb.stop = addr + memBlockHeaderSize + padNumBytes N := rfl
  have hsize : (newSpaceBlock addr mem N).size = (memBlockHeaderSize + padNumBytes N) % 2 ^ 64 := rfl
  have hfits : (newSpaceBlock addr mem N).mb.stop ≤
      (newSpaceBlock addr mem N).addr + (newSpaceBlock addr mem N).size ↔
      memBlockHeaderSize + padNumBytes N < 2 ^ 64 := by
    rw [hstop, hsize]
    show addr + memBlockHeaderSize + padNumBytes N ≤ addr + (memBlockHeaderSize + padNumBytes N) % 2 ^ 64 ↔ _
    omega
  unfold HoldsArray
  rw [hfits]
  refine and_congr_right fun hsmall => ?_
  have hend : addr + memBlockHeaderSize + padNumBytes N < 2 ^ 64 := by
    rw [hsize] at hbuffer
    omega
  have hblock : Block (newSpaceBlock addr mem N).mb adb _ _ := block_new mem N (by omega) hend hquiet
  rw [← array_room_iff hcell hcells (hN.symm ▸ hwrap), hN]
  constructor
  · rintro ⟨vs, mb', adb', hrun, -, hall⟩
    have hcharge := mallocs_charge hblock hrun hall
    exact Nat.le_of_add_left_le hcharge
  · intro hle
    obtain ⟨vs, mb', adb', hrun, hlen⟩ := mbMallocTimes_returns hblock cellSize t hroom htable
    exact ⟨vs, mb', adb', hrun, hlen, mallocs_all_of_room hblock rfl (by omega) hle hroom htable hrun⟩

/-- A block for 33 cells of 7 bytes. -/
theorem array_block_holds_odd : ∃ adb, newAddrBook 40 = some adb ∧
    HoldsArray (newMemBlockArr 4096 ⟨fun _ => 0⟩ 7 33) adb 0 7 33 := by
  obtain ⟨adb, hnew, hroom, htable⟩ : ∃ adb, newAddrBook 40 = some adb ∧ adb.book.length + 33 < 2 ^ 64 ∧
      FitsTable adb.tableCap := ⟨_, rfl, by decide, by decide⟩
  exact ⟨adb, hnew, (array_block_holds (by decide) (by decide) (by decide)
    (AddrBook.quiet_new hnew (by decide))
    hroom htable (by decide) (by decide) 0).mpr ⟨by decide, .inr (by decide)⟩⟩

/-- The block for 34 cells of one byte: one of the 34 calls returns the null vaddr. -/
theorem array_of_34 : ∃ adb vs mb' adb', newAddrBook 40 = some adb ∧
    mbMallocTimes 0 1 34 (newMemBlockArr 4096 ⟨fun _ => 0⟩ 1 34).mb adb = some (vs, mb', adb') ∧
    vs.length = 34 ∧ nullVaddr ∈ vs := by
  obtain ⟨adb, hnew, hroom, htable⟩ : ∃ adb, newAddrBook 40 = some adb ∧ adb.book.length + 34 < 2 ^ 64 ∧
      FitsTable adb.tableCap := ⟨_, rfl, by decide, by decide⟩
  have hblock : Block (newMemBlockArr 4096 ⟨fun _ => 0⟩ 1 34).mb adb _ _ :=
    block_new _ _ (by decide) (by decide) (AddrBook.quiet_new hnew (by decide))
  obtain ⟨vs, mb', adb', hrun, hlen⟩ := mbMallocTimes_returns hblock 1 0 hroom htable
  refine ⟨adb, vs, mb', adb', hnew, hrun, hlen, ?_⟩
  by_contra hnot
  have hcharge := mallocs_charge hblock hrun fun v hv heq => hnot (heq ▸ hv)
  exact absurd hcharge (by decide)

end Chvm.Mb
