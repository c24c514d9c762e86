import Chvm.Util.Broken

/-!
# The linked list (`data.c`, `util_ll`)

A chain of nodes with the cell behind each header. The nodes are blocks of the heap, and a null or freed
pointer is a fault, as is a header or a cell that leaves its block. There are far fewer nodes than 2^64, so
that `len` is no word here.
-/

set_option autoImplicit false

namespace Chvm.Util

open Chvm.Core Chvm.Lib

/-- `util_ll_node_header` with the bytes behind it. -/
structure LlNode where
  nxt : Option Nat
  prv : Option Nat
  data : List UInt8

/-- `util_linked_list` at its address, with its nodes. -/
structure Ll where
  addr : Nat
  cellSize : Nat
  len : Nat
  start : Option Nat
  endNode : Option Nat
  heap : Nat → Option LlNode

/-- `sizeof(util_ll)`. -/
def utilLlSize : Nat := 32

/-- `sizeof(util_ll_node_header)`. -/
def llNodeHeaderSize : Nat := 16

/-- `new_linked_list`; the result is `NULL` for cells of no bytes. -/
def newLinkedList (cs : Nat) (host : Host) : Except Stop (Option Ll) :=
  if cs = 0 then .ok none
  else
    match host (CoreMem.hostSize utilLlSize) with
    | none => .error .exit
    | some (raw, _) =>
      .ok (some
        { addr := raw + 1, cellSize := cs, len := 0, start := none, endNode := none, heap := fun _ => none })

namespace Ll

/-- The node behind a pointer. -/
def node (ll : Ll) (p : Option Nat) : Except Stop (Nat × LlNode) :=
  match p with
  | none => .error .fault
  | some a =>
    match ll.heap a with
    | none => .error .fault
    | some node => .ok (a, node)

def setNode (ll : Ll) (a : Nat) (node : LlNode) : Ll :=
  { ll with heap := Function.update ll.heap a (some node) }

/-- `ll_next`, with the node's address for its data's. -/
def llNext (ll : Ll) (host : Host) : Except Stop (Nat × Ll) :=
  match host (CoreMem.hostSize ((llNodeHeaderSize + ll.cellSize) % 2 ^ 64)) with
  | none => .error .exit
  | some (raw, bytes) =>
    if bytes.length < 1 + llNodeHeaderSize then .error .fault
    else do
      let next := raw + 1
      let ll := ll.setNode next
        { nxt := none, prv := ll.endNode, data := bytes.drop (1 + llNodeHeaderSize) }
      if ll.start = none then
        return (next, { ll with start := some next, endNode := some next, len := ll.len + 1 })
      else
        -- `end` stays where it is
        let (a, node) ← ll.node ll.endNode
        return (next, { ll.setNode a { node with nxt := some next } with len := ll.len + 1 })

/-- `ll_add`. -/
def llAdd (ll : Ll) (src : List UInt8) (host : Host) : Except Stop (Nat × Ll) := do
  let (next, ll) ← ll.llNext host
  let (a, node) ← ll.node (some next)
  if src.length ≤ node.data.length then
    return (next, ll.setNode a { node with data := splice node.data 0 src })
  else .error .fault

/-- The loop of `ll_get`. -/
def llWalk (ll : Ll) : Nat → Option Nat → Except Stop (Option Nat)
  | 0, iter => .ok iter
  | i + 1, iter => do
    let (_, node) ← ll.node iter
    ll.llWalk i node.nxt

/-- `ll_get`; behind a null pointer the cell is at the header's size. -/
def llGet (ll : Ll) (i : Nat) : Except Stop (Option Nat) :=
  if i ≥ ll.len then .ok none
  else do
    let iter ← ll.llWalk i ll.start
    return some (iter.getD 0 + llNodeHeaderSize)

/-- `ll_len`. -/
def llLen (ll : Ll) : Nat := ll.len

/-- The loop of `delete_linked_list`, with the nodes it frees in their order; a loop that ends does so with
some fuel. -/
def deleteNodes (ll : Ll) : Nat → Option Nat → Option (Except Stop (List Nat × Ll))
  | 0, _ => none
  | fuel + 1, iter =>
    match iter with
    | none => some (.ok ([], ll))
    | some _ =>
      match ll.node iter with
      | .error e => some (.error e)
      | .ok (a, node) =>
        let freed := { ll with heap := Function.update ll.heap a none }
        (freed.deleteNodes fuel node.nxt).map fun r => r.map fun r => (a :: r.1, r.2)

/-- `delete_linked_list`, with what it frees. -/
def deleteLinkedList (ll : Ll) (fuel : Nat) : Option (Except Stop (List Nat)) :=
  (ll.deleteNodes fuel ll.start).map fun r => r.map fun r => r.1 ++ [ll.addr]

end Ll

/-! ## Runs -/

/-- A list, and the nodes of the additions in their order, each with the cell that `ll_add` was given. -/
structure LlRun where
  ll : Ll
  added : List (Nat × Option (List UInt8))

inductive LlAct
  | next (host : Host)
  | add (src : List UInt8) (host : Host)

/-- What an addition does. -/
def Ll.addition (ll : Ll) : LlAct → Except Stop (Nat × Ll)
  | .next host => ll.llNext host
  | .add src host => ll.llAdd src host

def llStep (s : LlRun) (a : LlAct) : Option LlRun :=
  (s.ll.addition a).toOption.map fun r =>
    { ll := r.2, added := s.added ++ [(r.1, match a with | .next _ => none | .add src _ => some src)] }

/-- The host's memory that is in use. -/
def Ll.inUse (ll : Ll) (raw : Nat) : Prop := raw + 1 = ll.addr ∨ (ll.heap (raw + 1)).isSome = true

/-- The client gives whole cells, the host memory that is not in use. -/
def LlRule (s : LlRun) : LlAct → Prop
  | .next host => HostOk host s.ll.inUse
  | .add src host => src.length = s.ll.cellSize ∧ HostOk host s.ll.inUse

def Ll.nxt (ll : Ll) (a : Nat) : Option Nat := (ll.heap a).bind (·.nxt)

def Ll.prv (ll : Ll) (a : Nat) : Option Nat := (ll.heap a).bind (·.prv)

/-- What the calls promise of the list after these additions, but for `end`. -/
structure Appended (s : LlRun) : Prop where
  /-- An addition leaves its memory never, and ends the process only when the host has no memory. -/
  total : ∀ a, LlRule s a → s.ll.addition a ≠ .error .fault
  len : s.ll.llLen = s.added.length
  get : ∀ (i : Nat) e, s.added[i]? = some e → s.ll.llGet i = .ok (some (e.1 + llNodeHeaderSize))
  null : ∀ i, s.added.length ≤ i → s.ll.llGet i = .ok none
  cells : ∀ a src, (a, some src) ∈ s.added → ∃ node, s.ll.heap a = some node ∧ node.data = src
  /-- `nxt` leads from `start` through the cells in their order, and `prv` back. -/
  linked : Linked s.ll.nxt s.ll.prv s.ll.start (s.added.map (·.1))
  /-- `delete_linked_list` frees every node and the list, each once. -/
  delete : (s.added.map (·.1) ++ [s.ll.addr]).Nodup ∧
    ∃ fuel, s.ll.deleteLinkedList fuel = some (.ok (s.added.map (·.1) ++ [s.ll.addr]))

/-- The list keeps everything appended. -/
structure ListOk (s : LlRun) : Prop extends Appended s where
  endLast : s.ll.endNode = s.added.getLast?.map (·.1)

/-! ## What the additions make of the list -/

/-- The list after any number of additions: `end` is the first node, each later node is behind it, and it
leads to the last of them. -/
structure Shape (cs : Nat) (s : LlRun) : Prop where
  size : s.ll.cellSize = cs
  len : s.ll.len = s.added.length
  start : s.ll.start = s.added.head?.map (·.1)
  endNode : s.ll.endNode = s.added.head?.map (·.1)
  nodup : (s.added.map (·.1) ++ [s.ll.addr]).Nodup
  node : ∀ e ∈ s.added, ∃ node, s.ll.heap e.1 = some node ∧ node.data.length = cs ∧
    ∀ src, e.2 = some src → node.data = src
  links : ∀ e rest, s.added = e :: rest → s.ll.nxt e.1 = rest.getLast?.map (·.1) ∧ s.ll.prv e.1 = none ∧
    ∀ f ∈ rest, s.ll.nxt f.1 = none ∧ s.ll.prv f.1 = some e.1

variable {cs : Nat} {ll ll' : Ll} {s s' : LlRun} {host : Host} {a b i : Nat} {node : LlNode}
  {l rest : List (Nat × Option (List UInt8))} {src : List UInt8}

theorem nxt_of_heap (h : ll.heap a = some node) : ll.nxt a = node.nxt := by
  unfold Ll.nxt
  rw [h]
  rfl

theorem prv_of_heap (h : ll.heap a = some node) : ll.prv a = node.prv := by
  unfold Ll.prv
  rw [h]
  rfl

theorem heap_setNode (a : Nat) (node : LlNode) (b : Nat) :
    (ll.setNode a node).heap b = if b = a then some node else ll.heap b :=
  Function.update_apply ..

theorem nxt_setNode (a : Nat) (node : LlNode) (b : Nat) :
    (ll.setNode a node).nxt b = if b = a then node.nxt else ll.nxt b := by
  unfold Ll.nxt
  rw [heap_setNode]
  split <;> rfl

theorem prv_setNode (a : Nat) (node : LlNode) (b : Nat) :
    (ll.setNode a node).prv b = if b = a then node.prv else ll.prv b := by
  unfold Ll.prv
  rw [heap_setNode]
  split <;> rfl

theorem node_of_heap (h : ll.heap a = some node) : ll.node (some a) = .ok (a, node) := by
  unfold Ll.node
  simp only [h]

/-- The address of a new node is none of the list's. -/
theorem Shape.fresh (h : Shape cs s) (hfree : ¬ s.ll.inUse b) :
    ((s.added.map (·.1) ++ [b + 1]) ++ [s.ll.addr]).Nodup ∧ ∀ e ∈ s.added, e.1 ≠ b + 1 := by
  have hne : ∀ e ∈ s.added, e.1 ≠ b + 1 := by
    intro e he heq
    obtain ⟨node, hnode, -⟩ := h.node e he
    rw [heq] at hnode
    exact hfree (.inr (by rw [hnode]; rfl))
  refine ⟨?_, hne⟩
  rw [List.append_assoc]
  refine List.perm_middle.nodup_iff.mpr (List.nodup_cons.mpr ⟨fun hmem => ?_, h.nodup⟩)
  rcases List.mem_append.mp hmem with hnode | haddr
  · obtain ⟨e, he, heq⟩ := List.mem_map.mp hnode
    exact hne e he heq
  · exact hfree (.inl (List.mem_singleton.mp haddr))

/-- The list with a new node, as the additions link it. -/
theorem Shape.append (h : Shape cs s) (hfree : ¬ s.ll.inUse b) (node : LlNode) (hdata : node.data.length = cs)
    (hlinks : node.nxt = none ∧ node.prv = s.ll.endNode) {ll' : Ll}
    (hsize : ll'.cellSize = s.ll.cellSize ∧ ll'.addr = s.ll.addr ∧ ll'.len = s.ll.len + 1)
    (hends : ll'.start = s.ll.start.or (some (b + 1)) ∧ ll'.endNode = s.ll.endNode.or (some (b + 1)))
    (hheap : ∀ c, ll'.heap c = if c = b + 1 then some node else
      if some c = s.ll.endNode then (s.ll.heap c).map fun node => { node with nxt := some (b + 1) }
      else s.ll.heap c) :
    Shape cs ⟨ll', s.added ++ [(b + 1, none)]⟩ := by
  obtain ⟨hnodup, hne⟩ := h.fresh hfree
  have hnew : ll'.heap (b + 1) = some node := (hheap (b + 1)).trans (if_pos rfl)
  have hnodes : ∀ f ∈ s.added ++ [(b + 1, none)], ∃ node, ll'.heap f.1 = some node ∧ node.data.length = cs ∧
      ∀ src, f.2 = some src → node.data = src := by
    intro f hf
    rcases List.mem_append.mp hf with hf | hf
    · obtain ⟨old, hold, hlen, hsrc⟩ := h.node f hf
      have hf' := hheap f.1
      rw [if_neg (hne f hf), hold] at hf'
      split at hf'
      · exact ⟨_, hf', hlen, hsrc⟩
      · exact ⟨_, hf', hlen, hsrc⟩
    · cases List.mem_singleton.mp hf
      exact ⟨node, hnew, hdata, nofun⟩
  have hlen : ll'.len = (s.added ++ [(b + 1, none)]).length := by
    rw [hsize.2.2, h.len, List.length_append]
    rfl
  have haddrs : ((s.added ++ [(b + 1, none)]).map Prod.fst ++ [ll'.addr]).Nodup := by
    rw [List.map_append, hsize.2.1]
    exact hnodup
  obtain ⟨hstart, hendNode⟩ := hends
  rw [h.start] at hstart
  rw [h.endNode] at hendNode
  cases hadded : s.added with
  | nil =>
    rw [hadded] at hstart hendNode hnodes hlen haddrs
    have hnone : s.ll.endNode = none := by
      rw [h.endNode, hadded]
      rfl
    refine ⟨hsize.1.trans h.size, hlen, hstart, hendNode, haddrs, hnodes, fun e rest heq => ?_⟩
    obtain ⟨rfl, rfl⟩ := List.cons.inj heq
    exact ⟨(nxt_of_heap hnew).trans hlinks.1, (prv_of_heap hnew).trans (hlinks.2.trans hnone), nofun⟩
  | cons e rest =>
    rw [hadded] at hstart hendNode hnodes hlen haddrs
    have hsome : s.ll.endNode = some e.1 := by
      rw [h.endNode, hadded]
      rfl
    refine ⟨hsize.1.trans h.size, hlen, hstart, hendNode, haddrs, hnodes, fun e' rest' heq => ?_⟩
    obtain ⟨rfl, rfl⟩ := List.cons.inj heq
    obtain ⟨hnxt, hprv, hrest⟩ := h.links e rest hadded
    obtain ⟨first, hfirst, -⟩ := h.node e (by rw [hadded]; exact List.mem_cons_self)
    have hlast : (rest ++ [(b + 1, none)]).getLast?.map Prod.fst = some (b + 1) := by
      rw [List.getLast?_concat]
      rfl
    -- the first node leads to the new one
    have hhead : ll'.heap e.1 = some { first with nxt := some (b + 1) } := by
      rw [hheap, if_neg (hne e (by rw [hadded]; exact List.mem_cons_self)), if_pos hsome.symm, hfirst]
      rfl
    refine ⟨?_, ?_, fun f hf => ?_⟩
    · rw [nxt_of_heap hhead, ← hlast]
      rfl
    · rw [prv_of_heap hhead]
      exact (prv_of_heap hfirst).symm.trans hprv
    · rcases List.mem_append.mp hf with hf | hf
      · have hfe : ¬ some f.1 = s.ll.endNode := by
          rw [hsome]
          intro heq
          have hdistinct := (List.nodup_append.mp h.nodup).1
          rw [hadded, List.map_cons, List.nodup_cons] at hdistinct
          exact hdistinct.1 (Option.some.inj heq ▸ List.mem_map_of_mem hf)
        have hsame : ll'.heap f.1 = s.ll.heap f.1 := by
          rw [hheap, if_neg (hne f (by rw [hadded]; exact List.mem_cons_of_mem e hf)), if_neg hfe]
        unfold Ll.nxt Ll.prv
        rw [hsame]
        exact hrest f hf
      · cases List.mem_singleton.mp hf
        exact ⟨(nxt_of_heap hnew).trans hlinks.1, (prv_of_heap hnew).trans (hlinks.2.trans hsome)⟩

/-- `ll_next`, when a node fits a word. -/
theorem Shape.llNext (h : Shape cs s) (hfits : 17 + cs < 2 ^ 64) (hhost : HostOk host s.ll.inUse) :
    s.ll.llNext host = .error .exit ∨ ∃ a ll', s.ll.llNext host = .ok (a, ll') ∧
      Shape cs ⟨ll', s.added ++ [(a, none)]⟩ := by
  have hsize : CoreMem.hostSize ((llNodeHeaderSize + s.ll.cellSize) % 2 ^ 64) = 17 + cs := by
    unfold CoreMem.hostSize llNodeHeaderSize
    rw [h.size, Nat.mod_eq_of_lt (by omega : 16 + cs < 2 ^ 64), Nat.mod_eq_of_lt (by omega)]
    omega
  unfold Ll.llNext
  rw [hsize]
  cases hans : host (17 + cs) with
  | none => exact .inl rfl
  | some block =>
    obtain ⟨raw, bytes⟩ := block
    obtain ⟨hlen, -, -, hfree⟩ := hhost _ _ _ hans
    let new : LlNode := { nxt := none, prv := s.ll.endNode, data := bytes.drop (1 + llNodeHeaderSize) }
    have hroom : ¬ bytes.length < 1 + llNodeHeaderSize := by
      unfold llNodeHeaderSize
      omega
    have hdata : new.data.length = cs := by
      show (bytes.drop (1 + llNodeHeaderSize)).length = cs
      rw [List.length_drop, hlen]
      unfold llNodeHeaderSize
      omega
    refine .inr ?_
    simp only [hroom, if_false]
    cases hadded : s.added with
    | nil =>
      have hstart : s.ll.start = none := by
        rw [h.start, hadded]
        rfl
      have hend : s.ll.endNode = none := by
        rw [h.endNode, hadded]
        rfl
      let ll' : Ll := { s.ll.setNode (raw + 1) new with
        start := some (raw + 1), endNode := some (raw + 1), len := s.ll.len + 1 }
      have happended : Shape cs ⟨ll', s.added ++ [(raw + 1, none)]⟩ →
        Shape cs ⟨ll', [] ++ [(raw + 1, none)]⟩ := by
        rw [hadded]
        exact id
      refine ⟨raw + 1, ll', if_pos hstart, happended ?_⟩
      refine h.append hfree new hdata ⟨rfl, rfl⟩ ⟨rfl, rfl, rfl⟩ ?_ fun c => ?_
      · rw [hstart, hend]
        exact ⟨rfl, rfl⟩
      · rw [hend, if_neg (show ¬ some c = none from nofun)]
        exact heap_setNode ..
    | cons e rest =>
      have hmem : e ∈ s.added := by
        rw [hadded]
        exact List.mem_cons_self
      have hstart : s.ll.start = some e.1 := by
        rw [h.start, hadded]
        rfl
      have hend : s.ll.endNode = some e.1 := by
        rw [h.endNode, hadded]
        rfl
      obtain ⟨first, hfirst, -⟩ := h.node e hmem
      have hne := (h.fresh hfree).2 e hmem
      generalize hll : s.ll.setNode (raw + 1) new = ll
      have hread : ll.node ll.endNode = .ok (e.1, first) := by
        subst hll
        refine Eq.trans (congrArg _ hend) (node_of_heap ?_)
        rw [heap_setNode, if_neg hne, hfirst]
      have hnone : ¬ ll.start = none := by
        subst hll
        show ¬ s.ll.start = none
        rw [hstart]
        exact nofun
      refine ⟨raw + 1, { ll.setNode e.1 { first with nxt := some (raw + 1) } with len := ll.len + 1 }, ?_, ?_⟩
      · rw [if_neg hnone]
        simp only [hread, bind, Except.bind, pure, Except.pure]
      · subst hll
        rw [← hadded]
        refine h.append hfree new hdata ⟨rfl, rfl⟩ ⟨rfl, rfl, rfl⟩ ?_ fun c => ?_
        · rw [hstart, hend]
          exact ⟨hstart, hend⟩
        · have hheap : ({ (s.ll.setNode (raw + 1) new).setNode e.1 { first with nxt := some (raw + 1) } with
              len := s.ll.len + 1 } : Ll).heap c =
                if c = e.1 then some { first with nxt := some (raw + 1) } else
                if c = raw + 1 then some new else s.ll.heap c :=
            (heap_setNode ..).trans (by rw [heap_setNode])
          refine hheap.trans ?_
          rw [hend]
          by_cases hc : c = e.1
          · rw [if_pos hc, if_neg (by rw [hc]; exact hne), if_pos (congrArg some hc), hc, hfirst]
            rfl
          · rw [if_neg hc, if_neg (fun heq => hc (Option.some.inj heq))]

/-- The cell of the last addition is filled. -/
theorem Shape.fill (h : Shape cs ⟨ll, l ++ [(a, none)]⟩) (hnode : ll.heap a = some node)
    (hsrc : src.length = cs) :
    Shape cs ⟨ll.setNode a { node with data := src }, l ++ [(a, some src)]⟩ := by
  have hnxt : ∀ b, (ll.setNode a { node with data := src }).nxt b = ll.nxt b := by
    intro b
    rw [nxt_setNode]
    split
    · rename_i heq
      rw [heq, nxt_of_heap hnode]
    · rfl
  have hprv : ∀ b, (ll.setNode a { node with data := src }).prv b = ll.prv b := by
    intro b
    rw [prv_setNode]
    split
    · rename_i heq
      rw [heq, prv_of_heap hnode]
    · rfl
  have haddrs : (l ++ [(a, some src)]).map Prod.fst = (l ++ [(a, none)]).map Prod.fst := by
    rw [List.map_append, List.map_append]
    rfl
  have hhead : (l ++ [(a, some src)]).head?.map Prod.fst = (l ++ [(a, none)]).head?.map Prod.fst := by
    rw [← List.head?_map, ← List.head?_map, haddrs]
  have hdistinct : ((l ++ [(a, none)]).map Prod.fst ++ [ll.addr]).Nodup := h.nodup
  refine ⟨h.size, ?_, h.start.trans hhead.symm, h.endNode.trans hhead.symm, ?_, fun e he => ?_,
    fun e rest heq => ?_⟩
  · refine Eq.trans h.len ?_
    rw [List.length_append, List.length_append]
    rfl
  · show ((l ++ [(a, some src)]).map Prod.fst ++ [ll.addr]).Nodup
    rw [haddrs]
    exact hdistinct
  · rcases List.mem_append.mp he with hl | hlast
    · obtain ⟨old, hold, hlen, hdata⟩ := h.node e (List.mem_append_left _ hl)
      refine ⟨old, ?_, hlen, hdata⟩
      have hne : e.1 ≠ a := by
        rintro rfl
        rw [List.map_append] at hdistinct
        have hdisjoint := (List.nodup_append.mp (List.nodup_append.mp hdistinct).1).2.2
        exact hdisjoint e.1 (List.mem_map_of_mem hl) e.1 (List.mem_singleton.mpr rfl) rfl
      rw [heap_setNode, if_neg hne]
      exact hold
    · cases List.mem_singleton.mp hlast
      refine ⟨{ node with data := src }, (heap_setNode ..).trans (if_pos rfl), hsrc, fun src' heq => ?_⟩
      exact Option.some.inj heq
  · show (ll.setNode a _).nxt e.1 = _ ∧ (ll.setNode a _).prv e.1 = none ∧
      ∀ f ∈ rest, (ll.setNode a _).nxt f.1 = none ∧ (ll.setNode a _).prv f.1 = some e.1
    simp only [hnxt, hprv]
    cases l with
    | nil =>
      obtain ⟨rfl, rfl⟩ := List.cons.inj heq
      exact h.links (a, none) [] rfl
    | cons x xs =>
      obtain ⟨rfl, rfl⟩ := List.cons.inj heq
      obtain ⟨hlast, hnone, hrest⟩ := h.links x (xs ++ [(a, none)]) rfl
      refine ⟨hlast.trans ?_, hnone, fun f hf => ?_⟩
      · show _ = (xs ++ [(a, some src)]).getLast?.map _
        rw [List.getLast?_concat, List.getLast?_concat]
        rfl
      · rcases List.mem_append.mp hf with hf | hf
        · exact hrest f (List.mem_append_left _ hf)
        · cases List.mem_singleton.mp hf
          exact hrest (a, none) (List.mem_append_right _ (List.mem_singleton.mpr rfl))

/-- An addition, when a node fits a word. -/
theorem Shape.addition (h : Shape cs s) (hfits : 17 + cs < 2 ^ 64) {act : LlAct} (hrule : LlRule s act) :
    s.ll.addition act = .error .exit ∨ ∃ s', llStep s act = some s' ∧ Shape cs s' := by
  cases act with
  | next host =>
    refine (h.llNext hfits hrule).imp_right ?_
    rintro ⟨a, ll', hnext, hshape⟩
    refine ⟨_, ?_, hshape⟩
    unfold llStep Ll.addition
    simp only [hnext, Except.toOption, Option.map_some]
  | add src host =>
    obtain ⟨hsrc, hhost⟩ := hrule
    rcases h.llNext hfits hhost with hexit | ⟨a, ll', hnext, hshape⟩
    · refine .inl ?_
      simp only [Ll.addition, Ll.llAdd, hexit, bind, Except.bind]
    · refine .inr ?_
      obtain ⟨node, hnode, hlen, -⟩ := hshape.node (a, none)
        (List.mem_append_right _ (List.mem_singleton.mpr rfl))
      have hsrc' : src.length = cs := hsrc.trans h.size
      have hsplice : splice node.data 0 src = src := by
        unfold splice
        rw [List.take_zero, List.drop_eq_nil_of_le (by omega), List.append_nil, List.nil_append]
      refine ⟨_, ?_, hshape.fill hnode hsrc'⟩
      unfold llStep Ll.addition Ll.llAdd
      simp only [hnext, node_of_heap hnode, hsplice, bind, Except.bind, pure, Except.pure,
        if_pos (show src.length ≤ node.data.length by omega), Except.toOption, Option.map_some]

theorem shape_new (hnew : newLinkedList cs host = .ok (some ll)) : Shape cs ⟨ll, []⟩ := by
  unfold newLinkedList at hnew
  split at hnew
  · cases hnew
  · split at hnew
    · cases hnew
    · cases hnew
      exact ⟨rfl, rfl, rfl, rfl, List.nodup_singleton _, nofun, nofun⟩

/-! ## Sizes that wrap -/

/-- Where a node's size wraps, its header is not in its block. -/
theorem llNext_wraps (hsize : ll.cellSize = cs) (hword : cs < 2 ^ 64) (hwraps : ¬ 17 + cs < 2 ^ 64)
    {inUse : Nat → Prop}
    (hhost : HostOk host inUse) :
    ll.llNext host = .error .fault ∨ ll.llNext host = .error .exit ∧ ∃ size, host size = none := by
  have hshort : CoreMem.hostSize ((llNodeHeaderSize + ll.cellSize) % 2 ^ 64) < 17 := by
    unfold CoreMem.hostSize llNodeHeaderSize
    rw [hsize, Nat.mod_add_mod]
    omega
  unfold Ll.llNext
  cases hans : host (CoreMem.hostSize ((llNodeHeaderSize + ll.cellSize) % 2 ^ 64)) with
  | none => exact .inr ⟨rfl, _, hans⟩
  | some block =>
    obtain ⟨hlen, -⟩ := hhost _ _ _ hans
    exact .inl (if_pos (by unfold llNodeHeaderSize; omega))

theorem llStep_wraps (hsize : s.ll.cellSize = cs) (hword : cs < 2 ^ 64) (hwraps : ¬ 17 + cs < 2 ^ 64)
    {act : LlAct}
    (hrule : LlRule s act) : llStep s act = none := by
  unfold llStep Ll.addition
  cases act with
  | next host =>
    rcases llNext_wraps hsize hword hwraps hrule with hfail | ⟨hfail, -⟩
    all_goals
      simp only [hfail]
      rfl
  | add src host =>
    rcases llNext_wraps hsize hword hwraps hrule.2 with hfail | ⟨hfail, -⟩
    all_goals
      simp only [Ll.llAdd, hfail, bind, Except.bind]
      rfl

/-- The run lemma: the list has its shape, and no addition returns where a node's size wraps. -/
theorem shape_reach (hword : cs < 2 ^ 64) (hnew : newLinkedList cs host = .ok (some ll))
    (hreach : Reaches llStep LlRule ⟨ll, []⟩ s) :
    Shape cs s ∧ (17 + cs < 2 ^ 64 ∨ s = ⟨ll, []⟩) := by
  have hstep : ∀ m a m', Shape cs m ∧ (17 + cs < 2 ^ 64 ∨ m = ⟨ll, []⟩) → LlRule m a → llStep m a = some m' →
      Shape cs m' ∧ (17 + cs < 2 ^ 64 ∨ m' = ⟨ll, []⟩) := by
    rintro m a m' ⟨hm, -⟩ hrule hm'
    by_cases hfits : 17 + cs < 2 ^ 64
    · refine ⟨?_, .inl hfits⟩
      rcases hm.addition hfits hrule with hexit | ⟨m'', heq, hshape⟩
      · unfold llStep at hm'
        rw [hexit] at hm'
        cases hm'
      · rw [heq] at hm'
        cases hm'
        exact hshape
    · rw [llStep_wraps hm.size hword hfits hrule] at hm'
      cases hm'
  have hrun := hreach.invariant hstep ⟨shape_new hnew, .inr rfl⟩
  exact hrun

/-- In a new list with such nodes the first addition is a fault. -/
theorem total_of_wraps (hnew : newLinkedList cs host = .ok (some ll)) (hword : cs < 2 ^ 64)
    (hwraps : ¬ 17 + cs < 2 ^ 64) : ∃ act, LlRule ⟨ll, []⟩ act ∧ ll.addition act = .error .fault := by
  have hheap : ll.heap = fun _ => none := by
    unfold newLinkedList at hnew
    split at hnew
    · cases hnew
    · split at hnew <;> cases hnew
      rfl
  -- one of two addresses is not the list's own
  obtain ⟨raw, hraw, hne⟩ : ∃ raw, (0 < raw ∧ raw < 2 ^ 64) ∧ raw + 1 ≠ ll.addr := by
    by_cases haddr : 8 + 1 = ll.addr
    · exact ⟨64, by decide, by omega⟩
    · exact ⟨8, by decide, haddr⟩
  have hok : HostOk (hostAt raw) ll.inUse := by
    refine hostOk_hostAt hraw ?_
    rintro (haddr | hused)
    · exact hne haddr
    · rw [hheap] at hused
      cases hused
  refine ⟨.next (hostAt raw), hok, ?_⟩
  rcases llNext_wraps (shape_new hnew).size hword hwraps hok with hfault | ⟨-, size, hnone⟩
  · exact hfault
  · cases hnone

/-! ## What is kept -/

theorem llGet_null (hlen : ll.len ≤ i) : ll.llGet i = .ok none := if_pos hlen

theorem llGet_zero (hlen : 0 < ll.len) (hstart : ll.start = some a) :
    ll.llGet 0 = .ok (some (a + llNodeHeaderSize)) := by
  unfold Ll.llGet Ll.llWalk
  rw [if_neg (Nat.not_le.mpr hlen), hstart]
  rfl

theorem llGet_one (hlen : 1 < ll.len) (hstart : ll.start = some a) (hnode : ll.heap a = some node)
    (hnxt : node.nxt = some b) : ll.llGet 1 = .ok (some (b + llNodeHeaderSize)) := by
  unfold Ll.llGet
  rw [if_neg (Nat.not_le.mpr hlen), hstart]
  simp only [Ll.llWalk, node_of_heap hnode, hnxt, bind, Except.bind]
  rfl

theorem deleteNodes_some (hnode : ll.heap a = some node) (fuel : Nat) :
    ll.deleteNodes (fuel + 1) (some a) =
      (({ ll with heap := Function.update ll.heap a none } : Ll).deleteNodes fuel node.nxt).map fun r =>
        r.map fun r => (a :: r.1, r.2) := by
  conv_lhs => unfold Ll.deleteNodes
  simp only [node_of_heap hnode]

/-- Two additions are kept, but for `end`. -/
theorem Shape.appended (h : Shape cs s) (hfits : 17 + cs < 2 ^ 64)
    (hle : s.added.length ≤ 2) : Appended s := by
  have htotal : ∀ act, LlRule s act → s.ll.addition act ≠ .error .fault := by
    intro act hrule hfault
    rcases h.addition hfits hrule with hexit | ⟨s', hs', -⟩
    · rw [hexit] at hfault
      cases hfault
    · unfold llStep at hs'
      rw [hfault] at hs'
      cases hs'
  have hcells : ∀ a src, (a, some src) ∈ s.added → ∃ node, s.ll.heap a = some node ∧ node.data = src := by
    intro a src hmem
    obtain ⟨node, hnode, -, hsrc⟩ := h.node _ hmem
    exact ⟨node, hnode, hsrc src rfl⟩
  have hnull : ∀ i, s.added.length ≤ i → s.ll.llGet i = .ok none := fun i hi => llGet_null (h.len ▸ hi)
  have hlen := h.len
  have hstart := h.start
  have hnodup := h.nodup
  obtain ⟨ll, added⟩ := s
  match added, hle with
  | [], _ =>
    refine ⟨htotal, hlen, nofun, hnull, hcells, hstart, hnodup, 1, ?_⟩
    unfold Ll.deleteLinkedList
    rw [show ll.start = none from hstart]
    rfl
  | [e], _ =>
    obtain ⟨hnxt, hprv, -⟩ := h.links e [] rfl
    obtain ⟨node, hnode, -⟩ := h.node e List.mem_cons_self
    have hstart' : ll.start = some e.1 := hstart
    have hlast : node.nxt = none := (nxt_of_heap hnode).symm.trans hnxt
    refine ⟨htotal, hlen, fun i x hi => ?_, hnull, hcells, ⟨hstart, hprv, hnxt⟩, hnodup, 2, ?_⟩
    · obtain ⟨hi', rfl⟩ := List.getElem?_eq_some_iff.mp hi
      cases Nat.lt_one_iff.mp hi'
      exact llGet_zero (show 1 ≤ ll.len from Nat.le_of_eq hlen.symm) hstart'
    · unfold Ll.deleteLinkedList
      rw [hstart', deleteNodes_some hnode, hlast]
      rfl
  | [e, f], _ =>
    obtain ⟨hnxt, hprv, hrest⟩ := h.links e [f] rfl
    obtain ⟨hfnxt, hfprv⟩ := hrest f List.mem_cons_self
    obtain ⟨node, hnode, -⟩ := h.node e List.mem_cons_self
    obtain ⟨second, hsecond, -⟩ := h.node f (List.mem_cons_of_mem e List.mem_cons_self)
    have hstart' : ll.start = some e.1 := hstart
    have hlink : node.nxt = some f.1 := (nxt_of_heap hnode).symm.trans hnxt
    have hlast : second.nxt = none := (nxt_of_heap hsecond).symm.trans hfnxt
    refine ⟨htotal, hlen, fun i x hi => ?_, hnull, hcells, ⟨hstart, hprv, hnxt, hfprv, hfnxt⟩, hnodup, 3, ?_⟩
    · obtain ⟨hi', rfl⟩ := List.getElem?_eq_some_iff.mp hi
      have htwo : 2 ≤ ll.len := Nat.le_of_eq hlen.symm
      match i, hi' with
      | 0, _ => exact llGet_zero (Nat.lt_of_succ_lt htwo) hstart'
      | 1, _ => exact llGet_one htwo hstart' hnode hlink
    · have hne : f.1 ≠ e.1 := by
        have hdistinct : [e.1, f.1, ll.addr].Nodup := hnodup
        rw [List.nodup_cons] at hdistinct
        exact fun heq => hdistinct.1 (heq ▸ List.mem_cons_self)
      have hkept : (Function.update ll.heap e.1 none) f.1 = some second :=
        (Function.update_of_ne hne ..).trans hsecond
      unfold Ll.deleteLinkedList
      rw [hstart', deleteNodes_some hnode, hlink, deleteNodes_some hkept, hlast]
      rfl

/-- With a third addition the second node is lost. -/
theorem Shape.le_two (h : Shape cs s) (hlinked : Linked s.ll.nxt s.ll.prv s.ll.start (s.added.map (·.1))) :
    s.added.length ≤ 2 := by
  have hlinks := h.links
  have hnodup := (List.nodup_append.mp h.nodup).1
  obtain ⟨ll, added⟩ := s
  match added with
  | [] => exact Nat.zero_le 2
  | [_] => exact Nat.le_succ 1
  | [_, _] => exact Nat.le_refl 2
  | e :: f :: g :: rest =>
    exfalso
    obtain ⟨-, -, hseg⟩ := hlinked
    have hnext : ll.nxt e.1 = some f.1 := hseg.head
    obtain ⟨hlast, -⟩ := hlinks e (f :: g :: rest) rfl
    have hlast' : ll.nxt e.1 = ((g :: rest).map Prod.fst).getLast? := by
      rw [List.getLast?_map]
      exact hlast
    rw [hlast'] at hnext
    rw [List.map_cons, List.map_cons, List.nodup_cons, List.nodup_cons] at hnodup
    exact hnodup.2.1 (List.mem_of_getLast? hnext)

/-- With a second addition `end` is not the last node. -/
theorem Shape.le_one (h : Shape cs s) (hend : s.ll.endNode = s.added.getLast?.map (·.1)) :
    s.added.length ≤ 1 := by
  have hfirst := h.endNode
  have hnodup := (List.nodup_append.mp h.nodup).1
  obtain ⟨ll, added⟩ := s
  match added with
  | [] => exact Nat.zero_le 1
  | [_] => exact Nat.le_refl 1
  | e :: f :: rest =>
    exfalso
    have hlast : ((f :: rest).map Prod.fst).getLast? = some e.1 := by
      rw [List.getLast?_map]
      exact hend.symm.trans hfirst
    rw [List.map_cons, List.nodup_cons] at hnodup
    exact hnodup.1 (List.mem_of_getLast? hlast)

/-- What the calls show is right for two additions, and no more. -/
theorem appended_iff (hword : cs < 2 ^ 64) (hnew : newLinkedList cs host = .ok (some ll))
    (hreach : Reaches llStep LlRule ⟨ll, []⟩ s) :
    Appended s ↔ 17 + cs < 2 ^ 64 ∧ s.added.length ≤ 2 := by
  obtain ⟨hshape, hor⟩ := shape_reach hword hnew hreach
  refine ⟨fun h => ⟨?_, hshape.le_two h.linked⟩, fun h => hshape.appended h.1 h.2⟩
  rcases hor with hfits | rfl
  · exact hfits
  · by_contra hwraps
    obtain ⟨act, hrule, hfault⟩ := total_of_wraps hnew hword hwraps
    exact h.total act hrule hfault

/-- **The linked list keeps what is appended** in a run of additions if and only if a node's size fits a word
and there is at most one addition: `ll_next` leaves `end` at the first node. -/
theorem linked_list_keeps (hword : cs < 2 ^ 64) (hnew : newLinkedList cs host = .ok (some ll))
    (hreach : Reaches llStep LlRule ⟨ll, []⟩ s) :
    ListOk s ↔ 17 + cs < 2 ^ 64 ∧ s.added.length ≤ 1 := by
  have hiff := appended_iff hword hnew hreach
  obtain ⟨hshape, -⟩ := shape_reach hword hnew hreach
  constructor
  · intro h
    exact ⟨(hiff.mp h.toAppended).1, hshape.le_one h.endLast⟩
  · rintro ⟨hfits, hle⟩
    refine ⟨hiff.mpr ⟨hfits, Nat.le_succ_of_le hle⟩, ?_⟩
    rw [hshape.endNode]
    match hadded : s.added, hle with
    | [], _ => rfl
    | [e], _ => rfl

/-- One cell of two bytes is kept. -/
theorem linked_list_keeps_one : ∃ ll s, newLinkedList 2 (hostAt 8) = .ok (some ll) ∧
    s.added = [(65, some [1, 2])] ∧ ListOk s := by
  obtain ⟨ll, s, hnew, hadd, hadded, hsize, haddr, hheap⟩ : ∃ ll s,
    newLinkedList 2 (hostAt 8) = .ok (some ll) ∧
      llStep ⟨ll, []⟩ (.add [1, 2] (hostAt 64)) = some s ∧ s.added = [(65, some [1, 2])] ∧ ll.cellSize = 2 ∧
      ll.addr = 9 ∧ ll.heap 65 = none := ⟨_, _, rfl, rfl, rfl, rfl, rfl, rfl⟩
  have hrule : LlRule ⟨ll, []⟩ (.add [1, 2] (hostAt 64)) := by
    refine ⟨hsize.symm, hostOk_hostAt (by decide) ?_⟩
    rintro (heq | hused)
    · rw [haddr] at heq
      exact absurd heq (by decide)
    · rw [hheap] at hused
      cases hused
  have hreach : Reaches llStep LlRule ⟨ll, []⟩ s := (Reaches.refl _).snoc hrule hadd
  have hkeeps := (linked_list_keeps (by decide) hnew hreach).mpr ⟨by decide, by rw [hadded]; decide⟩
  exact ⟨ll, s, hnew, hadded, hkeeps⟩

/-- Of three cells of one byte the second is lost: `ll_get(1)` is the third cell, `ll_get(2)` is no cell, and
`delete_linked_list` does not free the second node. -/
theorem second_cell_lost : ∃ ll s, newLinkedList 1 (hostAt 8) = .ok (some ll) ∧
    Reaches llStep LlRule ⟨ll, []⟩ s ∧ s.added = [(65, some [1]), (129, some [2]), (257, some [3])] ∧
    s.ll.llGet 1 = .ok (some (257 + llNodeHeaderSize)) ∧ s.ll.llGet 2 = .ok (some llNodeHeaderSize) ∧
    s.ll.deleteLinkedList 9 = some (.ok [65, 257, 9]) ∧ ¬ ListOk s := by
  obtain ⟨ll, s₁, s₂, s, hnew, h₁, h₂, h₃, hadded, hget₁, hget₂, hdelete, hfree, hfree₁, hfree₂⟩ :
    ∃ ll s₁ s₂ s,
      newLinkedList 1 (hostAt 8) = .ok (some ll) ∧
      llStep ⟨ll, []⟩ (.add [1] (hostAt 64)) = some s₁ ∧ llStep s₁ (.add [2] (hostAt 128)) = some s₂ ∧
      llStep s₂ (.add [3] (hostAt 256)) = some s ∧
      s.added = [(65, some [1]), (129, some [2]), (257, some [3])] ∧
      s.ll.llGet 1 = .ok (some (257 + llNodeHeaderSize)) ∧ s.ll.llGet 2 = .ok (some llNodeHeaderSize) ∧
      s.ll.deleteLinkedList 9 = some (.ok [65, 257, 9]) ∧
      (ll.cellSize = 1 ∧ ll.addr = 9 ∧ ll.heap 65 = none) ∧
      (s₁.ll.cellSize = 1 ∧ s₁.ll.addr = 9 ∧ s₁.ll.heap 129 = none) ∧
      (s₂.ll.cellSize = 1 ∧ s₂.ll.addr = 9 ∧ s₂.ll.heap 257 = none) :=
    ⟨_, _, _, _, rfl, rfl, rfl, rfl, rfl, rfl, rfl, rfl, ⟨rfl, rfl, rfl⟩, ⟨rfl, rfl, rfl⟩, ⟨rfl, rfl, rfl⟩⟩
  have hrule : ∀ (s : LlRun) (raw : Nat) (b : UInt8), 0 < raw ∧ raw < 2 ^ 64 ∧ raw + 1 ≠ 9 →
      s.ll.cellSize = 1 ∧ s.ll.addr = 9 ∧ s.ll.heap (raw + 1) = none → LlRule s (.add [b] (hostAt raw)) := by
    intro s raw b hraw hs
    refine ⟨hs.1.symm, hostOk_hostAt ⟨hraw.1, hraw.2.1⟩ ?_⟩
    rintro (heq | hused)
    · rw [hs.2.1] at heq
      exact hraw.2.2 heq
    · rw [hs.2.2] at hused
      cases hused
  have hreach : Reaches llStep LlRule ⟨ll, []⟩ s :=
    (((Reaches.refl _).snoc (hrule _ 64 1 (by decide) hfree) h₁).snoc
      (hrule _ 128 2 (by decide) hfree₁) h₂).snoc
      (hrule _ 256 3 (by decide) hfree₂) h₃
  refine ⟨ll, s, hnew, hreach, hadded, hget₁, hget₂, hdelete, fun hok => ?_⟩
  have hsecond := hok.get 1 (129, some [2]) (by rw [hadded]; rfl)
  rw [hget₁] at hsecond
  cases hsecond

end Chvm.Util
