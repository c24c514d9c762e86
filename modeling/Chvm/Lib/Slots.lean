import Mathlib.Data.List.Basic

/-!
# Counting what the threads hold

The threads of a system are a list of local states, and a partial function says what a thread in a
local state holds. A step changes one entry of the list; it takes away what the old entry held and
adds what the new one holds.
-/

set_option autoImplicit false

namespace Chvm.Lib

variable {α β : Type*}

/-- What all threads hold. -/
def held (f : α → Option β) (ts : List α) : List β := ts.filterMap f

theorem set_split {ts : List α} {t : Nat} {old : α} (h : ts[t]? = some old) (new : α) :
    ∃ front back, ts = front ++ old :: back ∧ ts.set t new = front ++ new :: back := by
  induction ts generalizing t with
  | nil => cases h
  | cons a ts ih =>
    cases t with
    | zero =>
      cases h
      exact ⟨[], ts, rfl, rfl⟩
    | succ t =>
      obtain ⟨front, back, hts, hset⟩ := ih h
      exact ⟨a :: front, back, congrArg (a :: ·) hts, congrArg (a :: ·) hset⟩

/-- **One thread moves**: the count changes by what it held and what it holds. -/
theorem count_held_set [DecidableEq β] {f : α → Option β} {ts : List α} {t : Nat} {old : α}
    (h : ts[t]? = some old) (new : α) (b : β) :
    (held f (ts.set t new)).count b + (f old).toList.count b =
      (held f ts).count b + (f new).toList.count b := by
  obtain ⟨front, back, hts, hset⟩ := set_split h new
  have hcons : ∀ a : α, (a :: back).filterMap f = (f a).toList ++ back.filterMap f := by
    intro a
    cases ha : f a with
    | none => rw [List.filterMap_cons_none ha]; rfl
    | some b => rw [List.filterMap_cons_some ha]; rfl
  have hold : (held f ts).count b = _ := congrArg (fun l => (held f l).count b) hts
  have hnew : (held f (ts.set t new)).count b = _ := congrArg (fun l => (held f l).count b) hset
  rw [hold, hnew]
  simp only [held, List.filterMap_append, hcons, List.count_append]
  omega

theorem mem_held {f : α → Option β} {ts : List α} {b : β} :
    b ∈ held f ts ↔ ∃ a ∈ ts, f a = some b :=
  List.mem_filterMap

theorem mem_held_of_get {f : α → Option β} {ts : List α} {t : Nat} {a : α} {b : β}
    (h : ts[t]? = some a) (hb : f a = some b) : b ∈ held f ts :=
  mem_held.mpr ⟨a, List.mem_of_getElem? h, hb⟩

/-- A predicate of one thread survives another's move. -/
theorem exists_mem_set {p : α → Prop} {ts : List α} {t : Nat} {old new : α}
    (h : ts[t]? = some old) (hex : ∃ a ∈ ts, p a) (hkeep : p old → p new) :
    ∃ a ∈ ts.set t new, p a := by
  obtain ⟨front, back, hts, hset⟩ := set_split h new
  obtain ⟨a, ha, hp⟩ := hex
  rw [hts] at ha
  rw [hset]
  rcases List.mem_append.mp ha with ha | ha
  · exact ⟨a, List.mem_append_left _ ha, hp⟩
  · rcases List.mem_cons.mp ha with rfl | ha
    · exact ⟨new, List.mem_append_right _ List.mem_cons_self, hkeep hp⟩
    · exact ⟨a, List.mem_append_right _ (List.mem_cons_of_mem _ ha), hp⟩

/-- What is held stays held, but for what the moving thread lets go. -/
theorem mem_held_set {f : α → Option β} {ts : List α} {t : Nat} {old : α} {b : β}
    (h : ts[t]? = some old) (new : α) (hb : b ∈ held f ts) :
    b ∈ held f (ts.set t new) ∨ f old = some b := by
  by_cases hold : f old = some b
  · exact .inr hold
  · exact .inl (mem_held.mpr (exists_mem_set h (mem_held.mp hb) fun h' => absurd h' hold))

theorem mem_set_of_get {ts : List α} {t : Nat} {old : α} (h : ts[t]? = some old) (new : α) :
    new ∈ ts.set t new := by
  obtain ⟨front, back, -, hset⟩ := set_split h new
  rw [hset]
  exact List.mem_append_right _ List.mem_cons_self

end Chvm.Lib
