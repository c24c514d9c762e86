import Mathlib.Data.List.Nodup

/-!
# Walks over what changes

A walk looks at one region after another of a collection that others change while it goes on. What it finds
is of no single time, but nothing is found twice, all that is found was there at one of the times of the
walk, and what was there at all of them is found.
-/

set_option autoImplicit false

namespace Chvm.Lib

variable {σ κ β : Type*}

/-- What a walk has found in a region, at these times: `live` is to be found, `holds` is what may be. -/
structure Walk (key : β → κ) (live : σ → κ → Prop) (holds : σ → β → Prop) (region : κ → Prop)
    (times : List σ) (found : List β) : Prop where
  nodup : (found.map key).Nodup
  inside : ∀ x ∈ found, region (key x)
  sound : ∀ x ∈ found, ∃ s ∈ times, holds s x
  complete : ∀ k, region k → (∀ s ∈ times, live s k) → k ∈ found.map key

variable {key : β → κ} {live : σ → κ → Prop} {holds : σ → β → Prop} {region region' : κ → Prop}
  {times : List σ} {found found' : List β} {s : σ}

theorem walk_start (hempty : ∀ k, ¬ region k) : Walk key live holds region times [] :=
  ⟨List.nodup_nil, fun _ hx => absurd hx List.not_mem_nil, fun _ hx => absurd hx List.not_mem_nil,
    fun k hk => absurd hk (hempty k)⟩

/-- The walk waits while others work. -/
theorem Walk.later (h : Walk key live holds region times found) (s : σ) :
    Walk key live holds region (times ++ [s]) found := by
  refine ⟨h.nodup, h.inside, fun x hx => ?_, fun k hk hlive => ?_⟩
  · obtain ⟨m, hm, hholds⟩ := h.sound x hx
    exact ⟨m, List.mem_append_left _ hm, hholds⟩
  · exact h.complete k hk fun m hm => hlive m (List.mem_append_left _ hm)

/-- **A visit**: the walk looks at one more part of the collection. -/
theorem Walk.visit (h : Walk key live holds region times found) (part : κ → Prop)
    (hregion : ∀ k, region' k ↔ region k ∨ part k) (hdisjoint : ∀ k, region k → ¬ part k)
    (hnodup : (found'.map key).Nodup) (hpart : ∀ x ∈ found', part (key x)) (hholds : ∀ x ∈ found', holds s x)
    (hlive : ∀ k, part k → live s k → k ∈ found'.map key) :
    Walk key live holds region' (times ++ [s]) (found ++ found') := by
  refine ⟨?_, fun x hx => ?_, fun x hx => ?_, fun k hk hall => ?_⟩
  · rw [List.map_append]
    refine List.nodup_append'.mpr ⟨h.nodup, hnodup, fun k hk hk' => ?_⟩
    obtain ⟨x, hx, rfl⟩ := List.mem_map.mp hk
    obtain ⟨y, hy, heq⟩ := List.mem_map.mp hk'
    exact hdisjoint _ (h.inside x hx) (heq ▸ hpart y hy)
  · rcases List.mem_append.mp hx with hx | hx
    · exact (hregion _).mpr (.inl (h.inside x hx))
    · exact (hregion _).mpr (.inr (hpart x hx))
  · rcases List.mem_append.mp hx with hx | hx
    · obtain ⟨m, hm, hm'⟩ := h.sound x hx
      exact ⟨m, List.mem_append_left _ hm, hm'⟩
    · exact ⟨s, List.mem_append_right _ (List.mem_singleton_self s), hholds x hx⟩
  · rw [List.map_append]
    rcases (hregion k).mp hk with hk | hk
    · exact List.mem_append_left _ (h.complete k hk fun m hm => hall m (List.mem_append_left _ hm))
    · have hnow := hall s (List.mem_append_right _ (List.mem_singleton_self s))
      exact List.mem_append_right _ (hlive k hk hnow)

/-- A visit of a part in which there is nothing. -/
theorem Walk.skip (h : Walk key live holds region times found) (part : κ → Prop)
    (hregion : ∀ k, region' k ↔ region k ∨ part k) (hlive : ∀ k, part k → ¬ live s k) :
    Walk key live holds region' (times ++ [s]) found := by
  have hlater := h.later s
  refine ⟨h.nodup, fun x hx => (hregion _).mpr (.inl (h.inside x hx)), hlater.sound, fun k hk hall => ?_⟩
  rcases (hregion k).mp hk with hk | hk
  · exact hlater.complete k hk hall
  · exact absurd (hall s (List.mem_append_right _ (List.mem_singleton_self s))) (hlive k hk)

end Chvm.Lib
