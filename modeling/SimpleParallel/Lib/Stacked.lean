import Mathlib.Data.List.Pairwise
import Mathlib.Data.Nat.Basic

/-!
# Spans handed out by a bump pointer

`Stacked lo hi step spans`: the non-empty spans `(lo, hi)` lie one after the other
between `lo` and `hi`, each at a multiple of `step` from `lo`. A bump pointer at `hi`
hands out the next span at or behind `hi`.

* `Stacked.push`: it may skip some steps before it does.
* `Stacked.disjoint`, `Stacked.increasing`: what the clients get.
-/

namespace SimpleParallel

structure Stacked (lo hi step : Nat) (spans : List (Nat × Nat)) : Prop where
  ordered : spans.Pairwise fun s t => s.2 ≤ t.1
  nonempty : ∀ s ∈ spans, s.1 < s.2
  bounds : ∀ s ∈ spans, lo ≤ s.1 ∧ s.2 ≤ hi
  aligned : ∀ s ∈ spans, step ∣ s.1 - lo

namespace Stacked

variable {lo hi hi' step : Nat} {spans : List (Nat × Nat)}

theorem nil (lo hi step : Nat) : Stacked lo hi step [] where
  ordered := .nil
  nonempty _ h := by cases h
  bounds _ h := by cases h
  aligned _ h := by cases h

theorem mono (h : Stacked lo hi step spans) (hle : hi ≤ hi') : Stacked lo hi' step spans :=
  { h with bounds := fun s hs => (h.bounds s hs).imp_right fun hs => Nat.le_trans hs hle }

theorem push (span : Nat × Nat) (h : Stacked lo hi step spans) (hlo : lo ≤ hi) (hle : hi ≤ span.1)
    (hlt : span.1 < span.2) (hdvd : step ∣ span.1 - lo) :
    Stacked lo span.2 step (spans ++ [span]) := by
  have hold : ∀ s ∈ spans, s.2 ≤ span.1 := fun s hs => Nat.le_trans (h.bounds s hs).2 hle
  refine
    { ordered := List.pairwise_append.mpr ⟨h.ordered, List.pairwise_singleton _ _, ?_⟩
      nonempty := ?_
      bounds := ?_
      aligned := ?_ }
  · intro s hs t ht
    rw [List.mem_singleton.mp ht]
    exact hold s hs
  all_goals
    intro s hs
    rcases List.mem_append.mp hs with hs | hs
  · exact h.nonempty s hs
  · rwa [List.mem_singleton.mp hs]
  · exact ⟨(h.bounds s hs).1, Nat.le_trans (hold s hs) (Nat.le_of_lt hlt)⟩
  · rw [List.mem_singleton.mp hs]
    exact ⟨Nat.le_trans hlo hle, Nat.le_refl _⟩
  · exact h.aligned s hs
  · rwa [List.mem_singleton.mp hs]

/-- No two spans share a number. -/
theorem disjoint (h : Stacked lo hi step spans) :
    spans.Pairwise fun s t => ∀ x, ¬ ((s.1 ≤ x ∧ x < s.2) ∧ t.1 ≤ x ∧ x < t.2) :=
  h.ordered.imp fun hst x hx => by omega

theorem increasing (h : Stacked lo hi step spans) : spans.Pairwise fun s t => s.1 < t.1 :=
  h.ordered.imp_of_mem fun hs _ hst => Nat.lt_of_lt_of_le (h.nonempty _ hs) hst

end Stacked

end SimpleParallel
