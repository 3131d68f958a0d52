import Mathlib.Algebra.Order.Floor.Div
import Mathlib.Order.Bounds.Basic
import Mathlib.Order.Interval.Set.LinearOrder

/-!
# Rounding intervals to a grid

The grid has cells of size `d`: cell `p` is `[p * d, (p + 1) * d)`. An interval is rounded
outwards to the cells that meet it and inwards to those that lie in it. Both ends of either
are a quotient, rounded down or up.

* `sub_one_div_add_one`: the quotient rounded up, without its own operation.
* `outer_isLeast`, `inner_isGreatest`: extremal among all runs of cells.
* `exists_cell_iff`: when a whole cell fits.
-/

namespace Grid

variable {d lo hi b e : Nat}

/-- The cells from `b` to `e`. -/
def run (d b e : Nat) : Set Nat := Set.Ico (b * d) (e * d)

/-- A union of neighbouring cells. -/
def IsRun (d : Nat) (s : Set Nat) : Prop := ∃ b e, s = run d b e

theorem sub_one_div_add_one {x : Nat} (hd : 0 < d) (hx : 0 < x) :
    (x - 1) / d + 1 = x ⌈/⌉ d := by
  rw [Nat.ceilDiv_eq_add_pred_div, ← Nat.add_div_right _ hd]
  congr 1
  omega

theorem ceilDiv_le_iff {x q : Nat} (hd : 0 < d) : x ⌈/⌉ d ≤ q ↔ x ≤ q * d := by
  rw [ceilDiv_le_iff_le_mul hd, Nat.mul_comm]

theorem le_ceilDiv_mul {x : Nat} (hd : 0 < d) : x ≤ x ⌈/⌉ d * d :=
  (ceilDiv_le_iff hd).mp (Nat.le_refl _)

/-- A multiple is its own quotient, rounded up. -/
theorem mul_ceilDiv {q : Nat} (hd : 0 < d) : q * d ⌈/⌉ d = q := by
  rw [Nat.mul_comm, ← smul_eq_mul]
  exact smul_ceilDiv hd q

/-- The outer cells are the smallest run that covers the interval. -/
theorem outer_isLeast (hd : 0 < d) (h : lo < hi) :
    IsLeast {s | IsRun d s ∧ Set.Ico lo hi ⊆ s} (run d (lo / d) (hi ⌈/⌉ d)) := by
  refine ⟨⟨⟨_, _, rfl⟩, Set.Ico_subset_Ico (Nat.div_mul_le_self lo d) (le_ceilDiv_mul hd)⟩, ?_⟩
  rintro _ ⟨⟨b, e, rfl⟩, hsub⟩
  obtain ⟨hb, he⟩ := (Set.Ico_subset_Ico_iff h).mp hsub
  refine Set.Ico_subset_Ico (Nat.mul_le_mul_right d ?_) (Nat.mul_le_mul_right d ?_)
  · exact (Nat.le_div_iff_mul_le hd).mpr hb
  · exact (ceilDiv_le_iff hd).mpr he

/-- The inner cells are the largest run inside the interval. -/
theorem inner_isGreatest (hd : 0 < d) :
    IsGreatest {s | IsRun d s ∧ s ⊆ Set.Ico lo hi} (run d (lo ⌈/⌉ d) (hi / d)) := by
  refine ⟨⟨⟨_, _, rfl⟩, Set.Ico_subset_Ico (le_ceilDiv_mul hd) (Nat.div_mul_le_self hi d)⟩, ?_⟩
  rintro _ ⟨⟨b, e, rfl⟩, hsub⟩
  by_cases hlt : b * d < e * d
  · obtain ⟨hb, he⟩ := (Set.Ico_subset_Ico_iff hlt).mp hsub
    refine Set.Ico_subset_Ico (Nat.mul_le_mul_right d ?_) (Nat.mul_le_mul_right d ?_)
    · exact (ceilDiv_le_iff hd).mpr hb
    · exact (Nat.le_div_iff_mul_le hd).mpr he
  · rw [run, Set.Ico_eq_empty hlt]
    exact Set.empty_subset _

/-- A whole cell fits exactly when the inner ends have not crossed. -/
theorem exists_cell_iff (hd : 0 < d) :
    (∃ p, run d p (p + 1) ⊆ Set.Ico lo hi) ↔ lo ⌈/⌉ d < hi / d := by
  have hcell : ∀ p, run d p (p + 1) ⊆ Set.Ico lo hi ↔ lo ⌈/⌉ d ≤ p ∧ p + 1 ≤ hi / d := by
    intro p
    rw [run, Set.Ico_subset_Ico_iff (by rw [Nat.succ_mul]; omega), ceilDiv_le_iff hd,
      Nat.le_div_iff_mul_le hd]
  constructor
  · rintro ⟨p, hp⟩
    obtain ⟨hlo, hhi⟩ := (hcell p).mp hp
    exact Nat.lt_of_le_of_lt hlo hhi
  · exact fun h => ⟨lo ⌈/⌉ d, (hcell _).mpr ⟨Nat.le_refl _, h⟩⟩

end Grid
