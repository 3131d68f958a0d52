import Mathlib.Algebra.GroupWithZero.Nat
import Mathlib.Algebra.BigOperators.Group.Finset.Basic
import Mathlib.Algebra.Order.BigOperators.Group.Finset
import Mathlib.Algebra.Order.BigOperators.Group.List

/-!
# Sums over the members of a team

A team has members `0 .. n-1`, each in a state with a weight. `tally w n f` is the weight of the
team: with weights 0 and 1 the number of members that are still in some phase, with a rank
of each phase a measure of what the team has still to do.

* `tally_update`: one member goes to another state.
* `tally_lt`: all members go to states of less weight.
* `sum_update_lt`: one member of a list goes to a state of less weight.
-/

namespace Tally

variable {σ : Type*} {w : σ → Nat} {n i : Nat} {f g : Nat → σ} {a : σ}

def tally (w : σ → Nat) (n : Nat) (f : Nat → σ) : Nat := ∑ i ∈ Finset.range n, w (f i)

theorem tally_eq_zero : tally w n f = 0 ↔ ∀ i < n, w (f i) = 0 := by
  simp only [tally, Finset.sum_eq_zero_iff, Finset.mem_range]

theorem tally_pos (hi : i < n) (h : 0 < w (f i)) : 0 < tally w n f :=
  Nat.pos_of_ne_zero fun hzero => Nat.ne_of_gt h (tally_eq_zero.mp hzero i hi)

theorem tally_of_eq_one (h : ∀ i < n, w (f i) = 1) : tally w n f = n := by
  rw [tally, Finset.sum_const_nat fun i hi => h i (Finset.mem_range.mp hi), Finset.card_range,
    Nat.mul_one]

theorem tally_update (hi : i < n) :
    tally w n (Function.update f i a) + w (f i) = tally w n f + w a := by
  have hmem : i ∈ Finset.range n := Finset.mem_range.mpr hi
  have hrest : ∑ j ∈ (Finset.range n).erase i, w (Function.update f i a j) =
      ∑ j ∈ (Finset.range n).erase i, w (f j) :=
    Finset.sum_congr rfl fun j hj => by rw [Function.update_of_ne (Finset.ne_of_mem_erase hj)]
  rw [tally, tally, ← Finset.add_sum_erase _ _ hmem, hrest, ← Finset.add_sum_erase _ _ hmem,
    Function.update_self]
  omega

theorem tally_lt (hn : 0 < n) (h : ∀ i < n, w (g i) < w (f i)) : tally w n g < tally w n f :=
  Finset.sum_lt_sum_of_nonempty (Finset.nonempty_range_iff.mpr (Nat.ne_of_gt hn))
    fun i hi => h i (Finset.mem_range.mp hi)

theorem sum_update_lt {κ : Type*} [DecidableEq κ] {l : List κ} {m : κ} {f : κ → σ} (hm : m ∈ l)
    (h : w a < w (f m)) :
    (l.map fun k => w (Function.update f m a k)).sum < (l.map fun k => w (f k)).sum := by
  refine List.sum_lt_sum _ _ (fun k _ => ?_) ⟨m, hm, ?_⟩
  · by_cases hk : k = m
    · subst hk
      rw [Function.update_self]
      exact Nat.le_of_lt h
    · rw [Function.update_of_ne hk]
  · rw [Function.update_self]
    exact h

end Tally
