import Mathlib.Data.List.Basic
import Mathlib.Data.List.Range
import SimpleParallel.Lib.Grid

/-!
# Cutting a range into spans

A `Cut` says how much to cut off when `r` are left. `spans` cuts until nothing is
left: the spans `(lo, hi)` end to end are the range.

* `length_spans_le`, `spans_tiles`, `flatMap_spans`, `mem_spans`: there are no more
  spans than elements, each begins where the one before ended, they cover the range
  in order, and each has the size the rule gives.
* `spans_pairwise`: under a monotone rule the spans never grow.
* `guided` is the rule of guided self-scheduling: a share of what is left, at
  least the grain. `length_guided_le`, `mul_length_guided_le`: it takes a number of spans
  for each halving of the range, and no more than the grain allows.
-/

namespace SimpleParallel

/-- Non-empty spans, each from where the last one ended, that lead from `lo` to
`hi`. -/
def Tiles {α : Type*} [LT α] (lo hi : α) : List (α × α) → Prop
  | [] => lo = hi
  | span :: rest => span.1 = lo ∧ span.1 < span.2 ∧ Tiles span.2 hi rest

/-- A rule for cutting: something, and no more than there is. -/
structure Cut where
  size : Nat → Nat
  pos {r : Nat} : 0 < r → 0 < size r
  le (r : Nat) : size r ≤ r

namespace Cut

/-- The spans cut from the `r` numbers starting at `lo`. -/
def spans (cut : Cut) (lo r : Nat) : List (Nat × Nat) :=
  if r = 0 then []
  else (lo, lo + cut.size r) :: spans cut (lo + cut.size r) (r - cut.size r)
termination_by r
decreasing_by
  have hpos : 0 < r := Nat.pos_of_ne_zero ‹_›
  exact Nat.sub_lt hpos (cut.pos hpos)

variable {cut : Cut} {lo r : Nat}

theorem spans_zero : cut.spans lo 0 = [] := by
  rw [spans, if_pos rfl]

theorem spans_pos (h : r ≠ 0) : cut.spans lo r =
    (lo, lo + cut.size r) :: cut.spans (lo + cut.size r) (r - cut.size r) := by
  rw [spans, if_neg h]

theorem spans_eq_nil : cut.spans lo r = [] ↔ r = 0 := by
  by_cases h : r = 0
  · simp [h, spans_zero]
  · simp [spans_pos h, h]

theorem length_spans_le (cut : Cut) (lo r : Nat) : (cut.spans lo r).length ≤ r := by
  induction lo, r using spans.induct cut with
  | case1 lo => rw [spans_zero, List.length_nil]
  | case2 lo r h ih =>
    have hpos := cut.pos (Nat.pos_of_ne_zero h)
    rw [spans_pos h, List.length_cons]
    omega

theorem spans_tiles (cut : Cut) (lo r : Nat) : Tiles lo (lo + r) (cut.spans lo r) := by
  induction lo, r using spans.induct cut with
  | case1 lo => rw [spans_zero]; rfl
  | case2 lo r h ih =>
    have hle := cut.le r
    have hrest : lo + cut.size r + (r - cut.size r) = lo + r := by omega
    rw [spans_pos h]
    exact ⟨rfl, Nat.lt_add_of_pos_right (cut.pos (Nat.pos_of_ne_zero h)), hrest ▸ ih⟩

/-- The spans end to end are the range. -/
theorem flatMap_spans (cut : Cut) (lo r : Nat) :
    (cut.spans lo r).flatMap (fun span => List.range' span.1 (span.2 - span.1)) =
      List.range' lo r := by
  induction lo, r using spans.induct cut with
  | case1 lo => rw [spans_zero]; rfl
  | case2 lo r h ih =>
    have hle := cut.le r
    rw [spans_pos h, List.flatMap_cons, ih]
    show List.range' lo (lo + cut.size r - lo) ++ List.range' (lo + cut.size r) _ = _
    rw [Nat.add_sub_cancel_left, List.range'_append_1, Nat.add_sub_cancel' hle]

/-- A span lies in the range, and has the size of what was left where it begins. -/
theorem mem_spans {span : Nat × Nat} (h : span ∈ cut.spans lo r) :
    lo ≤ span.1 ∧ span.1 < span.2 ∧ span.2 ≤ lo + r ∧
      span.2 - span.1 = cut.size (lo + r - span.1) := by
  induction lo, r using spans.induct cut with
  | case1 lo => rw [spans_zero] at h; cases h
  | case2 lo r hr ih =>
    have hpos := cut.pos (Nat.pos_of_ne_zero hr)
    have hle := cut.le r
    rw [spans_pos hr, List.mem_cons] at h
    rcases h with rfl | h
    · exact ⟨Nat.le_refl lo, by omega, by omega, by simp⟩
    · have hrest : lo + cut.size r + (r - cut.size r) = lo + r := by omega
      obtain ⟨hlo, hlt, hhi, hsize⟩ := ih h
      rw [hrest] at hhi hsize
      exact ⟨by omega, hlt, hhi, hsize⟩

/-- Only the last span reaches the end of the range. -/
theorem mem_dropLast_spans {span : Nat × Nat} (h : span ∈ (cut.spans lo r).dropLast) :
    span.2 < lo + r := by
  induction lo, r using spans.induct cut with
  | case1 lo => rw [spans_zero] at h; cases h
  | case2 lo r hr ih =>
    have hle := cut.le r
    have hrest : lo + cut.size r + (r - cut.size r) = lo + r := by omega
    rw [spans_pos hr] at h
    by_cases hnil : cut.spans (lo + cut.size r) (r - cut.size r) = []
    · rw [hnil] at h
      cases h
    · rw [List.dropLast_cons_of_ne_nil hnil, List.mem_cons] at h
      rcases h with rfl | h
      · have := mt spans_eq_nil.mpr hnil
        show lo + cut.size r < lo + r
        omega
      · exact hrest ▸ ih h

/-- Under a monotone rule no span is longer than one before it. -/
theorem spans_pairwise (hmono : Monotone cut.size) (lo r : Nat) :
    (cut.spans lo r).Pairwise fun span span' => span'.2 - span'.1 ≤ span.2 - span.1 := by
  induction lo, r using spans.induct cut with
  | case1 lo => rw [spans_zero]; exact List.Pairwise.nil
  | case2 lo r h ih =>
    rw [spans_pos h]
    refine List.Pairwise.cons (fun span hspan => ?_) ih
    obtain ⟨hlo, -, -, hsize⟩ := mem_spans hspan
    have hle := cut.le r
    rw [hsize, Nat.add_sub_cancel_left]
    exact hmono (by omega)

/-! ## Guided self-scheduling -/

/-- The share of one of `count` takers, rounded up, but at least `grain`. -/
def guided (grain count : Nat) : Cut where
  size r := min (max ((r - 1) / count + 1) grain) r
  pos h := by
    rw [Nat.lt_min]
    exact ⟨Nat.lt_of_lt_of_le (Nat.succ_pos _) (Nat.le_max_left _ _), h⟩
  le _ := Nat.min_le_right _ _

variable {grain count : Nat}

theorem guided_size (r : Nat) :
    (guided grain count).size r = min (max ((r - 1) / count + 1) grain) r := rfl

theorem guided_mono : Monotone (guided grain count).size := by
  intro r r' h
  have hshare : (r - 1) / count ≤ (r' - 1) / count :=
    Nat.div_le_div_right (Nat.sub_le_sub_right h 1)
  rw [guided_size, guided_size]
  omega

theorem ceilDiv_le_guided (hcount : 0 < count) (hr : 0 < r) :
    r ⌈/⌉ count ≤ (guided grain count).size r := by
  have hle : (r - 1) / count ≤ r - 1 := Nat.div_le_self _ _
  rw [← Grid.sub_one_div_add_one hcount hr, guided_size]
  omega

theorem guided_le (hcount : 0 < count) (hr : 0 < r) :
    (guided grain count).size r ≤ max (r ⌈/⌉ count) grain := by
  rw [← Grid.sub_one_div_add_one hcount hr]
  exact Nat.min_le_left _ _

/-- A piece that leaves something is no smaller than the grain. -/
theorem grain_le_guided (h : (guided grain count).size r < r) :
    grain ≤ (guided grain count).size r := by
  rw [guided_size] at h ⊢
  omega

/-- A single taker gets everything at once. -/
theorem guided_one (hr : 0 < r) : (guided grain 1).size r = r := by
  rw [guided_size, Nat.div_one]
  omega

/-! ### How many spans -/

/-- What is left after `k` cuts. -/
def rest (cut : Cut) (r : Nat) : Nat → Nat
  | 0 => r
  | k + 1 => cut.rest r k - cut.size (cut.rest r k)

/-- The spans after the first `k`. -/
theorem length_spans_rest (cut : Cut) (lo r k : Nat) :
    ∃ lo', (cut.spans lo r).length ≤ k + (cut.spans lo' (cut.rest r k)).length := by
  induction k with
  | zero => exact ⟨lo, Nat.le_of_eq (Nat.zero_add _).symm⟩
  | succ k ih =>
    obtain ⟨lo', hlen⟩ := ih
    rcases Nat.eq_zero_or_pos (cut.rest r k) with hz | hpos
    · rw [hz, spans_zero] at hlen
      exact ⟨lo', Nat.le_trans hlen (Nat.add_le_add (Nat.le_succ k) (Nat.zero_le _))⟩
    · rw [spans_pos (Nat.ne_of_gt hpos), List.length_cons] at hlen
      refine ⟨lo' + cut.size (cut.rest r k), ?_⟩
      show _ ≤ k + 1 + (cut.spans _ (cut.rest r k - cut.size (cut.rest r k))).length
      rwa [Nat.add_right_comm]

theorem le_count_mul_guided (hcount : 0 < count) (r : Nat) :
    r ≤ count * (guided grain count).size r := by
  rcases Nat.eq_zero_or_pos r with rfl | hpos
  · exact Nat.zero_le _
  · calc r ≤ count * (r ⌈/⌉ count) := le_smul_ceilDiv hcount
      _ ≤ _ := Nat.mul_le_mul_left _ (ceilDiv_le_guided hcount hpos)

/-- As many cuts as there are takers halve the range: each of them takes its share of more
than half of it, as long as more is left. -/
theorem rest_guided_half (hcount : 0 < count) (r : Nat) :
    2 * (guided grain count).rest r count ≤ r := by
  have main : ∀ k, 2 * count * (guided grain count).rest r k + k * r ≤ 2 * count * r ∨
      2 * (guided grain count).rest r k ≤ r := by
    intro k
    induction k with
    | zero => exact .inl (by simp [rest])
    | succ k ih =>
      have hle := (guided grain count).le ((guided grain count).rest r k)
      have hshare : _ ≤ count * (guided grain count).size ((guided grain count).rest r k) :=
        le_count_mul_guided hcount _
      show 2 * count * ((guided grain count).rest r k - _) + (k + 1) * r ≤ _ ∨
        2 * ((guided grain count).rest r k - _) ≤ r
      rcases ih with ih | ih
      · rcases Nat.le_total (2 * (guided grain count).rest r k) r with hhalf | hhalf
        · exact .inr (Nat.le_trans (Nat.mul_le_mul_left 2 (Nat.sub_le _ _)) hhalf)
        · refine .inl ?_
          rw [Nat.mul_sub, Nat.add_mul, Nat.one_mul]
          have hcut :
              r ≤ 2 * count * (guided grain count).size ((guided grain count).rest r k) := by
            calc r ≤ 2 * (guided grain count).rest r k := hhalf
              _ ≤ 2 * (count * _) := Nat.mul_le_mul_left 2 hshare
              _ = _ := (Nat.mul_assoc _ _ _).symm
          have hcut_le := Nat.mul_le_mul_left (2 * count) hle
          omega
      · exact .inr (Nat.le_trans (Nat.mul_le_mul_left 2 (Nat.sub_le _ _)) ih)
  rcases main count with h | h
  · have hsplit : 2 * count * r = count * r + count * r := by
      rw [Nat.mul_assoc, Nat.two_mul]
    have hmul : count * (2 * (guided grain count).rest r count) ≤ count * r := by
      rw [Nat.mul_comm 2, ← Nat.mul_assoc, Nat.mul_right_comm, Nat.mul_comm count 2]
      omega
    exact Nat.le_of_mul_le_mul_left hmul hcount
  · exact h

/-- The spans of a range below `2 ^ k`. -/
theorem length_guided_le_pow (hcount : 0 < count) {k : Nat} (hr : r < 2 ^ k) :
    ((guided grain count).spans lo r).length ≤ count * k := by
  induction k generalizing lo r with
  | zero =>
    obtain rfl : r = 0 := Nat.lt_one_iff.mp hr
    rw [spans_zero]
    exact Nat.zero_le _
  | succ k ih =>
    obtain ⟨lo', hlen⟩ := length_spans_rest (guided grain count) lo r count
    have hhalf : 2 * (guided grain count).rest r count ≤ r := rest_guided_half hcount r
    have hlt : (guided grain count).rest r count < 2 ^ k := by
      rw [Nat.pow_succ] at hr
      omega
    calc _ ≤ count + _ := hlen
      _ ≤ count + count * k := Nat.add_le_add_left (ih hlt) count
      _ = count * (k + 1) := by rw [Nat.mul_succ, Nat.add_comm]

/-- The number of spans is logarithmic in the range. -/
theorem length_guided_le (hcount : 0 < count) (lo r : Nat) :
    ((guided grain count).spans lo r).length ≤ count * (r.log2 + 1) :=
  length_guided_le_pow hcount Nat.lt_log2_self

/-- All spans but the last take the grain. -/
theorem mul_length_guided_le (lo r : Nat) :
    grain * (((guided grain count).spans lo r).length - 1) ≤ r := by
  induction lo, r using spans.induct (guided grain count) with
  | case1 lo =>
    rw [spans_zero]
    exact Nat.le_refl 0
  | case2 lo r h ih =>
    rw [spans_pos h, List.length_cons, Nat.add_sub_cancel]
    have hle := (guided grain count).le r
    rcases Nat.eq_or_lt_of_le hle with heq | hlt
    · rw [heq, Nat.sub_self, spans_zero]
      exact Nat.zero_le _
    · have hgrain := grain_le_guided hlt
      have hpos : ((guided grain count).spans (lo + (guided grain count).size r)
          (r - (guided grain count).size r)).length ≠ 0 := by
        rw [ne_eq, List.length_eq_zero_iff, spans_eq_nil]
        omega
      obtain ⟨len, hlen⟩ := Nat.exists_eq_succ_of_ne_zero hpos
      rw [hlen] at ih ⊢
      rw [Nat.succ_sub_one] at ih
      calc grain * (len + 1) = grain * len + grain := Nat.mul_succ _ _
        _ ≤ r - (guided grain count).size r + (guided grain count).size r := by omega
        _ = r := Nat.sub_add_cancel hle

end Cut

end SimpleParallel
