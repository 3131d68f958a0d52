import Mathlib.Order.Monotone.Basic
import SimpleParallel.Schedule.Collapse

/-!
# The triangle of the C example

`my_gen_func` (`example/c_example.c`) enumerates the points `j <= i` of a triangle: it
runs its two loops from the current point on until it has counted enough points.
`triangle_enumerates`: it is such a function as the generator for collapsed loops
expects.
-/

namespace SimpleParallel.Schedule

/-- The loops of `my_gen_func`, entered at `label`. A row has the points for which
`inRow` holds. -/
def rowLoop (inRow : UInt64 → UInt64 → Bool) (finalEnd : IjPoint) (expectCount : UInt64) :
    Nat → UInt64 → UInt64 → UInt64 → GenFuncRes
  | 0, i, j, count => ⟨⟨i, j⟩, count⟩
  | fuel + 1, i, j, count =>
    if inRow i j then
      if count = expectCount then ⟨⟨i, j⟩, count⟩
      else rowLoop inRow finalEnd expectCount fuel i (j + 1) (count + 1)
    else if i + 1 < finalEnd.i then rowLoop inRow finalEnd expectCount fuel (i + 1) 0 count
    else ⟨⟨i + 1, j⟩, count⟩

/-- Every iteration counts a point or begins a row, so this fuel is enough. -/
def rowGenFunc (inRow : UInt64 → UInt64 → Bool) : GenFunc := fun current finalEnd expectCount =>
  rowLoop inRow finalEnd expectCount
    (expectCount.toNat + (finalEnd.i.toNat - current.i.toNat) + 1) current.i current.j 0

/-- `j <= i`. -/
def inTriangle (i j : UInt64) : Bool := j ≤ i

/-- `my_gen_func`. -/
def myGenFunc : GenFunc := rowGenFunc inTriangle

/-! ## The points in order -/

/-- How many points the first rows have. -/
def triangle : Nat → Nat
  | 0 => 0
  | rows + 1 => triangle rows + (rows + 1)

/-- Row and column of point `k` of the triangle without end. -/
def rowCol : Nat → Nat × Nat
  | 0 => (0, 0)
  | k + 1 => if (rowCol k).2 < (rowCol k).1 then ((rowCol k).1, (rowCol k).2 + 1)
    else ((rowCol k).1 + 1, 0)

/-- The points of the first `rows` rows, and where `my_gen_func` leaves its loops. -/
def trianglePoint (rows k : Nat) : IjPoint :=
  if k < triangle rows then ⟨.ofNat (rowCol k).1, .ofNat (rowCol k).2⟩
  else ⟨.ofNat rows, .ofNat rows⟩

theorem triangle_mono : Monotone triangle :=
  monotone_nat_of_le_succ fun _ => Nat.le_add_right _ _

/-- The place of a point in the order. -/
theorem rowCol_spec (k : Nat) :
    (rowCol k).2 ≤ (rowCol k).1 ∧ triangle (rowCol k).1 + (rowCol k).2 = k := by
  induction k with
  | zero => exact ⟨Nat.le_refl 0, rfl⟩
  | succ k ih =>
    rw [rowCol]
    split
    · next h => exact ⟨h, by rw [← Nat.add_assoc, ih.2]⟩
    · next h =>
      refine ⟨Nat.zero_le _, ?_⟩
      show triangle (rowCol k).1 + ((rowCol k).1 + 1) + 0 = k + 1
      omega

theorem row_lt {rows k : Nat} : (rowCol k).1 < rows ↔ k < triangle rows := by
  obtain ⟨hcol, hplace⟩ := rowCol_spec k
  constructor
  · intro h
    have hmono : triangle (rowCol k).1 + ((rowCol k).1 + 1) ≤ triangle rows := triangle_mono h
    omega
  · intro h
    by_contra hle
    have hmono := triangle_mono (Nat.le_of_not_lt hle)
    omega

variable {rows : UInt64} {k : Nat}

theorem trianglePoint_of_lt (h : k < triangle rows.toNat) :
    trianglePoint rows.toNat k = ⟨.ofNat (rowCol k).1, .ofNat (rowCol k).2⟩ :=
  if_pos h

theorem trianglePoint_last : trianglePoint rows.toNat (triangle rows.toNat) = ⟨rows, rows⟩ := by
  rw [trianglePoint, if_neg (Nat.lt_irrefl _), UInt64.ofNat_toNat]

theorem toNat_row (h : k < triangle rows.toNat) :
    (UInt64.ofNat (rowCol k).1).toNat = (rowCol k).1 :=
  UInt64.toNat_ofNat_of_lt' ((row_lt.mpr h).trans rows.toNat_lt)

theorem toNat_col (h : k < triangle rows.toNat) :
    (UInt64.ofNat (rowCol k).2).toNat = (rowCol k).2 :=
  UInt64.toNat_ofNat_of_lt' ((rowCol_spec k).1.trans_lt ((row_lt.mpr h).trans rows.toNat_lt))

theorem trianglePoint_row_ne (h : k < triangle rows.toNat) :
    (trianglePoint rows.toNat k).i ≠ rows := by
  rw [trianglePoint_of_lt h]
  intro heq
  have hrow := congrArg UInt64.toNat heq
  rw [toNat_row h] at hrow
  exact absurd (row_lt.mpr h) (by omega)

theorem trianglePoint_injective {l : Nat} (hk : k ≤ triangle rows.toNat)
    (hl : l ≤ triangle rows.toNat) (heq : trianglePoint rows.toNat k = trianglePoint rows.toNat l) :
    k = l := by
  rcases Nat.lt_or_eq_of_le hk with hk | rfl
  · rcases Nat.lt_or_eq_of_le hl with hl | rfl
    · rw [trianglePoint_of_lt hk, trianglePoint_of_lt hl, IjPoint.mk.injEq] at heq
      have hrow := congrArg UInt64.toNat heq.1
      have hcol := congrArg UInt64.toNat heq.2
      rw [toNat_row hk, toNat_row hl] at hrow
      rw [toNat_col hk, toNat_col hl] at hcol
      rw [← (rowCol_spec k).2, ← (rowCol_spec l).2, hrow, hcol]
    · exact absurd (by rw [heq, trianglePoint_last]) (trianglePoint_row_ne hk)
  · rcases Nat.lt_or_eq_of_le hl with hl | rfl
    · exact absurd (by rw [← heq, trianglePoint_last]) (trianglePoint_row_ne hl)
    · rfl

/-! ## `my_gen_func` on the triangle -/

theorem inTriangle_rowCol (h : k < triangle rows.toNat) :
    inTriangle (.ofNat (rowCol k).1) (.ofNat (rowCol k).2) = true := by
  rw [inTriangle, decide_eq_true_iff, UInt64.le_iff_toNat_le, toNat_row h, toNat_col h]
  exact (rowCol_spec k).1

/-- Behind the last column the row has ended. -/
theorem inTriangle_behind (h : k < triangle rows.toNat) (hcol : ¬ (rowCol k).2 < (rowCol k).1) :
    inTriangle (.ofNat (rowCol k).1) (.ofNat (rowCol k).2 + 1) = false := by
  have hrow := (row_lt.mpr h).trans rows.toNat_lt
  have hrows := rows.toNat_lt
  have := row_lt.mpr h
  obtain ⟨hle, -⟩ := rowCol_spec k
  rw [inTriangle, decide_eq_false_iff_not, UInt64.le_iff_toNat_le, UInt64.toNat_add, toNat_row h,
    toNat_col h, UInt64.toNat_one, Nat.mod_eq_of_lt (by omega)]
  omega

theorem toNat_row_succ (h : k < triangle rows.toNat) :
    (UInt64.ofNat (rowCol k).1 + 1).toNat = (rowCol k).1 + 1 := by
  have hrow := row_lt.mpr h
  have hrows := rows.toNat_lt
  rw [UInt64.toNat_add, toNat_row h, UInt64.toNat_one, Nat.mod_eq_of_lt (by omega)]

section

variable {inRow : UInt64 → UInt64 → Bool} {finalEnd : IjPoint} {expectCount i j count : UInt64}
  (fuel : Nat)

theorem rowLoop_enough (hrow : inRow i j = true) :
    rowLoop inRow finalEnd count (fuel + 1) i j count = ⟨⟨i, j⟩, count⟩ := by
  rw [rowLoop, if_pos hrow, if_pos rfl]

theorem rowLoop_count (hrow : inRow i j = true) (hne : count ≠ expectCount) :
    rowLoop inRow finalEnd expectCount (fuel + 1) i j count =
      rowLoop inRow finalEnd expectCount fuel i (j + 1) (count + 1) := by
  rw [rowLoop, if_pos hrow, if_neg hne]

theorem rowLoop_nextRow (hrow : inRow i j = false) (hlt : i + 1 < finalEnd.i) :
    rowLoop inRow finalEnd expectCount (fuel + 1) i j count =
      rowLoop inRow finalEnd expectCount fuel (i + 1) 0 count := by
  rw [rowLoop, if_neg (by rw [hrow]; exact Bool.false_ne_true), if_pos hlt]

theorem rowLoop_end (hrow : inRow i j = false) (hle : ¬ i + 1 < finalEnd.i) :
    rowLoop inRow finalEnd expectCount (fuel + 1) i j count = ⟨⟨i + 1, j⟩, count⟩ := by
  rw [rowLoop, if_neg (by rw [hrow]; exact Bool.false_ne_true), if_neg hle]

end

section

variable {finalEnd : IjPoint} {expectCount count : UInt64} {fuel : Nat}

/-- Point `k` counted, the loops come to point `k + 1`, in this row or in the next one. -/
theorem rowLoop_next (hk : k + 1 < triangle finalEnd.i.toNat) (hne : count ≠ expectCount) (d : Nat)
    (hfuel : d + 1 + (finalEnd.i.toNat - (rowCol k).1) + 1 ≤ fuel) :
    ∃ fuel', d + (finalEnd.i.toNat - (rowCol (k + 1)).1) + 1 ≤ fuel' ∧
      rowLoop inTriangle finalEnd expectCount fuel (.ofNat (rowCol k).1) (.ofNat (rowCol k).2)
          count =
        rowLoop inTriangle finalEnd expectCount fuel' (.ofNat (rowCol (k + 1)).1)
          (.ofNat (rowCol (k + 1)).2) (count + 1) := by
  have hk' := Nat.lt_of_succ_lt hk
  have hrow := row_lt.mpr hk'
  obtain ⟨fuel, rfl⟩ := Nat.exists_eq_succ_of_ne_zero (n := fuel) (by omega)
  rw [rowLoop_count fuel (inTriangle_rowCol hk') hne]
  by_cases hcol : (rowCol k).2 < (rowCol k).1
  · have hnext : rowCol (k + 1) = ((rowCol k).1, (rowCol k).2 + 1) := by rw [rowCol, if_pos hcol]
    refine ⟨fuel, by rw [hnext]; omega, ?_⟩
    rw [hnext, UInt64.ofNat_add]
    rfl
  · have hnext : rowCol (k + 1) = ((rowCol k).1 + 1, 0) := by rw [rowCol, if_neg hcol]
    obtain ⟨fuel, rfl⟩ := Nat.exists_eq_succ_of_ne_zero (n := fuel) (by omega)
    have hlt : UInt64.ofNat (rowCol k).1 + 1 < finalEnd.i := by
      rw [UInt64.lt_iff_toNat_lt, toNat_row_succ hk']
      have := row_lt.mpr hk
      rwa [hnext] at this
    refine ⟨fuel, by rw [hnext]; omega, ?_⟩
    rw [rowLoop_nextRow fuel (inTriangle_behind hk' hcol) hlt, hnext, UInt64.ofNat_add]
    rfl

/-- Behind the last point the loops leave the triangle at its end. -/
theorem rowLoop_last (hk : k < triangle finalEnd.i.toNat)
    (hlast : ¬ k + 1 < triangle finalEnd.i.toNat) (hne : count ≠ expectCount) :
    rowLoop inTriangle finalEnd expectCount (fuel + 2) (.ofNat (rowCol k).1) (.ofNat (rowCol k).2)
        count = ⟨⟨finalEnd.i, finalEnd.i⟩, count + 1⟩ := by
  have hrow := row_lt.mpr hk
  have hrow' := mt row_lt.mp hlast
  rw [rowCol] at hrow'
  have hcol : ¬ (rowCol k).2 < (rowCol k).1 := fun h => by
    rw [if_pos h] at hrow'
    exact hrow' hrow
  rw [if_neg hcol] at hrow'
  have hend : (rowCol k).1 + 1 = finalEnd.i.toNat := by omega
  have hi : UInt64.ofNat (rowCol k).1 + 1 = finalEnd.i := by
    rw [← UInt64.toNat_inj, toNat_row_succ hk, hend]
  have hj : (rowCol k).2 = (rowCol k).1 := by
    have := (rowCol_spec k).1
    omega
  rw [rowLoop_count _ (inTriangle_rowCol hk) hne,
    rowLoop_end _ (inTriangle_behind hk hcol) (by rw [hi]; exact UInt64.lt_irrefl _), hj, hi]

end

/-- From point `k` on the loops count the points up to the expected count, or to the end
of the triangle. -/
theorem rowLoop_triangle {finalEnd : IjPoint} {expectCount : UInt64} (d : Nat) :
    ∀ (k fuel : Nat) (count : UInt64), k < triangle finalEnd.i.toNat →
      expectCount.toNat = count.toNat + d →
      d + (finalEnd.i.toNat - (rowCol k).1) + 1 ≤ fuel →
      rowLoop inTriangle finalEnd expectCount fuel (.ofNat (rowCol k).1) (.ofNat (rowCol k).2)
          count =
        ⟨trianglePoint finalEnd.i.toNat (min (k + d) (triangle finalEnd.i.toNat)),
          .ofNat (count.toNat + min d (triangle finalEnd.i.toNat - k))⟩ := by
  induction d with
  | zero =>
    intro k fuel count hk hcount hfuel
    obtain ⟨fuel, rfl⟩ := Nat.exists_eq_succ_of_ne_zero (n := fuel) (by omega)
    obtain rfl : expectCount = count := UInt64.toNat_inj.mp hcount
    rw [rowLoop_enough fuel (inTriangle_rowCol hk), Nat.add_zero, Nat.min_eq_left (Nat.le_of_lt hk),
      Nat.zero_min, Nat.add_zero, UInt64.ofNat_toNat, trianglePoint_of_lt hk]
  | succ d ih =>
    intro k fuel count hk hcount hfuel
    have hne : count ≠ expectCount := fun h => by rw [h] at hcount; omega
    have hsucc : (count + 1).toNat = count.toNat + 1 := by
      have := expectCount.toNat_lt
      rw [UInt64.toNat_add, UInt64.toNat_one, Nat.mod_eq_of_lt (by omega)]
    by_cases hk' : k + 1 < triangle finalEnd.i.toNat
    · obtain ⟨fuel', hfuel', hnext⟩ := rowLoop_next hk' hne d hfuel
      have hcount' : expectCount.toNat = (count + 1).toNat + d := by omega
      rw [hnext, ih (k + 1) fuel' (count + 1) hk' hcount' hfuel', hsucc, Nat.add_right_comm k 1 d,
        Nat.add_assoc k d 1]
      congr 2
      omega
    · have hrow := row_lt.mpr hk
      obtain ⟨fuel, rfl⟩ := Nat.exists_eq_add_of_le' (show 2 ≤ fuel by omega)
      have hone : triangle finalEnd.i.toNat - k = 1 := by omega
      rw [rowLoop_last hk hk' hne, Nat.min_eq_right (by omega), trianglePoint_last,
        Nat.min_eq_right (by omega), hone, UInt64.ofNat_add, UInt64.ofNat_toNat]
      rfl

/-- `my_gen_func` enumerates the triangle. -/
theorem triangle_enumerates (finalEnd : IjPoint) :
    Enumerates myGenFunc finalEnd (trianglePoint finalEnd.i.toNat) (triangle finalEnd.i.toNat) where
  injective k l hk hl heq := trianglePoint_injective hk hl heq
  last := by rw [trianglePoint_last]
  inner k hk := trianglePoint_row_ne hk
  step k hk count _ := by
    have hfuel : count.toNat + (finalEnd.i.toNat - (rowCol k).1) + 1 ≤
        count.toNat + (finalEnd.i.toNat - (UInt64.ofNat (rowCol k).1).toNat) + 1 := by
      rw [toNat_row hk]
    have hloop := rowLoop_triangle count.toNat k _ 0 hk (Nat.zero_add _).symm hfuel
    rw [trianglePoint_of_lt hk, myGenFunc, rowGenFunc]
    rw [UInt64.toNat_zero, Nat.zero_add] at hloop
    exact hloop

end SimpleParallel.Schedule
