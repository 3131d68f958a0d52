import Mathlib.Data.List.Pairwise

/-!
# Interval sets

A set of numbers kept as the sorted list of its maximal half-open intervals:
`add` inserts an interval and joins it with those it overlaps or touches. The
invariant (non-empty intervals, each ending strictly before the next begins) is
a field, and `mem_add` says that `add` is union.
-/

/-- A half-open interval `[lower, upper)`. -/
structure HalfOpen where
  lower : Nat
  upper : Nat
  deriving DecidableEq

namespace HalfOpen

def Mem (x : Nat) (i : HalfOpen) : Prop := i.lower ≤ x ∧ x < i.upper

instance (x : Nat) (i : HalfOpen) : Decidable (i.Mem x) := inferInstanceAs (Decidable (_ ∧ _))

/-- `i` ends strictly before `j` begins. -/
def Before (i j : HalfOpen) : Prop := i.upper < j.lower

end HalfOpen

/-- Sorted, non-empty and separated. -/
structure Separated (l : List HalfOpen) : Prop where
  nonempty : ∀ i ∈ l, i.lower < i.upper
  sorted : l.Pairwise HalfOpen.Before

/-- A set of numbers as its maximal intervals, in increasing order. -/
structure IntervalSet where
  intervals : List HalfOpen
  separated : Separated intervals

namespace IntervalSet

/-- Inserts `i` into a separated list, joining it with what it meets. -/
def insert (i : HalfOpen) : List HalfOpen → List HalfOpen
  | [] => [i]
  | j :: rest =>
    if i.upper < j.lower then i :: j :: rest
    else if j.upper < i.lower then j :: insert i rest
    else insert ⟨min i.lower j.lower, max i.upper j.upper⟩ rest

/-- The elements of a list of intervals. -/
def MemList (x : Nat) (l : List HalfOpen) : Prop := ∃ i ∈ l, i.Mem x

theorem memList_cons {x : Nat} {i : HalfOpen} {l : List HalfOpen} :
    MemList x (i :: l) ↔ i.Mem x ∨ MemList x l := by
  simp [MemList]

theorem memList_insert {x : Nat} {i : HalfOpen} {l : List HalfOpen} (hi : i.lower < i.upper)
    (hl : ∀ j ∈ l, j.lower < j.upper) : MemList x (insert i l) ↔ i.Mem x ∨ MemList x l := by
  induction l generalizing i with
  | nil => simp [insert, MemList]
  | cons j rest ih =>
    have hj := hl j List.mem_cons_self
    have hrest : ∀ k ∈ rest, k.lower < k.upper := fun k hk => hl k (List.mem_cons_of_mem _ hk)
    unfold insert
    split
    · rw [memList_cons]
    · split
      · rw [memList_cons, ih hi hrest, memList_cons]
        exact or_left_comm
      · rw [ih (by simp only; omega) hrest, memList_cons, ← or_assoc]
        refine or_congr_left ?_
        simp only [HalfOpen.Mem]
        omega

theorem lower_insert {i : HalfOpen} {l : List HalfOpen} {b : Nat} (hi : b < i.lower)
    (hl : ∀ j ∈ l, b < j.lower) : ∀ j ∈ insert i l, b < j.lower := by
  induction l generalizing i with
  | nil => simpa [insert] using hi
  | cons k rest ih =>
    have hk := hl k List.mem_cons_self
    have hrest : ∀ j ∈ rest, b < j.lower := fun j hj => hl j (List.mem_cons_of_mem _ hj)
    unfold insert
    split
    · intro j hj
      rcases List.mem_cons.mp hj with rfl | hj
      · exact hi
      · exact hl j hj
    · split
      · intro j hj
        rcases List.mem_cons.mp hj with rfl | hj
        · exact hk
        · exact ih hi hrest j hj
      · exact ih (by simp only; omega) hrest

theorem separated_insert {i : HalfOpen} {l : List HalfOpen} (hi : i.lower < i.upper)
    (hl : Separated l) : Separated (insert i l) := by
  induction l generalizing i with
  | nil => exact ⟨by simpa [insert] using hi, by simp [insert]⟩
  | cons j rest ih =>
    have hj := hl.nonempty j List.mem_cons_self
    obtain ⟨hbefore, hsorted⟩ := List.pairwise_cons.mp hl.sorted
    have hrest : Separated rest := ⟨fun k hk => hl.nonempty k (List.mem_cons_of_mem _ hk), hsorted⟩
    unfold insert
    split
    · next hij =>
      refine ⟨fun k hk => ?_, List.pairwise_cons.mpr ⟨fun k hk => ?_, hl.sorted⟩⟩
      · rcases List.mem_cons.mp hk with rfl | hk
        · exact hi
        · exact hl.nonempty k hk
      · rcases List.mem_cons.mp hk with rfl | hk
        · exact hij
        · have : j.upper < k.lower := hbefore k hk
          show i.upper < k.lower
          omega
    · split
      · next hji =>
        have hins := ih hi hrest
        refine ⟨fun k hk => ?_, List.pairwise_cons.mpr ⟨?_, hins.sorted⟩⟩
        · rcases List.mem_cons.mp hk with rfl | hk
          · exact hj
          · exact hins.nonempty k hk
        · exact lower_insert hji hbefore
      · exact ih (by simp only; omega) hrest

/-- A separated list has no more intervals than there are numbers in its range. -/
theorem length_le {a b : Nat} {l : List HalfOpen} (hab : a ≤ b) (hl : Separated l)
    (h : ∀ i ∈ l, a ≤ i.lower ∧ i.upper ≤ b) : a + l.length ≤ b := by
  induction l generalizing a with
  | nil => exact hab
  | cons i rest ih =>
    have hi := hl.nonempty i List.mem_cons_self
    obtain ⟨ha, hb⟩ := h i List.mem_cons_self
    obtain ⟨hbefore, hsorted⟩ := List.pairwise_cons.mp hl.sorted
    have hrest : i.upper + rest.length ≤ b := by
      refine ih hb ⟨fun k hk => hl.nonempty k (List.mem_cons_of_mem _ hk), hsorted⟩ fun j hj => ?_
      have hij : i.upper < j.lower := hbefore j hj
      exact ⟨Nat.le_of_lt hij, (h j (List.mem_cons_of_mem _ hj)).2⟩
    rw [List.length_cons]
    omega

/-- No number is in two intervals. -/
theorem interval_unique {l : List HalfOpen} (hl : Separated l) {x : Nat} {i j : HalfOpen}
    (hi : i ∈ l) (hj : j ∈ l) (hxi : i.Mem x) (hxj : j.Mem x) : i = j := by
  have hbefore := List.pairwise_iff_getElem.mp hl.sorted
  obtain ⟨a, ha, rfl⟩ := List.getElem_of_mem hi
  obtain ⟨b, hb, rfl⟩ := List.getElem_of_mem hj
  rcases Nat.lt_trichotomy a b with hab | rfl | hab
  · have hlt : l[a].upper < l[b].lower := hbefore a b ha hb hab
    exact absurd (Nat.lt_of_le_of_lt hxj.1 hxi.2) (by omega)
  · rfl
  · have hlt : l[b].upper < l[a].lower := hbefore b a hb ha hab
    exact absurd (Nat.lt_of_le_of_lt hxi.1 hxj.2) (by omega)

/-- The empty set. -/
def empty : IntervalSet := ⟨[], nofun, .nil⟩

def Mem (x : Nat) (s : IntervalSet) : Prop := MemList x s.intervals

instance (x : Nat) (s : IntervalSet) : Decidable (s.Mem x) :=
  inferInstanceAs (Decidable (∃ i ∈ s.intervals, i.Mem x))

/-- Union with an interval; an empty interval adds nothing. -/
def add (s : IntervalSet) (i : HalfOpen) : IntervalSet :=
  if h : i.lower < i.upper then ⟨insert i s.intervals, separated_insert h s.separated⟩ else s

@[simp] theorem mem_empty {x : Nat} : ¬ empty.Mem x := by
  simp [Mem, MemList, empty]

@[simp] theorem mem_add {s : IntervalSet} {i : HalfOpen} {x : Nat} :
    (s.add i).Mem x ↔ i.Mem x ∨ s.Mem x := by
  unfold add
  split
  · next h => exact memList_insert h s.separated.nonempty
  · next h =>
    have : ¬ i.Mem x := fun hx => h (Nat.lt_of_le_of_lt hx.1 hx.2)
    simp [this]

end IntervalSet
