import Mathlib.Data.List.Perm.Basic
import Mathlib.Data.List.Range
import Mathlib.Data.List.Flatten
import Mathlib.Data.Int.Basic
import Mathlib.Tactic.Linarith
import Mathlib.Tactic.Ring

/-!
# Strided arrays

The elements of an array with dimensions `(extent, stride)` lie at the offsets that are
sums of multiples of the strides. `Fills s dims`: elements of `s` bytes fill as many bytes
as they have together, from offset 0 on, and no other byte.

* `perm_of_cover`: `n` runs of `s` bytes cover `n * s` bytes only end to end.
* `fills_cons`: a dimension with stride `s` makes its elements one element.
* `fills_iff`: an array fills its bytes exactly when its dimensions are packed in some
  order: the first stride is the size of an element, and each next one is the stride
  before it times the extent there. Dimensions of one element do not count.
-/

namespace SimpleParallel.Strides

structure Dim where
  extent : Nat
  stride : Int

/-- The offsets of the elements, once for each index. -/
def offsets : List Dim → List Int
  | [] => [0]
  | d :: dims => (List.range d.extent).flatMap fun (i : Nat) =>
    (offsets dims).map fun o => i * d.stride + o

/-- The number of elements. -/
def count : List Dim → Nat
  | [] => 1
  | d :: dims => d.extent * count dims

/-- The byte `x` belongs to an element of `s` bytes. -/
def Covered (s : Nat) (offs : List Int) (x : Int) : Prop := ∃ o ∈ offs, o ≤ x ∧ x < o + s

def Fills (s : Nat) (dims : List Dim) : Prop :=
  ∀ x : Int, Covered s (offsets dims) x ↔ 0 ≤ x ∧ x < (count dims * s : Nat)

/-- Each stride is the number of bytes of the dimensions before it. -/
def PackedFrom : Nat → List Dim → Prop
  | _, [] => True
  | s, d :: dims => d.stride = s ∧ PackedFrom (s * d.extent) dims

def Packed (s : Nat) (dims : List Dim) : Prop :=
  ∃ order : List Dim, order.Perm (dims.filter fun d => 1 < d.extent) ∧ PackedFrom s order

variable {s n : Nat} {d : Dim} {dims dims' : List Dim} {o x : Int}

/-! ## Offsets -/

theorem mem_offsets_cons : o ∈ offsets (d :: dims) ↔
    ∃ i : Nat, i < d.extent ∧ ∃ o' ∈ offsets dims, i * d.stride + o' = o := by
  simp only [offsets, List.mem_flatMap, List.mem_range, List.mem_map]

theorem length_offsets (dims : List Dim) : (offsets dims).length = count dims := by
  induction dims with
  | nil => rfl
  | cons d dims ih =>
    rw [offsets, List.length_flatMap]
    simp only [List.length_map, ih, List.map_const', List.sum_replicate_nat, List.length_range]
    rfl

theorem zero_mem_offsets (hpos : ∀ d ∈ dims, 0 < d.extent) : (0 : Int) ∈ offsets dims := by
  induction dims with
  | nil => exact List.mem_singleton_self 0
  | cons d dims ih =>
    have hrest := ih fun d' hd => hpos d' (List.mem_cons_of_mem _ hd)
    exact mem_offsets_cons.mpr ⟨0, hpos d List.mem_cons_self, 0, hrest, by simp⟩

/-- The neighbour of the first element. -/
theorem stride_mem_offsets (hpos : ∀ d ∈ dims, 0 < d.extent) (hd : d ∈ dims)
    (hextent : 1 < d.extent) : d.stride ∈ offsets dims := by
  induction dims with
  | nil => cases hd
  | cons e dims ih =>
    have hrest : ∀ d ∈ dims, 0 < d.extent := fun d' hd => hpos d' (List.mem_cons_of_mem _ hd)
    rcases List.mem_cons.mp hd with rfl | hd
    · exact mem_offsets_cons.mpr ⟨1, hextent, 0, zero_mem_offsets hrest, by simp⟩
    · exact mem_offsets_cons.mpr ⟨0, hpos e List.mem_cons_self, d.stride, ih hrest hd, by simp⟩

theorem mem_offsets_perm (h : dims.Perm dims') : o ∈ offsets dims ↔ o ∈ offsets dims' := by
  induction h generalizing o with
  | nil => exact Iff.rfl
  | cons d _ ih => simp only [mem_offsets_cons, ih]
  | swap d e dims =>
    simp only [mem_offsets_cons]
    constructor <;>
    · rintro ⟨i, hi, _, ⟨j, hj, p, hp, rfl⟩, rfl⟩
      exact ⟨j, hj, _, ⟨i, hi, p, hp, rfl⟩, by ring⟩
  | trans _ _ ih ih' => exact ih.trans ih'

theorem count_perm (h : dims.Perm dims') : count dims = count dims' := by
  induction h with
  | nil => rfl
  | cons d _ ih => rw [count, count, ih]
  | swap d e dims =>
    simp only [count]
    ring
  | trans _ _ ih ih' => exact ih.trans ih'

/-- When the strides are multiples of `s`, so are the offsets. -/
theorem offsets_multiple (hmul : ∀ d ∈ dims, ∃ m : Nat, d.stride = m * s) (ho : o ∈ offsets dims) :
    ∃ m : Nat, o = m * s := by
  induction dims generalizing o with
  | nil => exact ⟨0, by simpa [offsets] using ho⟩
  | cons d dims ih =>
    obtain ⟨i, -, o', ho', rfl⟩ := mem_offsets_cons.mp ho
    obtain ⟨m, hm⟩ := hmul d List.mem_cons_self
    obtain ⟨m', hm'⟩ := ih (fun d' hd => hmul d' (List.mem_cons_of_mem _ hd)) ho'
    refine ⟨i * m + m', ?_⟩
    rw [hm, hm']
    push_cast
    ring

/-- An element at offset `s` is a neighbour of the first one. -/
theorem exists_stride (hs : 0 < s) (hmul : ∀ d ∈ dims, ∃ m : Nat, d.stride = m * s)
    (h : (s : Int) ∈ offsets dims) : ∃ d ∈ dims, d.stride = s := by
  induction dims with
  | nil =>
    have : (s : Int) = 0 := by simpa [offsets] using h
    omega
  | cons d dims ih =>
    have hrest : ∀ d ∈ dims, ∃ m : Nat, d.stride = m * s :=
      fun d' hd => hmul d' (List.mem_cons_of_mem _ hd)
    obtain ⟨i, -, o', ho', hsum⟩ := mem_offsets_cons.mp h
    obtain ⟨m, hm⟩ := hmul d List.mem_cons_self
    obtain ⟨m', rfl⟩ := offsets_multiple hrest ho'
    have hone : i * m + m' = 1 := by
      have hmulS : (i * m + m') * s = 1 * s := by
        have hcast : ((i * m + m') * s : Nat) = (s : Int) := by
          rw [← hsum, hm]
          push_cast
          ring
        omega
      exact Nat.eq_of_mul_eq_mul_right hs hmulS
    rcases Nat.eq_zero_or_pos m' with rfl | hpos
    · refine ⟨d, List.mem_cons_self, ?_⟩
      have hunit : m = 1 := Nat.eq_one_of_mul_eq_one_left hone
      rw [hm, hunit]
      simp
    · have htail : m' = 1 := by omega
      subst htail
      obtain ⟨e, he, hstride⟩ := ih hrest (by simpa using ho')
      exact ⟨e, List.mem_cons_of_mem _ he, hstride⟩

/-! ## Runs end to end -/

/-- There is no run to spare. -/
theorem perm_of_cover (hs : 0 < s) {offs : List Int} {b : Int} (hlen : offs.length = n)
    (hcover : ∀ x, b ≤ x → x < b + (n * s : Nat) → Covered s offs x) :
    offs.Perm ((List.range n).map fun j => b + (j * s : Nat)) := by
  induction n generalizing offs b with
  | zero =>
    rw [List.length_eq_zero_iff.mp hlen]
    exact .nil
  | succ n ih =>
    have hroom : ((n + 1) * s : Nat) = n * s + s := Nat.succ_mul n s
    obtain ⟨o, ho, hle, hlt⟩ := hcover b (Int.le_refl b) (by omega)
    have hother : ∀ x, o + s ≤ x → x < b + ((n + 1) * s : Nat) → b ≤ x →
        Covered s (offs.erase o) x := by
      intro x hx hend hb
      obtain ⟨p, hp, hple, hplt⟩ := hcover x hb hend
      exact ⟨p, (List.mem_erase_of_ne (by omega)).mpr hp, hple, hplt⟩
    have herase : (offs.erase o).length = n := by
      rw [List.length_erase_of_mem ho, hlen, Nat.add_sub_cancel]
    have hrest := ih (b := b + s) herase fun x hx hend =>
      hother x (by omega) (by omega) (by omega)
    have hfirst : o = b := by
      by_contra hne
      -- the byte behind the first run would be in no other one
      obtain ⟨p, hp, hple, -⟩ := hother (o + s) (Int.le_refl _) (by omega) (by omega)
      obtain ⟨j, -, rfl⟩ := List.mem_map.mp (hrest.subset hp)
      omega
    have hruns : (List.range (n + 1)).map (fun j => b + ((j * s : Nat) : Int)) =
        b :: (List.range n).map fun j => b + s + ((j * s : Nat) : Int) := by
      rw [List.range_succ_eq_map, List.map_cons, List.map_map, Nat.zero_mul]
      refine congrArg₂ List.cons (Int.add_zero b) (List.map_congr_left fun j _ => ?_)
      show b + (((j + 1) * s : Nat) : Int) = _
      rw [Nat.succ_mul]
      push_cast
      ring
    rw [hruns]
    rw [hfirst] at ho hrest
    exact (List.perm_cons_erase ho).trans (hrest.cons b)

theorem Fills.perm (hs : 0 < s) (h : Fills s dims) :
    (offsets dims).Perm ((List.range (count dims)).map fun j => 0 + ((j * s : Nat) : Int)) :=
  perm_of_cover hs (length_offsets dims) fun x hlo hhi =>
    (h x).mpr ⟨hlo, by rwa [Int.zero_add] at hhi⟩

theorem Fills.mem_offsets (hs : 0 < s) (h : Fills s dims) :
    o ∈ offsets dims ↔ ∃ j < count dims, o = (j * s : Nat) := by
  rw [(h.perm hs).mem_iff, List.mem_map]
  simp only [List.mem_range, Int.zero_add, eq_comm]

/-! ## Packed dimensions -/

/-- Elements end to end are one element. -/
theorem covered_cons (hs : 0 < s) (hstride : d.stride = s) :
    Covered s (offsets (d :: dims)) x ↔ Covered (s * d.extent) (offsets dims) x := by
  constructor
  · rintro ⟨_, hmem, hle, hlt⟩
    obtain ⟨i, hi, o, ho, rfl⟩ := mem_offsets_cons.mp hmem
    have hroom : (i + 1) * s ≤ s * d.extent := by
      rw [Nat.mul_comm s]
      exact Nat.mul_le_mul_right s hi
    rw [Nat.succ_mul] at hroom
    rw [hstride] at hle hlt
    have hpos : 0 ≤ (i * s : Int) := by positivity
    refine ⟨o, ho, by omega, ?_⟩
    have : ((i * s + s : Nat) : Int) ≤ ((s * d.extent : Nat) : Int) := by exact_mod_cast hroom
    push_cast at this ⊢
    omega
  · rintro ⟨o, ho, hle, hlt⟩
    have hs' : (0 : Int) < s := by exact_mod_cast hs
    have hdiv := Int.mul_ediv_add_emod (x - o) s
    have hmod := Int.emod_nonneg (x - o) (ne_of_gt hs')
    have hmodlt := Int.emod_lt_of_pos (x - o) hs'
    have hq : 0 ≤ (x - o) / s := Int.ediv_nonneg (by omega) (by omega)
    have hqlt : (x - o) / s < d.extent := by
      refine Int.ediv_lt_of_lt_mul hs' ?_
      push_cast at hlt
      rw [Int.mul_comm]
      omega
    refine ⟨_, mem_offsets_cons.mpr ⟨((x - o) / s).toNat, by omega, o, ho, rfl⟩, ?_⟩
    rw [Int.toNat_of_nonneg hq, hstride, Int.mul_comm]
    omega

theorem fills_cons (hs : 0 < s) (hstride : d.stride = s) :
    Fills s (d :: dims) ↔ Fills (s * d.extent) dims := by
  have hcount : count (d :: dims) * s = count dims * (s * d.extent) := by
    rw [count]
    ring
  simp only [Fills, covered_cons hs hstride, hcount]

theorem fills_perm (h : dims.Perm dims') : Fills s dims ↔ Fills s dims' := by
  simp only [Fills, Covered, mem_offsets_perm h, count_perm h]

/-- Dimensions of one element do not count. -/
theorem fills_filter (hpos : ∀ d ∈ dims, 0 < d.extent) :
    Fills s dims ↔ Fills s (dims.filter fun d => 1 < d.extent) := by
  have hsame : (∀ o, o ∈ offsets dims ↔ o ∈ offsets (dims.filter fun d => 1 < d.extent)) ∧
      count dims = count (dims.filter fun d => 1 < d.extent) := by
    induction dims with
    | nil => exact ⟨fun _ => Iff.rfl, rfl⟩
    | cons d dims ih =>
      obtain ⟨hmem, hcount⟩ := ih fun d' hd => hpos d' (List.mem_cons_of_mem _ hd)
      by_cases hd : 1 < d.extent
      · rw [List.filter_cons_of_pos (by simpa using hd)]
        exact ⟨fun o => by simp only [mem_offsets_cons, hmem], by rw [count, count, hcount]⟩
      · have hone : d.extent = 1 := by
          have := hpos d List.mem_cons_self
          omega
        rw [List.filter_cons_of_neg (by simpa using hd)]
        refine ⟨fun o => ?_, by rw [count, hone, Nat.one_mul, hcount]⟩
        rw [mem_offsets_cons, hone, ← hmem]
        simp
  simp only [Fills, Covered, hsame.1, hsame.2]

theorem PackedFrom.fills (hs : 0 < s) (hpos : ∀ d ∈ dims, 0 < d.extent) (h : PackedFrom s dims) :
    Fills s dims := by
  induction dims generalizing s with
  | nil =>
    intro x
    simp [Covered, offsets, count]
  | cons d dims ih =>
    have hd := hpos d List.mem_cons_self
    rw [fills_cons hs h.1]
    exact ih (Nat.mul_pos hs hd) (fun d' hd => hpos d' (List.mem_cons_of_mem _ hd)) h.2

/-- Bytes that are filled have a dimension that starts them. -/
theorem Fills.exists_first (hs : 0 < s) (hextent : ∀ d ∈ dims, 1 < d.extent) (hne : dims ≠ [])
    (h : Fills s dims) : ∃ d ∈ dims, d.stride = s := by
  have hpos : ∀ d ∈ dims, 0 < d.extent := fun d hd => Nat.lt_of_succ_lt (hextent d hd)
  have hmul : ∀ d ∈ dims, ∃ m : Nat, d.stride = m * s := by
    intro d hd
    obtain ⟨j, -, hj⟩ := (h.mem_offsets hs).mp (stride_mem_offsets hpos hd (hextent d hd))
    exact ⟨j, by rw [hj]; push_cast; ring⟩
  have hcount : 1 < count dims := by
    cases dims with
    | nil => exact absurd rfl hne
    | cons d dims =>
      have hrest : 0 < count dims := by
        rw [← length_offsets]
        exact List.length_pos_of_mem
          (zero_mem_offsets fun d' hd => hpos d' (List.mem_cons_of_mem _ hd))
      exact Nat.lt_of_lt_of_le (hextent d List.mem_cons_self) (Nat.le_mul_of_pos_right _ hrest)
  exact exists_stride hs hmul ((h.mem_offsets hs).mpr ⟨1, hcount, by simp⟩)

theorem Fills.exists_order (hs : 0 < s) (hextent : ∀ d ∈ dims, 1 < d.extent) (h : Fills s dims) :
    ∃ order : List Dim, order.Perm dims ∧ PackedFrom s order := by
  generalize hlen : dims.length = n
  induction n generalizing s dims with
  | zero =>
    rw [List.length_eq_zero_iff.mp hlen]
    exact ⟨[], .nil, trivial⟩
  | succ n ih =>
    have hne : dims ≠ [] := by
      intro hnil
      rw [hnil] at hlen
      cases hlen
    obtain ⟨d, hd, hstride⟩ := h.exists_first hs hextent hne
    obtain ⟨front, back, rfl⟩ := List.append_of_mem hd
    have hperm : (front ++ d :: back).Perm (d :: (front ++ back)) := List.perm_middle
    have hrest := (fills_cons hs hstride).mp ((fills_perm hperm).mp h)
    obtain ⟨order, horder, hpacked⟩ := ih
      (Nat.mul_pos hs (Nat.lt_of_succ_lt (hextent d hd)))
      (fun d' hd' => hextent d' (hperm.mem_iff.mpr (List.mem_cons_of_mem _ hd'))) hrest
      (by simp only [List.length_append, List.length_cons] at hlen ⊢; omega)
    exact ⟨d :: order, (horder.cons d).trans hperm.symm, hstride, hpacked⟩

/-- An array fills its bytes exactly when it is packed. -/
theorem fills_iff (hs : 0 < s) (hpos : ∀ d ∈ dims, 0 < d.extent) :
    Fills s dims ↔ Packed s dims := by
  rw [fills_filter hpos]
  constructor
  · exact fun h => h.exists_order hs fun d hd => by simpa using (List.mem_filter.mp hd).2
  · rintro ⟨order, hperm, hpacked⟩
    refine (fills_perm hperm).mp (hpacked.fills hs fun d hd => ?_)
    exact hpos d (List.mem_filter.mp (hperm.subset hd)).1

end SimpleParallel.Strides
