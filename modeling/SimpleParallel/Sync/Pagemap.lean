import Mathlib.Tactic.Linarith
import SimpleParallel.Lib.Bytes

/-!
# Memory areas, pages and page table entries

`include/pagemap.h` with the types of `cxx/types_fwd.h`: memory areas, page
ranges, the conversions between them and the bits of an entry of
`/proc/self/pagemap`. Addresses are 64-bit (`wrap`), and the page size is a
power of two fixed when the library is built.

* `mem_memarea2pgrng_iff`: the pages of an area are those that overlap it.
* `mem_inner_iff`: the inner pages of an area are those wholly inside it.
-/

namespace SimpleParallel.Sync

/-- `mem_area`, a `std::span<char>`. -/
structure MemArea where
  data : Nat
  size : Nat
  deriving DecidableEq

/-- `pte_range`. -/
structure PteRange where
  begin : Nat
  count : Nat
  deriving DecidableEq

/-- A number in a `size_t` or a pointer. -/
def wrap (n : Nat) : Nat := n % 2 ^ 64

namespace MemArea

/-- The address of `back()`. -/
def back (area : MemArea) : Nat := area.data + area.size - 1

/-- The address `x` lies in the area. -/
def Mem (x : Nat) (area : MemArea) : Prop := area.data ≤ x ∧ x < area.data + area.size

instance (x : Nat) (area : MemArea) : Decidable (area.Mem x) :=
  inferInstanceAs (Decidable (_ ∧ _))

end MemArea

/-- The page `p` lies in the range. -/
def PteRange.Mem (p : Nat) (r : PteRange) : Prop := r.begin ≤ p ∧ p < r.begin + r.count

instance (p : Nat) (r : PteRange) : Decidable (r.Mem p) := inferInstanceAs (Decidable (_ ∧ _))

/-- `mem_area_overlap`. -/
def memAreaOverlap (lhs rhs : MemArea) : Bool :=
  decide (lhs.back ≥ rhs.data ∧ lhs.data ≤ rhs.back)

/-- `pte_range_overlap`. -/
def pteRangeOverlap (lhs rhs : PteRange) : Bool :=
  decide (lhs.begin + lhs.count > rhs.begin ∧ lhs.begin < rhs.begin + rhs.count)

theorem memAreaOverlap_iff {lhs rhs : MemArea} (hl : 0 < lhs.size) (hr : 0 < rhs.size) :
    memAreaOverlap lhs rhs = true ↔ ∃ x, lhs.Mem x ∧ rhs.Mem x := by
  unfold memAreaOverlap
  rw [decide_eq_true_iff]
  simp only [MemArea.back, MemArea.Mem]
  constructor
  · rintro ⟨h1, h2⟩
    rcases Nat.le_total lhs.data rhs.data with h | h
    · exact ⟨rhs.data, by omega, by omega⟩
    · exact ⟨lhs.data, by omega, by omega⟩
  · rintro ⟨x, hx, hy⟩
    omega

theorem pteRangeOverlap_of_mem {lhs rhs : PteRange} {p : Nat} (hl : lhs.Mem p) (hr : rhs.Mem p) :
    pteRangeOverlap lhs rhs = true := by
  unfold pteRangeOverlap
  rw [decide_eq_true_iff]
  simp only [PteRange.Mem] at hl hr
  omega

/-! ## Pages -/

section Pages

variable (pageSize : Nat)

/-- `addr2pgnum`. -/
def addr2pgnum (addr : Nat) : Nat := addr / pageSize

/-- `memarea2pgrng`. -/
def memarea2pgrng (area : MemArea) : PteRange :=
  let begin := addr2pgnum pageSize area.data
  let last := addr2pgnum pageSize area.back + 1
  ⟨begin, last - begin⟩

/-- `memarea2innerpgrng`: the pages wholly inside the area. -/
def memarea2innerpgrng (area : MemArea) : Option PteRange :=
  let begin := addr2pgnum pageSize (wrap (area.data + 2 ^ 64 - 1)) + 1
  let last := addr2pgnum pageSize (wrap (area.data + area.size))
  if begin ≥ last then none else some ⟨begin, last - begin⟩

/-- `pgrng2memarea`. -/
def pgrng2memarea (range : PteRange) : MemArea :=
  ⟨wrap (range.begin * pageSize), wrap (range.count * pageSize)⟩

variable {pageSize} {area : MemArea} {p x : Nat}

theorem mem_memarea2pgrng (hx : area.Mem x) :
    (memarea2pgrng pageSize area).Mem (addr2pgnum pageSize x) := by
  have hlo : area.data / pageSize ≤ x / pageSize := Nat.div_le_div_right hx.1
  have hhi : x / pageSize ≤ (area.data + area.size - 1) / pageSize :=
    Nat.div_le_div_right (by have := hx.2; omega)
  simp only [memarea2pgrng, addr2pgnum, PteRange.Mem, MemArea.back]
  omega

/-- The pages of an area are those that overlap it. -/
theorem mem_memarea2pgrng_iff (hsize : 0 < area.size) :
    (memarea2pgrng pageSize area).Mem p ↔ ∃ x, addr2pgnum pageSize x = p ∧ area.Mem x := by
  constructor
  · rintro ⟨hlo, hhi⟩
    simp only [memarea2pgrng, addr2pgnum, MemArea.back] at hlo hhi
    have hle : area.data / pageSize ≤ (area.data + area.size - 1) / pageSize :=
      Nat.div_le_div_right (by omega)
    -- the first byte, unless the area begins on an earlier page
    by_cases hfirst : area.data / pageSize = p
    · exact ⟨area.data, hfirst, Nat.le_refl _, by omega⟩
    · have hps : 0 < pageSize := Nat.pos_of_ne_zero fun h0 => by
        simp only [h0, Nat.div_zero] at hlo hhi hfirst
        omega
      have hdata : area.data < p * pageSize := (Nat.div_lt_iff_lt_mul hps).mp (by omega)
      have hback : p * pageSize ≤ area.data + area.size - 1 :=
        (Nat.le_div_iff_mul_le hps).mp (by omega)
      exact ⟨p * pageSize, Nat.mul_div_cancel p hps, Nat.le_of_lt hdata, by omega⟩
  · rintro ⟨x, rfl, hx⟩
    exact mem_memarea2pgrng hx

theorem page_bounds (hps : 0 < pageSize) (x : Nat) :
    addr2pgnum pageSize x * pageSize ≤ x ∧ x < (addr2pgnum pageSize x + 1) * pageSize := by
  unfold addr2pgnum
  constructor
  · exact Nat.div_mul_le_self x pageSize
  · rw [Nat.add_mul, Nat.one_mul]
    exact Nat.lt_div_mul_add hps

/-- Every byte of an inner page belongs to the area. -/
theorem inner_subset (hps : 0 < pageSize) (hdata : area.data < 2 ^ 64) {r : PteRange}
    (hr : memarea2innerpgrng pageSize area = some r) (hx : r.Mem (addr2pgnum pageSize x)) :
    area.Mem x := by
  obtain ⟨hlo, hhi⟩ := page_bounds hps x
  revert hr
  simp only [memarea2innerpgrng]
  split
  · nofun
  · next hlt =>
    intro hr
    cases hr
    simp only [PteRange.Mem] at hx
    obtain ⟨hx1, hx2⟩ := hx
    generalize hq : addr2pgnum pageSize x = q at *
    have hend : q + 1 ≤ wrap (area.data + area.size) / pageSize := by
      unfold addr2pgnum at hx1 hx2 hlt
      omega
    have hend' : (q + 1) * pageSize ≤ wrap (area.data + area.size) :=
      Nat.mul_le_of_le_div pageSize _ _ hend
    have hwrap : wrap (area.data + area.size) ≤ area.data + area.size := Nat.mod_le _ _
    have hbegin : wrap (area.data + 2 ^ 64 - 1) / pageSize < q := hx1
    have hbegin' : wrap (area.data + 2 ^ 64 - 1) < q * pageSize :=
      (Nat.div_lt_iff_lt_mul hps).mp hbegin
    -- the predecessor of address zero wraps to the top, beyond every page
    have hpred : area.data ≤ wrap (area.data + 2 ^ 64 - 1) + 1 := by
      unfold wrap
      omega
    exact ⟨by omega, by omega⟩

/-- The inner pages of an area are those that lie wholly inside it. -/
theorem mem_inner_iff (hps : 0 < pageSize) (hdata : 0 < area.data)
    (htop : area.data + area.size < 2 ^ 64) :
    (∃ r, memarea2innerpgrng pageSize area = some r ∧ r.Mem p) ↔
      ∀ x, addr2pgnum pageSize x = p → area.Mem x := by
  constructor
  · rintro ⟨r, hr, hp⟩ x rfl
    exact inner_subset hps (by omega) hr hp
  · intro h
    have hpage : addr2pgnum pageSize (p * pageSize) = p := Nat.mul_div_cancel p hps
    have hlast : addr2pgnum pageSize (p * pageSize + (pageSize - 1)) = p := by
      rw [addr2pgnum, Nat.add_comm, Nat.add_mul_div_right _ _ hps,
        Nat.div_eq_of_lt (Nat.sub_lt hps Nat.one_pos), Nat.zero_add]
    obtain ⟨hlo, -⟩ := h _ hpage
    obtain ⟨-, hhi⟩ := h _ hlast
    have hpred : wrap (area.data + 2 ^ 64 - 1) = area.data - 1 := by
      unfold wrap
      omega
    have hend : wrap (area.data + area.size) = area.data + area.size := Nat.mod_eq_of_lt htop
    have hbegin : (area.data - 1) / pageSize < p := (Nat.div_lt_iff_lt_mul hps).mpr (by omega)
    have hcount : p + 1 ≤ (area.data + area.size) / pageSize :=
      (Nat.le_div_iff_mul_le hps).mpr (by rw [Nat.add_mul]; omega)
    have hne : ¬ (area.data - 1) / pageSize + 1 ≥ (area.data + area.size) / pageSize := by omega
    simp only [memarea2innerpgrng, hpred, hend, addr2pgnum, if_neg hne]
    refine ⟨_, rfl, ?_, ?_⟩
    · exact hbegin
    · show p < _
      dsimp only
      omega

end Pages

/-! ## Page table entries -/

/-- `pte`: an entry of `/proc/self/pagemap`. -/
abbrev Pte := BitVec 64

namespace Pte

def dirtyBit : BitVec 64 := 1#64 <<< 55
def presentBit : BitVec 64 := 1#64 <<< 63
def swapBit : BitVec 64 := 1#64 <<< 62

/-- This page is written since the last `clear_soft_dirty`. -/
def isDirty (entry : Pte) : Bool := (entry &&& dirtyBit) != 0

def isPresent (entry : Pte) : Bool := (entry &&& presentBit) != 0

def isSwapped (entry : Pte) : Bool := (entry &&& swapBit) != 0

/-- This page is present in memory or swapped. -/
def isTouched (entry : Pte) : Bool := isPresent entry || isSwapped entry

/-- The entry of a page that was just written. -/
def written (entry : Pte) : Pte := entry ||| dirtyBit ||| presentBit

/-- The entry after `clear_soft_dirty`. -/
def clean (entry : Pte) : Pte := entry &&& ~~~ dirtyBit

theorem isDirty_written (e : Pte) : isDirty (written e) = true := by
  have hand : written e &&& dirtyBit = dirtyBit := by
    ext i
    simp only [written, BitVec.getElem_and, BitVec.getElem_or]
    grind
  rw [isDirty, hand]
  decide

theorem isTouched_written (e : Pte) : isTouched (written e) = true := by
  have hand : written e &&& presentBit = presentBit := by
    ext i
    simp only [written, BitVec.getElem_and, BitVec.getElem_or]
    grind
  rw [isTouched, isPresent, hand]
  rfl

theorem isTouched_clean (e : Pte) : isTouched (clean e) = isTouched e := by
  have hpresent : clean e &&& presentBit = e &&& presentBit := by
    rw [clean, BitVec.and_assoc]
    rfl
  have hswap : clean e &&& swapBit = e &&& swapBit := by
    rw [clean, BitVec.and_assoc]
    rfl
  rw [isTouched, isPresent, isSwapped, hpresent, hswap]
  rfl

theorem isDirty_clean (e : Pte) : isDirty (clean e) = false := by
  have hand : clean e &&& dirtyBit = 0 := by
    rw [clean, BitVec.and_assoc, show ~~~ dirtyBit &&& dirtyBit = 0#64 by decide]
    exact BitVec.and_zero
  rw [isDirty, hand]
  rfl

theorem isTouched_zero : isTouched 0 = false := by decide

/-- A number below a bit does not have it. -/
theorem and_shift_of_lt {v k : Nat} (h : v < 2 ^ k) : BitVec.ofNat 64 v &&& 1#64 <<< k = 0#64 := by
  ext i hi
  have hget : (BitVec.ofNat 64 v)[i] = v.testBit i := by
    rw [← BitVec.getLsbD_eq_getElem, BitVec.getLsbD_ofNat, decide_eq_true hi, Bool.true_and]
  have hbit : k ≤ i → v.testBit i = false := fun hle =>
    Nat.testBit_lt_two_pow (Nat.lt_of_lt_of_le h (Nat.pow_le_pow_right (by decide) hle))
  rw [BitVec.getElem_and, hget]
  by_cases hle : k ≤ i
  · rw [hbit hle, Bool.false_and, BitVec.getElem_zero]
  · simp [hle]

theorem isTouched_of_lt {v : Nat} (h : v < 2 ^ 56) : isTouched (.ofNat 64 v) = false := by
  have hpresent : BitVec.ofNat 64 v &&& presentBit = 0#64 :=
    and_shift_of_lt (Nat.lt_trans h (by decide))
  have hswap : BitVec.ofNat 64 v &&& swapBit = 0#64 :=
    and_shift_of_lt (Nat.lt_trans h (by decide))
  rw [isTouched, isPresent, isSwapped, hpresent, hswap]
  rfl

end Pte

end SimpleParallel.Sync
