import SimpleParallel.Lib.Grid
import SimpleParallel.Sync.Pagemap

/-!
# Rounding areas to pages, in machine words

The conversions of `include/pagemap.h` again, with `size_t` and pointers as 64-bit words and
with the assertions of the two functions. The page size is any power of two.

* `memarea2pgrng_eq`, `memarea2innerpgrng_eq`: below the last page of the address space the
  words compute what the numbers of `Pagemap` do, and every assertion holds.
* `page_rounding`: outwards it is the smallest run of pages that covers the area, inwards the
  largest one inside it, and a run of pages is rounded to itself either way.
-/

namespace SimpleParallel.Sync.Word

open Grid

/-- `mem_area`. -/
structure Area where
  data : UInt64
  size : UInt64
  deriving DecidableEq

/-- `pte_range`. -/
structure Range where
  begin : UInt64
  count : UInt64
  deriving DecidableEq

namespace Area

/-- `&area.back()`. -/
def back (area : Area) : UInt64 := area.data + area.size - 1

/-- `std::to_address(area.end())`. -/
def last (area : Area) : UInt64 := area.data + area.size

/-- The addresses of the area. -/
def bytes (area : Area) : Set Nat := Set.Ico area.data.toNat (area.data.toNat + area.size.toNat)

def toMemArea (area : Area) : MemArea := ⟨area.data.toNat, area.size.toNat⟩

end Area

def Range.toPteRange (range : Range) : PteRange := ⟨range.begin.toNat, range.count.toNat⟩

/-- `page_size`, a power of two. -/
structure PageSize where
  bits : Nat
  bits_lt : bits < 64

namespace PageSize

def bytes (P : PageSize) : Nat := 2 ^ P.bits

/-- `page_size` as a `size_t`. -/
def word (P : PageSize) : UInt64 := .ofNat P.bytes

theorem bytes_pos (P : PageSize) : 0 < P.bytes := Nat.two_pow_pos _

theorem word_toNat (P : PageSize) : P.word.toNat = P.bytes :=
  UInt64.toNat_ofNat_of_lt' (Nat.pow_lt_pow_right (by decide) P.bits_lt)

end PageSize

/-- `BOOST_ASSERT`, which the release build leaves out. -/
def boostAssert (ndebug : Bool) (expr : String) (holds : Bool) : Except String Unit :=
  if ndebug || holds then .ok () else .error ("BOOST_ASSERT(" ++ expr ++ ")")

section

variable (P : PageSize) (ndebug : Bool)

def addr2pgnum (addr : UInt64) : UInt64 := addr / P.word

def memarea2pgrng (area : Area) : Except String Range := do
  boostAssert ndebug "area.size() != 0" (area.size != 0)
  let begin := addr2pgnum P area.data
  let last := addr2pgnum P area.back + 1
  boostAssert ndebug "begin * page_size <= reinterpret_cast<size_t>(area.data())"
    (begin * P.word ≤ area.data)
  boostAssert ndebug "(begin + 1) * page_size > reinterpret_cast<size_t>(area.data())"
    ((begin + 1) * P.word > area.data)
  boostAssert ndebug "end * page_size >= reinterpret_cast<size_t>(std::to_address(area.end()))"
    (last * P.word ≥ area.last)
  boostAssert ndebug
    "(end - 1) * page_size < reinterpret_cast<size_t>(std::to_address(area.end()))"
    ((last - 1) * P.word < area.last)
  return ⟨begin, last - begin⟩

def memarea2innerpgrng (area : Area) : Except String (Option Range) := do
  boostAssert ndebug "area.size() != 0" (area.size != 0)
  let begin := addr2pgnum P (area.data - 1) + 1
  let last := addr2pgnum P area.last
  boostAssert ndebug "begin * page_size >= reinterpret_cast<size_t>(area.data())"
    (begin * P.word ≥ area.data)
  boostAssert ndebug "(begin - 1) * page_size < reinterpret_cast<size_t>(area.data())"
    ((begin - 1) * P.word < area.data)
  boostAssert ndebug "end * page_size <= reinterpret_cast<size_t>(std::to_address(area.end()))"
    (last * P.word ≤ area.last)
  boostAssert ndebug
    "(end + 1) * page_size > reinterpret_cast<size_t>(std::to_address(area.end()))"
    ((last + 1) * P.word > area.last)
  return if begin ≥ last then none else some ⟨begin, last - begin⟩

def pgrng2memarea (range : Range) : Area := ⟨range.begin * P.word, range.count * P.word⟩

end

/-! ## Without wrapping -/

section

variable {P : PageSize} {ndebug : Bool} {area : Area} {x y : UInt64}

@[simp] theorem boostAssert_true (expr : String) : boostAssert ndebug expr true = .ok () := by
  rw [boostAssert, Bool.or_true, if_pos rfl]

theorem toNat_add_one (h : x.toNat + 1 < 2 ^ 64) : (x + 1).toNat = x.toNat + 1 := by
  rw [UInt64.toNat_add, UInt64.toNat_one]
  exact Nat.mod_eq_of_lt h

theorem toNat_sub_one (h : 0 < x.toNat) : (x - 1).toNat = x.toNat - 1 :=
  UInt64.toNat_sub_of_le _ _ (UInt64.le_iff_toNat_le.mpr h)

theorem toNat_mul_word (h : x.toNat * P.bytes < 2 ^ 64) :
    (x * P.word).toNat = x.toNat * P.bytes := by
  rw [UInt64.toNat_mul, P.word_toNat]
  exact Nat.mod_eq_of_lt h

theorem toNat_addr2pgnum : (addr2pgnum P x).toNat = x.toNat / P.bytes := by
  rw [addr2pgnum, UInt64.toNat_div, P.word_toNat]

/-- The area has a byte, does not begin at 0, and ends below the last page. -/
structure Below (P : PageSize) (area : Area) : Prop where
  data_pos : 1 ≤ area.data.toNat
  size_pos : 1 ≤ area.size.toNat
  lt_top : area.data.toNat + area.size.toNat < 2 ^ 64 - P.bytes

theorem Below.toNat_last (h : Below P area) :
    area.last.toNat = area.data.toNat + area.size.toNat := by
  have := h.lt_top
  rw [Area.last, UInt64.toNat_add]
  exact Nat.mod_eq_of_lt (by omega)

theorem Below.toNat_back (h : Below P area) :
    area.back.toNat = area.data.toNat + area.size.toNat - 1 := by
  have hpos := h.data_pos
  have hlast := h.toNat_last
  rw [← hlast]
  exact toNat_sub_one (show 0 < area.last.toNat by omega)

theorem Below.size_ne (h : Below P area) : (area.size != 0) = true := by
  have hpos := h.size_pos
  rw [bne_iff_ne]
  intro hz
  rw [hz] at hpos
  exact absurd hpos (by decide)

/-- A page begins no later than its addresses. -/
theorem mul_word_le : addr2pgnum P x * P.word ≤ x := by
  have hle : x.toNat / P.bytes * P.bytes ≤ x.toNat := Nat.div_mul_le_self _ _
  rw [UInt64.le_iff_toNat_le, toNat_mul_word, toNat_addr2pgnum]
  · exact hle
  · rw [toNat_addr2pgnum]
    exact Nat.lt_of_le_of_lt hle x.toNat_lt

theorem toNat_next (h : x.toNat + 1 < 2 ^ 64) :
    (addr2pgnum P x + 1).toNat = x.toNat / P.bytes + 1 := by
  have hle : x.toNat / P.bytes ≤ x.toNat := Nat.div_le_self _ _
  rw [toNat_add_one, toNat_addr2pgnum]
  rw [toNat_addr2pgnum]
  omega

/-- The next page begins after them. -/
theorem lt_mul_word (h : x.toNat + P.bytes < 2 ^ 64) : x < (addr2pgnum P x + 1) * P.word := by
  obtain ⟨hlo, hhi⟩ := page_bounds P.bytes_pos x.toNat
  have hpos := P.bytes_pos
  have hnext : (addr2pgnum P x + 1).toNat = Sync.addr2pgnum P.bytes x.toNat + 1 :=
    toNat_next (by omega)
  rw [UInt64.lt_iff_toNat_lt, toNat_mul_word, hnext]
  · exact hhi
  · rw [hnext, Nat.succ_mul]
    omega

/-- The address after `x` is in the page of `x`, or begins the next one. -/
theorem next_bounds {y : UInt64} (hy : y.toNat = x.toNat + 1) (h : x.toNat + P.bytes < 2 ^ 64) :
    y ≤ (addr2pgnum P x + 1) * P.word ∧ (addr2pgnum P x + 1 - 1) * P.word < y := by
  have hlt : x < (addr2pgnum P x + 1) * P.word := lt_mul_word h
  have hle : addr2pgnum P x * P.word ≤ x := mul_word_le
  rw [UInt64.lt_iff_toNat_lt] at hlt
  rw [UInt64.le_iff_toNat_le] at hle
  rw [UInt64.add_sub_cancel, UInt64.le_iff_toNat_le, UInt64.lt_iff_toNat_lt]
  omega

/-- The release build and the debug build compute the outer pages, and no assertion fails. -/
theorem Below.memarea2pgrng_ok (h : Below P area) :
    memarea2pgrng P ndebug area =
      .ok ⟨addr2pgnum P area.data, addr2pgnum P area.back + 1 - addr2pgnum P area.data⟩ := by
  have hpos := h.size_pos
  have hlt := h.lt_top
  have hlast := h.toNat_last
  have hback := h.toNat_back
  have hbegin : addr2pgnum P area.data * P.word ≤ area.data := mul_word_le
  have hbegin' : area.data < (addr2pgnum P area.data + 1) * P.word := lt_mul_word (by omega)
  obtain ⟨hend, hend'⟩ : area.last ≤ (addr2pgnum P area.back + 1) * P.word ∧
      (addr2pgnum P area.back + 1 - 1) * P.word < area.last :=
    next_bounds (by omega) (by omega)
  simp only [memarea2pgrng, h.size_ne, hbegin, hbegin', hend, hend', decide_true,
    boostAssert_true]
  rfl

/-- And so do they the inner pages. -/
theorem Below.memarea2innerpgrng_ok (h : Below P area) :
    memarea2innerpgrng P ndebug area =
      .ok (if addr2pgnum P (area.data - 1) + 1 ≥ addr2pgnum P area.last then none
        else some ⟨addr2pgnum P (area.data - 1) + 1,
          addr2pgnum P area.last - (addr2pgnum P (area.data - 1) + 1)⟩) := by
  have hpos := h.size_pos
  have hlt := h.lt_top
  have hlast := h.toNat_last
  have hpred : (area.data - 1).toNat = area.data.toNat - 1 := toNat_sub_one h.data_pos
  have hdata := h.data_pos
  obtain ⟨hbegin, hbegin'⟩ : area.data ≤ (addr2pgnum P (area.data - 1) + 1) * P.word ∧
      (addr2pgnum P (area.data - 1) + 1 - 1) * P.word < area.data :=
    next_bounds (by omega) (by omega)
  have hend : addr2pgnum P area.last * P.word ≤ area.last := mul_word_le
  have hend' : area.last < (addr2pgnum P area.last + 1) * P.word := lt_mul_word (by omega)
  simp only [memarea2innerpgrng, h.size_ne, hbegin, hbegin', hend, hend', decide_true,
    boostAssert_true]
  rfl

/-- The outer pages are those of `Pagemap`. -/
theorem Below.memarea2pgrng_eq (h : Below P area) (ndebug : Bool) :
    ∃ range, memarea2pgrng P ndebug area = .ok range ∧
      range.toPteRange = Sync.memarea2pgrng P.bytes area.toMemArea := by
  refine ⟨_, h.memarea2pgrng_ok, ?_⟩
  have hpos := h.size_pos
  have hlt := h.lt_top
  have hback := h.toNat_back
  have hlast : (addr2pgnum P area.back + 1).toNat = area.back.toNat / P.bytes + 1 :=
    toNat_next (by omega)
  have hle : area.data.toNat / P.bytes ≤ area.back.toNat / P.bytes :=
    Nat.div_le_div_right (by omega)
  have hcount : (addr2pgnum P area.back + 1 - addr2pgnum P area.data).toNat =
      area.back.toNat / P.bytes + 1 - area.data.toNat / P.bytes := by
    rw [UInt64.toNat_sub_of_le, hlast, toNat_addr2pgnum]
    rw [UInt64.le_iff_toNat_le, hlast, toNat_addr2pgnum]
    omega
  rw [Range.toPteRange, hcount, toNat_addr2pgnum, hback]
  rfl

theorem Below.toNat_innerBegin (h : Below P area) :
    (addr2pgnum P (area.data - 1) + 1).toNat = (area.data.toNat - 1) / P.bytes + 1 := by
  have hdata := h.data_pos
  have hlt := h.lt_top
  have hpred : (area.data - 1).toNat = area.data.toNat - 1 := toNat_sub_one hdata
  rw [toNat_next (by omega), hpred]

theorem Below.toNat_innerLast (h : Below P area) :
    (addr2pgnum P area.last).toNat = (area.data.toNat + area.size.toNat) / P.bytes := by
  rw [toNat_addr2pgnum, h.toNat_last]

/-- The inner pages are those of `Pagemap`. -/
theorem Below.memarea2innerpgrng_eq (h : Below P area) (ndebug : Bool) :
    ∃ inner, memarea2innerpgrng P ndebug area = .ok inner ∧
      inner.map Range.toPteRange = Sync.memarea2innerpgrng P.bytes area.toMemArea := by
  refine ⟨_, h.memarea2innerpgrng_ok, ?_⟩
  have hdata := h.data_pos
  have hlt := h.lt_top
  have hpred : wrap (area.data.toNat + 2 ^ 64 - 1) = area.data.toNat - 1 := by
    unfold wrap
    omega
  have hend : wrap (area.data.toNat + area.size.toNat) = area.data.toNat + area.size.toNat :=
    Nat.mod_eq_of_lt (by omega)
  rw [Area.toMemArea, Sync.memarea2innerpgrng]
  simp only [Sync.addr2pgnum, hpred, hend, ← h.toNat_innerBegin, ← h.toNat_innerLast, ge_iff_le,
    ← UInt64.le_iff_toNat_le]
  split
  · rfl
  · next hnot =>
    rw [Option.map_some, Range.toPteRange,
      UInt64.toNat_sub_of_le _ _ (UInt64.le_of_lt (UInt64.not_le.mp hnot))]

end

/-! ## Extremality -/

/-- The range has a page, and its bytes are those of an area below the last page. -/
structure Range.Below (P : PageSize) (r : Range) : Prop where
  begin_pos : 1 ≤ r.begin.toNat * P.bytes
  count_pos : 1 ≤ r.count.toNat
  lt_top : (r.begin.toNat + r.count.toNat) * P.bytes < 2 ^ 64 - P.bytes

section

variable {P : PageSize} {ndebug : Bool} {area : Area} {r : Range}

/-- The pages of a range that does not wrap are a run of cells. -/
theorem bytes_pgrng2memarea (h : (r.begin.toNat + r.count.toNat) * P.bytes < 2 ^ 64) :
    (pgrng2memarea P r).bytes = run P.bytes r.begin.toNat (r.begin.toNat + r.count.toNat) := by
  rw [Nat.add_mul] at h
  rw [Area.bytes, pgrng2memarea, toNat_mul_word (by omega), toNat_mul_word (by omega), run,
    Nat.add_mul]

/-- Where the outer pages begin and end. -/
theorem Below.outer_ends (h : Below P area) (hr : memarea2pgrng P ndebug area = .ok r) :
    r.begin.toNat = area.data.toNat / P.bytes ∧ r.begin.toNat + r.count.toNat =
      (area.data.toNat + area.size.toNat) ⌈/⌉ P.bytes := by
  have hpos := h.size_pos
  obtain ⟨range, hok, hpages⟩ := h.memarea2pgrng_eq ndebug
  obtain rfl : range = r := Except.ok.inj (hok.symm.trans hr)
  have hbegin : range.begin.toNat = area.data.toNat / P.bytes := congrArg PteRange.begin hpages
  have hcount : range.count.toNat = (area.data.toNat + area.size.toNat - 1) / P.bytes + 1 -
      area.data.toNat / P.bytes := congrArg PteRange.count hpages
  have hle : area.data.toNat / P.bytes ≤ (area.data.toNat + area.size.toNat - 1) / P.bytes :=
    Nat.div_le_div_right (by omega)
  refine ⟨hbegin, ?_⟩
  rw [← sub_one_div_add_one P.bytes_pos (by omega), hbegin, hcount]
  omega

/-- There are inner pages exactly when their ends have not crossed. -/
theorem Below.inner_none_iff (h : Below P area) (ndebug : Bool) :
    memarea2innerpgrng P ndebug area = .ok none ↔
      ¬ area.data.toNat ⌈/⌉ P.bytes < (area.data.toNat + area.size.toNat) / P.bytes := by
  rw [h.memarea2innerpgrng_ok, ← sub_one_div_add_one P.bytes_pos h.data_pos, ← h.toNat_innerBegin,
    ← h.toNat_innerLast, Nat.not_lt, ← UInt64.le_iff_toNat_le]
  split
  · next hge => exact iff_of_true rfl hge
  · next hnot => exact iff_of_false nofun hnot

/-- Where they begin and end, if there are any. -/
theorem Below.inner_ends (h : Below P area)
    (hr : memarea2innerpgrng P ndebug area = .ok (some r)) :
    r.begin.toNat = area.data.toNat ⌈/⌉ P.bytes ∧ r.begin.toNat + r.count.toNat =
      (area.data.toNat + area.size.toNat) / P.bytes := by
  have hbegin := h.toNat_innerBegin
  have hlast := h.toNat_innerLast
  rw [h.memarea2innerpgrng_ok] at hr
  have hok := Except.ok.inj hr
  split at hok
  · cases hok
  · next hnot =>
    cases hok
    have hle := UInt64.le_of_lt (UInt64.not_le.mp hnot)
    rw [sub_one_div_add_one P.bytes_pos h.data_pos] at hbegin
    refine ⟨hbegin, ?_⟩
    rw [UInt64.toNat_sub_of_le _ _ hle, Nat.add_sub_cancel' (UInt64.le_iff_toNat_le.mp hle), hlast]

/-- The outer pages cover the area and end in the address space. -/
theorem Below.outer_bytes (h : Below P area) (hr : memarea2pgrng P ndebug area = .ok r) :
    (pgrng2memarea P r).bytes = run P.bytes (area.data.toNat / P.bytes)
      ((area.data.toNat + area.size.toNat) ⌈/⌉ P.bytes) := by
  have hpos := h.size_pos
  have hlt := h.lt_top
  obtain ⟨hbegin, hend⟩ := h.outer_ends hr
  have hle := Nat.div_mul_le_self (area.data.toNat + area.size.toNat - 1) P.bytes
  rw [bytes_pgrng2memarea, hend, hbegin]
  rw [hend, ← sub_one_div_add_one P.bytes_pos (by omega), Nat.succ_mul]
  omega

theorem Below.inner_bytes (h : Below P area)
    (hr : memarea2innerpgrng P ndebug area = .ok (some r)) :
    (pgrng2memarea P r).bytes = run P.bytes (area.data.toNat ⌈/⌉ P.bytes)
      ((area.data.toNat + area.size.toNat) / P.bytes) := by
  have hlt := h.lt_top
  obtain ⟨hbegin, hend⟩ := h.inner_ends hr
  have hle := Nat.div_mul_le_self (area.data.toNat + area.size.toNat) P.bytes
  rw [bytes_pgrng2memarea, hend, hbegin]
  rw [hend]
  omega

/-! ## Ranges of pages -/

theorem Range.ext_toNat {r' : Range} (hbegin : r.begin.toNat = r'.begin.toNat)
    (hend : r.begin.toNat + r.count.toNat = r'.begin.toNat + r'.count.toNat) : r = r' := by
  cases r
  cases r'
  rw [Range.mk.injEq, ← UInt64.toNat_inj, ← UInt64.toNat_inj]
  exact ⟨hbegin, by simp only at hbegin hend; omega⟩

theorem Range.Below.data (h : r.Below P) :
    (pgrng2memarea P r).data.toNat = r.begin.toNat * P.bytes := by
  have hlt := h.lt_top
  rw [Nat.add_mul] at hlt
  exact toNat_mul_word (by omega)

theorem Range.Below.last (h : r.Below P) :
    (pgrng2memarea P r).data.toNat + (pgrng2memarea P r).size.toNat =
      (r.begin.toNat + r.count.toNat) * P.bytes := by
  have hlt := h.lt_top
  rw [Nat.add_mul] at hlt ⊢
  rw [h.data, pgrng2memarea, toNat_mul_word (by omega)]

theorem Range.Below.memArea (h : r.Below P) : Word.Below P (pgrng2memarea P r) where
  data_pos := by
    rw [h.data]
    exact h.begin_pos
  size_pos := by
    have hcount := Nat.mul_pos h.count_pos P.bytes_pos
    have hlast := h.last
    rw [h.data, Nat.add_mul] at hlast
    omega
  lt_top := by
    rw [h.last]
    exact h.lt_top

/-- A range of pages is its own outer pages. -/
theorem Range.Below.outer_self (h : r.Below P) :
    memarea2pgrng P ndebug (pgrng2memarea P r) = .ok r := by
  obtain ⟨r', hr', -⟩ := h.memArea.memarea2pgrng_eq ndebug
  obtain ⟨hbegin, hend⟩ := h.memArea.outer_ends hr'
  rw [h.data, Nat.mul_div_cancel _ P.bytes_pos] at hbegin
  rw [h.last, mul_ceilDiv P.bytes_pos] at hend
  rw [hr', Range.ext_toNat hbegin hend]

/-- And its own inner pages. -/
theorem Range.Below.inner_self (h : r.Below P) :
    memarea2innerpgrng P ndebug (pgrng2memarea P r) = .ok (some r) := by
  obtain ⟨inner, hinner, -⟩ := h.memArea.memarea2innerpgrng_eq ndebug
  cases inner with
  | none =>
    have hpos := h.count_pos
    refine absurd ?_ ((h.memArea.inner_none_iff ndebug).mp hinner)
    rw [h.last, h.data, mul_ceilDiv P.bytes_pos, Nat.mul_div_cancel _ P.bytes_pos]
    omega
  | some r' =>
    obtain ⟨hbegin, hend⟩ := h.memArea.inner_ends hinner
    rw [h.data, mul_ceilDiv P.bytes_pos] at hbegin
    rw [h.last, Nat.mul_div_cancel _ P.bytes_pos] at hend
    rw [hinner, Range.ext_toNat hbegin hend]

end

/-- Outwards an area is rounded to the smallest run of pages that covers it, inwards to the
largest one inside it, if it contains a page. Ranges of pages stay what they are. In a debug
build no assertion fails. -/
theorem page_rounding (P : PageSize) (ndebug : Bool) :
    (∀ area : Area, Below P area → ∃ outer inner,
      memarea2pgrng P ndebug area = .ok outer ∧ memarea2innerpgrng P ndebug area = .ok inner ∧
      IsLeast {s | IsRun P.bytes s ∧ area.bytes ⊆ s} (pgrng2memarea P outer).bytes ∧
      (∀ r, inner = some r →
        IsGreatest {s | IsRun P.bytes s ∧ s ⊆ area.bytes} (pgrng2memarea P r).bytes) ∧
      (inner = none ↔ ¬ ∃ p, run P.bytes p (p + 1) ⊆ area.bytes)) ∧
    ∀ r : Range, r.Below P →
      memarea2pgrng P ndebug (pgrng2memarea P r) = .ok r ∧
      memarea2innerpgrng P ndebug (pgrng2memarea P r) = .ok (some r) := by
  refine ⟨fun area h => ?_, fun r h => ⟨h.outer_self, h.inner_self⟩⟩
  obtain ⟨outer, houter, -⟩ := h.memarea2pgrng_eq ndebug
  obtain ⟨inner, hinner, -⟩ := h.memarea2innerpgrng_eq ndebug
  have hpos := h.size_pos
  refine ⟨outer, inner, houter, hinner, ?_, fun r hr => ?_, ?_⟩
  · rw [h.outer_bytes houter]
    exact outer_isLeast P.bytes_pos (by omega)
  · subst hr
    rw [h.inner_bytes hinner]
    exact inner_isGreatest P.bytes_pos
  · rw [Area.bytes, exists_cell_iff P.bytes_pos, ← h.inner_none_iff ndebug, hinner,
      Except.ok.injEq]

/-- Pages of 4 KiB. -/
def fourKiB : PageSize := ⟨12, by decide⟩

/-- An area from the middle of page 1 to the middle of page 3, and pages 1 to 3. -/
theorem page_rounding_fourKiB : ∃ outer,
    memarea2pgrng fourKiB false ⟨5000, 10000⟩ = .ok outer ∧
      IsLeast {s | IsRun fourKiB.bytes s ∧ (⟨5000, 10000⟩ : Area).bytes ⊆ s}
        (pgrng2memarea fourKiB outer).bytes ∧
      memarea2innerpgrng fourKiB false (pgrng2memarea fourKiB ⟨1, 3⟩) = .ok (some ⟨1, 3⟩) := by
  obtain ⟨hareas, hranges⟩ := page_rounding fourKiB false
  obtain ⟨outer, -, houter, -, hleast, -⟩ :=
    hareas ⟨5000, 10000⟩ ⟨by decide, by decide, by decide⟩
  exact ⟨outer, houter, hleast, (hranges ⟨1, 3⟩ ⟨by decide, by decide, by decide⟩).2⟩

example : memarea2innerpgrng fourKiB false ⟨5000, 10000⟩ = .ok (some ⟨2, 1⟩) := by decide

end SimpleParallel.Sync.Word
