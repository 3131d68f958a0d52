import SimpleParallel.Lib.Loops
import SimpleParallel.Lib.IntervalSet
import SimpleParallel.Sync.Pagemap

/-!
# The scan for dirty and zero pages

`get_zero_and_dirty_pages` of `leader.cc`: it collects the pages of all blocks
of the registered heaps, reads their page table entries, and sorts the dirty
and touched ones, less those wholly inside a reduce area, by whether they read
all zero.

* `isZeroedPgSimd_iff`: the vector test finds exactly the zero pages.
* `mem_dirty`, `mem_zero`: which pages the two sets hold.
-/

namespace SimpleParallel.Sync

open Loops

/-- The page size, and the number of 64-bit lanes of a vector. -/
structure PageFormat where
  pageBits : Nat
  pageBits_ge : 3 ≤ pageBits
  lanes : Nat
  lanes_pos : 0 < lanes
  lanes_dvd : lanes ∣ 2 ^ (pageBits - 3)

namespace PageFormat

def pageSize (f : PageFormat) : Nat := 2 ^ f.pageBits

/-- `page_size / sizeof(uint64_t)`. -/
def words (f : PageFormat) : Nat := f.pageSize / 8

theorem pageSize_pos (f : PageFormat) : 0 < f.pageSize := Nat.two_pow_pos _

theorem pageSize_eq (f : PageFormat) : f.pageSize = 8 * f.words := by
  have h8 : (8 : Nat) ∣ f.pageSize := Nat.pow_dvd_pow 2 f.pageBits_ge
  rw [words, Nat.mul_div_cancel' h8]

theorem lanes_dvd_words (f : PageFormat) : f.lanes ∣ f.words := by
  have : f.words = 2 ^ (f.pageBits - 3) := by
    rw [words, pageSize, ← Nat.pow_div f.pageBits_ge (by decide)]
  rw [this]
  exact f.lanes_dvd

end PageFormat

/-! ## The zero test -/

/-- The 64-bit word at an address. -/
def loadWord (m : Mem) (a : Nat) : BitVec 64 :=
  (m (a + 7)).toBitVec ++ (m (a + 6)).toBitVec ++ (m (a + 5)).toBitVec ++ (m (a + 4)).toBitVec ++
    (m (a + 3)).toBitVec ++ (m (a + 2)).toBitVec ++ (m (a + 1)).toBitVec ++ (m a).toBitVec

theorem append_eq_zero {n k : Nat} (x : BitVec n) (y : BitVec k) :
    x ++ y = 0#(n + k) ↔ x = 0#n ∧ y = 0#k := by
  constructor
  · intro h
    constructor
    · ext i hi
      have := congrArg (fun v => v.getLsbD (k + i)) h
      simpa [BitVec.getLsbD_append, hi] using this
    · ext i hi
      have := congrArg (fun v => v.getLsbD i) h
      simpa [BitVec.getLsbD_append, hi] using this
  · rintro ⟨rfl, rfl⟩
    simp

theorem loadWord_eq_zero {m : Mem} {a : Nat} :
    loadWord m a = 0 ↔ ∀ i < 8, m (a + i) = 0 := by
  have hbyte : ∀ b : UInt8, b.toBitVec = 0#8 ↔ b = 0 := fun b => by
    rw [← UInt8.toBitVec_inj]
    rfl
  show (_ ++ _ : BitVec (8 + 8 + 8 + 8 + 8 + 8 + 8 + 8)) = 0#_ ↔ _
  simp only [append_eq_zero, hbyte]
  constructor
  · rintro ⟨⟨⟨⟨⟨⟨⟨h7, h6⟩, h5⟩, h4⟩, h3⟩, h2⟩, h1⟩, h0⟩ i hi
    have : i = 0 ∨ i = 1 ∨ i = 2 ∨ i = 3 ∨ i = 4 ∨ i = 5 ∨ i = 6 ∨ i = 7 := by omega
    rcases this with rfl | rfl | rfl | rfl | rfl | rfl | rfl | rfl <;> assumption
  · intro h
    exact ⟨⟨⟨⟨⟨⟨⟨h 7 (by omega), h 6 (by omega)⟩, h 5 (by omega)⟩, h 4 (by omega)⟩,
      h 3 (by omega)⟩, h 2 (by omega)⟩, h 1 (by omega)⟩, h 0 (by omega)⟩

/-- `is_zeroed_pg_simd`: a fast test of two words, then the or of all vectors,
lane by lane. -/
def isZeroedPgSimd (f : PageFormat) (m : Mem) (pageNum : Nat) : Bool :=
  let begin := wrap (f.pageSize * pageNum)
  let half := f.words / 2
  if loadWord m begin ≠ 0 ∨ loadWord m (begin + 8 * half) ≠ 0 then false
  else
    let res := (chunks f.lanes f.words).foldl
      (fun (res : Nat → BitVec 64) c lane => res lane ||| loadWord m (begin + 8 * (c.1 + lane)))
      fun _ => 0
    (List.range f.lanes).all fun lane => res lane == 0

/-- An or over a loop is zero exactly if all its terms are. -/
theorem foldl_or_eq_zero {α : Type*} (l : List α) (term : α → Nat → BitVec 64)
    (res : Nat → BitVec 64) (lane : Nat) :
    l.foldl (fun (res : Nat → BitVec 64) c lane => res lane ||| term c lane) res lane = 0 ↔
      res lane = 0 ∧ ∀ c ∈ l, term c lane = 0 := by
  induction l generalizing res with
  | nil => simp
  | cons c l ih =>
    rw [List.foldl_cons, ih]
    have hor : res lane ||| term c lane = 0 ↔ res lane = 0 ∧ term c lane = 0 := by
      constructor
      · intro h
        constructor <;>
        · ext i hi
          have := congrArg (fun v => v.getLsbD i) h
          simp_all
      · rintro ⟨h1, h2⟩
        simp [h1, h2]
    rw [hor, List.forall_mem_cons, and_assoc]

/-- The page `p` reads all zero. -/
def ZeroPage (f : PageFormat) (m : Mem) (p : Nat) : Prop :=
  ∀ x, addr2pgnum f.pageSize x = p → m x = 0

section ZeroTest

variable {f : PageFormat} {m : Mem} {p : Nat}

/-- A page reads zero exactly if its words are zero. -/
theorem zeroPage_iff_words :
    ZeroPage f m p ↔ ∀ w < f.words, loadWord m (f.pageSize * p + 8 * w) = 0 := by
  have hsize := f.pageSize_eq
  have hpos := f.pageSize_pos
  constructor
  · intro h w hw
    refine loadWord_eq_zero.mpr fun i hi => h _ ?_
    have hlt : 8 * w + i < f.pageSize := by omega
    rw [addr2pgnum, Nat.add_assoc, Nat.mul_add_div hpos, Nat.div_eq_of_lt hlt, Nat.add_zero]
  · intro h x hx
    -- the byte's offset in the page, split into its word and its place there
    obtain ⟨hlo, hhi⟩ := page_bounds hpos x
    rw [hx, Nat.mul_comm] at hlo
    rw [hx, Nat.add_mul, Nat.one_mul, Nat.mul_comm] at hhi
    have hw : (x - f.pageSize * p) / 8 < f.words := by omega
    have hbyte := loadWord_eq_zero.mp (h _ hw) ((x - f.pageSize * p) % 8) (Nat.mod_lt _ (by decide))
    have haddr : f.pageSize * p + 8 * ((x - f.pageSize * p) / 8) + (x - f.pageSize * p) % 8 = x := by
      have := Nat.div_add_mod (x - f.pageSize * p) 8
      omega
    rwa [haddr] at hbyte

/-- All lanes of the or of all vectors are zero exactly if all words are. -/
theorem lanes_zero_iff (word : Nat → BitVec 64) :
    (∀ lane < f.lanes, ∀ c ∈ chunks f.lanes f.words, word (c.1 + lane) = 0) ↔
      ∀ w < f.words, word w = 0 := by
  constructor
  · intro h w hw
    obtain ⟨c, hc, hlo, hhi⟩ := exists_chunk f.lanes_pos (Nat.zero_le w) hw
    have hlen := (chunk_bounds f.lanes_pos hc).2.2.1
    have := h (w - c.1) (by omega) c hc
    rwa [Nat.add_sub_cancel' hlo] at this
  · intro h lane hlane c hc
    have := chunk_full f.lanes_pos (Nat.dvd_zero _) f.lanes_dvd_words hc
    exact h _ (by omega)

/-- The vector test finds exactly the pages that read zero. -/
theorem isZeroedPgSimd_iff (hp : f.pageSize * p < 2 ^ 64) :
    isZeroedPgSimd f m p = true ↔ ZeroPage f m p := by
  have hpos := f.pageSize_pos
  have hbegin : wrap (f.pageSize * p) = f.pageSize * p := Nat.mod_eq_of_lt hp
  have hwords : 0 < f.words := by
    have := f.pageSize_eq
    omega
  rw [zeroPage_iff_words, ← lanes_zero_iff]
  simp only [isZeroedPgSimd, hbegin]
  split
  · next hfast =>
    -- the fast test looks at two of the words
    refine ⟨nofun, fun h => ?_⟩
    have hall := (lanes_zero_iff (f := f) fun w => loadWord m (f.pageSize * p + 8 * w)).mp h
    rcases hfast with h1 | h2
    · exact absurd (hall 0 hwords) h1
    · exact absurd (hall (f.words / 2) (by omega)) h2
  · simp only [List.all_eq_true, List.mem_range, beq_iff_eq]
    refine forall_congr' fun lane => forall_congr' fun _ => ?_
    have hor := foldl_or_eq_zero (chunks f.lanes f.words)
      (fun c lane => loadWord m (f.pageSize * p + 8 * (c.1 + lane))) (fun _ => 0) lane
    simpa using hor

end ZeroTest

/-! ## The scan -/

/-- `visit_block` over the blocks of the registered heaps. -/
def visitBlocks (f : PageFormat) (blocks : List MemArea) : IntervalSet :=
  blocks.foldl (fun mallocPages block =>
    let pteRange := memarea2pgrng f.pageSize block
    mallocPages.add ⟨pteRange.begin, pteRange.begin + pteRange.count⟩) IntervalSet.empty

/-- `get_pte` of a range: one entry per page. -/
def getPte (pte : Nat → Pte) (range : PteRange) : List Pte :=
  (List.range range.count).map fun i => pte (range.begin + i)

/-- The two results of the scan. -/
structure PageSets where
  dirty : IntervalSet
  zero : IntervalSet

/-- The body of the inner loop. -/
def scanPage (f : PageFormat) (m : Mem) (overlapReduceRngs : List PteRange) (sets : PageSets)
    (pageNum : Nat) (entry : Pte) : PageSets :=
  if !entry.isDirty then sets
  else if !entry.isTouched then sets
  -- pages in reduce areas are initialised on the worker
  else if overlapReduceRngs.any (fun r => r.Mem pageNum) then sets
  else if isZeroedPgSimd f m pageNum then
    { sets with zero := sets.zero.add ⟨pageNum, pageNum + 1⟩ }
  else { sets with dirty := sets.dirty.add ⟨pageNum, pageNum + 1⟩ }

/-- The body of the outer loop. -/
def scanRange (f : PageFormat) (m : Mem) (pte : Nat → Pte) (innerPages : List (Option PteRange))
    (sets : PageSets) (pageRange : HalfOpen) : PageSets :=
  let pgs : PteRange := ⟨pageRange.lower, pageRange.upper - pageRange.lower⟩
  let overlapReduceRngs := innerPages.filterMap fun reduceRng =>
    reduceRng.filter fun r => pteRangeOverlap r pgs
  let ptes := getPte pte pgs
  (List.range pgs.count).foldl (fun sets i =>
    scanPage f m overlapReduceRngs sets (pageRange.lower + i) (ptes.getD i 0)) sets

/-- `get_zero_and_dirty_pages`; `innerPages` are the `m_inner_pages` of the
reduce areas. -/
def getZeroAndDirtyPages (f : PageFormat) (m : Mem) (pte : Nat → Pte) (blocks : List MemArea)
    (innerPages : List (Option PteRange)) : PageSets :=
  (visitBlocks f blocks).intervals.foldl (scanRange f m pte innerPages)
    ⟨IntervalSet.empty, IntervalSet.empty⟩

/-- The pages that overlap a block. -/
def MallocPage (f : PageFormat) (blocks : List MemArea) (p : Nat) : Prop :=
  ∃ block ∈ blocks, (memarea2pgrng f.pageSize block).Mem p

/-- The page is dirty, touched, and not inside a reduce area. -/
def Selected (pte : Nat → Pte) (innerPages : List (Option PteRange)) (p : Nat) : Prop :=
  (pte p).isDirty = true ∧ (pte p).isTouched = true ∧
    ∀ r, some r ∈ innerPages → ¬ r.Mem p

section Scan

variable {f : PageFormat} {m : Mem} {pte : Nat → Pte} {blocks : List MemArea}
  {innerPages : List (Option PteRange)} {p : Nat}

theorem mem_visitBlocks : (visitBlocks f blocks).Mem p ↔ MallocPage f blocks p := by
  unfold visitBlocks
  rw [foldl_iff (P := fun s : IntervalSet => s.Mem p)
    (Q := fun block => (memarea2pgrng f.pageSize block).Mem p)]
  · simp [MallocPage]
  · intro s block _
    rw [IntervalSet.mem_add, or_comm]
    rfl

/-- The page is to be sent, into the set for pages whose zero test gives `z`. -/
def Sent (f : PageFormat) (m : Mem) (entry : Pte) (rngs : List PteRange) (z : Bool) (q : Nat) :
    Prop :=
  (entry.isDirty = true ∧ entry.isTouched = true ∧ ∀ r ∈ rngs, ¬ r.Mem q) ∧
    isZeroedPgSimd f m q = z

/-- What one page adds to the two sets. -/
theorem mem_scanPage {sets : PageSets} {rngs : List PteRange} {q : Nat} {entry : Pte} :
    ((scanPage f m rngs sets q entry).dirty.Mem p ↔
      sets.dirty.Mem p ∨ (p = q ∧ Sent f m entry rngs false q)) ∧
    ((scanPage f m rngs sets q entry).zero.Mem p ↔
      sets.zero.Mem p ∨ (p = q ∧ Sent f m entry rngs true q)) := by
  have hone : ∀ s : IntervalSet, (s.add ⟨q, q + 1⟩).Mem p ↔ s.Mem p ∨ p = q := by
    intro s
    rw [IntervalSet.mem_add, or_comm]
    refine or_congr_right ?_
    simp only [HalfOpen.Mem]
    omega
  unfold scanPage Sent
  by_cases hd : entry.isDirty = true
  · by_cases ht : entry.isTouched = true
    · by_cases hr : rngs.any (fun r => r.Mem q) = true
      · have hno : ¬ ∀ r ∈ rngs, ¬ r.Mem q := by simpa using hr
        simp [hd, ht, hr, hno]
      · have hall : (∀ r ∈ rngs, ¬ r.Mem q) = True := eq_true (by simpa using hr)
        by_cases hz : isZeroedPgSimd f m q = true
        · simp [hd, ht, hr, hz, hone, hall]
        · simp [hd, ht, hr, hz, hone, hall]
    · simp [hd, ht]
  · simp [hd]

/-- The reduce ranges found for a range of pages are all that matter in it. -/
theorem overlap_iff {pgs : PteRange} (hp : pgs.Mem p) :
    (∀ r ∈ innerPages.filterMap (fun reduceRng => reduceRng.filter fun r => pteRangeOverlap r pgs),
      ¬ r.Mem p) ↔ ∀ r, some r ∈ innerPages → ¬ r.Mem p := by
  constructor
  · intro h r hr hrp
    refine h r (List.mem_filterMap.mpr ⟨some r, hr, ?_⟩) hrp
    simp [Option.filter, pteRangeOverlap_of_mem hrp hp]
  · intro h r hr
    obtain ⟨o, ho, hfilter⟩ := List.mem_filterMap.mp hr
    rw [Option.filter_eq_some_iff] at hfilter
    exact h r (hfilter.1 ▸ ho)

/-- The two sets grow by the selected pages of the range. -/
theorem mem_scanRange {sets : PageSets} {rg : HalfOpen} :
    ((scanRange f m pte innerPages sets rg).dirty.Mem p ↔ sets.dirty.Mem p ∨
      (rg.Mem p ∧ Selected pte innerPages p ∧ isZeroedPgSimd f m p = false)) ∧
    ((scanRange f m pte innerPages sets rg).zero.Mem p ↔ sets.zero.Mem p ∨
      (rg.Mem p ∧ Selected pte innerPages p ∧ isZeroedPgSimd f m p = true)) := by
  let pgs : PteRange := ⟨rg.lower, rg.upper - rg.lower⟩
  have hin : ∀ i < pgs.count, pgs.Mem (rg.lower + i) := fun i hi =>
    ⟨Nat.le_add_right _ _, Nat.add_lt_add_left hi _⟩
  have hentry : ∀ i < pgs.count, (getPte pte pgs).getD i 0 = pte (rg.lower + i) := by
    intro i hi
    simp [getPte, pgs, hi]
  -- the pages of the loop are the pages of the range
  have hpage : ∀ z, (∃ i ∈ List.range pgs.count, p = rg.lower + i ∧
        Sent f m ((getPte pte pgs).getD i 0) (innerPages.filterMap fun reduceRng =>
          reduceRng.filter fun r => pteRangeOverlap r pgs) z (rg.lower + i)) ↔
      rg.Mem p ∧ Selected pte innerPages p ∧ isZeroedPgSimd f m p = z := by
    intro z
    constructor
    · rintro ⟨i, hi, rfl, ⟨hd, ht, hr⟩, hz⟩
      have hlt := List.mem_range.mp hi
      rw [hentry i hlt] at hd ht
      rw [overlap_iff (hin i hlt)] at hr
      refine ⟨⟨Nat.le_add_right _ _, ?_⟩, ⟨hd, ht, hr⟩, hz⟩
      show rg.lower + i < rg.upper
      have : i < rg.upper - rg.lower := hlt
      omega
    · rintro ⟨⟨hlo, hhi⟩, ⟨hd, ht, hr⟩, hz⟩
      obtain ⟨i, rfl⟩ := Nat.exists_eq_add_of_le hlo
      have hlt : i < pgs.count := by
        show i < rg.upper - rg.lower
        omega
      refine ⟨i, List.mem_range.mpr hlt, rfl, ⟨?_, ?_, ?_⟩, hz⟩
      · rwa [hentry i hlt]
      · rwa [hentry i hlt]
      · rwa [overlap_iff (hin i hlt)]
  unfold scanRange
  rw [← hpage false, ← hpage true]
  constructor
  · exact foldl_iff (P := fun s : PageSets => s.dirty.Mem p)
      (Q := fun i => p = rg.lower + i ∧ Sent f m ((getPte pte pgs).getD i 0) _ false (rg.lower + i))
      (fun s i _ => mem_scanPage.1) sets
  · exact foldl_iff (P := fun s : PageSets => s.zero.Mem p)
      (Q := fun i => p = rg.lower + i ∧ Sent f m ((getPte pte pgs).getD i 0) _ true (rg.lower + i))
      (fun s i _ => mem_scanPage.2) sets

theorem memList_visitBlocks :
    (∃ rg ∈ (visitBlocks f blocks).intervals, rg.Mem p) ↔ MallocPage f blocks p :=
  mem_visitBlocks

/-- A page is in `dirty_pages` if it overlaps a block, is selected, and does not
pass the zero test. -/
theorem mem_dirty : (getZeroAndDirtyPages f m pte blocks innerPages).dirty.Mem p ↔
    MallocPage f blocks p ∧ Selected pte innerPages p ∧ isZeroedPgSimd f m p = false := by
  unfold getZeroAndDirtyPages
  rw [foldl_iff (P := fun s : PageSets => s.dirty.Mem p)
    (Q := fun rg => rg.Mem p ∧ Selected pte innerPages p ∧ isZeroedPgSimd f m p = false)
    fun s rg _ => mem_scanRange.1]
  rw [← memList_visitBlocks]
  simp [← exists_and_right, and_assoc]

/-- A page is in `zero_pages` if it overlaps a block, is selected, and passes
the zero test. -/
theorem mem_zero : (getZeroAndDirtyPages f m pte blocks innerPages).zero.Mem p ↔
    MallocPage f blocks p ∧ Selected pte innerPages p ∧ isZeroedPgSimd f m p = true := by
  unfold getZeroAndDirtyPages
  rw [foldl_iff (P := fun s : PageSets => s.zero.Mem p)
    (Q := fun rg => rg.Mem p ∧ Selected pte innerPages p ∧ isZeroedPgSimd f m p = true)
    fun s rg _ => mem_scanRange.2]
  rw [← memList_visitBlocks]
  simp [← exists_and_right, and_assoc]

end Scan

end SimpleParallel.Sync
