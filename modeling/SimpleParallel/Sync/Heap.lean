import SimpleParallel.Sync.Bigmpi
import SimpleParallel.Sync.Scan

/-!
# Sending the heap

`send_heap` of `leader.cc` with `recv_heap` of `worker.cc`: the dirty pages are
broadcast as memory areas, the zero pages as page ranges that the worker drops.

* `recvHeap_mem`: what each byte of the worker is afterwards, by its page.
* `recvHeap_sent`, `recvHeap_kept`: with the leader's own scan, the bytes of a
  page that is sent are the leader's, and the others stay.
-/

namespace SimpleParallel.Sync

open Loops

/-- The areas that `send_dirty_page` broadcasts. -/
def dirtyAreas (f : PageFormat) (dirtyPages : IntervalSet) : List MemArea :=
  dirtyPages.intervals.map fun pageRange =>
    pgrng2memarea f.pageSize ⟨pageRange.lower, pageRange.upper - pageRange.lower⟩

/-- The page ranges that `send_zeroed_page` sends. -/
def zeroedPages (zeroPages : IntervalSet) : List PteRange :=
  zeroPages.intervals.map fun pageRange => ⟨pageRange.lower, pageRange.upper - pageRange.lower⟩

/-- `recv_dirty_page`. -/
def recvDirtyPage (src : Mem) (areas : List MemArea) (v : AddressSpace) : AddressSpace :=
  { v with mem := syncAreas src areas v.mem }

/-- The body of the loop of `recv_zero_page`: `madvise`, or `memset` if it
fails. -/
def dropZeroPages (f : PageFormat) (v : AddressSpace) (range : PteRange) : AddressSpace :=
  let area := pgrng2memarea f.pageSize range
  let res := v.madvise f.pageSize area.data area.size madvDontneed
  if res.1 then res.2
  else { res.2 with mem := Mem.fillRange 0 area.data area.size res.2.mem }

/-- `recv_zero_page`. -/
def recvZeroPage (f : PageFormat) (ranges : List PteRange) (v : AddressSpace) : AddressSpace :=
  ranges.foldl (dropZeroPages f) v

/-- `recv_heap`, for the two sets of the leader and its memory `src`. -/
def recvHeap (f : PageFormat) (src : Mem) (sets : PageSets) (v : AddressSpace) : AddressSpace :=
  recvZeroPage f (zeroedPages sets.zero) (recvDirtyPage src (dirtyAreas f sets.dirty) v)

/-- The pages of the set lie inside the address space. -/
def InSpace (f : PageFormat) (s : IntervalSet) : Prop :=
  ∀ p, s.Mem p → (p + 1) * f.pageSize < 2 ^ 64

section

variable {f : PageFormat} {s : IntervalSet} {src : Mem} {v : AddressSpace} {x : Nat}

/-- The area of an interval of pages holds the bytes of these pages. -/
theorem mem_interval_area {i : HalfOpen} (hs : InSpace f s) (hi : i ∈ s.intervals) :
    (pgrng2memarea f.pageSize ⟨i.lower, i.upper - i.lower⟩).data = i.lower * f.pageSize ∧
    (pgrng2memarea f.pageSize ⟨i.lower, i.upper - i.lower⟩).size =
      (i.upper - i.lower) * f.pageSize ∧
    ((pgrng2memarea f.pageSize ⟨i.lower, i.upper - i.lower⟩).Mem x ↔
      i.Mem (addr2pgnum f.pageSize x)) := by
  have hpos := f.pageSize_pos
  have hne := s.separated.nonempty i hi
  have htop := hs (i.upper - 1) ⟨i, hi, by omega, by omega⟩
  rw [Nat.sub_add_cancel (by omega)] at htop
  have hlo : i.lower * f.pageSize ≤ i.upper * f.pageSize := Nat.mul_le_mul_right _ (by omega)
  have hsub : (i.upper - i.lower) * f.pageSize = i.upper * f.pageSize - i.lower * f.pageSize :=
    Nat.sub_mul _ _ _
  have hdata : wrap (i.lower * f.pageSize) = i.lower * f.pageSize := Nat.mod_eq_of_lt (by omega)
  have hsize : wrap ((i.upper - i.lower) * f.pageSize) = (i.upper - i.lower) * f.pageSize :=
    Nat.mod_eq_of_lt (by omega)
  refine ⟨hdata, hsize, ?_⟩
  simp only [pgrng2memarea, MemArea.Mem, hdata, hsize, HalfOpen.Mem, addr2pgnum]
  rw [Nat.le_div_iff_mul_le hpos, Nat.div_lt_iff_lt_mul hpos]
  omega

/-- The dirty pages arrive with the leader's bytes. -/
theorem recvDirtyPage_mem (hs : InSpace f s) [Decidable (s.Mem (addr2pgnum f.pageSize x))] :
    (recvDirtyPage src (dirtyAreas f s) v).mem x =
      if s.Mem (addr2pgnum f.pageSize x) then src x else v.mem x := by
  have hiff : (∃ area ∈ dirtyAreas f s, area.Mem x) ↔ s.Mem (addr2pgnum f.pageSize x) := by
    simp only [dirtyAreas, List.mem_map, exists_exists_and_eq_and]
    exact exists_congr fun i => and_congr_right fun hi => (mem_interval_area hs hi).2.2
  simp only [recvDirtyPage, syncAreas_apply, hiff]

theorem syscallPages_interval {i : HalfOpen} :
    syscallPages f.pageSize (i.lower * f.pageSize) ((i.upper - i.lower) * f.pageSize) =
      ⟨i.lower, i.upper - i.lower⟩ := by
  have hpos := f.pageSize_pos
  unfold syscallPages
  rw [Nat.mul_div_cancel _ hpos, Nat.mul_comm (i.upper - i.lower), Nat.mul_add_div hpos,
    Nat.div_eq_of_lt (by omega), Nat.add_zero]

theorem dropZeroPages_mem {i : HalfOpen} (hs : InSpace f s) (hi : i ∈ s.intervals) :
    (dropZeroPages f v ⟨i.lower, i.upper - i.lower⟩).mem x =
      if i.Mem (addr2pgnum f.pageSize x) then 0 else v.mem x := by
  obtain ⟨hdata, hsize, hmem⟩ := mem_interval_area (x := x) hs hi
  have hdrop : (v.madvise f.pageSize (i.lower * f.pageSize)
      ((i.upper - i.lower) * f.pageSize) madvDontneed).2.mem x =
      if i.Mem (addr2pgnum f.pageSize x) then 0 else v.mem x := by
    have hpages : (⟨i.lower, i.upper - i.lower⟩ : PteRange).Mem (addr2pgnum f.pageSize x) ↔
        i.Mem (addr2pgnum f.pageSize x) := by
      simp only [PteRange.Mem, HalfOpen.Mem]
      omega
    rw [madvise_mem, syscallPages_interval]
    simp [hpages]
  simp only [dropZeroPages]
  rw [hdata, hsize]
  split
  · exact hdrop
  · -- the fallback writes zeros over what `madvise` left
    rw [← hdata, ← hsize]
    by_cases hx : i.Mem (addr2pgnum f.pageSize x)
    · rw [if_pos hx]
      exact Mem.fillRange_in (hmem.mpr hx)
    · rw [if_neg hx] at hdrop ⊢
      rw [← hdata, ← hsize] at hdrop
      exact (Mem.fillRange_out (fun hin => hx (hmem.mp hin))).trans hdrop

/-- The zero pages read zero. -/
theorem recvZeroPage_mem (hs : InSpace f s) :
    (recvZeroPage f (zeroedPages s) v).mem x =
      if s.Mem (addr2pgnum f.pageSize x) then 0 else v.mem x := by
  have hfold : ∀ l : List HalfOpen, (∀ i ∈ l, i ∈ s.intervals) → ∀ v : AddressSpace,
      (recvZeroPage f (l.map fun i => ⟨i.lower, i.upper - i.lower⟩) v).mem x =
        if ∃ i ∈ l, i.Mem (addr2pgnum f.pageSize x) then 0 else v.mem x := by
    intro l
    induction l with
    | nil => simp [recvZeroPage]
    | cons i l ih =>
      intro hl v
      have hrest := ih (fun j hj => hl j (List.mem_cons_of_mem _ hj))
        (dropZeroPages f v ⟨i.lower, i.upper - i.lower⟩)
      show (recvZeroPage f (l.map _) (dropZeroPages f v ⟨i.lower, i.upper - i.lower⟩)).mem x = _
      rw [hrest, dropZeroPages_mem hs (hl i List.mem_cons_self)]
      by_cases h1 : ∃ j ∈ l, j.Mem (addr2pgnum f.pageSize x)
      · simp [h1]
      · by_cases h2 : i.Mem (addr2pgnum f.pageSize x) <;> simp [h1, h2]
  exact hfold s.intervals (fun _ h => h) v

/-- A byte of the worker after `recv_heap`. -/
theorem recvHeap_mem {sets : PageSets} (hd : InSpace f sets.dirty) (hz : InSpace f sets.zero) :
    (recvHeap f src sets v).mem x =
      if sets.zero.Mem (addr2pgnum f.pageSize x) then 0
      else if sets.dirty.Mem (addr2pgnum f.pageSize x) then src x
      else v.mem x := by
  rw [recvHeap, recvZeroPage_mem hz, recvDirtyPage_mem hd]

/-! ### With the leader's scan -/

/-- The page is sent: it overlaps a live block, is dirty and touched, and does
not lie inside a reduce area. -/
def Retransmitted (f : PageFormat) (pte : Nat → Pte) (blocks : List MemArea)
    (innerPages : List (Option PteRange)) (p : Nat) : Prop :=
  MallocPage f blocks p ∧ Selected pte innerPages p

variable {pte : Nat → Pte} {blocks : List MemArea} {innerPages : List (Option PteRange)}

theorem inSpace_scan (hb : ∀ p, MallocPage f blocks p → (p + 1) * f.pageSize < 2 ^ 64) :
    InSpace f (getZeroAndDirtyPages f src pte blocks innerPages).dirty ∧
      InSpace f (getZeroAndDirtyPages f src pte blocks innerPages).zero :=
  ⟨fun p hp => hb p (mem_dirty.mp hp).1, fun p hp => hb p (mem_zero.mp hp).1⟩

/-- A byte of a page that is sent is the leader's, whichever way it was sent. -/
theorem recvHeap_sent (hb : ∀ p, MallocPage f blocks p → (p + 1) * f.pageSize < 2 ^ 64)
    (hx : Retransmitted f pte blocks innerPages (addr2pgnum f.pageSize x)) :
    (recvHeap f src (getZeroAndDirtyPages f src pte blocks innerPages) v).mem x = src x := by
  obtain ⟨hd, hz⟩ : InSpace f (getZeroAndDirtyPages f src pte blocks innerPages).dirty ∧
    InSpace f (getZeroAndDirtyPages f src pte blocks innerPages).zero := inSpace_scan hb
  obtain ⟨hblock, hsel⟩ := hx
  rw [recvHeap_mem hd hz]
  by_cases hzero : isZeroedPgSimd f src (addr2pgnum f.pageSize x) = true
  · rw [if_pos (mem_zero.mpr ⟨hblock, hsel, hzero⟩)]
    have hlt := hb _ hblock
    rw [Nat.mul_comm, Nat.mul_succ] at hlt
    exact ((isZeroedPgSimd_iff (Nat.lt_of_le_of_lt (Nat.le_add_right _ _) hlt)).mp hzero x rfl).symm
  · rw [if_neg fun h => hzero (mem_zero.mp h).2.2,
      if_pos (mem_dirty.mpr ⟨hblock, hsel, by simpa using hzero⟩)]

/-- A byte of a page that is not sent is as before. -/
theorem recvHeap_kept (hb : ∀ p, MallocPage f blocks p → (p + 1) * f.pageSize < 2 ^ 64)
    (hx : ¬ Retransmitted f pte blocks innerPages (addr2pgnum f.pageSize x)) :
    (recvHeap f src (getZeroAndDirtyPages f src pte blocks innerPages) v).mem x = v.mem x := by
  obtain ⟨hd, hz⟩ : InSpace f (getZeroAndDirtyPages f src pte blocks innerPages).dirty ∧
    InSpace f (getZeroAndDirtyPages f src pte blocks innerPages).zero := inSpace_scan hb
  rw [recvHeap_mem hd hz, if_neg fun h => hx ⟨(mem_zero.mp h).1, (mem_zero.mp h).2.1⟩,
    if_neg fun h => hx ⟨(mem_dirty.mp h).1, (mem_dirty.mp h).2.1⟩]

theorem recvZeroPage_prot {ranges : List PteRange} :
    (recvZeroPage f ranges v).prot = v.prot := by
  induction ranges generalizing v with
  | nil => rfl
  | cons r ranges ih =>
    show (recvZeroPage f ranges (dropZeroPages f v r)).prot = v.prot
    rw [ih]
    funext p
    simp only [dropZeroPages]
    split <;> exact madvise_prot

theorem recvHeap_prot {sets : PageSets} : (recvHeap f src sets v).prot = v.prot :=
  recvZeroPage_prot

end

end SimpleParallel.Sync
