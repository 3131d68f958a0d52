import SimpleParallel.Reduce.Area
import SimpleParallel.Sync.Scan

/-!
# The classification of pages

What `get_zero_and_dirty_pages` promises, in terms of bytes: blocks are rounded
out to pages and reduce areas in, and the zero test decides which of the two
sets a page goes to.

* `classification_exact`: which pages the two sets hold, and which it leaves
  out for a reduction.
-/

namespace SimpleParallel.Sync

open Reduce

/-- The page `p` overlaps the area. -/
def MemArea.Overlaps (f : PageFormat) (area : MemArea) (p : Nat) : Prop :=
  ∃ x, addr2pgnum f.pageSize x = p ∧ area.Mem x

/-- The page `p` lies wholly inside the area. -/
def MemArea.Covers (f : PageFormat) (area : MemArea) (p : Nat) : Prop :=
  ∀ x, addr2pgnum f.pageSize x = p → area.Mem x

/-- The page overlaps a live block, was written since the last
`clear_soft_dirty`, and is present or swapped. -/
structure WrittenPage (f : PageFormat) (pte : Nat → Pte) (blocks : List MemArea) (p : Nat) :
    Prop where
  block : ∃ block ∈ blocks, block.Overlaps f p
  dirty : (pte p).isDirty = true
  touched : (pte p).isPresent = true ∨ (pte p).isSwapped = true

/-- A block that a heap hands out. -/
structure IsBlock (block : MemArea) : Prop where
  size_pos : 0 < block.size
  bounded : block.data + block.size ≤ 2 ^ 64

/-- An area that a program reduces. -/
structure IsReduced (area : MemArea) : Prop where
  size_pos : 0 < area.size
  not_null : 0 < area.data
  bounded : area.data + area.size < 2 ^ 64

section

variable {f : PageFormat} {m : Mem} {pte : Nat → Pte} {blocks : List MemArea}
  {reduces : List ReduceArea} {p : Nat}

theorem mallocPage_iff (hblocks : ∀ b ∈ blocks, IsBlock b) :
    MallocPage f blocks p ↔ ∃ block ∈ blocks, block.Overlaps f p :=
  exists_congr fun b => and_congr_right fun hb => mem_memarea2pgrng_iff (hblocks b hb).size_pos

/-- The selected pages of the blocks are the written ones that no reduce area
covers. -/
theorem selected_iff (hblocks : ∀ b ∈ blocks, IsBlock b)
    (hreduces : ∀ r ∈ reduces, IsReduced r.memArea) :
    MallocPage f blocks p ∧ Selected pte (reduces.map (·.innerPages f.pageSize)) p ↔
      WrittenPage f pte blocks p ∧ ¬ ∃ r ∈ reduces, r.memArea.Covers f p := by
  have hinner : (∀ r, some r ∈ reduces.map (·.innerPages f.pageSize) → ¬ r.Mem p) ↔
      ¬ ∃ r ∈ reduces, r.memArea.Covers f p := by
    constructor
    · rintro h ⟨r, hr, hcovers⟩
      obtain ⟨rng, hrng, hp⟩ := (mem_inner_iff f.pageSize_pos (hreduces r hr).not_null
        (hreduces r hr).bounded).mpr hcovers
      exact h rng (List.mem_map.mpr ⟨r, hr, hrng⟩) hp
    · intro h rng hrng hp
      obtain ⟨r, hr, hinner⟩ := List.mem_map.mp hrng
      exact h ⟨r, hr, (mem_inner_iff f.pageSize_pos (hreduces r hr).not_null
        (hreduces r hr).bounded).mp ⟨rng, hinner, hp⟩⟩
  have htouched : (pte p).isTouched = true ↔
      (pte p).isPresent = true ∨ (pte p).isSwapped = true := by
    rw [Pte.isTouched, Bool.or_eq_true]
  rw [mallocPage_iff hblocks, Selected, htouched, hinner]
  constructor
  · rintro ⟨hblock, hdirty, ht, hno⟩
    exact ⟨⟨hblock, hdirty, ht⟩, hno⟩
  · rintro ⟨⟨hblock, hdirty, ht⟩, hno⟩
    exact ⟨hblock, hdirty, ht, hno⟩

/-- The zero test of a page of a block looks at the whole page. -/
theorem zeroTest_iff (hblocks : ∀ b ∈ blocks, IsBlock b) (hp : WrittenPage f pte blocks p) :
    isZeroedPgSimd f m p = true ↔ ∀ x, addr2pgnum f.pageSize x = p → m x = 0 := by
  obtain ⟨block, hblock, x, rfl, hx⟩ := hp.block
  have hlow := (page_bounds f.pageSize_pos x).1
  have hbound := (hblocks block hblock).bounded
  have hlt := hx.2
  refine isZeroedPgSimd_iff ?_
  rw [Nat.mul_comm]
  omega

end

/-- The two sets hold the written pages that no reduce area covers, by whether
they read all zero. No page is in both, and a written page in neither lies
inside a reduce area. -/
theorem classification_exact (f : PageFormat) (m : Mem) (pte : Nat → Pte) (blocks : List MemArea)
    (reduces : List ReduceArea) (hblocks : ∀ b ∈ blocks, IsBlock b)
    (hreduces : ∀ r ∈ reduces, IsReduced r.memArea) :
    let sets := getZeroAndDirtyPages f m pte blocks (reduces.map (·.innerPages f.pageSize))
    (∀ p, sets.dirty.Mem p ↔
      (WrittenPage f pte blocks p ∧ ¬ ∃ r ∈ reduces, r.memArea.Covers f p) ∧
        ∃ x, addr2pgnum f.pageSize x = p ∧ m x ≠ 0) ∧
    (∀ p, sets.zero.Mem p ↔
      (WrittenPage f pte blocks p ∧ ¬ ∃ r ∈ reduces, r.memArea.Covers f p) ∧
        ∀ x, addr2pgnum f.pageSize x = p → m x = 0) ∧
    (∀ p, ¬ (sets.dirty.Mem p ∧ sets.zero.Mem p)) ∧
    ∀ p, WrittenPage f pte blocks p → ¬ sets.dirty.Mem p → ¬ sets.zero.Mem p →
      ∀ x, addr2pgnum f.pageSize x = p → ∃ r ∈ reduces, r.memArea.Mem x := by
  intro sets
  have hdirty : ∀ p, sets.dirty.Mem p ↔
      (WrittenPage f pte blocks p ∧ ¬ ∃ r ∈ reduces, r.memArea.Covers f p) ∧
        ∃ x, addr2pgnum f.pageSize x = p ∧ m x ≠ 0 := fun p => by
    rw [mem_dirty, ← and_assoc, selected_iff hblocks hreduces]
    refine and_congr_right fun hp => ?_
    have hzero := zeroTest_iff (m := m) hblocks hp.1
    rw [← Bool.not_eq_true, hzero]
    simp only [not_forall, exists_prop, ne_eq]
  have hzero : ∀ p, sets.zero.Mem p ↔
      (WrittenPage f pte blocks p ∧ ¬ ∃ r ∈ reduces, r.memArea.Covers f p) ∧
        ∀ x, addr2pgnum f.pageSize x = p → m x = 0 := fun p => by
    rw [mem_zero, ← and_assoc, selected_iff hblocks hreduces]
    exact and_congr_right fun hp => zeroTest_iff hblocks hp.1
  refine ⟨hdirty, hzero, fun p hp => ?_, fun p hp hnd hnz => ?_⟩
  · obtain ⟨x, hx, hne⟩ := ((hdirty p).mp hp.1).2
    exact hne (((hzero p).mp hp.2).2 x hx)
  · have hcovers : ∃ r ∈ reduces, r.memArea.Covers f p := by
      by_contra hno
      have hall : ∀ x, addr2pgnum f.pageSize x = p → m x = 0 := fun x hx => by
        by_contra hne
        exact hnd ((hdirty p).mpr ⟨⟨hp, hno⟩, x, hx, hne⟩)
      exact hnz ((hzero p).mpr ⟨⟨hp, hno⟩, hall⟩)
    obtain ⟨r, hr, hall⟩ := hcovers
    exact fun x hx => ⟨r, hr, hall x hx⟩

/-- Pages of 4 KiB and vectors of 256 bits. -/
def smallPages : PageFormat := ⟨12, Nat.le_add_left 3 9, 4, Nat.succ_pos 3, ⟨128, rfl⟩⟩

/-- A block of one page that holds sevens, and a reduce area beside it. -/
theorem classification_exact_onePage :
    (getZeroAndDirtyPages smallPages (fun _ => 7) (fun _ => Pte.written 0) [⟨4096, 4096⟩]
      ([⟨8192, 1, .int, .sum⟩].map (ReduceArea.innerPages · smallPages.pageSize))).dirty.Mem 1 := by
  have hblocks : ∀ b ∈ [(⟨4096, 4096⟩ : MemArea)], IsBlock b := by
    intro b hb
    rw [List.mem_singleton.mp hb]
    exact ⟨by decide, by decide⟩
  have hreduces : ∀ r ∈ [(⟨8192, 1, .int, .sum⟩ : ReduceArea)], IsReduced r.memArea := by
    intro r hr
    rw [List.mem_singleton.mp hr]
    exact ⟨by decide, by decide, by decide⟩
  have hpage : addr2pgnum smallPages.pageSize 4096 = 1 := by decide
  refine ((classification_exact smallPages (fun _ => 7) (fun _ => Pte.written 0) _ _ hblocks
    hreduces).1 1).mpr ⟨⟨⟨?_, Pte.isDirty_written 0, by decide⟩, ?_⟩, 4096, hpage, by decide⟩
  · exact ⟨_, List.mem_singleton_self _, 4096, hpage, by decide⟩
  · rintro ⟨r, hr, hcovers⟩
    rw [List.mem_singleton.mp hr] at hcovers
    exact absurd (hcovers 4096 hpage) (by decide)

end SimpleParallel.Sync
