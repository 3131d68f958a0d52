import SimpleParallel.Sync.Classification

/-!
# Short reads of the page map

`pagemap::read` calls `pread` on `/proc/self/pagemap` and looks only at whether the result
is -1. POSIX allows it to read fewer bytes than asked for. The buffer was filled with zeros,
and a zero entry is that of a clean page.

`Scan` has the entries as they are in the kernel; here they are read into the buffer.

* `PagemapFile.entry_delivered`, `PagemapFile.entry_undelivered`: an entry of which all bytes
  were read is the page's entry, any other is not touched.
* `getZeroAndDirtyPages_full`: with full reads this is the scan of `Scan`.
* `short_reads_iff`: the pages are classified by their entries exactly when a read fails or
  the entries of all pages to send were read; `short_read_drops`: half of two entries.
-/

namespace SimpleParallel.Sync

open Loops

/-- `/proc/self/pagemap`, with what `open` and each `pread` answer. An error comes with its
`strerror`. Every interval is read once. -/
structure PagemapFile where
  pte : Nat → Pte
  openError : Option String
  /-- the number of bytes read -/
  pread : PteRange → Except String Nat
  pread_le : ∀ rng n, pread rng = .ok n → n ≤ 8 * rng.count

namespace PagemapFile

/-- The bytes of the file: eight for each page. -/
def bytes (file : PagemapFile) : Mem := fun x => Mem.byteAt (file.pte (x / 8)).toNat (x % 8)

/-- A buffer of zeros into which `n` bytes were read. -/
def buffer (file : PagemapFile) (rng : PteRange) (n : Nat) : Mem := fun x =>
  if x < n then file.bytes (8 * rng.begin + x) else 0

/-- `pagemap::read`. The first use of `pagemap::instance()` opens the file. -/
def read (file : PagemapFile) (rng : PteRange) : Except String Mem :=
  match file.openError with
  | some reason => .error ("Failed to open /proc/self/pagemap, reason: " ++ reason)
  | none =>
    match file.pread rng with
    | .error reason => .error ("Failed to read /proc/self/pagemap, reason: " ++ reason)
    | .ok n => .ok (file.buffer rng n)

/-- `get_pte` of a range, into `std::vector<uint64_t> ptes(size)`. -/
def getPte (file : PagemapFile) (rng : PteRange) : Except String (List Pte) := do
  let res ← file.read rng
  return (List.range rng.count).map fun i => .ofNat 64 (res.load (8 * i) 8)

/-- The body of the outer loop. -/
def scanRange (file : PagemapFile) (f : PageFormat) (m : Mem)
    (innerPages : List (Option PteRange)) (sets : PageSets) (pageRange : HalfOpen) :
    Except String PageSets := do
  let pgs : PteRange := ⟨pageRange.lower, pageRange.upper - pageRange.lower⟩
  let overlapReduceRngs := innerPages.filterMap fun reduceRng =>
    reduceRng.filter fun r => pteRangeOverlap r pgs
  let ptes ← file.getPte pgs
  return (List.range pgs.count).foldl (fun sets i =>
    scanPage f m overlapReduceRngs sets (pageRange.lower + i) (ptes.getD i 0)) sets

/-- `get_zero_and_dirty_pages`. -/
def getZeroAndDirtyPages (file : PagemapFile) (f : PageFormat) (m : Mem) (blocks : List MemArea)
    (innerPages : List (Option PteRange)) : Except String PageSets :=
  (visitBlocks f blocks).intervals.foldlM (file.scanRange f m innerPages)
    ⟨IntervalSet.empty, IntervalSet.empty⟩

/-! ## Entries -/

/-- What the buffer has for page `p` after `n` bytes were read. -/
def entry (file : PagemapFile) (rng : PteRange) (n p : Nat) : Pte :=
  .ofNat 64 ((file.buffer rng n).load (8 * (p - rng.begin)) 8)

/-- All bytes of the page's entry are among the first `n`. -/
def Delivered (rng : PteRange) (n p : Nat) : Prop := 8 * (p - rng.begin + 1) ≤ n

variable {file : PagemapFile} {rng : PteRange} {n p : Nat}

/-- An entry of which all bytes were read. -/
theorem entry_delivered (hp : rng.begin ≤ p) (h : Delivered rng n p) :
    file.entry rng n p = file.pte p := by
  have hload : (file.buffer rng n).load (8 * (p - rng.begin)) 8 = (file.pte p).toNat := by
    refine Mem.load_eq (file.pte p).isLt fun i hi => ?_
    unfold Delivered at h
    have hdiv : (8 * rng.begin + (8 * (p - rng.begin) + i)) / 8 = p := by omega
    have hmod : (8 * rng.begin + (8 * (p - rng.begin) + i)) % 8 = i := by omega
    rw [buffer, if_pos (by omega), bytes, hdiv, hmod]
  rw [entry, hload]
  exact BitVec.ofNat_toNat _ _

/-- An entry of which a byte is missing has no bit of the last byte. -/
theorem entry_undelivered (h : ¬ Delivered rng n p) : (file.entry rng n p).isTouched = false := by
  unfold Delivered at h
  have hzero : file.buffer rng n (8 * (p - rng.begin) + 7) = 0 := if_neg (by omega)
  exact Pte.isTouched_of_lt (Mem.load_lt_of_zero hzero)

/-! ## The scan -/

/-- The pages of an interval. -/
def pages (rg : HalfOpen) : PteRange := ⟨rg.lower, rg.upper - rg.lower⟩

/-- The read of an interval throws. -/
def Fails (file : PagemapFile) (rg : HalfOpen) : Prop :=
  file.openError ≠ none ∨ ∃ reason, file.pread (pages rg) = .error reason

/-- How many bytes are read of an interval. -/
def got (file : PagemapFile) (rg : HalfOpen) : Nat := (file.pread (pages rg)).toOption.getD 0

variable {f : PageFormat} {m : Mem} {innerPages : List (Option PteRange)} {rg : HalfOpen}
  {sets : PageSets}

theorem read_fails (h : file.Fails rg) : ∃ e, file.read (pages rg) = .error e := by
  unfold read
  cases hopen : file.openError with
  | some reason => exact ⟨_, rfl⟩
  | none =>
    obtain ⟨reason, hread⟩ := h.resolve_left (not_not.mpr hopen)
    simp only [hread]
    exact ⟨_, rfl⟩

theorem pread_ok (h : ¬ file.Fails rg) : file.pread (pages rg) = .ok (file.got rg) := by
  unfold got
  cases hread : file.pread (pages rg) with
  | error reason => exact absurd (.inr ⟨reason, hread⟩) h
  | ok n => rfl

theorem read_ok (h : ¬ file.Fails rg) :
    file.read (pages rg) = .ok (file.buffer (pages rg) (file.got rg)) := by
  have hopen : file.openError = none := by
    by_contra hne
    exact h (.inl hne)
  rw [read, hopen]
  simp only [pread_ok h]

theorem scanRange_fails (h : file.Fails rg) :
    ∃ e, file.scanRange f m innerPages sets rg = .error e := by
  obtain ⟨e, he⟩ := read_fails h
  refine ⟨e, ?_⟩
  show file.getPte (pages rg) >>= _ = _
  rw [getPte, he]
  rfl

/-- Otherwise an interval is scanned with the entries of the buffer. -/
theorem scanRange_ok (h : ¬ file.Fails rg) : file.scanRange f m innerPages sets rg =
    .ok (Sync.scanRange f m (file.entry (pages rg) (file.got rg)) innerPages sets rg) := by
  have hptes : file.getPte (pages rg) =
      .ok (Sync.getPte (file.entry (pages rg) (file.got rg)) (pages rg)) := by
    rw [getPte, read_ok h, Sync.getPte]
    refine congrArg Except.ok (List.map_congr_left fun i _ => ?_)
    rw [entry, Nat.add_sub_cancel_left]
  show file.getPte (pages rg) >>= _ = _
  rw [hptes]
  rfl

end PagemapFile

/-! ## What is dropped -/

open PagemapFile

section

variable (file : PagemapFile) (f : PageFormat) (m : Mem) (blocks : List MemArea)
  (innerPages : List (Option PteRange))

/-- The scan throws, or sorts every page of every interval by its entry. -/
def ClassifiedByEntries : Prop :=
  ∀ sets, file.getZeroAndDirtyPages f m blocks innerPages = .ok sets →
    ∀ rg ∈ (visitBlocks f blocks).intervals, ∀ p, rg.Mem p →
      (sets.dirty.Mem p ↔ Selected file.pte innerPages p ∧ isZeroedPgSimd f m p = false) ∧
      (sets.zero.Mem p ↔ Selected file.pte innerPages p ∧ isZeroedPgSimd f m p = true)

/-- Each read delivers the entries of the pages that are dirty, touched and in no reduce
area. -/
def DeliversSelected : Prop :=
  ∀ rg ∈ (visitBlocks f blocks).intervals, ∀ n, file.pread (pages rg) = .ok n →
    ∀ p, rg.Mem p → Selected file.pte innerPages p → Delivered (pages rg) n p

variable {file f m blocks innerPages} {p : Nat} {rg : HalfOpen}

/-- An entry selects its page exactly if the page's own entry does and was delivered. -/
theorem selected_entry_iff {n : Nat} (hp : rg.Mem p) :
    Selected (file.entry (pages rg) n) innerPages p ↔
      Selected file.pte innerPages p ∧ Delivered (pages rg) n p := by
  by_cases hd : Delivered (pages rg) n p
  · rw [Selected, entry_delivered hp.1 hd]
    exact (and_iff_left hd).symm
  · refine iff_of_false (fun h => ?_) fun h => hd h.2
    have htouched := h.2.1
    rw [entry_undelivered hd] at htouched
    cases htouched

theorem getZeroAndDirtyPages_fails
    (h : ∃ rg ∈ (visitBlocks f blocks).intervals, file.Fails rg) :
    ∃ e, file.getZeroAndDirtyPages f m blocks innerPages = .error e := by
  obtain ⟨rg, hrg, hfails⟩ := h
  exact foldlM_error hrg (fun _ => scanRange_fails hfails) _

/-- What the two sets hold when no read fails. -/
theorem mem_sets (hok : ∀ rg ∈ (visitBlocks f blocks).intervals, ¬ file.Fails rg) :
    ∃ sets, file.getZeroAndDirtyPages f m blocks innerPages = .ok sets ∧
      ∀ rg ∈ (visitBlocks f blocks).intervals, ∀ p, rg.Mem p →
        (sets.dirty.Mem p ↔ (Selected file.pte innerPages p ∧
          Delivered (pages rg) (file.got rg) p) ∧ isZeroedPgSimd f m p = false) ∧
        (sets.zero.Mem p ↔ (Selected file.pte innerPages p ∧
          Delivered (pages rg) (file.got rg) p) ∧ isZeroedPgSimd f m p = true) := by
  refine ⟨_, foldlM_ok (fun rg hrg sets => scanRange_ok (hok rg hrg)) _, ?_⟩
  intro rg hrg p hp
  -- the page is in no other interval
  have hone : ∀ z, (∃ rg' ∈ (visitBlocks f blocks).intervals, rg'.Mem p ∧
      Selected (file.entry (pages rg') (file.got rg')) innerPages p ∧ isZeroedPgSimd f m p = z) ↔
        (Selected file.pte innerPages p ∧ Delivered (pages rg) (file.got rg) p) ∧
          isZeroedPgSimd f m p = z := by
    intro z
    rw [← selected_entry_iff hp]
    constructor
    · rintro ⟨rg', hrg', hp', h⟩
      rwa [IntervalSet.interval_unique (visitBlocks f blocks).separated hrg' hrg hp' hp] at h
    · exact fun h => ⟨rg, hrg, hp, h⟩
  rw [← hone false, ← hone true]
  constructor
  · rw [foldl_iff (P := fun s : PageSets => s.dirty.Mem p)
      (Q := fun rg => rg.Mem p ∧ Selected (file.entry (pages rg) (file.got rg)) innerPages p ∧
        isZeroedPgSimd f m p = false) fun s rg _ => mem_scanRange.1]
    exact or_iff_right IntervalSet.mem_empty
  · rw [foldl_iff (P := fun s : PageSets => s.zero.Mem p)
      (Q := fun rg => rg.Mem p ∧ Selected (file.entry (pages rg) (file.got rg)) innerPages p ∧
        isZeroedPgSimd f m p = true) fun s rg _ => mem_scanRange.2]
    exact or_iff_right IntervalSet.mem_empty

/-- Reads that deliver everything make this the scan of `Scan`. -/
theorem getZeroAndDirtyPages_full
    (hok : ∀ rg ∈ (visitBlocks f blocks).intervals, ¬ file.Fails rg)
    (hfull : ∀ rg ∈ (visitBlocks f blocks).intervals, file.got rg = 8 * (pages rg).count) :
    file.getZeroAndDirtyPages f m blocks innerPages =
      .ok (Sync.getZeroAndDirtyPages f m file.pte blocks innerPages) := by
  refine foldlM_ok (fun rg hrg sets => ?_) _
  have hptes : Sync.getPte (file.entry (pages rg) (file.got rg)) (pages rg) =
      Sync.getPte file.pte (pages rg) := by
    refine List.map_congr_left fun i hi => entry_delivered (Nat.le_add_right _ _) ?_
    have hlt := List.mem_range.mp hi
    rw [hfull rg hrg, Delivered, Nat.add_sub_cancel_left]
    exact Nat.mul_le_mul_left 8 hlt
  rw [scanRange_ok (hok rg hrg), Sync.scanRange, Sync.scanRange]
  change Except.ok ((List.range _).foldl (fun sets i => scanPage f m _ sets (rg.lower + i)
    ((Sync.getPte (file.entry (pages rg) (file.got rg)) (pages rg)).getD i 0)) sets) = _
  rw [hptes]
  rfl

/-- What was dropped stays dropped: after `clear_soft_dirty` its entry is clean. -/
theorem not_selected_clean {pte : Nat → Pte} :
    ¬ Selected (fun q => (pte q).clean) innerPages p := by
  rintro ⟨hdirty, -⟩
  rw [Pte.isDirty_clean] at hdirty
  cases hdirty

/-- A page to send that was not delivered would be in neither set. -/
theorem delivers_of_classified (hok : ∀ rg ∈ (visitBlocks f blocks).intervals, ¬ file.Fails rg)
    (h : ClassifiedByEntries file f m blocks innerPages) :
    DeliversSelected file f blocks innerPages := by
  obtain ⟨sets, hsets, hmem⟩ := mem_sets hok
  intro rg hrg n hn p hp hsel
  obtain ⟨hdirty, hzero⟩ := hmem rg hrg p hp
  obtain ⟨hdirty', hzero'⟩ := h sets hsets rg hrg p hp
  have hn' : n = file.got rg := Except.ok.inj (hn.symm.trans (pread_ok (hok rg hrg)))
  rw [hn']
  cases hz : isZeroedPgSimd f m p with
  | false => exact (hdirty.mp (hdirty'.mpr ⟨hsel, hz⟩)).1.2
  | true => exact (hzero.mp (hzero'.mpr ⟨hsel, hz⟩)).1.2

theorem classified_of_delivers (hok : ∀ rg ∈ (visitBlocks f blocks).intervals, ¬ file.Fails rg)
    (h : DeliversSelected file f blocks innerPages) :
    ClassifiedByEntries file f m blocks innerPages := by
  obtain ⟨sets, hsets, hmem⟩ := mem_sets hok
  intro sets' hsets' rg hrg p hp
  obtain rfl : sets = sets' := Except.ok.inj (hsets.symm.trans hsets')
  have hall : Selected file.pte innerPages p ∧ Delivered (pages rg) (file.got rg) p ↔
      Selected file.pte innerPages p :=
    and_iff_left_of_imp fun hsel => h rg hrg _ (pread_ok (hok rg hrg)) p hp hsel
  rw [← hall]
  exact hmem rg hrg p hp

end

/-- Every page is classified by its entry exactly when a read fails, or the reads deliver the
entries of all pages that are dirty, touched and in no reduce area. -/
theorem short_reads_iff (file : PagemapFile) (f : PageFormat) (m : Mem) (blocks : List MemArea)
    (innerPages : List (Option PteRange)) :
    ClassifiedByEntries file f m blocks innerPages ↔
      (∃ rg ∈ (visitBlocks f blocks).intervals, file.Fails rg) ∨
        DeliversSelected file f blocks innerPages := by
  by_cases hfail : ∃ rg ∈ (visitBlocks f blocks).intervals, file.Fails rg
  · refine iff_of_true (fun sets hsets => ?_) (.inl hfail)
    obtain ⟨e, he⟩ := getZeroAndDirtyPages_fails hfail
    rw [he] at hsets
    cases hsets
  · rw [or_iff_right hfail]
    push Not at hfail
    exact ⟨delivers_of_classified hfail, classified_of_delivers hfail⟩

/-- All pages were just written, and a read stops after one entry. -/
def oneEntry : PagemapFile where
  pte _ := Pte.written 0
  openError := none
  pread rng := .ok (min 8 (8 * rng.count))
  pread_le _ _ h := Except.ok.inj h ▸ Nat.min_le_right _ _

/-- The second of two pages is in neither set, though it is dirty and touched. -/
theorem short_read_drops :
    ¬ ClassifiedByEntries oneEntry smallPages (fun _ => 7) [⟨4096, 8192⟩] [] := by
  intro h
  have hok : ∀ rg ∈ (visitBlocks smallPages [⟨4096, 8192⟩]).intervals, ¬ oneEntry.Fails rg := by
    rintro rg - (hopen | ⟨reason, hread⟩)
    · exact hopen rfl
    · cases hread
  have hrg : ⟨1, 3⟩ ∈ (visitBlocks smallPages [⟨4096, 8192⟩]).intervals := by decide
  have hsel : Selected oneEntry.pte [] 2 :=
    ⟨Pte.isDirty_written 0, Pte.isTouched_written 0, fun r hr => by cases hr⟩
  have hdelivered := delivers_of_classified hok h _ hrg 8 rfl 2 (by decide) hsel
  exact absurd hdelivered (by decide : ¬ 8 * (2 - 1 + 1) ≤ 8)

end SimpleParallel.Sync
