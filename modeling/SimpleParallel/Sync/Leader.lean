import SimpleParallel.Reduce.Area
import SimpleParallel.Sync.Heap

/-!
# The leader

The leader's side of `leader.cc`: its address space with the page table entries
that the kernel keeps for it, the operation log, the proxies `proxy_mmap`,
`proxy_munmap` and `proxy_madvise`, and what entering and leaving a parallel
section changes on it.

Fields that the source does not have record history: every operation ever
logged, the areas that `proxy_mmap` returned, and the bytes that the leader
wrote since their block was allocated.

* `mmapLoop_bounds`: the areas that `proxy_mmap` returns lie inside the heap.
-/

namespace SimpleParallel.Sync

open Reduce

/-- What is fixed when the processes start. -/
structure Platform where
  format : PageFormat
  reservedHeap : MemArea
  /-- The workers could map the heap at its address. -/
  heap_aligned : reservedHeap.data % format.pageSize = 0
  heap_nonempty : 0 < reservedHeap.size
  heap_end : reservedHeap.data + reservedHeap.size + format.pageSize < 2 ^ 64
  fakeStack : MemArea
  /-- `get_all_fortran_global_varaibles`; empty without the Fortran binding. -/
  fortranGlobalVariables : List MemArea
  ndebug : Bool
  floatSum : FloatSum

namespace Platform

variable (P : Platform)

abbrev pageSize : Nat := P.format.pageSize

/-- `overlap_with_reserved_heap`. -/
def overlapWithReservedHeap (area : MemArea) : Bool := memAreaOverlap area P.reservedHeap

/-- The page `p` belongs to the reserved heap. -/
def HeapPage (p : Nat) : Prop :=
  (syscallPages P.pageSize P.reservedHeap.data P.reservedHeap.size).Mem p

end Platform

structure Leader where
  space : AddressSpace
  /-- `/proc/self/pagemap`. -/
  pte : Nat → Pte
  /-- The static `begin` of `proxy_mmap`. -/
  begin : Nat
  /-- `memory_operations`. -/
  memoryOperations : List MemOp
  logged : List MemOp
  mmapAreas : List MemArea
  /-- The live blocks of the registered heaps. -/
  blocks : List MemArea
  written : Nat → Prop

namespace Leader

/-! ## Memory -/

/-- The leader writes one byte. -/
def write (P : Platform) (addr : Nat) (byte : UInt8) (l : Leader) : Leader :=
  { l with
    space := { l.space with mem := fun x => if x = addr then byte else l.space.mem x }
    pte := fun p => if p = addr2pgnum P.pageSize addr then (l.pte p).written else l.pte p
    written := fun x => x = addr ∨ l.written x }

/-- A registered heap hands out a block. -/
def malloc (block : MemArea) (l : Leader) : Leader :=
  { l with
    blocks := block :: l.blocks
    written := fun x => l.written x ∧ ¬ block.Mem x }

def free (block : MemArea) (l : Leader) : Leader := { l with blocks := l.blocks.erase block }

/-- The kernel has no entry for the pages of `r` any more. -/
def dropPte (r : PteRange) (l : Leader) : Leader :=
  { l with pte := fun p => if r.Mem p then 0 else l.pte p }

/-- `memory_operations()->emplace_back`. -/
def log (op : MemOp) (l : Leader) : Leader :=
  { l with memoryOperations := l.memoryOperations ++ [op], logged := l.logged ++ [op] }

/-! ## The proxies -/

/-- What the kernel answers to `mmap` with a hint: `MAP_FAILED`, another
address, or the hint. -/
inductive MmapAnswer
  | failed
  | elsewhere
  | placed
  deriving DecidableEq

/-- The largest huge page size, 1 GiB. -/
def step : Nat := 1024 * 1024 * 1024

/-- `round_up` in `proxy_mmap`. -/
def roundUp (numToRound multiple : Nat) : Nat :=
  if multiple = 0 then numToRound
  else
    let remainder := numToRound % multiple
    if remainder = 0 then numToRound else numToRound + multiple - remainder

/-- The loop of `proxy_mmap` for the kernel's answers, with the address it
leaves with; `none` when it terminates or goes on. An area that was placed
elsewhere is unmapped again. -/
def mmapLoop (P : Platform) (len : Nat) : List MmapAnswer → Nat → Option Nat
  | [], _ => none
  | answer :: answers, begin =>
    if begin + len > P.reservedHeap.data + P.reservedHeap.size then none
    else
      match answer with
      | .failed | .elsewhere => mmapLoop P len answers (begin + step)
      | .placed => some begin

/-- `proxy_mmap`; the first argument of the source is not used there. -/
def proxyMmap (P : Platform) (answers : List MmapAnswer) (len prot flags : Nat) (offset : Int)
    (l : Leader) : Option Leader :=
  (mmapLoop P len answers l.begin).bind fun res =>
    (l.space.mmapFixed P.pageSize res len prot).map fun space =>
      ({ l with
          space
          begin := res + roundUp len step
          mmapAreas := ⟨res, len⟩ :: l.mmapAreas }.dropPte
        (syscallPages P.pageSize res len)).log (.mmap ⟨res, len, prot, flags, -1, offset⟩)

/-- A call of `proxy_munmap` that succeeds. -/
def proxyMunmap (P : Platform) (addr size : Nat) (l : Leader) : Option Leader :=
  (l.space.munmap P.pageSize addr size).map fun space =>
    let l := { l with space }.dropPte (syscallPages P.pageSize addr size)
    if P.overlapWithReservedHeap ⟨addr, size⟩ then l.log (.munmap ⟨addr, size⟩) else l

/-- A call of `proxy_madvise` that succeeds. -/
def proxyMadvise (P : Platform) (addr size advice : Nat) (l : Leader) : Option Leader :=
  let res := l.space.madvise P.pageSize addr size advice
  if res.1 then
    let l :=
      { l with
        space := res.2
        pte := fun p =>
          if advice = madvDontneed ∧ (syscallPages P.pageSize addr size).Mem p then 0
          else l.pte p }
    some (if P.overlapWithReservedHeap ⟨addr, size⟩ then l.log (.madvise ⟨addr, size, advice⟩)
      else l)
  else none

/-! ## Sections -/

/-- What `enter_parallel_impl` leaves on the leader: the log was moved away and
the soft-dirty bits are cleared. -/
def enterParallelImpl (l : Leader) : Leader :=
  { l with memoryOperations := [], pte := fun p => (l.pte p).clean }

/-- The reduction writes the page `p`. -/
def ReducedPage (P : Platform) (reduces : List ReduceArea) (p : Nat) : Prop :=
  ∃ r ∈ reduces, 0 < r.memArea.size ∧ (memarea2pgrng P.pageSize r.memArea).Mem p

instance (P : Platform) (reduces : List ReduceArea) (p : Nat) :
    Decidable (ReducedPage P reduces p) := inferInstanceAs (Decidable (∃ _ ∈ _, _))

/-- `do_exit_parallel` on the leader, for the memories of the workers. -/
def doExitParallel (P : Platform) (reduces : List ReduceArea) (workers : List Mem) (l : Leader) :
    Leader :=
  { l with
    space := { l.space with mem := reduceAll P.floatSum reduces workers l.space.mem }
    pte := fun p => if ReducedPage P reduces p then (l.pte p).written else l.pte p
    written := fun x => (∃ r ∈ reduces, r.memArea.Mem x) ∨ l.written x }

/-! ## Lemmas -/

section

variable {l : Leader} {P : Platform} {reduces : List ReduceArea} {memories : List Mem}
  {byte : UInt8} {addr : Nat}

theorem write_pte (p : Nat) : (l.write P addr byte).pte p =
    if p = addr2pgnum P.pageSize addr then (l.pte p).written else l.pte p := rfl

theorem write_mem_self : (l.write P addr byte).space.mem addr = byte := if_pos rfl

theorem doExitParallel_pte (p : Nat) : (l.doExitParallel P reduces memories).pte p =
    if ReducedPage P reduces p then (l.pte p).written else l.pte p := rfl

end

section

variable {P : Platform} {answers : List MmapAnswer} {len begin res p : Nat}

theorem mmapLoop_bounds (h : mmapLoop P len answers begin = some res) :
    begin ≤ res ∧ res + len ≤ P.reservedHeap.data + P.reservedHeap.size := by
  induction answers generalizing begin with
  | nil => cases h
  | cons answer answers ih =>
    unfold mmapLoop at h
    split at h
    · cases h
    · next hle =>
      cases answer with
      | failed | elsewhere =>
        have := ih h
        omega
      | placed =>
        cases h
        omega

/-- The pages of an area inside the heap belong to it. -/
theorem heapPage_of_bounds (hlo : P.reservedHeap.data ≤ res)
    (hhi : res + len ≤ P.reservedHeap.data + P.reservedHeap.size)
    (hres : res % P.pageSize = 0) (hp : (syscallPages P.pageSize res len).Mem p) :
    P.HeapPage p := by
  have hpos : 0 < P.pageSize := P.format.pageSize_pos
  obtain ⟨i, hi⟩ := Nat.dvd_of_mod_eq_zero hres
  obtain ⟨h, hh⟩ := Nat.dvd_of_mod_eq_zero P.heap_aligned
  change P.reservedHeap.data = P.pageSize * h at hh
  -- the heap begins at page `h` and the area at page `h + d`
  obtain ⟨d, rfl⟩ : ∃ d, i = h + d := by
    refine Nat.exists_eq_add_of_le ?_
    rw [hh, hi] at hlo
    exact Nat.le_of_mul_le_mul_left hlo hpos
  have hlen : len + P.pageSize * d ≤ P.reservedHeap.size := by
    rw [hh, hi, Nat.mul_add] at hhi
    omega
  have hcount : (len + (P.pageSize - 1)) / P.pageSize + d ≤
      (P.reservedHeap.size + (P.pageSize - 1)) / P.pageSize := by
    rw [← Nat.add_mul_div_left _ _ hpos]
    exact Nat.div_le_div_right (by omega)
  simp only [Platform.HeapPage, syscallPages, PteRange.Mem] at hp ⊢
  rw [hi, Nat.mul_div_cancel_left _ hpos] at hp
  rw [hh, Nat.mul_div_cancel_left _ hpos]
  omega

/-- The heap ends below the top of the address space. -/
theorem heapPage_inSpace (hp : P.HeapPage p) : (p + 1) * P.pageSize < 2 ^ 64 := by
  have hpos : 0 < P.pageSize := P.format.pageSize_pos
  obtain ⟨h, hh⟩ := Nat.dvd_of_mod_eq_zero P.heap_aligned
  change P.reservedHeap.data = P.pageSize * h at hh
  have hend := P.heap_end
  change P.reservedHeap.data + P.reservedHeap.size + P.pageSize < 2 ^ 64 at hend
  obtain ⟨-, hlt⟩ := hp
  simp only [syscallPages] at hlt
  rw [hh, Nat.mul_div_cancel_left _ hpos] at hlt
  have hle : (p + 1) * P.pageSize ≤
      (h + (P.reservedHeap.size + (P.pageSize - 1)) / P.pageSize) * P.pageSize :=
    Nat.mul_le_mul_right _ hlt
  have hdiv := Nat.div_mul_le_self (P.reservedHeap.size + (P.pageSize - 1)) P.pageSize
  have hsum : (h + (P.reservedHeap.size + (P.pageSize - 1)) / P.pageSize) * P.pageSize =
      P.pageSize * h + (P.reservedHeap.size + (P.pageSize - 1)) / P.pageSize * P.pageSize := by
    rw [Nat.add_mul, Nat.mul_comm h]
  omega

/-- A call that does not overlap the heap touches none of its pages. -/
theorem not_heapPage_of_overlap {addr size : Nat} (haddr : addr % P.pageSize = 0)
    (h : P.overlapWithReservedHeap ⟨addr, size⟩ = false)
    (hp : (syscallPages P.pageSize addr size).Mem p) : ¬ P.HeapPage p := by
  intro hheap
  have hpos : 0 < P.pageSize := P.format.pageSize_pos
  have hsize : 0 < size := by
    refine Nat.pos_of_ne_zero fun h0 => ?_
    subst h0
    obtain ⟨h1, h2⟩ := hp
    simp only [syscallPages, Nat.zero_add, Nat.div_eq_of_lt (Nat.sub_lt hpos Nat.one_pos)] at h1 h2
    omega
  obtain ⟨i, hi⟩ := Nat.dvd_of_mod_eq_zero haddr
  obtain ⟨j, hj⟩ := Nat.dvd_of_mod_eq_zero P.heap_aligned
  change P.reservedHeap.data = P.pageSize * j at hj
  -- the first address of the page lies in neither area's complement
  have hin : ∀ a n k, a = P.pageSize * k → (syscallPages P.pageSize a n).Mem p →
      (⟨a, n⟩ : MemArea).Mem (P.pageSize * p) := by
    rintro a n k rfl ⟨hlo, hhi⟩
    simp only [syscallPages, Nat.mul_div_cancel_left _ hpos] at hlo hhi
    obtain ⟨d, rfl⟩ := Nat.exists_eq_add_of_le hlo
    have hd : d + 1 ≤ (n + (P.pageSize - 1)) / P.pageSize := by omega
    have hmul : (d + 1) * P.pageSize ≤ n + (P.pageSize - 1) := Nat.mul_le_of_le_div _ _ _ hd
    rw [Nat.add_mul, Nat.mul_comm d] at hmul
    simp only [MemArea.Mem, Nat.mul_add]
    omega
  have hover : memAreaOverlap ⟨addr, size⟩ P.reservedHeap = true :=
    (memAreaOverlap_iff hsize P.heap_nonempty).mpr
      ⟨P.pageSize * p, hin _ _ i hi hp, hin _ _ j hj hheap⟩
  rw [Platform.overlapWithReservedHeap, hover] at h
  cases h

end

end Leader

end SimpleParallel.Sync
