import SimpleParallel.Sync.ProxyMmap
import SimpleParallel.Sync.Section

/-!
# Reserving the heap

`reserve_heap_area` of `worker.cc`: before a worker waits for its first tag, it maps the
reserved heap without access, so that no other library is given its addresses. The
address is a hint, and the kernel may place the mapping elsewhere.

* `reserveLoop_tried`: the loop makes at most 17 attempts, and undoes each but the last.
* `reserveHeapArea_spec`: it returns if and only if one of them hits the address. The
  worker is then as the synchronisation of the heap needs it; otherwise it has lost no
  mapping, and the message names the stray one.
-/

namespace SimpleParallel.Sync

/-- `MAP_FAILED`. -/
def mapFailed : Nat := 2 ^ 64 - 1

/-- What the kernel answers to a call of `mmap`; `reason` is the text of `errno`. -/
inductive MmapReply
  | failed (reason : String)
  | placed (ptr : Nat)
  deriving DecidableEq

namespace MmapReply

/-- What `mmap` returns. -/
def ptr : MmapReply → Nat
  | failed _ => mapFailed
  | placed ptr => ptr

/-- The process after `mmap` of `len` bytes. -/
def mapped (pageSize len prot : Nat) (v : AddressSpace) : MmapReply → AddressSpace
  | failed _ => v
  | placed ptr => (v.mmapFixed pageSize ptr len prot).getD v

/-- Without `MAP_FIXED` the kernel takes pages of the user address space that are free. -/
def Valid (pageSize userEnd len : Nat) (v : AddressSpace) : MmapReply → Prop
  | failed _ => True
  | placed ptr => 0 < len ∧ 0 < ptr ∧ ptr % pageSize = 0 ∧ ptr + len ≤ userEnd ∧
      ∀ p, (syscallPages pageSize ptr len).Mem p → v.prot p = none

end MmapReply

/-- `operator<<` for a pointer. -/
def showPointer (ptr : Nat) : String := "0x" ++ String.ofList (Nat.toDigits 16 ptr)

def mmapFailedText (reason : String) : String :=
  "Error: mmap reserved heap failed after 16 times, exit. Reason: " ++ reason

def misplacedText (ptr : Nat) : String :=
  "Error: mmap reserved heap failed after 16 times, exit. " ++
  "Reason: reserved heap is not at expected address. The memory " ++
  "address may have beed used by other library. Set " ++
  "SIMPLE_PARALLEL_RESERVED_HEAP_ADDR environment variable to " ++
  "another location can solve this problem\n" ++
  "Tip: set SIMPLE_PARALLEL_RESERVED_HEAP_ADDR environment variable to " ++ showPointer ptr ++
  "or set SIMPLE_PARALLEL_RESERVED_HEAP_SIZE environment " ++
  "variable (default 0x100000000000) to a smaller value might solve this problem."

section

variable (pageSize : Nat) (heap : MemArea) (kernel : Nat → MmapReply)

/-- The `while` of `reserve_heap_area`, where `kernel n` answers the `n`-th attempt; `none`
when it goes on. -/
def reserveLoop : Nat → Nat → Nat → AddressSpace → Option (Except String Unit × AddressSpace)
  | 0, _, _, _ => none
  | fuel + 1, loopCount, ptr, v =>
    if ptr ≠ heap.data then
      let loopCount := loopCount + 1
      let reply := kernel loopCount
      let v := reply.mapped pageSize heap.size protNone v
      if reply.ptr ≠ heap.data then
        match reply with
        | .failed reason =>
          if loopCount > 16 then some (.error (mmapFailedText reason), v)
          else reserveLoop fuel loopCount mapFailed v
        | .placed ptr =>
          if loopCount > 16 then some (.error (misplacedText ptr), v)
          else reserveLoop fuel loopCount ptr ((v.munmap pageSize ptr heap.size).getD v)
      else reserveLoop fuel loopCount reply.ptr v
    else some (.ok (), v)

end

/-! ## What an attempt leaves -/

/-- Nothing changed for the mappings of `v`, and there are no others. -/
structure Kept (pageSize : Nat) (v v' : AddressSpace) : Prop where
  prot : ∀ p, v'.prot p = v.prot p
  mem : ∀ x, v.prot (addr2pgnum pageSize x) ≠ none → v'.mem x = v.mem x

/-- One mapping without access came to the mappings of `v`, on pages that were free. -/
structure Added (pageSize : Nat) (area : MemArea) (v v' : AddressSpace) : Prop where
  free : ∀ p, (syscallPages pageSize area.data area.size).Mem p → v.prot p = none
  prot : ∀ p, v'.prot p =
    if (syscallPages pageSize area.data area.size).Mem p then some protNone else v.prot p
  zero : ∀ x, (syscallPages pageSize area.data area.size).Mem (addr2pgnum pageSize x) →
    v'.mem x = 0
  mem : ∀ x, v.prot (addr2pgnum pageSize x) ≠ none → v'.mem x = v.mem x

section

variable {pageSize userEnd len ptr : Nat} {v u w : AddressSpace}

theorem Kept.refl (v : AddressSpace) : Kept pageSize v v := ⟨fun _ => rfl, fun _ _ => rfl⟩

/-- What the kernel does with a reply that places the area. -/
theorem Kept.added (h : Kept pageSize v u)
    (hvalid : (MmapReply.placed ptr).Valid pageSize userEnd len v) :
    Added pageSize ⟨ptr, len⟩ v ((MmapReply.placed ptr).mapped pageSize len protNone u) := by
  obtain ⟨hlen, _, halign, _, hfree⟩ := hvalid
  obtain ⟨u', hu'⟩ : ∃ u', u.mmapFixed pageSize ptr len protNone = some u' := by
    unfold AddressSpace.mmapFixed
    rw [if_pos ⟨halign, hlen⟩]
    exact ⟨_, rfl⟩
  obtain ⟨_, hprot, hmem⟩ := mmapFixed_eq hu'
  have hu : (MmapReply.placed ptr).mapped pageSize len protNone u = u' := by
    simp only [MmapReply.mapped, hu', Option.getD_some]
  rw [hu]
  refine ⟨hfree, fun p => ?_, fun x hx => ?_, fun x hx => ?_⟩
  · rw [hprot, h.prot]
  · rw [hmem]
    exact if_pos hx
  · rw [hmem, if_neg fun hp => hx (hfree _ hp), h.mem x hx]

/-- `munmap` undoes it. -/
theorem Added.undone (h : Added pageSize ⟨ptr, len⟩ v u)
    (hvalid : (MmapReply.placed ptr).Valid pageSize userEnd len v) :
    Kept pageSize v ((u.munmap pageSize ptr len).getD u) := by
  obtain ⟨hlen, _, halign, _, hfree⟩ := hvalid
  unfold AddressSpace.munmap
  rw [if_pos ⟨halign, hlen⟩]
  refine ⟨fun p => ?_, fun x hx => ?_⟩
  · show (if (syscallPages pageSize ptr len).Mem p then none else u.prot p) = v.prot p
    split
    · next hp => exact (hfree p hp).symm
    · next hp => rw [h.prot, if_neg hp]
  · show (if (syscallPages pageSize ptr len).Mem (addr2pgnum pageSize x) then 0 else u.mem x) =
      v.mem x
    rw [if_neg fun hp => hx (hfree _ hp), h.mem x hx]

end

/-! ## The loop -/

section

variable {pageSize userEnd : Nat} {heap : MemArea} {kernel : Nat → MmapReply} {v : AddressSpace}

/-- The ways out of the loop, for the attempts from `n + 1` on. -/
inductive Tried (pageSize : Nat) (heap : MemArea) (kernel : Nat → MmapReply) (v : AddressSpace)
    (n : Nat) : Except String Unit × AddressSpace → Prop
  | hit {m : Nat} {v' : AddressSpace} : n < m → m ≤ 17 → kernel m = .placed heap.data →
      Added pageSize heap v v' → Tried pageSize heap kernel v n (.ok (), v')
  /-- A heap at the address `MAP_FAILED` is taken for reserved when `mmap` fails. -/
  | failedHit {m : Nat} {reason : String} {v' : AddressSpace} : n < m → m ≤ 17 →
      kernel m = .failed reason → heap.data = mapFailed → Kept pageSize v v' →
      Tried pageSize heap kernel v n (.ok (), v')
  | failed {reason : String} {v' : AddressSpace} :
      (∀ m, n < m → m ≤ 17 → (kernel m).ptr ≠ heap.data) → kernel 17 = .failed reason →
      Kept pageSize v v' → Tried pageSize heap kernel v n (.error (mmapFailedText reason), v')
  | misplaced {ptr : Nat} {v' : AddressSpace} :
      (∀ m, n < m → m ≤ 17 → (kernel m).ptr ≠ heap.data) → kernel 17 = .placed ptr →
      Added pageSize ⟨ptr, heap.size⟩ v v' →
      Tried pageSize heap kernel v n (.error (misplacedText ptr), v')

variable {n : Nat} {r : Except String Unit × AddressSpace}

/-- An attempt that missed is followed by the others. -/
theorem Tried.after_miss (hmiss : (kernel (n + 1)).ptr ≠ heap.data)
    (h : Tried pageSize heap kernel v (n + 1) r) : Tried pageSize heap kernel v n r := by
  have hall : (∀ m, n + 1 < m → m ≤ 17 → (kernel m).ptr ≠ heap.data) →
      ∀ m, n < m → m ≤ 17 → (kernel m).ptr ≠ heap.data := by
    intro hrest m hm hle
    rcases Nat.eq_or_lt_of_le (Nat.succ_le_of_lt hm) with rfl | hlt
    · exact hmiss
    · exact hrest m hlt hle
  cases h with
  | hit hm hle hreply hadd => exact .hit (Nat.lt_of_succ_lt hm) hle hreply hadd
  | failedHit hm hle hreply hdata hkept =>
    exact .failedHit (Nat.lt_of_succ_lt hm) hle hreply hdata hkept
  | failed hrest hreply hkept => exact .failed (hall hrest) hreply hkept
  | misplaced hrest hreply hadd => exact .misplaced (hall hrest) hreply hadd

theorem reserveLoop_failed {fuel loopCount ptr : Nat} {u : AddressSpace} {reason : String}
    (hptr : ptr ≠ heap.data) (hreply : kernel (loopCount + 1) = .failed reason) :
    reserveLoop pageSize heap kernel (fuel + 1) loopCount ptr u =
      if mapFailed ≠ heap.data then
        if loopCount + 1 > 16 then some (.error (mmapFailedText reason), u)
        else reserveLoop pageSize heap kernel fuel (loopCount + 1) mapFailed u
      else reserveLoop pageSize heap kernel fuel (loopCount + 1) mapFailed u := by
  rw [reserveLoop, if_pos hptr]
  simp only [hreply]
  rfl

theorem reserveLoop_placed {fuel loopCount ptr ptr' : Nat} {u : AddressSpace}
    (hptr : ptr ≠ heap.data) (hreply : kernel (loopCount + 1) = .placed ptr') :
    reserveLoop pageSize heap kernel (fuel + 1) loopCount ptr u =
      let u' := (MmapReply.placed ptr').mapped pageSize heap.size protNone u
      if ptr' ≠ heap.data then
        if loopCount + 1 > 16 then some (.error (misplacedText ptr'), u')
        else reserveLoop pageSize heap kernel fuel (loopCount + 1) ptr'
          ((u'.munmap pageSize ptr' heap.size).getD u')
      else reserveLoop pageSize heap kernel fuel (loopCount + 1) ptr' u' := by
  rw [reserveLoop, if_pos hptr]
  simp only [hreply]
  rfl

theorem reserveLoop_hit {fuel loopCount : Nat} {u : AddressSpace} :
    reserveLoop pageSize heap kernel (fuel + 1) loopCount heap.data u = some (.ok (), u) := by
  rw [reserveLoop, if_neg (not_not.mpr rfl)]

/-- The attempts that are left: `fuel` counts them and the test that ends the loop. What
was mapped before the loop is kept all along. -/
theorem reserveLoop_tried
    (hvalid : ∀ m, (kernel m).Valid pageSize userEnd heap.size v) {fuel loopCount ptr : Nat}
    {u : AddressSpace} (hfuel : fuel + loopCount = 17) (hpos : 0 < fuel)
    (hptr : ptr ≠ heap.data) (hkept : Kept pageSize v u) :
    ∃ r, reserveLoop pageSize heap kernel (fuel + 1) loopCount ptr u = some r ∧
      Tried pageSize heap kernel v loopCount r := by
  induction fuel generalizing loopCount ptr u with
  | zero => exact absurd hpos (Nat.lt_irrefl 0)
  | succ fuel ih =>
    have hle : loopCount + 1 ≤ 17 := by omega
    have hnext := hvalid (loopCount + 1)
    -- what the last attempt leaves differs from what the others do
    have hlast : loopCount + 1 > 16 → loopCount + 1 = 17 := fun h => Nat.le_antisymm hle h
    have hmore : loopCount + 1 ≤ 16 → fuel + (loopCount + 1) = 17 ∧ 0 < fuel := by omega
    cases hreply : kernel (loopCount + 1) with
    | failed reason =>
      rw [reserveLoop_failed hptr hreply]
      rcases eq_or_ne mapFailed heap.data with hdata | hdata
      · rw [if_neg (not_not.mpr hdata), hdata, reserveLoop_hit]
        exact ⟨_, rfl, .failedHit (Nat.lt_succ_self _) hle hreply hdata.symm hkept⟩
      · have hmiss : (kernel (loopCount + 1)).ptr ≠ heap.data := by rwa [hreply]
        rw [if_pos hdata]
        rcases Nat.lt_or_ge 16 (loopCount + 1) with hlt | hge
        · have h17 := hlast hlt
          rw [if_pos hlt]
          refine ⟨_, rfl, .failed (fun m hm hm17 => ?_) (h17 ▸ hreply) hkept⟩
          obtain rfl : m = loopCount + 1 := by omega
          exact hmiss
        · rw [if_neg (Nat.not_lt.mpr hge)]
          obtain ⟨r, hr, htried⟩ := ih (hmore hge).1 (hmore hge).2 hdata hkept
          exact ⟨r, hr, htried.after_miss hmiss⟩
    | placed ptr' =>
      rw [hreply] at hnext
      have hadd := hkept.added hnext
      rw [reserveLoop_placed hptr hreply]
      rcases eq_or_ne ptr' heap.data with rfl | hdata
      · simp only [ne_eq, not_true_eq_false, if_false]
        rw [reserveLoop_hit]
        exact ⟨_, rfl, .hit (Nat.lt_succ_self _) hle hreply hadd⟩
      · have hmiss : (kernel (loopCount + 1)).ptr ≠ heap.data := by rwa [hreply]
        simp only [if_pos hdata]
        rcases Nat.lt_or_ge 16 (loopCount + 1) with hlt | hge
        · have h17 := hlast hlt
          rw [if_pos hlt]
          refine ⟨_, rfl, .misplaced (fun m hm hm17 => ?_) (h17 ▸ hreply) hadd⟩
          obtain rfl : m = loopCount + 1 := by omega
          exact hmiss
        · rw [if_neg (Nat.not_lt.mpr hge)]
          obtain ⟨r, hr, htried⟩ := ih (hmore hge).1 (hmore hge).2 hdata (hadd.undone hnext)
          exact ⟨r, hr, htried.after_miss hmiss⟩

end

/-! ## The function -/

/-- The kernel's answers to the attempts of a process with the mappings of `v`. -/
structure MmapKernel (pageSize userEnd len : Nat) (v : AddressSpace) where
  reply : Nat → MmapReply
  valid : ∀ m, (reply m).Valid pageSize userEnd len v

section

variable {pageSize userEnd : Nat} {heap : MemArea} {v : AddressSpace}

/-- `nullptr` is taken for reserved without an attempt. -/
theorem reserveLoop_start (kernel : MmapKernel pageSize userEnd heap.size v) :
    ∃ r, reserveLoop pageSize heap kernel.reply 18 0 0 v = some r ∧
      ((heap.data = 0 ∧ r = (.ok (), v)) ∨
        (heap.data ≠ 0 ∧ Tried pageSize heap kernel.reply v 0 r)) := by
  rcases eq_or_ne 0 heap.data with hdata | hdata
  · refine ⟨_, ?_, .inl ⟨hdata.symm, rfl⟩⟩
    rw [hdata]
    exact reserveLoop_hit
  · obtain ⟨r, hr, htried⟩ :=
      reserveLoop_tried kernel.valid (show 17 + 0 = 17 from rfl) (by decide) hdata (.refl v)
    exact ⟨r, hr, .inr ⟨hdata.symm, htried⟩⟩

/-- `reserve_heap_area`, for the area that `get_reserved_heap` returns. -/
def reserveHeapArea (heap : MemArea) (kernel : MmapKernel pageSize userEnd heap.size v) :
    Except String Unit × AddressSpace :=
  (reserveLoop pageSize heap kernel.reply 18 0 0 v).get (by
    obtain ⟨r, hr, _⟩ := reserveLoop_start kernel
    rw [hr]
    rfl)

theorem reserveHeapArea_cases (kernel : MmapKernel pageSize userEnd heap.size v) :
    (heap.data = 0 ∧ reserveHeapArea heap kernel = (.ok (), v)) ∨
      (heap.data ≠ 0 ∧ Tried pageSize heap kernel.reply v 0 (reserveHeapArea heap kernel)) := by
  obtain ⟨r, hr, hcases⟩ := reserveLoop_start kernel
  have heq : reserveHeapArea heap kernel = r := by
    unfold reserveHeapArea
    simp only [hr, Option.get_some]
  rwa [heq]

theorem MmapKernel.placed_valid (kernel : MmapKernel pageSize userEnd heap.size v) {m ptr : Nat}
    (h : kernel.reply m = .placed ptr) :
    (MmapReply.placed ptr).Valid pageSize userEnd heap.size v := h ▸ kernel.valid m

/-- The worker that has reserved its heap is as the synchronisation needs it. -/
theorem Added.worker_heap {P : Platform} {v' : AddressSpace}
    (h : Added P.pageSize P.reservedHeap v v') (p : Nat) (hp : P.HeapPage p) :
    v'.prot p = some protNone ∧ ZeroPage P.format v'.mem p := by
  refine ⟨?_, fun x hx => h.zero x (hx.symm ▸ hp)⟩
  rw [h.prot]
  exact if_pos hp

/-- Whatever the kernel answers, the function returns if and only if the heap is at the
null address or one of 17 attempts gives its address. A heap that lies inside the user
address space is then mapped without access on pages that were free. If it throws, the last
mapping that went elsewhere stays, and is the one that the message names. What was mapped
before keeps its protection and its bytes. -/
theorem reserveHeapArea_spec (kernel : MmapKernel pageSize userEnd heap.size v) :
    ((reserveHeapArea heap kernel).1 = .ok () ↔
      heap.data = 0 ∨ ∃ m, 0 < m ∧ m ≤ 17 ∧ (kernel.reply m).ptr = heap.data) ∧
    ((reserveHeapArea heap kernel).1 = .ok () → 0 < heap.data → heap.data ≠ mapFailed →
      (heap.data % pageSize = 0 ∧ 0 < heap.size ∧ heap.data + heap.size ≤ userEnd) ∧
      Added pageSize heap v (reserveHeapArea heap kernel).2) ∧
    ∀ e, (reserveHeapArea heap kernel).1 = .error e →
      (∃ reason, kernel.reply 17 = .failed reason ∧ e = mmapFailedText reason ∧
        Kept pageSize v (reserveHeapArea heap kernel).2) ∨
      ∃ ptr, kernel.reply 17 = .placed ptr ∧ ptr ≠ heap.data ∧ e = misplacedText ptr ∧
        Added pageSize ⟨ptr, heap.size⟩ v (reserveHeapArea heap kernel).2 := by
  rcases reserveHeapArea_cases kernel with ⟨hzero, heq⟩ | ⟨hzero, htried⟩
  · rw [heq]
    exact ⟨⟨fun _ => .inl hzero, fun _ => rfl⟩,
      fun _ hpos => absurd hzero (Nat.ne_of_gt hpos), fun e h => by cases h⟩
  · generalize hr : reserveHeapArea heap kernel = r at htried
    cases htried with
    | hit hm hle hreply hadd =>
      have hptr := congrArg MmapReply.ptr hreply
      obtain ⟨hlen, _, halign, hend, _⟩ := kernel.placed_valid hreply
      exact ⟨⟨fun _ => .inr ⟨_, hm, hle, hptr⟩, fun _ => rfl⟩,
        fun _ _ _ => ⟨⟨halign, hlen, hend⟩, hadd⟩, fun e h => by cases h⟩
    | failedHit hm hle hreply hdata hkept =>
      have hptr := congrArg MmapReply.ptr hreply
      exact ⟨⟨fun _ => .inr ⟨_, hm, hle, hptr.trans hdata.symm⟩, fun _ => rfl⟩,
        fun _ _ hne => absurd hdata hne, fun e h => by cases h⟩
    | failed hmiss hreply hkept =>
      refine ⟨⟨(nomatch ·), ?_⟩, (nomatch ·), fun e h => ?_⟩
      · rintro (h | ⟨m, hm, hle, h⟩)
        · exact absurd h hzero
        · exact absurd h (hmiss m hm hle)
      · cases h
        exact .inl ⟨_, hreply, rfl, hkept⟩
    | misplaced hmiss hreply hadd =>
      refine ⟨⟨(nomatch ·), ?_⟩, (nomatch ·), fun e h => ?_⟩
      · rintro (h | ⟨m, hm, hle, h⟩)
        · exact absurd h hzero
        · exact absurd h (hmiss m hm hle)
      · cases h
        have hne := hmiss 17 (by decide) (by decide)
        rw [hreply] at hne
        exact .inr ⟨_, hreply, hne, rfl, hadd⟩

end

/-- The first attempt is placed elsewhere, the second fails, and those from the third on are
placed at the heap of 1 GiB at `2 ^ 44`. -/
def retryReply (n : Nat) : MmapReply :=
  if n = 1 then .placed (2 ^ 45) else if n = 2 then .failed "Cannot allocate memory"
  else .placed (2 ^ 44)

def retryKernel : MmapKernel 4096 (2 ^ 47) (2 ^ 30) ⟨fun _ => none, fun _ => 0⟩ where
  reply := retryReply
  valid n := by
    unfold retryReply
    split
    · exact ⟨by decide, by decide, by decide, by decide, fun _ _ => rfl⟩
    · split
      · trivial
      · exact ⟨by decide, by decide, by decide, by decide, fun _ _ => rfl⟩

/-- After these replies the heap is reserved, and nothing is left of the first. -/
theorem reserveHeapArea_spec_retried :
    (reserveHeapArea ⟨2 ^ 44, 2 ^ 30⟩ retryKernel).1 = .ok () ∧
      (reserveHeapArea ⟨2 ^ 44, 2 ^ 30⟩ retryKernel).2.prot (2 ^ 32) = some protNone ∧
      (reserveHeapArea ⟨2 ^ 44, 2 ^ 30⟩ retryKernel).2.prot (2 ^ 33) = none := by
  obtain ⟨hiff, hreserved, -⟩ := @reserveHeapArea_spec _ _ ⟨2 ^ 44, 2 ^ 30⟩ _ retryKernel
  have hok := hiff.mpr (.inr ⟨3, by decide, by decide, rfl⟩)
  obtain ⟨-, hadded⟩ := hreserved hok (by decide) (by decide)
  exact ⟨hok, (hadded.prot _).trans (if_pos (by decide)),
    (hadded.prot _).trans (if_neg (by decide))⟩

end SimpleParallel.Sync
