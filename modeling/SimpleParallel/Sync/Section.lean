import SimpleParallel.Lib.LTS
import SimpleParallel.Sync.Entry

/-!
# Runs of the leader and its workers

The leader and `W` workers as a labelled transition system. The leader calls
the proxies, allocates, frees and writes; a parallel section is entered and
left by all processes at once, since both ends are collective; inside a section
the workers write. A write is not checked against protections, and the kernel
may mark a page dirty or bring it in at any time.

* `call_cases`: what a proxy call does, logged or outside the heap.
* `leaderInv`: areas and blocks lie inside the heap, in every reachable state.
-/

namespace SimpleParallel.Sync

open Reduce

/-! ## Calls of the proxies -/

/-- A call of a proxy. The answers are those of the kernel to `proxy_mmap`. -/
inductive ProxyCall
  | proxyMmap (answers : List Leader.MmapAnswer) (len prot flags : Nat) (offset : Int)
  | proxyMunmap (addr size : Nat)
  | proxyMadvise (addr size advice : Nat)
  deriving DecidableEq

/-- A successful call. -/
def Leader.call (P : Platform) (l : Leader) : ProxyCall → Option Leader
  | .proxyMmap answers len prot flags offset => l.proxyMmap P answers len prot flags offset
  | .proxyMunmap addr size => l.proxyMunmap P addr size
  | .proxyMadvise addr size advice => l.proxyMadvise P addr size advice

/-- The kernel places an area only where nothing is mapped, and `munmap` and
`madvise` are called in the heap for pages of an area that `proxy_mmap`
returned. -/
def Leader.CallOk (P : Platform) (l : Leader) : ProxyCall → Prop
  | .proxyMmap answers len _ _ _ =>
    ∀ res, mmapLoop P len answers l.begin = some res →
      ∀ p, (syscallPages P.pageSize res len).Mem p → l.space.prot p = none
  | .proxyMunmap addr size | .proxyMadvise addr size _ =>
    P.overlapWithReservedHeap ⟨addr, size⟩ = true →
      ∃ area ∈ l.mmapAreas, ∀ p, (syscallPages P.pageSize addr size).Mem p →
        (syscallPages P.pageSize area.data area.size).Mem p

/-- The operation that a call logs. -/
def ProxyCall.Logged (P : Platform) (l : Leader) (op : MemOp) : ProxyCall → Prop
  | .proxyMmap answers len prot flags offset =>
    ∃ res, Leader.mmapLoop P len answers l.begin = some res ∧
      op = .mmap ⟨res, len, prot, flags, -1, offset⟩
  | .proxyMunmap addr size => op = .munmap ⟨addr, size⟩
  | .proxyMadvise addr size advice => op = .madvise ⟨addr, size, advice⟩

/-- The operation is aligned, concerns pages of the heap, and maps no empty
area. -/
structure OpOk (P : Platform) (op : MemOp) : Prop where
  pages_heap : ∀ p, (op.pages P.pageSize).Mem p → P.HeapPage p
  aligned : match op with
    | .mmap params => params.addr % P.pageSize = 0 ∧ 0 < params.len
    | .munmap params => params.addr % P.pageSize = 0 ∧ 0 < params.len
    | .madvise params => params.addr % P.pageSize = 0

/-- A call that was logged as `op`. On the leader the operation has the effect
that its release build replay has on a worker. -/
structure Logs (P : Platform) (l l' : Leader) (op : MemOp) : Prop where
  memoryOperations : l'.memoryOperations = l.memoryOperations ++ [op]
  logged : l'.logged = l.logged ++ [op]
  blocks : l'.blocks = l.blocks
  written : l'.written = l.written
  prot : ∀ p, (l'.space.prot p).getD protNone =
    (op.remap P.pageSize p).getD ((l.space.prot p).getD protNone)
  keep : ∀ p, ¬ (op.pages P.pageSize).Mem p → l'.space.prot p = l.space.prot p
  mem : ∀ x, l'.space.mem x =
    if op.wipes P.pageSize true (addr2pgnum P.pageSize x) then 0 else l.space.mem x
  pte : ∀ p, l'.pte p = if op.wipes P.pageSize true p then 0 else l.pte p
  ok : OpOk P op

/-- A call outside the heap. -/
structure Elsewhere (P : Platform) (l l' : Leader) : Prop where
  memoryOperations : l'.memoryOperations = l.memoryOperations
  logged : l'.logged = l.logged
  blocks : l'.blocks = l.blocks
  written : l'.written = l.written
  prot : ∀ p, P.HeapPage p → l'.space.prot p = l.space.prot p
  mem : ∀ x, P.HeapPage (addr2pgnum P.pageSize x) → l'.space.mem x = l.space.mem x
  pte : ∀ p, P.HeapPage p → l'.pte p = l.pte p

/-- The areas and blocks of the leader lie inside the heap. -/
structure LeaderInv (P : Platform) (l : Leader) : Prop where
  begin_ge : P.reservedHeap.data ≤ l.begin
  areas_heap : ∀ area ∈ l.mmapAreas, ∀ p,
    (syscallPages P.pageSize area.data area.size).Mem p → P.HeapPage p
  blocks_heap : ∀ p, MallocPage P.format l.blocks p → P.HeapPage p

section Calls

variable {P : Platform} {l l' : Leader}

theorem proxyMmap_logs {answers : List Leader.MmapAnswer} {len prot flags : Nat} {offset : Int}
    (hl : LeaderInv P l) (h : l.proxyMmap P answers len prot flags offset = some l') :
    (∃ res, Leader.mmapLoop P len answers l.begin = some res ∧
      Logs P l l' (.mmap ⟨res, len, prot, flags, -1, offset⟩)) ∧ LeaderInv P l' := by
  obtain ⟨res, hloop, h⟩ := Option.bind_eq_some_iff.mp h
  obtain ⟨space, hspace, rfl⟩ := Option.map_eq_some_iff.mp h
  obtain ⟨⟨haligned, hlen⟩, hprot, hmem⟩ := mmapFixed_eq hspace
  have hbounds := Leader.mmapLoop_bounds hloop
  have hbegin := hl.begin_ge
  have hheap : ∀ p, (syscallPages P.pageSize res len).Mem p → P.HeapPage p := fun p hp =>
    Leader.heapPage_of_bounds (by omega) hbounds.2 haligned hp
  refine ⟨⟨res, hloop, ⟨rfl, rfl, rfl, rfl, fun p => ?_, fun p hp => (hprot p).trans (if_neg hp),
    fun x => ?_, fun p => ?_, hheap, haligned, hlen⟩⟩, ⟨?_, ?_, hl.blocks_heap⟩⟩
  · show (space.prot p).getD protNone = _
    rw [hprot p]
    by_cases hp : (syscallPages P.pageSize res len).Mem p <;> simp [MemOp.remap, MemOp.pages, hp]
  · show space.mem x = _
    rw [hmem x]
    simp only [wipes_mmap]
  · simp only [wipes_mmap]
    rfl
  · show P.reservedHeap.data ≤ res + _
    omega
  · exact List.forall_mem_cons.mpr ⟨hheap, hl.areas_heap⟩

theorem proxyMunmap_cases {addr size : Nat} (hl : LeaderInv P l)
    (hok : l.CallOk P (.proxyMunmap addr size)) (h : l.proxyMunmap P addr size = some l') :
    (Logs P l l' (.munmap ⟨addr, size⟩) ∨ Elsewhere P l l') ∧ LeaderInv P l' := by
  obtain ⟨space, hspace, rfl⟩ := Option.map_eq_some_iff.mp h
  unfold AddressSpace.munmap at hspace
  split at hspace
  · next haligned =>
    cases hspace
    dsimp only
    split
    · next hover =>
      obtain ⟨area, harea, hsub⟩ := hok hover
      have hheap : ∀ p, (syscallPages P.pageSize addr size).Mem p → P.HeapPage p :=
        fun p hp => hl.areas_heap area harea p (hsub p hp)
      refine ⟨.inl ⟨rfl, rfl, rfl, rfl, fun p => ?_, fun p hp => if_neg hp, fun x => ?_,
        fun p => ?_, hheap, haligned⟩,
        ⟨hl.begin_ge, hl.areas_heap, hl.blocks_heap⟩⟩
      · show (if (syscallPages P.pageSize addr size).Mem p then none else l.space.prot p).getD
          protNone = _
        by_cases hp : (syscallPages P.pageSize addr size).Mem p <;>
          simp [MemOp.remap, MemOp.pages, hp]
      · simp only [wipes_munmap]
        rfl
      · simp only [wipes_munmap]
        rfl
    · next hover =>
      have hout : ∀ p, (syscallPages P.pageSize addr size).Mem p → ¬ P.HeapPage p := fun p hp =>
        Leader.not_heapPage_of_overlap haligned.1 (by simpa using hover) hp
      refine ⟨.inr ⟨rfl, rfl, rfl, rfl, fun p hp => ?_, fun x hx => ?_, fun p hp => ?_⟩,
        ⟨hl.begin_ge, hl.areas_heap, hl.blocks_heap⟩⟩
      · exact if_neg fun h => hout p h hp
      · exact if_neg fun h => hout _ h hx
      · exact if_neg fun h => hout p h hp
  · cases hspace

theorem proxyMadvise_cases {addr size advice : Nat} (hl : LeaderInv P l)
    (hok : l.CallOk P (.proxyMadvise addr size advice))
    (h : l.proxyMadvise P addr size advice = some l') :
    (Logs P l l' (.madvise ⟨addr, size, advice⟩) ∨ Elsewhere P l l') ∧ LeaderInv P l' := by
  unfold Leader.proxyMadvise at h
  dsimp only at h
  split at h
  · next hres =>
    have haligned : addr % P.pageSize = 0 := by
      by_contra hne
      simp only [AddressSpace.madvise, if_neg hne] at hres
      cases hres
    cases h
    by_cases hover : P.overlapWithReservedHeap ⟨addr, size⟩ = true
    · obtain ⟨area, harea, hsub⟩ := hok hover
      rw [if_pos hover]
      refine ⟨.inl ⟨rfl, rfl, rfl, rfl, fun p => ?_, fun p _ => madvise_prot, fun x => ?_,
        fun p => ?_, fun p hp => hl.areas_heap area harea p (hsub p hp), haligned⟩,
        ⟨hl.begin_ge, hl.areas_heap, hl.blocks_heap⟩⟩
      · exact congrArg (Option.getD · protNone) madvise_prot
      · refine madvise_mem.trans ?_
        simp only [wipes_madvise, true_and]
      · simp only [wipes_madvise, haligned, true_and]
        rfl
    · have hout : ∀ p, (syscallPages P.pageSize addr size).Mem p → ¬ P.HeapPage p := fun p hp =>
        Leader.not_heapPage_of_overlap haligned (by simpa using hover) hp
      rw [if_neg hover]
      refine ⟨.inr ⟨rfl, rfl, rfl, rfl, fun p _ => madvise_prot, fun x hx => ?_, fun p hp => ?_⟩,
        ⟨hl.begin_ge, hl.areas_heap, hl.blocks_heap⟩⟩
      · exact madvise_mem.trans (if_neg fun h => hout _ h.2.2 hx)
      · exact if_neg fun h => hout p h.2 hp
  · cases h

/-- Every call is logged or concerns no page of the heap. -/
theorem call_cases {c : ProxyCall} (hl : LeaderInv P l) (hok : l.CallOk P c)
    (h : l.call P c = some l') :
    ((∃ op, c.Logged P l op ∧ Logs P l l' op) ∨ Elsewhere P l l') ∧ LeaderInv P l' := by
  cases c with
  | proxyMmap answers len prot flags offset =>
    obtain ⟨⟨res, hloop, hlogs⟩, hinv⟩ := proxyMmap_logs hl h
    exact ⟨.inl ⟨_, ⟨res, hloop, rfl⟩, hlogs⟩, hinv⟩
  | proxyMunmap addr size =>
    obtain ⟨hlogs | helse, hinv⟩ := proxyMunmap_cases hl hok h
    · exact ⟨.inl ⟨_, rfl, hlogs⟩, hinv⟩
    · exact ⟨.inr helse, hinv⟩
  | proxyMadvise addr size advice =>
    obtain ⟨hlogs | helse, hinv⟩ := proxyMadvise_cases hl hok h
    · exact ⟨.inl ⟨_, rfl, hlogs⟩, hinv⟩
    · exact ⟨.inr helse, hinv⟩

end Calls

/-! ## States and steps -/

structure Worker where
  space : AddressSpace
  /-- The operations that the worker performed, in order. -/
  replayed : List MemOp
  /-- The worker wrote the byte and no entry overwrote it since. -/
  scribbled : Nat → Prop

/-- All processes, and the reduce areas of the section they are in. -/
structure State (W : Nat) where
  leader : Leader
  workers : Fin W → Worker
  reduces : Option (List ReduceArea)

inductive Label (W : Nat)
  | call (c : ProxyCall)
  | malloc (block : MemArea)
  | free (block : MemArea)
  | write (addr : Nat) (byte : UInt8)
  | kernel (p : Nat) (entry : Pte)
  | enter (reduces : List ReduceArea)
  | workerWrite (w : Fin W) (addr : Nat) (byte : UInt8)
  | exit

/-- A heap takes a block from mapped pages of its areas, disjoint from the live
blocks. -/
structure Leader.MallocOk (P : Platform) (l : Leader) (block : MemArea) : Prop where
  pages : ∀ p, (memarea2pgrng P.pageSize block).Mem p → (l.space.prot p).isSome ∧
    ∃ area ∈ l.mmapAreas, (syscallPages P.pageSize area.data area.size).Mem p
  disjoint : ∀ other ∈ l.blocks, ∀ x, block.Mem x → ¬ other.Mem x

/-- An entry overwrites the byte on every worker. -/
def Leader.Overwrites (P : Platform) (reduces : List ReduceArea) (l : Leader) (x : Nat) : Prop :=
  l.Sends P reduces (addr2pgnum P.pageSize x) ∨ (∃ r ∈ reduces, r.memArea.Mem x) ∨
    l.memoryOperations.any
      (fun op => op.wipes P.pageSize P.ndebug (addr2pgnum P.pageSize x)) = true

/-- A worker after an entry that left it with the memory `space`. -/
def Worker.entered (P : Platform) (l : Leader) (reduces : List ReduceArea) (space : AddressSpace)
    (worker : Worker) : Worker where
  space := space
  replayed := worker.replayed ++ (recvMemOps l.memoryOperations).getD []
  scribbled := fun x => worker.scribbled x ∧ ¬ l.Overwrites P reduces x

def Worker.write (addr : Nat) (byte : UInt8) (worker : Worker) : Worker :=
  { worker with
    space := { worker.space with
      mem := fun x => if x = addr then byte else worker.space.mem x }
    scribbled := fun x => x = addr ∨ worker.scribbled x }

/-- The area begins at an address. -/
def AreaOk (r : ReduceArea) : Prop := r.begin < 2 ^ 64

instance (r : ReduceArea) : Decidable (AreaOk r) := inferInstanceAs (Decidable (_ < _))

variable {W : Nat}

inductive Step (P : Platform) : State W → Label W → State W → Prop
  | call {s : State W} {c : ProxyCall} {l : Leader} :
      s.leader.CallOk P c → s.leader.call P c = some l → Step P s (.call c) { s with leader := l }
  | malloc {s : State W} {block : MemArea} :
      s.leader.MallocOk P block →
      Step P s (.malloc block) { s with leader := s.leader.malloc block }
  | free {s : State W} {block : MemArea} :
      block ∈ s.leader.blocks → Step P s (.free block) { s with leader := s.leader.free block }
  | write {s : State W} {addr : Nat} {byte : UInt8} :
      Step P s (.write addr byte) { s with leader := s.leader.write P addr byte }
  | kernel {s : State W} {p : Nat} {entry : Pte} :
      ((s.leader.pte p).isDirty = true → entry.isDirty = true) →
      ((s.leader.pte p).isTouched = true → entry.isTouched = true) →
      Step P s (.kernel p entry)
        { s with leader := { s.leader with
            pte := fun q => if q = p then entry else s.leader.pte q } }
  | enter {s : State W} {reduces : List ReduceArea} {spaces : Fin W → AddressSpace} :
      s.reduces = none → verifyReducesNoOverlap reduces = .ok () → (∀ r ∈ reduces, AreaOk r) →
      (∀ w, Worker.doEnterParallel P s.leader reduces (s.workers w).space = some (spaces w)) →
      Step P s (.enter reduces)
        { leader := s.leader.enterParallelImpl
          workers := fun w => (s.workers w).entered P s.leader reduces (spaces w)
          reduces := some reduces }
  | workerWrite {s : State W} {reduces : List ReduceArea} {w : Fin W} {addr : Nat} {byte : UInt8} :
      s.reduces = some reduces →
      Step P s (.workerWrite w addr byte)
        { s with workers := Function.update s.workers w ((s.workers w).write addr byte) }
  | exit {s : State W} {reduces : List ReduceArea} :
      s.reduces = some reduces →
      Step P s .exit
        { s with
          leader := s.leader.doExitParallel P reduces
            (List.ofFn fun w => (s.workers w).space.mem)
          reduces := none }

/-- The leader has mapped nothing in the heap; the workers have reserved it. -/
structure Init (P : Platform) (s : State W) : Prop where
  leader_begin : s.leader.begin = P.reservedHeap.data
  leader_log : s.leader.memoryOperations = [] ∧ s.leader.logged = []
  leader_areas : s.leader.mmapAreas = [] ∧ s.leader.blocks = []
  leader_heap : ∀ p, P.HeapPage p → s.leader.space.prot p = none ∧
    ZeroPage P.format s.leader.space.mem p
  worker_heap : ∀ w p, P.HeapPage p → (s.workers w).space.prot p = some protNone ∧
    ZeroPage P.format (s.workers w).space.mem p
  worker_history : ∀ w, (s.workers w).replayed = [] ∧ ∀ x, ¬ (s.workers w).scribbled x
  reduces : s.reduces = none

def sys (P : Platform) (W : Nat) : LTS.Sys (State W) (Label W) where
  init := Init P
  step := Step P

variable {P : Platform}

/-- An operation neither maps nor wipes a page that it does not apply to. -/
theorem remap_outside {op : MemOp} {p : Nat} (h : ¬ (op.pages P.pageSize).Mem p) :
    op.remap P.pageSize p = none ∧ ∀ ndebug, op.wipes P.pageSize ndebug p = false := by
  cases op with
  | mmap params | munmap params => simp [MemOp.remap, MemOp.wipes, h]
  | madvise params => simp [MemOp.remap, MemOp.wipes, h]

/-- The byte lies in an area of the current section. -/
def InSection (s : State W) (x : Nat) : Prop :=
  ∃ reduces, s.reduces = some reduces ∧ ∃ r ∈ reduces, r.memArea.Mem x

theorem reducedPage_of_mem {reduces : List ReduceArea} {r : ReduceArea} {x : Nat}
    (hr : r ∈ reduces) (hx : r.memArea.Mem x) :
    Leader.ReducedPage P reduces (addr2pgnum P.pageSize x) :=
  ⟨r, hr, by have := hx.1; have := hx.2; omega, mem_memarea2pgrng hx⟩

/-- A worker's write changes no other byte of any worker. -/
theorem update_write_mem {workers : Fin W → Worker} {w w' : Fin W} {addr x : Nat} {byte : UInt8}
    (hx : x ≠ addr) :
    (Function.update workers w ((workers w).write addr byte) w').space.mem x =
      (workers w').space.mem x := by
  by_cases hw : w' = w
  · subst hw
    rw [Function.update_self]
    exact if_neg hx
  · rw [Function.update_of_ne hw]

/-! ## Areas and blocks -/

theorem mallocPage_malloc {f : PageFormat} {block : MemArea} {blocks : List MemArea} {p : Nat} :
    MallocPage f (block :: blocks) p ↔
      (memarea2pgrng f.pageSize block).Mem p ∨ MallocPage f blocks p := by
  simp [MallocPage]

theorem mallocPage_free {f : PageFormat} {block : MemArea} {blocks : List MemArea} {p : Nat}
    (h : MallocPage f (blocks.erase block) p) : MallocPage f blocks p := by
  obtain ⟨b, hb, hp⟩ := h
  exact ⟨b, List.mem_of_mem_erase hb, hp⟩

theorem leaderInv_step {s t : State W} {a : Label W} (hl : LeaderInv P s.leader)
    (h : Step P s a t) : LeaderInv P t.leader := by
  cases h with
  | call hok h => exact (call_cases hl hok h).2
  | malloc hok =>
    refine ⟨hl.begin_ge, hl.areas_heap, fun p hp => ?_⟩
    rcases mallocPage_malloc.mp hp with hp | hp
    · obtain ⟨-, area, harea, hin⟩ := hok.pages p hp
      exact hl.areas_heap area harea p hin
    · exact hl.blocks_heap p hp
  | free _ => exact ⟨hl.begin_ge, hl.areas_heap, fun p hp => hl.blocks_heap p (mallocPage_free hp)⟩
  | write | kernel | enter | exit => exact ⟨hl.begin_ge, hl.areas_heap, hl.blocks_heap⟩
  | workerWrite => exact hl

/-- Areas and blocks lie inside the heap in every reachable state. -/
theorem leaderInv {s : State W} (h : LTS.Reachable (sys P W) s) : LeaderInv P s.leader := by
  refine h.invariant (P := fun s => LeaderInv P s.leader) (fun s h0 => ?_)
    fun s a t _ hl hs => leaderInv_step hl hs
  refine ⟨Nat.le_of_eq h0.leader_begin.symm, ?_, ?_⟩
  · rw [h0.leader_areas.1]
    nofun
  · rw [h0.leader_areas.2]
    rintro p ⟨block, hblock, -⟩
    cases hblock

theorem LeaderInv.inSpace {l : Leader} (hl : LeaderInv P l) : l.BlocksInSpace P :=
  fun p hp => Leader.heapPage_inSpace (hl.blocks_heap p hp)

end SimpleParallel.Sync
