import SimpleParallel.Sync.Agreement

/-!
# Untouched pages

The scan skips the pages that the leader's page table reports as neither
present nor swapped, as they read zero on the leader. They read zero on the
workers too if every `madvise` that dropped pages on the leader dropped them on
the workers. The replay of the debug build does not.

* `UntouchedInv`: an untouched page of the heap reads zero on the leader, and on
  a worker once it has replayed the log.
* `untouchedZero`: at every entry of a run in which a `madvise` of the debug
  build drops only pages that read zero on the workers.
* `stalePage`: a run of the debug build with a stale page.
-/

namespace SimpleParallel.Sync

open Reduce

variable {P : Platform} {W : Nat}

/-- Workers write only in reduce areas. -/
def WritesInAreas (s : State W) : Label W → Prop
  | .workerWrite _ addr _ => InSection s addr
  | _ => True

/-- A worker's byte reads zero once it has replayed the log, or lies in an area
of the current section. -/
def ReadsZero (P : Platform) (s : State W) (w : Fin W) (x : Nat) : Prop :=
  Worker.pendingMem P s.leader.memoryOperations (s.workers w).space.mem x = 0 ∨ InSection s x

/-- Also, unless it is replayed with the leader's advice, a `madvise` drops in
the heap only pages that read zero on the workers. -/
def DropsZero (P : Platform) (s : State W) (a : Label W) : Prop :=
  WritesInAreas s a ∧
  ∀ addr size, a = .call (.proxyMadvise addr size madvDontneed) →
    P.ndebug = true ∨ P.overlapWithReservedHeap ⟨addr, size⟩ = false ∨
      ∀ w x, (syscallPages P.pageSize addr size).Mem (addr2pgnum P.pageSize x) → ReadsZero P s w x

structure UntouchedInv (P : Platform) (s : State W) : Prop where
  leader_zero : ∀ x, P.HeapPage (addr2pgnum P.pageSize x) →
    (s.leader.pte (addr2pgnum P.pageSize x)).isTouched = false → s.leader.space.mem x = 0
  worker_zero : ∀ w x, P.HeapPage (addr2pgnum P.pageSize x) →
    (s.leader.pte (addr2pgnum P.pageSize x)).isTouched = false → ReadsZero P s w x

/-! ## The invariant is kept -/

theorem untouchedInv_init {s : State W} (h : Init P s) : UntouchedInv P s where
  leader_zero x hx _ := (h.leader_heap _ hx).2 x rfl
  worker_zero w x hx _ := by
    left
    rw [h.leader_log.1]
    exact (h.worker_heap w _ hx).2 x rfl

/-- A page that a logged call drops on the leader reads zero on the workers. -/
theorem readsZero_of_dropped {s : State W} {c : ProxyCall} {op : MemOp} {w : Fin W} {x : Nat}
    (hd : DropsZero P s (.call c)) (hop : c.Logged P s.leader op) (hok : OpOk P op)
    (hdrop : op.wipes P.pageSize true (addr2pgnum P.pageSize x) = true)
    (hkeep : ¬ op.wipes P.pageSize P.ndebug (addr2pgnum P.pageSize x) = true) :
    ReadsZero P s w x := by
  cases c with
  | proxyMmap answers len prot flags offset =>
    obtain ⟨res, -, rfl⟩ := hop
    exact absurd (wipes_mmap.mpr (wipes_mmap.mp hdrop)) hkeep
  | proxyMunmap addr size =>
    cases hop
    exact absurd (wipes_munmap.mpr (wipes_munmap.mp hdrop)) hkeep
  | proxyMadvise addr size advice =>
    cases hop
    obtain ⟨-, hadvice, haligned, hpage⟩ := wipes_madvise.mp hdrop
    change advice = madvDontneed at hadvice
    subst hadvice
    rcases hd.2 addr size rfl with hrel | hover | hzero
    · exact absurd (wipes_madvise.mpr ⟨hrel, rfl, haligned, hpage⟩) hkeep
    · exact absurd (hok.pages_heap _ hpage) (Leader.not_heapPage_of_overlap haligned hover hpage)
    · exact hzero w x hpage

theorem untouchedInv_call {s : State W} {c : ProxyCall} {l : Leader} (hl : LeaderInv P s.leader)
    (hi : UntouchedInv P s) (hd : DropsZero P s (.call c)) (hok : s.leader.CallOk P c)
    (h : s.leader.call P c = some l) : UntouchedInv P { s with leader := l } := by
  rcases (call_cases hl hok h).1 with ⟨op, hop, hlogs⟩ | helse
  · refine ⟨fun x hx ht => ?_, fun w x hx ht => ?_⟩
    · change (l.pte _).isTouched = false at ht
      show l.space.mem x = 0
      rw [hlogs.pte] at ht
      rw [hlogs.mem x]
      split
      · rfl
      · next hkeep =>
        rw [if_neg hkeep] at ht
        exact hi.leader_zero x hx ht
    · change (l.pte _).isTouched = false at ht
      show Worker.pendingMem P l.memoryOperations _ x = 0 ∨ _
      rw [hlogs.memoryOperations, Worker.pendingMem_append]
      split
      · exact .inl rfl
      · next hkeep =>
        by_cases hdrop : op.wipes P.pageSize true (addr2pgnum P.pageSize x) = true
        · exact readsZero_of_dropped hd hop hlogs.ok hdrop hkeep
        · rw [hlogs.pte, if_neg hdrop] at ht
          exact hi.worker_zero w x hx ht
  · refine ⟨fun x hx ht => ?_, fun w x hx ht => ?_⟩
    · change (l.pte _).isTouched = false at ht
      show l.space.mem x = 0
      rw [helse.pte _ hx] at ht
      rw [helse.mem x hx]
      exact hi.leader_zero x hx ht
    · change (l.pte _).isTouched = false at ht
      show Worker.pendingMem P l.memoryOperations _ x = 0 ∨ _
      rw [helse.pte _ hx] at ht
      rw [helse.memoryOperations]
      exact hi.worker_zero w x hx ht

/-- A write touches its page and leaves the other bytes alone. -/
theorem untouchedInv_write {s : State W} {addr : Nat} {byte : UInt8} (hi : UntouchedInv P s) :
    UntouchedInv P { s with leader := s.leader.write P addr byte } := by
  have hother : ∀ x, ((s.leader.write P addr byte).pte (addr2pgnum P.pageSize x)).isTouched = false →
      x ≠ addr ∧ (s.leader.pte (addr2pgnum P.pageSize x)).isTouched = false := by
    intro x ht
    by_cases hpage : addr2pgnum P.pageSize x = addr2pgnum P.pageSize addr
    · rw [Leader.write_pte, if_pos hpage, Pte.isTouched_written] at ht
      cases ht
    · rw [Leader.write_pte, if_neg hpage] at ht
      exact ⟨fun h => hpage (congrArg _ h), ht⟩
  refine ⟨fun x hx ht => ?_, fun w x hx ht => hi.worker_zero w x hx (hother x ht).2⟩
  exact (if_neg (hother x ht).1).trans (hi.leader_zero x hx (hother x ht).2)

theorem untouchedInv_kernel {s : State W} {p : Nat} {entry : Pte} (hi : UntouchedInv P s)
    (htouched : (s.leader.pte p).isTouched = true → entry.isTouched = true) :
    UntouchedInv P
      { s with leader := { s.leader with
          pte := fun q => if q = p then entry else s.leader.pte q } } := by
  have hbefore : ∀ q, (if q = p then entry else s.leader.pte q).isTouched = false →
      (s.leader.pte q).isTouched = false := by
    intro q hq
    by_cases hqp : q = p
    · rw [if_pos hqp] at hq
      rw [hqp]
      by_contra ht
      rw [htouched (by simpa using ht)] at hq
      cases hq
    · rwa [if_neg hqp] at hq
  exact ⟨fun x hx ht => hi.leader_zero x hx (hbefore _ ht),
    fun w x hx ht => hi.worker_zero w x hx (hbefore _ ht)⟩

/-- After `recv_heap` an untouched page reads zero. -/
theorem untouched_recvHeap {s : State W} {reduces : List ReduceArea} {w : Fin W} {x : Nat}
    {v : AddressSpace} (hl : LeaderInv P s.leader) (hi : UntouchedInv P s) (hs : s.reduces = none)
    (h : Worker.enterParallelImpl P s.leader reduces (s.workers w).space = some v)
    (hx : P.HeapPage (addr2pgnum P.pageSize x))
    (ht : (s.leader.pte (addr2pgnum P.pageSize x)).isTouched = false) : v.mem x = 0 := by
  have hkept : ¬ s.leader.Sends P reduces (addr2pgnum P.pageSize x) := by
    rintro ⟨-, -, htouched, -⟩
    rw [ht] at htouched
    cases htouched
  rw [Worker.enterParallelImpl_kept hl.inSpace h hkept]
  rcases hi.worker_zero w x hx ht with hzero | ⟨before, hbefore, -⟩
  · rw [Worker.recvStack_same ((hi.leader_zero x hx ht).trans hzero.symm), hzero]
  · rw [hs] at hbefore
    cases hbefore

theorem untouchedInv_enter {s : State W} {reduces : List ReduceArea}
    {spaces : Fin W → AddressSpace} (hl : LeaderInv P s.leader) (hi : UntouchedInv P s)
    (hs : s.reduces = none)
    (h : ∀ w, Worker.doEnterParallel P s.leader reduces (s.workers w).space = some (spaces w)) :
    UntouchedInv P
      { leader := s.leader.enterParallelImpl
        workers := fun w => (s.workers w).entered P s.leader reduces (spaces w)
        reduces := some reduces } := by
  have hbefore : ∀ x, (s.leader.enterParallelImpl.pte (addr2pgnum P.pageSize x)).isTouched = false →
      (s.leader.pte (addr2pgnum P.pageSize x)).isTouched = false := fun x ht =>
    (Pte.isTouched_clean _).symm.trans ht
  refine ⟨fun x hx ht => hi.leader_zero x hx (hbefore x ht), fun w x hx ht => ?_⟩
  by_cases harea : ∃ r ∈ reduces, r.memArea.Mem x
  · exact .inr ⟨reduces, rfl, harea⟩
  left
  show (spaces w).mem x = 0
  by_cases hvar : Worker.FortranByte P x
  · rw [Worker.doEnterParallel_bcast (h w) hvar]
    exact hi.leader_zero x hx (hbefore x ht)
  · obtain ⟨u, hu, hmem⟩ := Worker.doEnterParallel_out (h w)
      (fun r hr hxr => harea ⟨r, hr, hxr⟩) hvar
    rw [hmem]
    exact untouched_recvHeap hl hi hs hu hx (hbefore x ht)

theorem untouchedInv_workerWrite {s : State W} {w : Fin W} {addr : Nat} {byte : UInt8}
    (hi : UntouchedInv P s) (hd : InSection s addr) :
    UntouchedInv P
      { s with workers := Function.update s.workers w ((s.workers w).write addr byte) } where
  leader_zero := hi.leader_zero
  worker_zero w' x hx ht := by
    by_cases haddr : x = addr
    · subst haddr
      exact .inr hd
    · unfold ReadsZero Worker.pendingMem
      rw [update_write_mem haddr]
      exact hi.worker_zero w' x hx ht

/-- Leaving a section touches the pages of its areas. -/
theorem untouchedInv_exit {s : State W} {reduces : List ReduceArea} {memories : List Mem}
    (hi : UntouchedInv P s) (hs : s.reduces = some reduces) :
    UntouchedInv P
      { s with leader := s.leader.doExitParallel P reduces memories, reduces := none } := by
  have hother : ∀ x, ((s.leader.doExitParallel P reduces memories).pte
      (addr2pgnum P.pageSize x)).isTouched = false →
      (∀ r ∈ reduces, ¬ r.memArea.Mem x) ∧
        (s.leader.pte (addr2pgnum P.pageSize x)).isTouched = false := by
    intro x ht
    by_cases hpage : Leader.ReducedPage P reduces (addr2pgnum P.pageSize x)
    · rw [Leader.doExitParallel_pte, if_pos hpage, Pte.isTouched_written] at ht
      cases ht
    · rw [Leader.doExitParallel_pte, if_neg hpage] at ht
      exact ⟨fun r hr hx => hpage (reducedPage_of_mem hr hx), ht⟩
  refine ⟨fun x hx ht => ?_, fun w x hx ht => ?_⟩
  · exact (reduceAll_out (hother x ht).1).trans (hi.leader_zero x hx (hother x ht).2)
  · rcases hi.worker_zero w x hx (hother x ht).2 with hzero | ⟨before, hbefore, r, hr, hxr⟩
    · exact .inl hzero
    · rw [hs] at hbefore
      cases hbefore
      exact absurd hxr ((hother x ht).1 r hr)

theorem untouchedInv_step {s t : State W} {a : Label W} (hl : LeaderInv P s.leader)
    (hi : UntouchedInv P s) (hd : DropsZero P s a) (h : Step P s a t) : UntouchedInv P t := by
  cases h with
  | call hok h => exact untouchedInv_call hl hi hd hok h
  | malloc | free => exact ⟨hi.leader_zero, hi.worker_zero⟩
  | write => exact untouchedInv_write hi
  | kernel _ htouched => exact untouchedInv_kernel hi htouched
  | enter hs _ _ h => exact untouchedInv_enter hl hi hs h
  | workerWrite _ => exact untouchedInv_workerWrite hi hd.1
  | exit hs => exact untouchedInv_exit hi hs

theorem untouchedInv {s : State W} (h : LTS.Reachable ((sys P W).restrict (DropsZero P)) s) :
    UntouchedInv P s :=
  h.invariant (P := fun s => UntouchedInv P s) (fun _ h0 => untouchedInv_init h0)
    fun _ _ _ hr hi hs => untouchedInv_step (leaderInv hr.of_restrict) hi hs.1 hs.2

/-! ## A page that is dropped and handed out again -/

/-- The leader leaves the first section, frees the block, drops its page, and
the heap hands the block out again. -/
def reused (P : Platform) (s : State W) : State W :=
  { s with
    leader :=
      let l := (s.leader.doExitParallel P [] (List.ofFn fun w => (s.workers w).space.mem)).free
        (firstArea P)
      (Leader.log (.madvise ⟨P.reservedHeap.data, P.pageSize, madvDontneed⟩)
        { l with
          space := (l.space.madvise P.pageSize P.reservedHeap.data P.pageSize madvDontneed).2
          pte := fun p =>
            if madvDontneed = madvDontneed ∧ p = addr2pgnum P.pageSize P.reservedHeap.data then 0
            else l.pte p }).malloc (firstArea P)
    reduces := none }

/-- Of a run from there, every step may be restricted. -/
theorem reachable_reused {ok : State W → Label W → Prop} {byte : UInt8}
    {spaces : Fin W → AddressSpace}
    (h : LTS.Reachable ((sys P W).restrict ok) (inFirstSection P byte spaces))
    (hexit : ∀ s, ok s .exit) (hfree : ∀ s, ok s (.free (firstArea P)))
    (hdrop : ∀ s : State W, (∀ w, (s.workers w).space = spaces w) →
      s.leader.memoryOperations = [] →
      ok s (.call (.proxyMadvise P.reservedHeap.data P.pageSize madvDontneed)))
    (hmalloc : ∀ s, ok s (.malloc (firstArea P))) :
    LTS.Reachable ((sys P W).restrict ok) (reused P (inFirstSection P byte spaces)) := by
  have hmapped : ((inFirstSection P byte spaces).leader.space.prot
      (addr2pgnum P.pageSize P.reservedHeap.data)).isSome := by
    simp [inFirstSection, allocated, Leader.enterParallelImpl, Leader.write, Leader.malloc,
      mappedLeader]
  have hleft := h.restrict_step .exit (hexit _) (Step.exit rfl)
  have hfreed := hleft.restrict_step (.free (firstArea P)) (hfree _)
    (Step.free List.mem_cons_self)
  have hdropped := hfreed.restrict_step
    (.call (.proxyMadvise P.reservedHeap.data P.pageSize madvDontneed))
    (hdrop _ (fun _ => rfl) rfl)
    (Step.call (fun _ => ⟨firstArea P, List.mem_singleton_self _, fun _ h => h⟩)
      (call_madvise hmapped))
  refine hdropped.restrict_step (.malloc (firstArea P)) (hmalloc _)
    (Step.malloc (mallocOk_firstArea rfl ?_ ?_))
  · show ((AddressSpace.madvise _ _ _ _ _).2.prot _).isSome
    rw [madvise_prot]
    exact hmapped
  · exact List.erase_cons_head ..

/-- The page of the block is untouched. -/
theorem reused_untouched {s : State W} :
    ((reused P s).leader.pte (addr2pgnum P.pageSize P.reservedHeap.data)).isTouched = false :=
  (congrArg Pte.isTouched (if_pos ⟨rfl, rfl⟩)).trans Pte.isTouched_zero

/-! ## At an entry -/

/-- After `recv_heap` of an entry from `s`, every page that overlaps a live block
and is untouched on the leader reads zero there and on every worker. -/
def UntouchedZero (P : Platform) (s : State W) (reduces : List ReduceArea) : Prop :=
  ∀ w v, Worker.enterParallelImpl P s.leader reduces (s.workers w).space = some v →
    ∀ p, MallocPage P.format s.leader.blocks p → (s.leader.pte p).isTouched = false →
      ZeroPage P.format s.leader.space.mem p ∧ ZeroPage P.format v.mem p

/-- Skipping untouched pages is right at every entry of such a run. -/
theorem untouchedZero {s : State W} (h : LTS.Reachable ((sys P W).restrict (DropsZero P)) s)
    (hs : s.reduces = none) (reduces : List ReduceArea) : UntouchedZero P s reduces := by
  have hl := leaderInv h.of_restrict
  have hi := untouchedInv h
  intro w v hv p hp ht
  constructor
  · rintro x rfl
    exact hi.leader_zero x (hl.blocks_heap _ hp) ht
  · rintro x rfl
    exact untouched_recvHeap hl hi hs hv (hl.blocks_heap _ hp) ht

/-- The run is allowed in the release build, and in the debug build if the page
that is dropped reads zero on the workers. -/
theorem exists_reused (byte : UInt8) (hsize : P.pageSize ≤ P.reservedHeap.size)
    (hvars : P.fortranGlobalVariables = []) (hbuild : P.ndebug = true ∨ byte = 0) :
    ∃ spaces : Fin W → AddressSpace, (∀ w, (spaces w).mem P.reservedHeap.data = byte) ∧
      LTS.Reachable ((sys P W).restrict (DropsZero P))
        (reused P (inFirstSection P byte spaces)) := by
  have hquiet : ∀ (s : State W) (a : Label W), (∀ c, a ≠ .call c) →
      (∀ w x b, a ≠ .workerWrite w x b) → DropsZero P s a := by
    intro s a hcall hwrite
    refine ⟨?_, fun addr size ha => absurd ha (hcall _)⟩
    cases a with
    | workerWrite w x b => exact absurd rfl (hwrite w x b)
    | _ => exact trivial
  have hmap : DropsZero P (start P W) (.call (.proxyMmap [.placed] P.pageSize 3 34 0)) :=
    ⟨trivial, nofun⟩
  obtain ⟨spaces, henter, hpage⟩ := enter_allocated (W := W) byte hsize hvars
  have hin := (reachable_allocated hsize hmap (hquiet _ _ nofun nofun)
    fun s => hquiet s _ nofun nofun).restrict_step (.enter []) (hquiet _ _ nofun nofun) henter
  refine ⟨spaces, fun w => (hpage w _ rfl).trans (if_pos rfl), reachable_reused hin
    (fun s => hquiet s _ nofun nofun) (fun s => hquiet s _ nofun nofun) ?_
    fun s => hquiet s _ nofun nofun⟩
  intro s hspaces hlog
  refine ⟨trivial, fun addr size ha => ?_⟩
  cases ha
  rcases hbuild with hrelease | hzero
  · exact .inl hrelease
  · refine .inr (.inr fun w x hx => .inl ?_)
    rw [hlog, hspaces]
    show (spaces w).mem x = 0
    rw [hpage w x (firstArea_pages.mp hx), hzero, ite_self]

/-- The next entry succeeds, and the page, which it does not send, is zero. -/
theorem UntouchedZero.entry {byte : UInt8} {spaces : Fin W → AddressSpace}
    (hzero : UntouchedZero P (reused P (inFirstSection P byte spaces)) [])
    (h : LTS.Reachable (sys P W) (reused P (inFirstSection P byte spaces))) (w : Fin W) :
    ∃ v, Worker.enterParallelImpl P (reused P (inFirstSection P byte spaces)).leader []
        ((reused P (inFirstSection P byte spaces)).workers w).space = some v ∧
      v.mem P.reservedHeap.data = 0 := by
  obtain ⟨u, hu⟩ := agreesAt_of_short h (show sizeofMemOps * 1 < intMax by decide) w
  have hv : Worker.enterParallelImpl P (reused P (inFirstSection P byte spaces)).leader []
      ((reused P (inFirstSection P byte spaces)).workers w).space = some _ :=
    Option.map_eq_some_iff.mpr ⟨u, hu.replay, rfl⟩
  have hlive : MallocPage P.format (reused P (inFirstSection P byte spaces)).leader.blocks
      (addr2pgnum P.pageSize P.reservedHeap.data) := by
    obtain ⟨block, hblock, hpage⟩ := (mallocPage_firstArea (P := P)).mpr rfl
    exact ⟨block, List.mem_singleton.mp hblock ▸ List.mem_cons_self, hpage⟩
  exact ⟨_, hv, (hzero w _ hv _ hlive reused_untouched).2 _ rfl⟩

/-- Two workers. A page that was sent is dropped and handed out again: in the
release build it held 7, in the debug build 0. It is zero after the next entry. -/
theorem untouchedZero_reused :
    (∃ s : State 2, LTS.Reachable ((sys (smallPlatform true []) 2).restrict
        (DropsZero (smallPlatform true []))) s ∧
      s.leader.blocks = [firstArea (smallPlatform true [])] ∧
      ∀ w, (s.workers w).space.mem (2 ^ 44) = 7 ∧
        ∃ v, Worker.enterParallelImpl (smallPlatform true []) s.leader [] (s.workers w).space =
          some v ∧ v.mem (2 ^ 44) = 0) ∧
    ∃ s : State 2, LTS.Reachable ((sys (smallPlatform false []) 2).restrict
        (DropsZero (smallPlatform false []))) s ∧
      s.leader.blocks = [firstArea (smallPlatform false [])] ∧
      ∀ w, ∃ v, Worker.enterParallelImpl (smallPlatform false []) s.leader []
        (s.workers w).space = some v ∧ v.mem (2 ^ 44) = 0 := by
  constructor
  · obtain ⟨spaces, hbyte, h⟩ := exists_reused (P := smallPlatform true []) (W := 2) 7
      (by decide) rfl (.inl rfl)
    have hzero := untouchedZero h rfl []
    exact ⟨_, h, rfl, fun w => ⟨hbyte w, hzero.entry h.of_restrict w⟩⟩
  · obtain ⟨spaces, -, h⟩ := exists_reused (P := smallPlatform false []) (W := 2) 0
      (by decide) rfl (.inr rfl)
    have hzero := untouchedZero h rfl []
    exact ⟨_, h, rfl, hzero.entry h.of_restrict⟩

/-! ## A stale page -/

/-- In the debug build the page still holds the workers' old byte, although it
is untouched and reads zero on the leader. -/
theorem stalePage :
    ¬ ∀ s : State 1, LTS.Reachable ((sys (smallPlatform false []) 1).restrict WritesInAreas) s →
      s.reduces = none → UntouchedZero (smallPlatform false []) s [] := by
  intro hall
  obtain ⟨spaces, henter, hpage⟩ := enter_allocated (P := smallPlatform false []) (W := 1) 7
    (by decide) rfl
  have hbyte : (spaces 0).mem (2 ^ 44) = 7 := (hpage 0 _ rfl).trans (if_pos rfl)
  have hin : LTS.Reachable ((sys (smallPlatform false []) 1).restrict WritesInAreas) _ :=
    (reachable_allocated (by decide) trivial trivial fun _ => trivial).restrict_step
      (.enter []) trivial henter
  have hreach := reachable_reused hin (fun _ => trivial) (fun _ => trivial)
    (fun _ _ _ => trivial) fun _ => trivial
  obtain ⟨u, hu⟩ := agreesAt_of_short hreach.of_restrict
    (show sizeofMemOps * 1 < intMax by decide) 0
  have hv : Worker.enterParallelImpl (smallPlatform false []) _ [] _ = some _ :=
    Option.map_eq_some_iff.mpr ⟨u, hu.replay, rfl⟩
  have huntouched : ((reused (smallPlatform false [])
      (inFirstSection (smallPlatform false []) 7 spaces)).leader.pte (2 ^ 32)).isTouched = false :=
    reused_untouched
  have hzero := (hall _ hreach rfl 0 _ hv (2 ^ 32) (mallocPage_firstArea.mpr rfl) huntouched).2
    (2 ^ 44) rfl
  -- the replay with `MADV_NORMAL` keeps the byte, and the scan skips its page
  have hskipped : ¬ (reused (smallPlatform false [])
      (inFirstSection (smallPlatform false []) 7 spaces)).leader.Sends (smallPlatform false []) []
      (addr2pgnum (smallPlatform false []).pageSize (2 ^ 44)) := by
    rintro ⟨-, -, htouched, -⟩
    exact absurd (huntouched.symm.trans htouched) Bool.false_ne_true
  have hwipes : ¬ [MemOp.madvise ⟨2 ^ 44, 4096, madvDontneed⟩].any
      (fun op => op.wipes 4096 false (2 ^ 32)) = true := by
    simp [wipes_madvise]
  rw [Worker.enterParallelImpl_kept (leaderInv hreach.of_restrict).inSpace hv hskipped,
    Worker.recvStack, mpiBcast, Mem.copyRange_out (by decide)] at hzero
  have hseven : (spaces 0).mem (2 ^ 44) = 0 := (if_neg hwipes).symm.trans hzero
  rw [hbyte] at hseven
  exact absurd hseven (by decide)

end SimpleParallel.Sync
