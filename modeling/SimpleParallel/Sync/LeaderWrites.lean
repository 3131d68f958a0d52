import SimpleParallel.Sync.Agreement

/-!
# No leader write is lost

With workers that write only inside reduce areas, and with `madvise` and
`munmap` only on pages that hold no live block: every byte of a live block that
the leader wrote reaches every worker at the next entry and stays there, in
both builds.

`CoherentInv` is the invariant. Such a byte lies on a page that the next scan
will send, or the worker will have it once it has replayed the log, or it lies
in an area of the current section, which the leader writes when it leaves.
`noLostWrite` reads it off after an entry.
-/

namespace SimpleParallel.Sync

open Reduce

variable {P : Platform} {W : Nat}

/-- A byte of a live block. -/
def Leader.Live (l : Leader) (x : Nat) : Prop := ∃ block ∈ l.blocks, block.Mem x

/-- `munmap` and `madvise` spare live blocks, and workers write in reduce areas. -/
def Disciplined (P : Platform) (s : State W) : Label W → Prop
  | .call (.proxyMunmap addr size) | .call (.proxyMadvise addr size _) =>
    ∀ p, (syscallPages P.pageSize addr size).Mem p → ¬ MallocPage P.format s.leader.blocks p
  | .workerWrite _ addr _ => InSection s addr
  | _ => True

/-- The next scan sends the page if it overlaps a live block. -/
def Leader.Fresh (l : Leader) (p : Nat) : Prop :=
  (l.pte p).isDirty = true ∧ (l.pte p).isTouched = true

structure CoherentInv (P : Platform) (s : State W) : Prop where
  blocks_mapped : ∀ p, MallocPage P.format s.leader.blocks p → (s.leader.space.prot p).isSome
  coherent : ∀ w x, s.leader.Live x → s.leader.written x →
    s.leader.Fresh (addr2pgnum P.pageSize x) ∨
    Worker.pendingMem P s.leader.memoryOperations (s.workers w).space.mem x =
      s.leader.space.mem x ∨
    InSection s x

theorem Leader.Live.page {l : Leader} {x : Nat} (h : l.Live x) :
    MallocPage P.format l.blocks (addr2pgnum P.pageSize x) := by
  obtain ⟨block, hblock, hx⟩ := h
  exact ⟨block, hblock, mem_memarea2pgrng hx⟩

/-- A byte inside an inner page of an area belongs to the area. -/
theorem inner_page_mem {reduces : List ReduceArea} {x : Nat} {range : PteRange}
    (hok : ∀ r ∈ reduces, AreaOk r)
    (h : some range ∈ reduces.map (·.innerPages P.pageSize))
    (hx : range.Mem (addr2pgnum P.pageSize x)) : ∃ r ∈ reduces, r.memArea.Mem x := by
  obtain ⟨r, hr, hinner⟩ := List.mem_map.mp h
  exact ⟨r, hr, inner_subset P.format.pageSize_pos (hok r hr) hinner hx⟩

theorem coherentInv_call {s : State W} {c : ProxyCall} {l : Leader} (hl : LeaderInv P s.leader)
    (hi : CoherentInv P s) (hd : Disciplined P s (.call c))
    (hok : s.leader.CallOk P c) (h : s.leader.call P c = some l) :
    CoherentInv P { s with leader := l } := by
  rcases (call_cases hl hok h).1 with ⟨op, hop, hlogs⟩ | helse
  · -- the operation spares the pages of live blocks
    have hspare : ∀ p, MallocPage P.format s.leader.blocks p → ¬ (op.pages P.pageSize).Mem p := by
      intro p hp hin
      cases c with
      | proxyMmap answers len prot flags offset =>
        obtain ⟨res, hloop, rfl⟩ := hop
        have hmapped := hi.blocks_mapped p hp
        rw [hok res hloop p hin] at hmapped
        cases hmapped
      | proxyMunmap addr size | proxyMadvise addr size advice =>
        cases hop
        exact hd p hin hp
    refine ⟨fun p hp => ?_, fun w x hlive hw => ?_⟩
    · rw [hlogs.blocks] at hp
      show (l.space.prot p).isSome
      rw [hlogs.keep p (hspare p hp)]
      exact hi.blocks_mapped p hp
    · change l.Live x at hlive
      change l.written x at hw
      rw [Leader.Live, hlogs.blocks] at hlive
      rw [hlogs.written] at hw
      have hwipes := (remap_outside (hspare _ (Leader.Live.page hlive))).2
      have hpte := hlogs.pte (addr2pgnum P.pageSize x)
      have hmem := hlogs.mem x
      rw [hwipes, if_neg Bool.false_ne_true] at hpte hmem
      show l.Fresh _ ∨ Worker.pendingMem P l.memoryOperations _ x = l.space.mem x ∨ _
      rw [Leader.Fresh, hpte, hmem, hlogs.memoryOperations, Worker.pendingMem_append, hwipes,
        if_neg Bool.false_ne_true]
      exact hi.coherent w x hlive hw
  · refine ⟨fun p hp => ?_, fun w x hlive hw => ?_⟩
    · rw [helse.blocks] at hp
      show (l.space.prot p).isSome
      rw [helse.prot p (hl.blocks_heap p hp)]
      exact hi.blocks_mapped p hp
    · change l.Live x at hlive
      change l.written x at hw
      rw [Leader.Live, helse.blocks] at hlive
      rw [helse.written] at hw
      have hheap := hl.blocks_heap _ (Leader.Live.page hlive)
      show l.Fresh _ ∨ Worker.pendingMem P l.memoryOperations _ x = l.space.mem x ∨ _
      rw [Leader.Fresh, helse.pte _ hheap, helse.mem x hheap, helse.memoryOperations]
      exact hi.coherent w x hlive hw

theorem coherentInv_malloc {s : State W} {block : MemArea} (hi : CoherentInv P s)
    (hok : s.leader.MallocOk P block) :
    CoherentInv P { s with leader := s.leader.malloc block } where
  blocks_mapped p hp := by
    rcases mallocPage_malloc.mp hp with hp | hp
    · exact (hok.pages p hp).1
    · exact hi.blocks_mapped p hp
  coherent w x hlive hw := by
    obtain ⟨other, hother, hx⟩ := hlive
    rcases List.mem_cons.mp hother with rfl | hother
    · -- no byte of the new block is written yet
      exact absurd hx hw.2
    · exact hi.coherent w x ⟨other, hother, hx⟩ hw.1

theorem coherentInv_free {s : State W} {block : MemArea} (hi : CoherentInv P s) :
    CoherentInv P { s with leader := s.leader.free block } where
  blocks_mapped p hp := hi.blocks_mapped p (mallocPage_free hp)
  coherent w x hlive hw := by
    obtain ⟨other, hother, hx⟩ := hlive
    exact hi.coherent w x ⟨other, List.mem_of_mem_erase hother, hx⟩ hw

/-- A write makes its page fresh and leaves the other bytes alone. -/
theorem coherentInv_write {s : State W} {addr : Nat} {byte : UInt8} (hi : CoherentInv P s) :
    CoherentInv P { s with leader := s.leader.write P addr byte } where
  blocks_mapped := hi.blocks_mapped
  coherent w x hlive hw := by
    by_cases hpage : addr2pgnum P.pageSize x = addr2pgnum P.pageSize addr
    · left
      rw [Leader.Fresh, Leader.write_pte, if_pos hpage]
      exact ⟨Pte.isDirty_written _, Pte.isTouched_written _⟩
    · have hx : x ≠ addr := fun h => hpage (congrArg _ h)
      have hbefore := hi.coherent w x hlive (hw.resolve_left hx)
      simp only [Leader.Fresh, Leader.write, if_neg hpage, if_neg hx] at hbefore ⊢
      exact hbefore

theorem coherentInv_kernel {s : State W} {p : Nat} {entry : Pte} (hi : CoherentInv P s)
    (hdirty : (s.leader.pte p).isDirty = true → entry.isDirty = true)
    (htouched : (s.leader.pte p).isTouched = true → entry.isTouched = true) :
    CoherentInv P
      { s with leader := { s.leader with pte := fun q => if q = p then entry else s.leader.pte q } }
    where
  blocks_mapped := hi.blocks_mapped
  coherent w x hlive hw := by
    refine (hi.coherent w x hlive hw).imp_left fun hfresh => ?_
    by_cases hq : addr2pgnum P.pageSize x = p
    · subst hq
      simp only [Leader.Fresh, if_true]
      exact ⟨hdirty hfresh.1, htouched hfresh.2⟩
    · simp only [Leader.Fresh, if_neg hq]
      exact hfresh

/-- After an entry every written byte of a live block outside the areas has the
leader's value on every worker. -/
theorem coherentInv_enter {s : State W} {reduces : List ReduceArea}
    {spaces : Fin W → AddressSpace} (hl : LeaderInv P s.leader) (hi : CoherentInv P s)
    (hs : s.reduces = none) (hok : ∀ r ∈ reduces, AreaOk r)
    (h : ∀ w, Worker.doEnterParallel P s.leader reduces (s.workers w).space = some (spaces w)) :
    CoherentInv P
      { leader := s.leader.enterParallelImpl
        workers := fun w => (s.workers w).entered P s.leader reduces (spaces w)
        reduces := some reduces } where
  blocks_mapped := hi.blocks_mapped
  coherent w x hlive hw := by
    by_cases harea : ∃ r ∈ reduces, r.memArea.Mem x
    · exact .inr (.inr ⟨reduces, rfl, harea⟩)
    right
    left
    show (spaces w).mem x = s.leader.space.mem x
    by_cases hvar : Worker.FortranByte P x
    · exact Worker.doEnterParallel_bcast (h w) hvar
    obtain ⟨u, hu, hmem⟩ := Worker.doEnterParallel_out (h w)
      (fun r hr hx => harea ⟨r, hr, hx⟩) hvar
    rw [hmem]
    by_cases hsend : s.leader.Sends P reduces (addr2pgnum P.pageSize x)
    · exact Worker.enterParallelImpl_sent hl.inSpace hu hsend
    rw [Worker.enterParallelImpl_kept hl.inSpace hu hsend]
    rcases hi.coherent w x hlive hw with hfresh | hsame | ⟨before, hbefore, -⟩
    · -- a fresh page of a live block is sent, as it is no inner page of an area
      refine absurd ⟨Leader.Live.page hlive, hfresh.1, hfresh.2, fun range hrange hin => ?_⟩ hsend
      exact harea (inner_page_mem hok hrange hin)
    · rw [← hsame, Worker.recvStack_same hsame.symm]
    · rw [hs] at hbefore
      cases hbefore

theorem coherentInv_workerWrite {s : State W} {w : Fin W} {addr : Nat} {byte : UInt8}
    (hi : CoherentInv P s) (hd : InSection s addr) :
    CoherentInv P
      { s with workers := Function.update s.workers w ((s.workers w).write addr byte) } where
  blocks_mapped := hi.blocks_mapped
  coherent w' x hlive hw := by
    by_cases hx : x = addr
    · subst hx
      exact .inr (.inr hd)
    rcases hi.coherent w' x hlive hw with hfresh | hsame | hsec
    · exact .inl hfresh
    · right
      left
      unfold Worker.pendingMem at hsame ⊢
      rw [update_write_mem hx]
      exact hsame
    · exact .inr (.inr hsec)

/-- Leaving a section writes its areas, which makes their pages fresh. -/
theorem coherentInv_exit {s : State W} {reduces : List ReduceArea} {memories : List Mem}
    (hi : CoherentInv P s) (hs : s.reduces = some reduces) :
    CoherentInv P
      { s with leader := s.leader.doExitParallel P reduces memories, reduces := none } where
  blocks_mapped := hi.blocks_mapped
  coherent w x hlive hw := by
    have hpte : Leader.ReducedPage P reduces (addr2pgnum P.pageSize x) →
        (s.leader.doExitParallel P reduces memories).Fresh (addr2pgnum P.pageSize x) := by
      intro hpage
      rw [Leader.Fresh, Leader.doExitParallel_pte, if_pos hpage]
      exact ⟨Pte.isDirty_written _, Pte.isTouched_written _⟩
    by_cases hpage : Leader.ReducedPage P reduces (addr2pgnum P.pageSize x)
    · exact .inl (hpte hpage)
    have harea : ∀ r ∈ reduces, ¬ r.memArea.Mem x := fun r hr hx =>
      hpage (reducedPage_of_mem hr hx)
    have hwritten : s.leader.written x := hw.resolve_left fun ⟨r, hr, hx⟩ => harea r hr hx
    have hmem : (s.leader.doExitParallel P reduces memories).space.mem x = s.leader.space.mem x :=
      reduceAll_out harea
    have hsame : (s.leader.doExitParallel P reduces memories).pte (addr2pgnum P.pageSize x) =
        s.leader.pte (addr2pgnum P.pageSize x) := if_neg hpage
    rcases hi.coherent w x hlive hwritten with hfresh | hcopy | ⟨before, hbefore, r, hr, hx⟩
    · left
      rw [Leader.Fresh, hsame]
      exact hfresh
    · exact .inr (.inl (hcopy.trans hmem.symm))
    · rw [hs] at hbefore
      cases hbefore
      exact absurd hx (harea r hr)

theorem coherentInv_step {s t : State W} {a : Label W} (hl : LeaderInv P s.leader)
    (hi : CoherentInv P s) (hd : Disciplined P s a) (h : Step P s a t) : CoherentInv P t := by
  cases h with
  | call hok h => exact coherentInv_call hl hi hd hok h
  | malloc hok => exact coherentInv_malloc hi hok
  | free _ => exact coherentInv_free hi
  | write => exact coherentInv_write hi
  | kernel hdirty htouched => exact coherentInv_kernel hi hdirty htouched
  | enter hs _ hok h => exact coherentInv_enter hl hi hs hok h
  | workerWrite _ => exact coherentInv_workerWrite hi hd
  | exit hs => exact coherentInv_exit hi hs

theorem coherentInv {s : State W}
    (h : LTS.Reachable ((sys P W).restrict (Disciplined P)) s) : CoherentInv P s := by
  refine h.invariant (P := fun s => CoherentInv P s) (fun s h0 => ⟨fun p hp => ?_, fun w x hx => ?_⟩)
    fun s a t hr hi hs => coherentInv_step (leaderInv hr.of_restrict) hi hs.1 hs.2
  · rw [h0.leader_areas.2] at hp
    obtain ⟨block, hblock, -⟩ := hp
    cases hblock
  · obtain ⟨block, hblock, -⟩ := hx
    rw [h0.leader_areas.2] at hblock
    cases hblock

/-- When an entry returns, every byte that the leader wrote in a live block, and
that lies in no area of the section, has the leader's value on every worker. -/
theorem noLostWrite {s t : State W} {reduces : List ReduceArea}
    (h : LTS.Reachable ((sys P W).restrict (Disciplined P)) s)
    (henter : Step P s (.enter reduces) t) (w : Fin W) {x : Nat} (hlive : t.leader.Live x)
    (hwritten : t.leader.written x) (hx : ∀ r ∈ reduces, ¬ r.memArea.Mem x) :
    (t.workers w).space.mem x = t.leader.space.mem x := by
  have ht : LTS.Reachable ((sys P W).restrict (Disciplined P)) t :=
    h.step (a := .enter reduces) ⟨trivial, henter⟩
  have hi := (coherentInv ht).coherent w x hlive hwritten
  cases henter with
  | enter _ _ _ _ =>
    rcases hi with hfresh | hsame | ⟨reduces', hreduces, r, hr, hxr⟩
    · have hclean := Pte.isDirty_clean (s.leader.pte (addr2pgnum P.pageSize x))
      exact absurd (hclean.symm.trans hfresh.1) Bool.false_ne_true
    · exact hsame
    · cases hreduces
      exact absurd hxr (hx r hr)

/-- A byte that was written before the first section is there in the section. -/
theorem noLostWrite_first : ∃ t : State 1,
    Step (smallPlatform true []) (allocated (smallPlatform true []) 1 7) (.enter []) t ∧
      (t.workers 0).space.mem (2 ^ 44) = t.leader.space.mem (2 ^ 44) := by
  have hreach : LTS.Reachable ((sys (smallPlatform true []) 1).restrict
      (Disciplined (smallPlatform true []))) (allocated (smallPlatform true []) 1 7) :=
    reachable_allocated (by decide) trivial trivial fun _ => trivial
  obtain ⟨spaces, -, henter⟩ := enter_total hreach.of_restrict (by decide) rfl
    (rfl : verifyReducesNoOverlap [] = .ok ()) (List.forall_mem_nil _) (List.forall_mem_nil _)
  exact ⟨_, henter, noLostWrite hreach henter 0 ⟨_, List.mem_cons_self, by decide, by decide⟩
    (.inl rfl) (List.forall_mem_nil _)⟩

end SimpleParallel.Sync
