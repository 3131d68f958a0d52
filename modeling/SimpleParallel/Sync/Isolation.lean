import SimpleParallel.Sync.Agreement

/-!
# Isolation of sections

Two runs with the same leader that differ in what the workers write. After an
entry a worker's byte is the same in both runs unless the worker wrote it, in
one of them, and no entry overwrote it since: an entry sends only the pages that
the leader has dirtied.

* `IsolationInv`: the invariant of the two runs.
* `isolated`: the bytes after an entry.
* `scribble_survives`: a byte that a worker wrote in one section and sees in the
  next, in place of the leader's.
-/

namespace SimpleParallel.Sync

open Reduce

variable {P : Platform} {W : Nat}

/-- The steps that the two runs take on their own. -/
def IsWorkerWrite : Label W → Prop
  | .workerWrite _ _ _ => True
  | _ => False

/-- Two runs with the same leader. -/
abbrev SameLeader (P : Platform) : State W → State W → Prop :=
  LTS.Twin (sys P W) IsWorkerWrite State.leader

/-- An entry leaves two workers with the same byte if it overwrites it or they
had the same before. -/
theorem doEnterParallel_same {l : Leader} {reduces : List ReduceArea} {v₁ v₂ u₁ u₂ : AddressSpace}
    {x : Nat} (hl : LeaderInv P l) (hno : ReduceArea.NoOverlap reduces)
    (h₁ : Worker.doEnterParallel P l reduces v₁ = some u₁)
    (h₂ : Worker.doEnterParallel P l reduces v₂ = some u₂)
    (hx : l.Overwrites P reduces x ∨ v₁.mem x = v₂.mem x) : u₁.mem x = u₂.mem x := by
  by_cases hvar : Worker.FortranByte P x
  · rw [Worker.doEnterParallel_bcast h₁ hvar, Worker.doEnterParallel_bcast h₂ hvar]
  by_cases harea : ∃ r ∈ reduces, r.memArea.Mem x
  · obtain ⟨r, hr, hxr⟩ := harea
    rw [Worker.doEnterParallel_area h₁ hno hr hxr hvar,
      Worker.doEnterParallel_area h₂ hno hr hxr hvar]
  have hout : ∀ r ∈ reduces, ¬ r.memArea.Mem x := fun r hr hxr => harea ⟨r, hr, hxr⟩
  obtain ⟨t₁, ht₁, hmem₁⟩ := Worker.doEnterParallel_out h₁ hout hvar
  obtain ⟨t₂, ht₂, hmem₂⟩ := Worker.doEnterParallel_out h₂ hout hvar
  rw [hmem₁, hmem₂]
  by_cases hsend : l.Sends P reduces (addr2pgnum P.pageSize x)
  · rw [Worker.enterParallelImpl_sent hl.inSpace ht₁ hsend,
      Worker.enterParallelImpl_sent hl.inSpace ht₂ hsend]
  rw [Worker.enterParallelImpl_kept hl.inSpace ht₁ hsend,
    Worker.enterParallelImpl_kept hl.inSpace ht₂ hsend]
  refine Worker.recvStack_congr ?_
  unfold Worker.pendingMem
  split
  · rfl
  · next hwipes =>
    rcases hx with (h | h | h) | h
    · exact absurd h hsend
    · exact absurd h harea
    · exact absurd h hwipes
    · exact h

structure IsolationInv (P : Platform) (s t : State W) : Prop where
  leader_inv : LeaderInv P s.leader
  leader_eq : s.leader = t.leader
  same : ∀ w x, ¬ (s.workers w).scribbled x → ¬ (t.workers w).scribbled x →
    (s.workers w).space.mem x = (t.workers w).space.mem x

/-- A step that leaves the workers alone keeps the invariant. -/
theorem isolationInv_frame {s t s' t' : State W} (hi : IsolationInv P s t)
    (hl : LeaderInv P s'.leader) (hleader : s'.leader = t'.leader)
    (hs : s'.workers = s.workers) (ht : t'.workers = t.workers) : IsolationInv P s' t' := by
  refine ⟨hl, hleader, fun w x => ?_⟩
  rw [hs, ht]
  exact hi.same w x

theorem isolationInv_enter {s t s' t' : State W} {reduces : List ReduceArea}
    (hi : IsolationInv P s t) (hs : Step P s (.enter reduces) s')
    (ht : Step P t (.enter reduces) t') (w : Fin W) (x : Nat)
    (hx : s.leader.Overwrites P reduces x ∨
      (¬ (s.workers w).scribbled x ∧ ¬ (t.workers w).scribbled x)) :
    (s'.workers w).space.mem x = (t'.workers w).space.mem x := by
  cases hs with
  | enter _ hverify _ h₁ =>
    cases ht with
    | enter _ _ _ h₂ =>
      have h₂w := h₂ w
      rw [← hi.leader_eq] at h₂w
      refine doEnterParallel_same hi.leader_inv (noOverlap_of_verify hverify) (h₁ w) h₂w ?_
      exact hx.imp_right fun hscribbled => hi.same w x hscribbled.1 hscribbled.2

/-- A byte that is not scribbled on after an entry was overwritten by it, or not
scribbled on before. -/
theorem scribbled_enter {s s' : State W} {reduces : List ReduceArea} {w : Fin W} {x : Nat}
    (hs : Step P s (.enter reduces) s') (hx : ¬ (s'.workers w).scribbled x) :
    s.leader.Overwrites P reduces x ∨ ¬ (s.workers w).scribbled x := by
  cases hs with
  | enter _ _ _ _ =>
    by_contra hno
    rw [not_or, not_not] at hno
    exact hx ⟨hno.2, hno.1⟩

theorem isolationInv_both {s t s' t' : State W} {a : Label W} (hi : IsolationInv P s t)
    (ha : ¬ IsWorkerWrite a) (hs : Step P s a s') (ht : Step P t a t')
    (hleader : s'.leader = t'.leader) : IsolationInv P s' t' := by
  have hl := leaderInv_step hi.leader_inv hs
  cases a with
  | workerWrite => exact absurd trivial ha
  | enter reduces =>
    refine ⟨hl, hleader, fun w x hx hy => isolationInv_enter hi hs ht w x ?_⟩
    have hbefore := scribbled_enter ht hy
    rw [← hi.leader_eq] at hbefore
    rcases scribbled_enter hs hx with hover | hclean
    · exact .inl hover
    · exact hbefore.imp_right fun h => ⟨hclean, h⟩
  | _ =>
    refine isolationInv_frame hi hl hleader ?_ ?_
    · cases hs
      rfl
    · cases ht
      rfl

/-- A write of one of the runs scribbles on the byte that it changes. -/
theorem scribbled_write {workers : Fin W → Worker} {w w' : Fin W} {addr x : Nat} {byte : UInt8}
    (hx : ¬ (Function.update workers w ((workers w).write addr byte) w').scribbled x) :
    ¬ (workers w').scribbled x ∧
      (Function.update workers w ((workers w).write addr byte) w').space.mem x =
        (workers w').space.mem x := by
  by_cases hw : w' = w
  · subst hw
    rw [Function.update_self] at hx ⊢
    exact ⟨fun h => hx (.inr h), if_neg fun h => hx (.inl h)⟩
  · rw [Function.update_of_ne hw] at hx ⊢
    exact ⟨hx, rfl⟩

theorem isolationInv {s t : State W} (h : SameLeader P s t) : IsolationInv P s t := by
  refine h.invariant (P := fun s t => IsolationInv P s t) (fun s h0 => ?_)
    (fun s t s' t' a hi ha hs ht ho => isolationInv_both hi ha hs ht ho)
    (fun s t s' a hi ha hs => ?_) (fun s t t' a hi ha ht => ?_)
  · exact ⟨leaderInv (.init h0), rfl, fun _ _ _ _ => rfl⟩
  · cases hs with
    | workerWrite _ =>
      refine ⟨hi.leader_inv, hi.leader_eq, fun w x hx hy => ?_⟩
      obtain ⟨hbefore, hmem⟩ := scribbled_write hx
      exact hmem.trans (hi.same w x hbefore hy)
    | _ => exact absurd ha (by simp [IsWorkerWrite])
  · cases ht with
    | workerWrite _ =>
      refine ⟨hi.leader_inv, hi.leader_eq, fun w x hx hy => ?_⟩
      obtain ⟨hbefore, hmem⟩ := scribbled_write hy
      exact (hi.same w x hx hbefore).trans hmem.symm
    | _ => exact absurd ha (by simp [IsWorkerWrite])

/-- After an entry a worker has the same byte in both runs if the entry overwrote
it, or if in neither run the worker wrote it since an entry last overwrote it. -/
theorem isolated {s t s' t' : State W} {reduces : List ReduceArea} (h : SameLeader P s t)
    (hs : Step P s (.enter reduces) s') (ht : Step P t (.enter reduces) t') (w : Fin W) {x : Nat}
    (hx : s.leader.Overwrites P reduces x ∨
      (¬ (s.workers w).scribbled x ∧ ¬ (t.workers w).scribbled x)) :
    (s'.workers w).space.mem x = (t'.workers w).space.mem x :=
  isolationInv_enter (isolationInv h) hs ht w x hx

/-! ## Two sections -/

/-- A first entry without areas leaves two workers with the same byte, if it is
on no page that is sent. -/
theorem enter_unsent {s s' : State W} {w : Fin W} {x : Nat} (hl : LeaderInv P s.leader)
    (hs : Step P s (.enter []) s') (hlog : s.leader.memoryOperations = [])
    (hpage : (s.leader.pte (addr2pgnum P.pageSize x)).isDirty = false)
    (hvar : ¬ Worker.FortranByte P x)
    (hstack : ¬ (P.fakeStack.data ≤ x ∧
      x < P.fakeStack.data + (narrowCastInt P.fakeStack.size).toNat)) :
    (s'.workers w).space.mem x = (s.workers w).space.mem x := by
  cases hs with
  | @enter _ spaces _ _ _ h =>
    obtain ⟨u, hu, hmem⟩ := Worker.doEnterParallel_out (h w) (List.forall_mem_nil _) hvar
    have hsend : ¬ s.leader.Sends P [] (addr2pgnum P.pageSize x) := by
      rintro ⟨-, hdirty, -, -⟩
      rw [hpage] at hdirty
      cases hdirty
    show (spaces w).mem x = _
    rw [hmem, Worker.enterParallelImpl_kept hl.inSpace hu hsend, hlog, Worker.pendingMem_nil]
    exact Mem.copyRange_out hstack

/-- The state after the first section. -/
def afterSection (P : Platform) (s : State W) : State W :=
  { s with
    leader := s.leader.doExitParallel P [] (List.ofFn fun w => (s.workers w).space.mem)
    reduces := none }

/-- The state after a write of the first worker. -/
def afterWrite (w : Fin W) (s : State W) (addr : Nat) (byte : UInt8) : State W :=
  { s with workers := Function.update s.workers w ((s.workers w).write addr byte) }

theorem step_afterSection {s : State W} (hs : s.reduces = some []) :
    Step P s .exit (afterSection P s) := .exit hs

theorem afterWrite_mem {s : State 1} {addr : Nat} {byte : UInt8} :
    ((afterWrite 0 s addr byte).workers 0).space.mem addr = byte := by
  show (Function.update s.workers 0 ((s.workers 0).write addr byte) 0).space.mem addr = byte
  rw [Function.update_self]
  exact if_pos rfl

/-- Two runs, in one of which the worker writes `byte` in the first section; the
second section finds it there, and in the other run the leader's byte. -/
theorem exists_scribble (old byte : UInt8) (hsize : P.pageSize ≤ P.reservedHeap.size)
    (hvars : P.fortranGlobalVariables = [])
    (hstack : ¬ (P.fakeStack.data ≤ P.reservedHeap.data ∧
      P.reservedHeap.data < P.fakeStack.data + (narrowCastInt P.fakeStack.size).toNat)) :
    ∃ s t s' t' : State 1, SameLeader P s t ∧ Step P s (.enter []) s' ∧ Step P t (.enter []) t' ∧
      firstArea P ∈ s'.leader.blocks ∧ s'.leader.written P.reservedHeap.data ∧
      (s'.workers 0).space.mem P.reservedHeap.data = byte ∧
      (t'.workers 0).space.mem P.reservedHeap.data = old ∧
      ∀ x, x ≠ P.reservedHeap.data → ¬ (s.workers 0).scribbled x ∧ ¬ (t.workers 0).scribbled x := by
  obtain ⟨spaces, henter, hpage⟩ := enter_allocated (W := 1) old hsize hvars
  have hbyte : ∀ w, (spaces w).mem P.reservedHeap.data = old := fun w =>
    (hpage w _ rfl).trans (if_pos rfl)
  -- both runs enter and leave the first section; in one of them the worker writes
  have hreach : LTS.Reachable ((sys P 1).restrict fun _ a => ¬ IsWorkerWrite a)
      (inFirstSection P old spaces) :=
    (reachable_allocated hsize not_false not_false fun _ => not_false).restrict_step
      (.enter []) not_false henter
  have hwrite : Step P (inFirstSection P old spaces) (.workerWrite 0 P.reservedHeap.data byte)
      (afterWrite 0 (inFirstSection P old spaces) P.reservedHeap.data byte) := .workerWrite rfl
  have hpriv : IsWorkerWrite (.workerWrite 0 P.reservedHeap.data byte : Label 1) := trivial
  have htwin : SameLeader P (afterWrite 0 (inFirstSection P old spaces) P.reservedHeap.data byte)
      (inFirstSection P old spaces) := (LTS.Twin.diag hreach).left hpriv hwrite
  have hpub : ¬ IsWorkerWrite (.exit : Label 1) := not_false
  have hexit := htwin.both hpub (step_afterSection rfl) (step_afterSection rfl) rfl
  have hfirst : LTS.Reachable (sys P 1) (afterSection P (inFirstSection P old spaces)) :=
    hreach.of_restrict.step (step_afterSection rfl)
  have hother : LTS.Reachable (sys P 1) (afterSection P
      (afterWrite 0 (inFirstSection P old spaces) P.reservedHeap.data byte)) :=
    (hreach.of_restrict.step hwrite).step (step_afterSection rfl)
  -- both enter a second one, which sends nothing
  have hlog : sizeofMemOps * 0 < intMax := by decide
  obtain ⟨_, -, henter₁⟩ := enter_total hother hlog rfl
    (rfl : verifyReducesNoOverlap [] = .ok ()) (List.forall_mem_nil _) (List.forall_mem_nil _)
  obtain ⟨_, -, henter₂⟩ := enter_total hfirst hlog rfl
    (rfl : verifyReducesNoOverlap [] = .ok ()) (List.forall_mem_nil _) (List.forall_mem_nil _)
  have hvar : ¬ Worker.FortranByte P P.reservedHeap.data := by
    rintro ⟨area, harea, -⟩
    rw [hvars] at harea
    cases harea
  refine ⟨_, _, _, _, hexit, henter₁, henter₂, List.mem_cons_self, Or.inr (Or.inl rfl), ?_, ?_,
    fun x hx => ⟨?_, fun h => h.1⟩⟩
  · refine (enter_unsent (leaderInv hother) henter₁ rfl (Pte.isDirty_clean _) hvar hstack).trans ?_
    exact afterWrite_mem
  · exact (enter_unsent (leaderInv hfirst) henter₂ rfl (Pte.isDirty_clean _) hvar hstack).trans
      (hbyte 0)
  · show ¬ (Function.update (inFirstSection P old spaces).workers 0
      (((inFirstSection P old spaces).workers 0).write P.reservedHeap.data byte) 0).scribbled x
    rw [Function.update_self]
    exact fun h => h.elim hx fun h => h.1

/-- The worker's byte 9 of the first section is there in the second, where the
other run has the leader's byte 7. -/
theorem scribble_survives :
    ¬ ∀ s t s' t' : State 1, SameLeader (smallPlatform true []) s t →
      Step (smallPlatform true []) s (.enter []) s' →
      Step (smallPlatform true []) t (.enter []) t' →
      ∀ x, (∃ block ∈ s'.leader.blocks, block.Mem x) → s'.leader.written x →
        (s'.workers 0).space.mem x = (t'.workers 0).space.mem x := by
  intro hall
  obtain ⟨s, t, s', t', htwin, hs, ht, hblock, hwritten, hnine, hseven, -⟩ :=
    exists_scribble (P := smallPlatform true []) 7 9 (by decide) rfl (by decide)
  have hsame := hall s t s' t' htwin hs ht _ ⟨_, hblock, by decide⟩ hwritten
  rw [hnine, hseven] at hsame
  exact absurd hsame (by decide)

/-- The next byte is not written, and the same in both runs. -/
theorem isolated_next : ∃ s t s' t' : State 1, SameLeader (smallPlatform true []) s t ∧
    Step (smallPlatform true []) s (.enter []) s' ∧
    Step (smallPlatform true []) t (.enter []) t' ∧
    (s'.workers 0).space.mem (2 ^ 44 + 1) = (t'.workers 0).space.mem (2 ^ 44 + 1) := by
  obtain ⟨s, t, s', t', htwin, hs, ht, -, -, -, -, hclean⟩ :=
    exists_scribble (P := smallPlatform true []) 7 9 (by decide) rfl (by decide)
  exact ⟨s, t, s', t', htwin, hs, ht, isolated htwin hs ht 0 (.inr (hclean _ (by decide)))⟩

end SimpleParallel.Sync
