import Mathlib.Data.List.FinRange
import SimpleParallel.Lib.Simulation
import SimpleParallel.Sync.LeaderWrites

/-!
# Sections as copies of the leader

What the synchronisation is for: at an entry each worker is given a copy of the leader's
memory, with the identity in the reduce areas, and at the exit the leader combines the areas
of all copies. `copying` is this machine, without log, page tables or dirty pages on the
workers' side.

The workers may write anything outside the reserved heap, as their stacks are there, and the
reduce areas of their section.

* `copies_step`: one step of the processes is one step of the copying machine.
* `runs_copy`: whole runs, with the same memory of the leader after each step and the same
  bytes on the workers wherever a section may look.
-/

namespace SimpleParallel.Sync

open LTS Reduce

variable {P : Platform} {W : Nat}

/-! ## The copying machine -/

/-- A section: its areas, the bytes it may look at on a worker, and the copies. -/
structure Copies (W : Nat) where
  reduces : List ReduceArea
  visible : Nat → Prop
  views : Fin W → Mem

structure CopyState (W : Nat) where
  leader : Leader
  copies : Option (Copies W)

/-- The copy that a worker starts from. -/
def entryView (P : Platform) (l : Leader) (reduces : List ReduceArea) : Mem := fun x =>
  if Worker.FortranByte P x then l.space.mem x
  else
    match reduces.find? fun r => r.memArea.Mem x with
    | some r => r.identityByte
    | none => l.space.mem x

/-- The byte lies on the stack, which is no part of the heap. -/
def StackByte (P : Platform) (x : Nat) : Prop :=
  (P.fakeStack.data ≤ x ∧ x < P.fakeStack.data + (narrowCastInt P.fakeStack.size).toNat) ∧
    ¬ P.HeapPage (addr2pgnum P.pageSize x)

/-- What is shared at an entry: the bytes that the leader wrote in live blocks, the areas, the
Fortran variables and the stack. -/
def Shared (P : Platform) (l : Leader) (reduces : List ReduceArea) (x : Nat) : Prop :=
  (l.Live x ∧ l.written x) ∨ (∃ r ∈ reduces, r.memArea.Mem x) ∨ Worker.FortranByte P x ∨
    StackByte P x

def Copies.write (w : Fin W) (addr : Nat) (byte : UInt8) (c : Copies W) : Copies W :=
  { c with
    views := Function.update c.views w fun x => if x = addr then byte else c.views w x }

inductive CopyStep (P : Platform) : CopyState W → Label W → CopyState W → Prop
  | call {a : CopyState W} {c : ProxyCall} {l : Leader} :
      a.leader.CallOk P c → a.leader.call P c = some l →
      CopyStep P a (.call c) { a with leader := l }
  | malloc {a : CopyState W} {block : MemArea} : a.leader.MallocOk P block →
      CopyStep P a (.malloc block) { a with leader := a.leader.malloc block }
  | free {a : CopyState W} {block : MemArea} : block ∈ a.leader.blocks →
      CopyStep P a (.free block) { a with leader := a.leader.free block }
  | write {a : CopyState W} {addr : Nat} {byte : UInt8} :
      CopyStep P a (.write addr byte) { a with leader := a.leader.write P addr byte }
  | kernel {a : CopyState W} {p : Nat} {entry : Pte} :
      CopyStep P a (.kernel p entry)
        { a with leader := { a.leader with
            pte := fun q => if q = p then entry else a.leader.pte q } }
  | enter {a : CopyState W} {reduces : List ReduceArea} : a.copies = none →
      CopyStep P a (.enter reduces)
        { leader := a.leader.enterParallelImpl
          copies := some
            { reduces
              visible := Shared P a.leader reduces
              views := fun _ => entryView P a.leader reduces } }
  | workerWrite {a : CopyState W} {c : Copies W} {w : Fin W} {addr : Nat} {byte : UInt8} :
      a.copies = some c →
      CopyStep P a (.workerWrite w addr byte) { a with copies := some (c.write w addr byte) }
  | exit {a : CopyState W} {c : Copies W} : a.copies = some c →
      CopyStep P a .exit
        { leader := a.leader.doExitParallel P c.reduces (List.ofFn c.views)
          copies := none }

/-- The copying machine, from where the processes start. -/
def copying (P : Platform) (W : Nat) : Sys (CopyState W) (Label W) where
  init a := ∃ s : State W, Init P s ∧ a = ⟨s.leader, none⟩
  step := CopyStep P

/-! ## Runs with workers that leave the heap alone -/

/-- `munmap` and `madvise` spare live blocks, and workers write in reduce areas or outside
the heap. -/
def Confined (P : Platform) (s : State W) : Label W → Prop
  | .workerWrite _ addr _ => InSection s addr ∨ ¬ P.HeapPage (addr2pgnum P.pageSize addr)
  | a => Disciplined P s a

/-- A write outside the heap reaches no live block. -/
theorem coherentInv_writeOutside {s : State W} {w : Fin W} {addr : Nat} {byte : UInt8}
    (hl : LeaderInv P s.leader) (hi : CoherentInv P s)
    (hout : ¬ P.HeapPage (addr2pgnum P.pageSize addr)) :
    CoherentInv P
      { s with workers := Function.update s.workers w ((s.workers w).write addr byte) } where
  blocks_mapped := hi.blocks_mapped
  coherent w' x hlive hw := by
    have hx : x ≠ addr := fun h => hout (h ▸ hl.blocks_heap _ (Leader.Live.page hlive))
    refine (hi.coherent w' x hlive hw).imp_right fun h => h.imp_left fun hsame => ?_
    unfold Worker.pendingMem at hsame ⊢
    rw [update_write_mem hx]
    exact hsame

theorem coherentInv_confined {s : State W}
    (h : Reachable ((sys P W).restrict (Confined P)) s) : CoherentInv P s := by
  have hinit : ∀ s : State W, Init P s → CoherentInv P s := fun s h0 =>
    coherentInv (.init (S := (sys P W).restrict (Disciplined P)) h0)
  refine h.invariant (P := fun s => CoherentInv P s) hinit ?_
  intro s a t hr hi ⟨hok, hs⟩
  have hl := leaderInv hr.of_restrict
  cases a with
  | workerWrite w addr byte =>
    cases hs with
    | workerWrite hsection =>
      rcases hok with hin | hout
      · exact coherentInv_workerWrite hi hin
      · exact coherentInv_writeOutside hl hi hout
  | _ =>
    refine coherentInv_step hl hi ?_ hs
    exact hok

/-! ## One section -/

/-- After an entry a worker has the bytes of the copy wherever something is shared. -/
theorem doEnterParallel_view {s : State W} {reduces : List ReduceArea}
    {v : AddressSpace} {w : Fin W} {x : Nat} (hl : LeaderInv P s.leader)
    (hno : ReduceArea.NoOverlap reduces)
    (h : Worker.doEnterParallel P s.leader reduces (s.workers w).space = some v)
    (hwritten : s.leader.Live x → s.leader.written x → (∀ r ∈ reduces, ¬ r.memArea.Mem x) →
      v.mem x = s.leader.space.mem x)
    (hx : Shared P s.leader reduces x) : v.mem x = entryView P s.leader reduces x := by
  unfold entryView
  split
  · next hvar => exact Worker.doEnterParallel_bcast h hvar
  · next hvar =>
    split
    · next r hr =>
      have hxr : r.memArea.Mem x := by simpa using List.find?_some hr
      exact Worker.doEnterParallel_area h hno (List.mem_of_find?_eq_some hr) hxr hvar
    · next hnone =>
      have hout : ∀ r ∈ reduces, ¬ r.memArea.Mem x := fun r hr hxr =>
        absurd (decide_eq_true hxr) (List.find?_eq_none.mp hnone r hr)
      rcases hx with ⟨hlive, hw⟩ | ⟨r, hr, hxr⟩ | hvar' | ⟨hstack, hpage⟩
      · exact hwritten hlive hw hout
      · exact absurd hxr (hout r hr)
      · exact absurd hvar' hvar
      · -- the page of a stack byte is not sent
        obtain ⟨u, hu, hmem⟩ := Worker.doEnterParallel_out h hout hvar
        have hsend : ¬ s.leader.Sends P reduces (addr2pgnum P.pageSize x) := fun hs =>
          hpage (hl.blocks_heap _ hs.1)
        rw [hmem, Worker.enterParallelImpl_kept hl.inSpace hu hsend]
        exact Mem.copyRange_in hstack

/-- The reduction looks at the bytes of the areas only. -/
theorem reduceAll_congr {fsum : FloatSum} {reduces : List ReduceArea} {ms ms' : Fin W → Mem}
    (h : ∀ w, ∀ r ∈ reduces, ∀ x, r.memArea.Mem x → ms w x = ms' w x) (root : Mem) :
    reduceAll fsum reduces (List.ofFn ms) root = reduceAll fsum reduces (List.ofFn ms') root := by
  have helem : ∀ r ∈ reduces, ∀ root j, j < r.count →
      reducedElem fsum r.op r.type r.begin (List.ofFn ms) root j =
        reducedElem fsum r.op r.type r.begin (List.ofFn ms') root j := by
    intro r hr root j hj
    unfold reducedElem
    rw [List.ofFn_eq_map, List.ofFn_eq_map, List.foldl_map, List.foldl_map]
    refine List.foldl_ext _ _ _ fun acc w _ => ?_
    have hload : (ms w).load (r.begin + j * r.type.size) r.type.size =
        (ms' w).load (r.begin + j * r.type.size) r.type.size := by
      refine Mem.load_congr fun i hi => h w r hr _ ⟨?_, ?_⟩
      · exact Nat.le_trans (Nat.le_add_right _ _) (Nat.le_add_right _ _)
      · have hmul : (j + 1) * r.type.size ≤ r.count * r.type.size := Nat.mul_le_mul_right _ hj
        rw [Nat.succ_mul] at hmul
        show r.begin + j * r.type.size + i < r.begin + r.count * r.type.size
        omega
    rw [hload]
  unfold reduceAll
  refine List.foldl_ext _ _ _ fun root r hr => ?_
  rw [reduce_apply, reduce_apply]
  funext x
  unfold mpiReduce
  split
  · next hx =>
    have hj : (x - r.begin) / r.type.size < r.count := by
      rw [Nat.div_lt_iff_lt_mul (Nat.pos_of_ne_zero fun h0 => by simp [h0] at hx; omega)]
      omega
    rw [helem r hr root _ hj]
  · rfl

/-! ## The simulation -/

/-- The processes and the copying machine: the leader is the same, and so is what a section
may look at. -/
structure CopiesOf (s : State W) (a : CopyState W) : Prop where
  leader : a.leader = s.leader
  outside : s.reduces = none → a.copies = none
  inside : ∀ reduces, s.reduces = some reduces → ∃ c, a.copies = some c ∧ c.reduces = reduces ∧
    (∀ w x, c.visible x → (s.workers w).space.mem x = c.views w x) ∧
    ∀ r ∈ reduces, ∀ x, r.memArea.Mem x → c.visible x

/-- A step of the leader alone. -/
theorem CopiesOf.withLeader {s : State W} {a : CopyState W} (h : CopiesOf s a) (l : Leader) :
    CopiesOf { s with leader := l } { a with leader := l } :=
  ⟨rfl, h.outside, h.inside⟩

/-- An entry copies. -/
theorem copies_enter {s t : State W} {a : CopyState W} {reduces : List ReduceArea}
    (hr : Reachable ((sys P W).restrict (Confined P)) s) (h : CopiesOf s a)
    (hs : Step P s (.enter reduces) t) :
    ∃ b, CopyStep P a (.enter reduces) b ∧ CopiesOf t b := by
  have ht : Reachable ((sys P W).restrict (Confined P)) t :=
    hr.step (a := .enter reduces) ⟨trivial, hs⟩
  have hcoherent := (coherentInv_confined ht).coherent
  have hl := leaderInv hr.of_restrict
  cases hs with
  | @enter _ spaces hsec hverify harea hspaces =>
    refine ⟨_, .enter (h.outside hsec), ⟨?_, nofun, ?_⟩⟩
    · rw [h.leader]
    intro reduces' hreduces
    cases hreduces
    refine ⟨_, rfl, rfl, fun w x hx => ?_, fun r hr x hx => .inr (.inl ⟨r, hr, hx⟩)⟩
    rw [h.leader] at hx ⊢
    refine doEnterParallel_view hl (noOverlap_of_verify hverify) (hspaces w) ?_ hx
    intro hlive hw hout
    rcases hcoherent w x hlive hw with hfresh | hsame | ⟨reduces', hreduces', r, hr, hxr⟩
    · -- the entry has cleared the soft-dirty bits
      have hclean := Pte.isDirty_clean (s.leader.pte (addr2pgnum P.pageSize x))
      exact absurd (hclean.symm.trans hfresh.1) Bool.false_ne_true
    · exact hsame
    · cases hreduces'
      exact absurd hxr (hout r hr)

/-- A worker writes its copy. -/
theorem copies_workerWrite {s : State W} {a : CopyState W} {reduces : List ReduceArea} {w : Fin W}
    {addr : Nat} {byte : UInt8} (h : CopiesOf s a) (hsec : s.reduces = some reduces) :
    ∃ b, CopyStep P a (.workerWrite w addr byte) b ∧
      CopiesOf { s with workers := Function.update s.workers w ((s.workers w).write addr byte) }
        b := by
  obtain ⟨c, hc, hreduces, hviews, hvisible⟩ := h.inside reduces hsec
  refine ⟨_, .workerWrite hc, ⟨h.leader, fun hnone => ?_, fun reduces' hsec' => ?_⟩⟩
  · rw [hsec] at hnone
    cases hnone
  rw [hsec] at hsec'
  cases hsec'
  refine ⟨_, rfl, hreduces, fun w' x hx => ?_, hvisible⟩
  have hx' := hviews w' x hx
  by_cases hw : w' = w
  · subst hw
    simp only [Copies.write, Function.update_self]
    show (if x = addr then byte else (s.workers w').space.mem x) = _
    rw [hx']
  · simp only [Copies.write, Function.update_of_ne hw]
    exact hx'

/-- An exit combines the copies. -/
theorem copies_exit {s : State W} {a : CopyState W} {reduces : List ReduceArea}
    (h : CopiesOf s a) (hsec : s.reduces = some reduces) :
    ∃ b, CopyStep P a .exit b ∧
      CopiesOf
        { s with
          leader := s.leader.doExitParallel P reduces
            (List.ofFn fun w => (s.workers w).space.mem)
          reduces := none } b := by
  obtain ⟨c, hc, rfl, hviews, hvisible⟩ := h.inside reduces hsec
  refine ⟨_, .exit hc, ⟨?_, fun _ => rfl, nofun⟩⟩
  unfold Leader.doExitParallel
  rw [h.leader, reduceAll_congr fun w r hr x hx => (hviews w x (hvisible r hr x hx)).symm]

theorem copies_step {s t : State W} {a : CopyState W} {label : Label W}
    (hr : Reachable ((sys P W).restrict (Confined P)) s) (h : CopiesOf s a)
    (hs : Step P s label t) : ∃ b, CopyStep P a label b ∧ CopiesOf t b := by
  cases label with
  | enter reduces => exact copies_enter hr h hs
  | workerWrite w addr byte =>
    cases hs with
    | workerWrite hsec => exact copies_workerWrite h hsec
  | exit =>
    cases hs with
    | exit hsec => exact copies_exit h hsec
  | call c =>
    cases hs with
    | call hok hcall =>
      exact ⟨_, .call (h.leader ▸ hok) (h.leader ▸ hcall), h.withLeader _⟩
  | malloc block =>
    cases hs with
    | malloc hok =>
      refine ⟨_, .malloc (h.leader ▸ hok), ?_⟩
      rw [h.leader]
      exact h.withLeader _
  | free block =>
    cases hs with
    | free hmem =>
      refine ⟨_, .free (h.leader ▸ hmem), ?_⟩
      rw [h.leader]
      exact h.withLeader _
  | write addr byte =>
    cases hs with
    | write =>
      refine ⟨_, .write, ?_⟩
      rw [h.leader]
      exact h.withLeader _
  | kernel p entry =>
    cases hs with
    | kernel _ _ =>
      refine ⟨_, .kernel, ?_⟩
      rw [h.leader]
      exact h.withLeader _

/-- The processes, with confined workers, do what the copying machine does. -/
theorem copies_simulation :
    Simulation ((sys P W).restrict (Confined P)) (copying P W) some CopiesOf where
  init s h0 := ⟨⟨s.leader, none⟩, ⟨s, h0, rfl⟩, ⟨rfl, fun _ => rfl, fun _ hsec => by
    rw [h0.reduces] at hsec
    cases hsec⟩⟩
  silent _ _ _ _ _ _ _ h := by cases h
  answer s label t a b hr h hs hb := by
    cases hb
    exact copies_step hr h hs.2

/-- Every run whose workers leave the heap alone, but for their areas, is a run of the copying
machine with the same labels. After it the leader is the same, and in a section each worker
has, wherever something is shared, the byte of its copy. -/
theorem runs_copy {s : State W} {labels : List (Label W)}
    (h : Traces ((sys P W).restrict (Confined P)) labels s) :
    ∃ a, Traces (copying P W) labels a ∧ a.leader = s.leader ∧
      (s.reduces = none → a.copies = none) ∧
      ∀ reduces, s.reduces = some reduces → ∃ c, a.copies = some c ∧ c.reduces = reduces ∧
        ∀ w x, c.visible x → (s.workers w).space.mem x = c.views w x := by
  obtain ⟨a, ha, hcopies⟩ := copies_simulation.traces h
  rw [List.filterMap_some] at ha
  refine ⟨a, ha, hcopies.leader, hcopies.outside, fun reduces hsec => ?_⟩
  obtain ⟨c, hc, hreduces, hviews, -⟩ := hcopies.inside reduces hsec
  exact ⟨c, hc, hreduces, hviews⟩

/-- The run into the first section of a leader that has mapped a page, allocated it and
written a byte. -/
theorem runs_copy_first :
    let labels : List (Label 1) := [.call (.proxyMmap [.placed] 4096 3 34 0),
      .malloc (firstArea (smallPlatform true [])), .write (2 ^ 44) 7, .enter []]
    ∃ (t : State 1) (a : CopyState 1) (c : Copies 1),
      Traces ((sys (smallPlatform true []) 1).restrict (Confined (smallPlatform true []))) labels t ∧
      Traces (copying (smallPlatform true []) 1) labels a ∧
      t.reduces = some [] ∧ a.leader = t.leader ∧ a.copies = some c ∧
      ∀ x, c.visible x → (t.workers 0).space.mem x = c.views 0 x := by
  intro labels
  have hallocated : Traces ((sys (smallPlatform true []) 1).restrict
      (Confined (smallPlatform true []))) _ (allocated (smallPlatform true []) 1 7) :=
    traces_allocated (by decide) trivial trivial fun _ => trivial
  obtain ⟨spaces, -, henter⟩ := enter_total hallocated.reachable.of_restrict (by decide) rfl
    (rfl : verifyReducesNoOverlap [] = .ok ()) (List.forall_mem_nil _) (List.forall_mem_nil _)
  have hentered : Traces ((sys (smallPlatform true []) 1).restrict
      (Confined (smallPlatform true []))) labels _ := hallocated.step ⟨trivial, henter⟩
  obtain ⟨a, ha, hleader, -, hinside⟩ := runs_copy hentered
  obtain ⟨c, hc, -, hviews⟩ := hinside [] rfl
  exact ⟨_, a, c, hentered, ha, rfl, hleader, hc, hviews 0⟩

end SimpleParallel.Sync
