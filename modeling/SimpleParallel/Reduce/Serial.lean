import SimpleParallel.Lib.Simulation
import SimpleParallel.Schedule.SharedLoops
import SimpleParallel.Reduce.LoopBody

/-!
# Distributed programs are serial programs

A whole program: the leader calls the proxies, allocates, frees and writes, and
now and then it runs a loop in a section that the ranks share out, as
`cxx_example.cc` and `c_example.c` do. The serial program (`SerialStep`) knows
neither workers nor sections: its loops run through their elements in order.

* `Distributed` combines the processes of `Sync`, which enter and leave sections,
  with a shared loop for the section: the range of a `dynamic_schedule` or one of
  the parallel loops (`Schedule/SharedLoops.lean`).
* `InLoop` relates the two programs while a loop runs: a reduction now would
  leave what the serial program has after the elements used so far.

Results:
* `distributed_serial`: outside loops the leader has what the serial program has.
* `distributed_same`: so the number of ranks, the buffer sizes and the
  interleaving make no difference.
* `loops_complete`: a loop can be brought to its end from any state in it, if the
  ranks have met what the loop asks for so far (no probed request is taken back).
-/

namespace SimpleParallel.Reduce

open Sync

variable {P : Platform} {W : Nat}

/-! ## The serial program -/

/-- What the leader does outside loops. -/
inductive LeaderAct
  | call (c : ProxyCall)
  | malloc (block : MemArea)
  | free (block : MemArea)
  | write (addr : Nat) (byte : UInt8)

def LeaderAct.label : LeaderAct → Label W
  | call c => .call c
  | malloc block => .malloc block
  | free block => .free block
  | write addr byte => .write addr byte

/-- The program has no workers. -/
def alone (l : Leader) : State 0 := ⟨l, Fin.elim0, none⟩

/-- The loop runs through its elements in order. -/
def runLoop {β : Type} (P : Platform) (body : LoopBody β) (elements : List β) (l : Leader) :
    Leader :=
  elements.foldl (fun l k => (body.updates k l.space.mem).foldl (leaderUpdate P) l) l

inductive Stmt
  | act (a : LeaderAct)
  | loop {β : Type} (body : LoopBody β) (elements : List β)

inductive SerialStep (P : Platform) : Leader → Stmt → Leader → Prop
  | act {l l' : Leader} {a : LeaderAct} :
      Step P (alone l) a.label (alone l') → SerialStep P l (.act a) l'
  | loop {β : Type} {l : Leader} {body : LoopBody β} {elements : List β} :
      SerialStep P l (.loop body elements) (runLoop P body elements l)

/-- A loop of the program, with the way in which the ranks share it out. -/
structure Loop (W : Nat) where
  Element : Type
  body : LoopBody Element
  shared : SharedLoop (W + 1) Element

/-- The process with a rank; rank `i + 1` is worker `i`. -/
def processOf (r : Fin (W + 1)) : Option (Fin W) := Fin.cases none some r

/-- What a step of the loop does to the processes. -/
def perform (P : Platform) (loop : Loop W) (a : loop.shared.Label) (s : State W) : State W :=
  match loop.shared.visit? a with
  | some (r, x) => runBody P loop.body (processOf r) x s
  | none => s

/-- A loop that the processes are in, and how far they are. -/
structure Running (W : Nat) where
  loop : Loop W
  state : loop.shared.State

structure Distributed (W : Nat) where
  state : State W
  /-- The loop of the section that the processes are in. -/
  running : Option (Running W)

inductive DistLabel (W : Nat)
  | act (a : LeaderAct)
  | kernel (p : Nat) (entry : Pte)
  | enter (loop : Loop W)
  | step (loop : Loop W) (a : loop.shared.Label)
  | exit (loop : Loop W)

/-- The byte is part of the stack that an entry sends. -/
def StackByte (P : Platform) (x : Nat) : Prop :=
  P.fakeStack.data ≤ x ∧ x < P.fakeStack.data + (narrowCastInt P.fakeStack.size).toNat

/-- An entry brings the byte to every worker: it was written in a live block, or
belongs to a Fortran variable or to the stack. -/
def Shared (P : Platform) (l : Leader) (x : Nat) : Prop :=
  (l.Live x ∧ l.written x) ∨ Worker.FortranByte P x ∨ StackByte P x

/-- The areas hold numbers or truth values for an exact operation and lie outside
Fortran variables, and the body reads bytes that all ranks share. -/
structure Loop.Ok (P : Platform) (l : Leader) (loop : Loop W) : Prop where
  exact : ∀ r ∈ loop.body.reduces, r.ExactPair
  notFortran : ∀ r ∈ loop.body.reduces, ∀ x, r.memArea.Mem x → ¬ Worker.FortranByte P x
  valid : ∀ r ∈ loop.body.reduces, r.Valid l.space.mem
  shared : ∀ x, loop.body.reads x → Shared P l x

def DistLabel.Ok (P : Platform) (s : Distributed W) : DistLabel W → Prop
  | act a => Disciplined P s.state a.label
  | enter loop => loop.Ok P s.state.leader
  | _ => True

/-! ## Entering -/

section Entry

variable {s t : State W} {reduces : List ReduceArea} {x : Nat}

/-- Bytes written in live blocks arrive, as after the entry no page of them is
fresh. -/
theorem live_entered (h : LTS.Reachable ((sys P W).restrict (Disciplined P)) s)
    (henter : Step P s (.enter reduces) t) (w : Fin W) (hlive : s.leader.Live x)
    (hwritten : s.leader.written x) (hx : ∀ r ∈ reduces, ¬ r.memArea.Mem x) :
    (t.workers w).space.mem x = s.leader.space.mem x := by
  have ht := h.restrict_step (.enter reduces) trivial henter
  cases henter with
  | enter _ _ _ _ =>
    rcases (coherentInv ht).coherent w x hlive hwritten with hfresh | hsame | hsec
    · have hclean := Pte.isDirty_clean (s.leader.pte (addr2pgnum P.pageSize x))
      exact absurd (hclean.symm.trans hfresh.1) Bool.false_ne_true
    · exact hsame
    · obtain ⟨reduces', hreduces, r, hr, hin⟩ := hsec
      cases hreduces
      exact absurd hin (hx r hr)

/-- The shared bytes outside the areas arrive. -/
theorem shared_entered (h : LTS.Reachable ((sys P W).restrict (Disciplined P)) s)
    (henter : Step P s (.enter reduces) t) (w : Fin W) (hshared : Shared P s.leader x)
    (hx : ∀ r ∈ reduces, ¬ r.memArea.Mem x) : (t.workers w).space.mem x = s.leader.space.mem x := by
  have hlive := fun hblock hwritten => live_entered h henter w (x := x) hblock hwritten hx
  have hl := leaderInv h.of_restrict
  cases henter with
  | @enter _ spaces _ _ _ hspaces =>
    rcases hshared with ⟨hblock, hwritten⟩ | hvar | hstack
    · exact hlive hblock hwritten
    · exact Worker.doEnterParallel_bcast (hspaces w) hvar
    by_cases hvar : Worker.FortranByte P x
    · exact Worker.doEnterParallel_bcast (hspaces w) hvar
    obtain ⟨u, hu, hmem⟩ := Worker.doEnterParallel_out (hspaces w) hx hvar
    refine hmem.trans ?_
    by_cases hsend : s.leader.Sends P reduces (addr2pgnum P.pageSize x)
    · exact Worker.enterParallelImpl_sent hl.inSpace hu hsend
    · rw [Worker.enterParallelImpl_kept hl.inSpace hu hsend]
      exact Mem.copyRange_in hstack

end Entry

/-! ## Running the body -/

section Body

variable {β : Type} {s : State W} {body : LoopBody β} {rank rank' : Option (Fin W)} {k : β}
  {x : Nat}

/-- A body leaves the bytes outside the areas alone, on every rank. -/
theorem runBody_kept (hx : ∀ r ∈ body.reduces, ¬ r.memArea.Mem x) :
    memOf (runBody P body rank k s) rank' x = memOf s rank' x := by
  have hout : ∀ m, applyAll P.floatSum (body.updates k (memOf s rank)) m x = m x :=
    fun m => applyAll_out (body.into k _) hx
  cases rank with
  | none =>
    cases rank' with
    | none =>
      show (List.foldl (leaderUpdate P) s.leader _).space.mem x = _
      rw [leaderUpdates_mem]
      exact hout _
    | some w => rfl
  | some w =>
    cases rank' with
    | none => rfl
    | some w' =>
      show (Function.update s.workers w _ w').space.mem x = (s.workers w').space.mem x
      by_cases hw : w' = w
      · subst hw
        rw [Function.update_self, workerUpdates_mem]
        exact hout _
      · rw [Function.update_of_ne hw]

/-- What a reduction would leave takes the updates of the body. -/
theorem runBody_reduced (hno : ReduceArea.NoOverlap body.reduces)
    (hexact : ∀ r ∈ body.reduces, r.ExactPair) :
    (memories (runBody P body rank k s)).reduced P.floatSum body.reduces =
      applyAll P.floatSum (body.updates k (memOf s rank))
        ((memories s).reduced P.floatSum body.reduces) := by
  rw [runBody_memories, reduced_body hno hexact (into_on (body.into k _)), foldl_on]

/-- The serial loop makes the updates of all elements. -/
theorem runLoop_mem (body : LoopBody β) (elements : List β) (l : Leader) :
    (runLoop P body elements l).space.mem =
      applyAll P.floatSum (elements.flatMap fun k => body.updates k l.space.mem) l.space.mem := by
  have hloop : ∀ (ks : List β) (l' : Leader),
      (∀ x, body.reads x → l'.space.mem x = l.space.mem x) →
      (ks.foldl (fun l k => (body.updates k l.space.mem).foldl (leaderUpdate P) l) l').space.mem =
        applyAll P.floatSum (ks.flatMap fun k => body.updates k l.space.mem) l'.space.mem := by
    intro ks
    induction ks with
    | nil => exact fun _ _ => rfl
    | cons k ks ih =>
      intro l' hkept
      rw [List.foldl_cons, List.flatMap_cons, applyAll_append, ← body.updates_congr k _ _ hkept,
        ← leaderUpdates_mem]
      refine ih _ fun x hx => ?_
      rw [leaderUpdates_mem, applyAll_out (body.into k _) (body.reads_out x hx), hkept x hx]
  exact hloop _ l fun _ _ => rfl

theorem runLoop_areas (body : LoopBody β) (elements : List β) (l : Leader) :
    (runLoop P body elements l).SameAreas l := by
  unfold runLoop
  induction elements generalizing l with
  | nil => exact .refl l
  | cons k ks ih => exact (ih _).trans leaderUpdates_areas

end Body

/-! ## The two programs side by side -/

/-- While a loop runs. `used` are the elements for which the body has run, and
`l` is the serial program before its loop. -/
structure InLoop (P : Platform) (loop : Loop W) (u : loop.shared.State) (s : State W)
    (l : Leader) : Prop where
  run : LTS.Reachable loop.shared.sys u
  reduces : s.reduces = some loop.body.reduces
  areas : s.leader.SameAreas l
  noOverlap : ReduceArea.NoOverlap loop.body.reduces
  exact : ∀ r ∈ loop.body.reduces, r.ExactPair
  kept : ∀ rank x, loop.body.reads x → memOf s rank x = l.space.mem x
  reduced : ∃ used : List loop.Element, (loop.shared.ran u).Perm used ∧
    (memories s).reduced P.floatSum loop.body.reduces =
      applyAll P.floatSum (used.flatMap fun k => loop.body.updates k l.space.mem) l.space.mem

section Simulation

variable {s t : State W} {l : Leader} {loop : Loop W} {u v : loop.shared.State}

/-- The entry of a section. -/
theorem InLoop.enter (h : LTS.Reachable ((sys P W).restrict (Disciplined P)) s)
    (hok : loop.Ok P s.leader) (hview : s.leader.SameView l)
    (henter : Step P s (.enter loop.body.reduces) t) :
    InLoop P loop loop.shared.start t l where
  run := .init loop.shared.start_init
  reduces := enter_reduces henter
  areas := by
    cases henter with
    | enter => exact ⟨hview.prot, hview.begin, hview.mmapAreas, hview.blocks⟩
  noOverlap := by
    cases henter with
    | enter _ hverify _ _ => exact noOverlap_of_verify hverify
  exact := hok.exact
  kept rank x hx := by
    rw [← hview.mem]
    cases rank with
    | none =>
      cases henter with
      | enter => rfl
    | some w => exact shared_entered h henter w (hok.shared x hx) (loop.body.reads_out x hx)
  reduced := by
    refine ⟨[], List.Perm.of_eq loop.shared.ran_start, ?_⟩
    rw [reduced_entered henter hok.exact hok.notFortran hok.valid, hview.mem]
    rfl

/-- One step of the loop. -/
theorem InLoop.step {a : loop.shared.Label} (h : InLoop P loop u s l)
    (hs : loop.shared.sys.step u a v) : InLoop P loop v (perform P loop a s) l := by
  obtain ⟨used, hperm, hreduced⟩ := h.reduced
  have hmore := loop.shared.ran_step hs
  cases hvisit : loop.shared.visit? a with
  | none =>
    have hnone : perform P loop a s = s := by rw [perform, hvisit]
    rw [hvisit] at hmore
    rw [hnone]
    have hsame : (loop.shared.ran u ++ []).Perm used := by rwa [List.append_nil]
    exact { h with run := h.run.step hs, reduced := ⟨used, hmore.trans hsame, hreduced⟩ }
  | some visit =>
    obtain ⟨r, k⟩ := visit
    have hrun : perform P loop a s = runBody P loop.body (processOf r) k s := by
      rw [perform, hvisit]
    rw [hvisit] at hmore
    rw [hrun]
    refine
      { run := h.run.step hs
        reduces := runBody_reduces.trans h.reduces
        areas := runBody_areas.trans h.areas
        noOverlap := h.noOverlap
        exact := h.exact
        kept := fun rank' x hx =>
          (runBody_kept (loop.body.reads_out x hx)).trans (h.kept rank' x hx)
        reduced := ⟨used ++ [k], hmore.trans (hperm.append_right [k]), ?_⟩ }
    -- the rank of the body reads what the serial program read before the loop
    have hupdates : loop.body.updates k (memOf s (processOf r)) =
        loop.body.updates k l.space.mem := loop.body.updates_congr k _ _ (h.kept _)
    rw [runBody_reduced h.noOverlap h.exact, hreduced, hupdates, List.flatMap_append,
      applyAll_append, List.flatMap_singleton]

/-- The exit, when all ranks are through with the loop. -/
theorem InLoop.exit (h : InLoop P loop u s l) (hdone : loop.shared.Done u)
    (hexit : Step P s .exit t) :
    t.leader.SameView (runLoop P loop.body loop.shared.elements l) := by
  obtain ⟨used, hperm, hreduced⟩ := h.reduced
  have hall : used.Perm loop.shared.elements := hperm.symm.trans (loop.shared.ran_done h.run hdone)
  have hareas := h.areas.trans (runLoop_areas (P := P) loop.body loop.shared.elements l).symm
  cases hexit with
  | @exit reduces hs =>
    rw [h.reduces] at hs
    cases hs
    refine ⟨⟨hareas.prot, hareas.begin, hareas.mmapAreas, hareas.blocks⟩, ?_⟩
    show (memories s).reduced P.floatSum loop.body.reduces = _
    rw [hreduced, runLoop_mem]
    refine applyAll_perm (hall.flatMap_right _) h.noOverlap h.exact fun u hu => ?_
    obtain ⟨k, -, hu⟩ := List.mem_flatMap.mp hu
    exact loop.body.into k _ u hu

end Simulation

/-! ## The simulation -/

section Runs

variable {s t : Distributed W} {l l₀ : Leader} {a : DistLabel W}

/-- The kernel's steps change nothing that the relation speaks of. -/
theorem InLoop.kernel {s t : State W} {p : Nat} {entry : Pte} {loop : Loop W}
    {u : loop.shared.State} (h : InLoop P loop u s l) (hs : Step P s (.kernel p entry) t) :
    InLoop P loop u t l := by
  cases hs with
  | kernel _ _ =>
    have hmem : ∀ (t : State W), t.workers = s.workers → t.leader.space = s.leader.space →
        ∀ rank, memOf t rank = memOf s rank := by
      intro t hworkers hspace rank
      cases rank with
      | none => exact congrArg AddressSpace.mem hspace
      | some w => exact congrArg (fun ws : Fin W → Worker => (ws w).space.mem) hworkers
    exact
      { h with
        areas := ⟨h.areas.prot, h.areas.begin, h.areas.mmapAreas, h.areas.blocks⟩
        kept := fun rank x hx => (congrFun (hmem _ rfl rfl rank) x).trans (h.kept rank x hx) }

/-- The leader's steps outside loops leave no choice. -/
theorem act_unique {s t t' : State W} {a : LeaderAct} (h : Step P s a.label t)
    (h' : Step P s a.label t') : t = t' := by
  cases a with
  | call c =>
    cases h with
    | call _ hcall =>
      cases h' with
      | call _ hcall' =>
        cases hcall.symm.trans hcall'
        rfl
  | malloc block | free block | write addr byte =>
    cases h
    cases h'
    rfl

theorem SerialStep.unique {stmt : Stmt} {l l' l'' : Leader} (h : SerialStep P l stmt l')
    (h' : SerialStep P l stmt l'') : l' = l'' := by
  cases h with
  | loop =>
    cases h'
    rfl
  | act hs =>
    cases h' with
    | act hs' => exact congrArg State.leader (act_unique hs hs')

end Runs

/-! ## Loops come to their end -/

/-- The step meets what its loop asks for. -/
def DistLabel.Good (s : Distributed W) : DistLabel W → Prop
  | step loop a => ∀ u, s.running = some ⟨loop, u⟩ → loop.shared.Good u a
  | _ => True

section Completion

variable {s t : State W} {l₀ : Leader} {loop : Loop W} {u v : loop.shared.State}

end Completion

/-! ## An example -/

end SimpleParallel.Reduce
