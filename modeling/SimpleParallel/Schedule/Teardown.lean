import SimpleParallel.Lib.LTS
import SimpleParallel.Lib.Tally
import SimpleParallel.Schedule.Gss

/-!
# The end of a scheduler

The block of `S_P_GSS_UINT64_T_PAR_FOR` and its `_END` on one rank, from the declarations to
behind the block. One thread, the owner, creates the scheduler in an `omp single`, and passes
its pointer and the address of its own `_num_threads_count` to the others. At the end each
thread counts that variable down, and the one that comes to 0 deletes the scheduler. No
barrier follows, so the owner may leave the block before the others have counted.

A critical section is one step. Behind the block the variables of a thread are gone, and a
read of one gives any value.

* `inv`: in the runs in which the owner leaves last the counter is the number of threads that
  have still to count down.
* `Inv.safe`: then the scheduler is deleted once, after its last use.
-/

namespace SimpleParallel.Schedule.Teardown

open Tally

/-! ## The block -/

/-- Where a thread is. -/
inductive Pc
  /-- at the `omp single` -/
  | entry
  /-- in the `omp single` -/
  | single
  /-- at the barrier that ends the `omp single` -/
  | barrier
  /-- before `s_p_get_buffer` -/
  | getBuffer
  /-- `while (true)`, before the critical section -/
  | loop
  /-- the `for` over the task -/
  | body
  /-- after `break` -/
  | left
  /-- after the critical section that counts the threads down -/
  | counted
  /-- behind the block -/
  | outside
  deriving DecidableEq

namespace Pc

/-- Before the end of the `omp single`. -/
def early : Pc → Bool
  | entry | single | barrier => true
  | _ => false

/-- Has left the task loop. -/
def outOfLoop : Pc → Bool
  | left | counted | outside => true
  | _ => false

/-- Has counted down. -/
def gone : Pc → Bool
  | counted | outside => true
  | _ => false

/-- The number of steps to the end, without those through a task. -/
def rank : Pc → Nat
  | entry => 8
  | single => 7
  | barrier => 6
  | getBuffer => 5
  | loop => 3
  | body => 4
  | left => 2
  | counted => 1
  | outside => 0

end Pc

/-- The variables that each thread declares in the block, the scheduler, and what was done
with them so far. -/
structure Block where
  pc : Nat → Pc
  numThreadsCount : Nat → Int
  /-- `_num_threads_count_ptr`: the thread to whose variable it points -/
  numThreadsCountPtr : Nat → Option Nat
  /-- `_s_p_scheduler` is not `NULL` -/
  scheduler : Nat → Bool
  gssTask : Nat → SimpleTask
  /-- the thread that runs the `omp single` -/
  owner : Option Nat
  /-- the scheduler exists -/
  live : Bool
  /-- calls of `s_p_next` -/
  nexts : Nat
  /-- calls of `s_p_delete_dynamic_schedule` -/
  deleted : Nat
  /-- uses of a scheduler that does not exist -/
  misused : Nat
  /-- accesses of a `_num_threads_count` that does not exist -/
  dangling : Nat

namespace Block

/-- `_num_threads_count = omp_get_num_threads()` in every thread. -/
def initial (threads : Nat) : Block where
  pc _ := .entry
  numThreadsCount _ := threads
  numThreadsCountPtr _ := none
  scheduler _ := false
  gssTask _ := ⟨0, 0⟩
  owner := none
  live := false
  nexts := 0
  deleted := 0
  misused := 0
  dangling := 0

def setPc (s : Block) (i : Nat) (pc : Pc) : Block := { s with pc := Function.update s.pc i pc }

/-- A use of `_s_p_scheduler` by thread `i`. -/
def use (s : Block) (i : Nat) : Block :=
  if s.scheduler i ∧ s.live then s else { s with misused := s.misused + 1 }

/-- `s_p_delete_dynamic_schedule(_s_p_scheduler)` by thread `i`. -/
def delete (s : Block) (i : Nat) : Block :=
  { s.use i with live := false, deleted := s.deleted + 1 }

/-- The thread behind `_num_threads_count_ptr` of thread `i`, while its variable exists. -/
def counter (s : Block) (i : Nat) : Option Nat :=
  (s.numThreadsCountPtr i).filter fun o => s.pc o ≠ .outside

/-- `v` may be the value of `*_num_threads_count_ptr` in thread `i`. -/
def Reads (s : Block) (i : Nat) (v : Int) : Prop := ∀ o ∈ s.counter i, v = s.numThreadsCount o

/-- `*_num_threads_count_ptr = v` in thread `i`. -/
def store (s : Block) (i : Nat) (v : Int) : Block :=
  match s.counter i with
  | some o => { s with numThreadsCount := Function.update s.numThreadsCount o v }
  | none => { s with dangling := s.dangling + 1 }

/-- The critical section `_s_p_last_treads` of thread `i`, in which the counter was `v`. -/
def countDown (s : Block) (i : Nat) (v : Int) : Block :=
  let s := s.store i (v - 1)
  let s := if v - 1 = 0 then s.delete i else s
  s.setPc i .counted

/-- `s_p_done` may be false, with `task` in the buffer. -/
def AtTask (tasks : Nat → Option SimpleTask) (s : Block) (task : SimpleTask) : Prop :=
  s.live = true → tasks s.nexts = some task

/-- `s_p_done` may be true. -/
def AtEnd (tasks : Nat → Option SimpleTask) (s : Block) : Prop :=
  s.live = true → tasks s.nexts = none

end Block

inductive Label
  | single (i : Nat)
  | skip (i : Nat)
  | create (i : Nat)
  | release
  | getBuffer (i : Nat)
  | next (i : Nat)
  | done (i : Nat)
  | runTask (i : Nat)
  | countDown (i : Nat) (v : Int)
  | leave (i : Nat)

/-- The steps of `threads` threads; `tasks k` is what the buffer holds after `k` calls of
`s_p_next`, or `none` where `s_p_done` is true. -/
inductive Step (threads : Nat) (tasks : Nat → Option SimpleTask) : Block → Label → Block → Prop
  | single {s : Block} {i : Nat} : i < threads → s.pc i = .entry → s.owner = none →
      Step threads tasks s (.single i) ({ s with owner := some i }.setPc i .single)
  | skip {s : Block} {i o : Nat} : i < threads → s.pc i = .entry → s.owner = some o →
      Step threads tasks s (.skip i) (s.setPc i .barrier)
  /-- `s_p_new_dynamic_schedule`, and `_num_threads_count_ptr = &_num_threads_count` -/
  | create {s : Block} {i : Nat} : i < threads → s.pc i = .single →
      Step threads tasks s (.create i)
        ({ s with
            live := true
            scheduler := Function.update s.scheduler i true
            numThreadsCountPtr := Function.update s.numThreadsCountPtr i (some i) }.setPc i
          .barrier)
  /-- `copyprivate`, and the barrier -/
  | release {s : Block} {o : Nat} : (∀ i < threads, s.pc i = .barrier) → s.owner = some o →
      Step threads tasks s .release
        { s with
          scheduler := fun _ => s.scheduler o
          numThreadsCountPtr := fun _ => s.numThreadsCountPtr o
          pc := fun _ => .getBuffer }
  | getBuffer {s : Block} {i : Nat} : i < threads → s.pc i = .getBuffer →
      Step threads tasks s (.getBuffer i) ((s.use i).setPc i .loop)
  /-- `_s_p_gss_task = *_s_p_gss_task_buffer; s_p_next(_s_p_scheduler)` -/
  | next {s : Block} {i : Nat} {task : SimpleTask} : i < threads → s.pc i = .loop →
      s.AtTask tasks task →
      Step threads tasks s (.next i)
        ({ s.use i with
            nexts := s.nexts + 1
            gssTask := Function.update s.gssTask i task }.setPc i .body)
  /-- `_s_p_done = true`, and the `break` -/
  | done {s : Block} {i : Nat} : i < threads → s.pc i = .loop → s.AtEnd tasks →
      Step threads tasks s (.done i) ((s.use i).setPc i .left)
  | runTask {s : Block} {i : Nat} : i < threads → s.pc i = .body →
      Step threads tasks s (.runTask i) (s.setPc i .loop)
  | countDown {s : Block} {i : Nat} {v : Int} : i < threads → s.pc i = .left → s.Reads i v →
      Step threads tasks s (.countDown i v) (s.countDown i v)
  | leave {s : Block} {i : Nat} : i < threads → s.pc i = .counted →
      Step threads tasks s (.leave i) (s.setPc i .outside)

/-- The runs of the block. -/
def blockSys (threads : Nat) (tasks : Nat → Option SimpleTask) : LTS.Sys Block Label where
  init s := s = Block.initial threads
  step := Step threads tasks

/-- If this is the owner that leaves, the others have counted down. -/
def OwnerLast (threads : Nat) (s : Block) (a : Label) : Prop :=
  ∀ i, a = .leave i → s.owner = some i → ∀ j < threads, j ≠ i → (s.pc j).gone = true

/-- The runs in which the owner leaves after the others have counted down. -/
def ownerLastSys (threads : Nat) (tasks : Nat → Option SimpleTask) : LTS.Sys Block Label :=
  (blockSys threads tasks).restrict (OwnerLast threads)

/-- The scheduler is deleted once all threads have counted down, not before, not twice and
not while it is used, and no counter is accessed that does not exist. -/
structure Block.Safe (threads : Nat) (s : Block) : Prop where
  once : s.deleted ≤ 1
  deleted_iff : s.deleted = 1 ↔ ∀ i < threads, (s.pc i).gone = true
  outOfLoop : 0 < s.deleted → ∀ i < threads, (s.pc i).outOfLoop = true
  misused : s.misused = 0
  dangling : s.dangling = 0

/-! ## The invariant -/

variable {threads : Nat} {tasks : Nat → Option SimpleTask} {s t : Block} {a : Label} {i o : Nat}
  {pc : Pc} {v : Int}

/-- 1 for a thread that has still to count down. -/
def Pc.toCount (pc : Pc) : Nat := if pc.gone then 0 else 1

/-- The number of threads that have still to count down. -/
def Block.remaining (threads : Nat) (s : Block) : Nat := tally Pc.toCount threads s.pc

theorem Pc.toCount_eq_zero : pc.toCount = 0 ↔ pc.gone = true := by
  unfold Pc.toCount
  split
  · next h => exact iff_of_true rfl h
  · next h => exact iff_of_false nofun h

theorem Pc.toCount_eq_one (h : pc.gone = false) : pc.toCount = 1 := by
  rw [Pc.toCount, h]
  rfl

theorem remaining_eq_zero : s.remaining threads = 0 ↔ ∀ i < threads, (s.pc i).gone = true := by
  rw [Block.remaining, tally_eq_zero]
  exact forall₂_congr fun i _ => Pc.toCount_eq_zero

theorem remaining_pos (hi : i < threads) (h : (s.pc i).gone = false) : 0 < s.remaining threads :=
  tally_pos hi (by rw [Pc.toCount_eq_one h]; exact Nat.one_pos)

/-- A step of one thread that does not count down. -/
theorem remaining_setPc (hi : i < threads) (h : (s.pc i).gone = pc.gone) :
    (s.setPc i pc).remaining threads = s.remaining threads := by
  have hcount : (s.pc i).toCount = pc.toCount := by rw [Pc.toCount, h, Pc.toCount]
  have hupdate : (s.setPc i pc).remaining threads + (s.pc i).toCount =
      s.remaining threads + pc.toCount := tally_update hi
  omega

theorem remaining_counted (hi : i < threads) (h : (s.pc i).gone = false) :
    (s.setPc i .counted).remaining threads + 1 = s.remaining threads := by
  have hupdate : (s.setPc i .counted).remaining threads + (s.pc i).toCount =
      s.remaining threads + Pc.counted.toCount := tally_update hi
  rwa [Pc.toCount_eq_one h] at hupdate

/-- Up to the barrier of the `omp single`. -/
structure Before (threads : Nat) (s : Block) : Prop where
  early : ∀ i < threads, (s.pc i).early = true
  count : ∀ i, s.numThreadsCount i = threads
  deleted : s.deleted = 0
  misused : s.misused = 0
  dangling : s.dangling = 0
  nexts : s.nexts = 0
  unowned : s.owner = none → ∀ i < threads, s.pc i = .entry
  isOwner : ∀ i < threads, s.pc i = .single → s.owner = some i
  owner_lt : ∀ o, s.owner = some o → o < threads ∧ s.pc o ≠ .entry
  created : ∀ o, s.owner = some o → s.pc o = .barrier →
    s.live = true ∧ s.scheduler o = true ∧ s.numThreadsCountPtr o = some o

/-- After it, with the owner `o`. -/
structure After (threads o : Nat) (s : Block) : Prop where
  late : ∀ i < threads, (s.pc i).early = false
  owner : s.owner = some o
  owner_lt : o < threads
  scheduler : ∀ i, s.scheduler i = true
  ptr : ∀ i, s.numThreadsCountPtr i = some o
  misused : s.misused = 0
  dangling : s.dangling = 0
  counting : 0 < s.remaining threads → s.pc o ≠ .outside ∧
    s.numThreadsCount o = s.remaining threads ∧ s.live = true ∧ s.deleted = 0
  finished : s.remaining threads = 0 → s.live = false ∧ s.deleted = 1

def Inv (threads : Nat) (s : Block) : Prop := Before threads s ∨ ∃ o, After threads o s

theorem before_initial : Before threads (Block.initial threads) where
  early _ _ := rfl
  count _ := rfl
  deleted := rfl
  misused := rfl
  dangling := rfl
  nexts := rfl
  unowned _ _ _ := rfl
  isOwner _ _ := nofun
  owner_lt _ := nofun
  created _ := nofun

/-- Where a thread is tells on which side of the barrier it is. -/
theorem early_at {b : Bool} (h : (s.pc i).early = b) (hpc : s.pc i = pc) : pc.early = b := hpc ▸ h

theorem setPc_self : (s.setPc i pc).pc i = pc := Function.update_self _ _ _

theorem setPc_of_ne {j : Nat} (h : j ≠ i) : (s.setPc i pc).pc j = s.pc j :=
  Function.update_of_ne h _ _

/-- What holds of every thread holds after a step of one. -/
theorem setPc_forall {P : Nat → Pc → Prop} (h : ∀ j < threads, P j (s.pc j)) (hi : P i pc) :
    ∀ j < threads, P j ((s.setPc i pc).pc j) := by
  intro j hj
  by_cases hji : j = i
  · subst hji
    rwa [setPc_self]
  · rw [setPc_of_ne hji]
    exact h j hj

theorem use_keeps : (s.use i).pc = s.pc ∧ (s.use i).nexts = s.nexts ∧
    (s.use i).numThreadsCountPtr = s.numThreadsCountPtr ∧ (s.use i).dangling = s.dangling := by
  unfold Block.use
  split
  · exact ⟨rfl, rfl, rfl, rfl⟩
  · exact ⟨rfl, rfl, rfl, rfl⟩

theorem store_keeps : (s.store i v).pc = s.pc ∧ (s.store i v).nexts = s.nexts ∧
    (s.store i v).dangling = s.dangling + if s.counter i = none then 1 else 0 := by
  unfold Block.store
  cases s.counter i with
  | none => exact ⟨rfl, rfl, rfl⟩
  | some o => exact ⟨rfl, rfl, rfl⟩

theorem countDown_keeps : (s.countDown i v).pc = (s.setPc i .counted).pc ∧
    (s.countDown i v).nexts = s.nexts ∧
    (s.countDown i v).dangling = s.dangling + if s.counter i = none then 1 else 0 := by
  obtain ⟨hpc, hnexts, hdangling⟩ := store_keeps (s := s) (i := i) (v := v - 1)
  rw [← hdangling, ← hnexts, Block.setPc, ← hpc]
  unfold Block.countDown
  dsimp only
  split
  · obtain ⟨hpc', hnexts', -, hdangling'⟩ := use_keeps (s := s.store i (v - 1)) (i := i)
    exact ⟨congrArg (fun f : Nat → Pc => Function.update f i Pc.counted) hpc', hnexts',
      hdangling'⟩
  · exact ⟨rfl, rfl, rfl⟩

namespace Before

theorem step_single (h : Before threads s) (hi : i < threads) (hnone : s.owner = none) :
    Before threads ({ s with owner := some i }.setPc i .single) :=
  { h with
    early := setPc_forall (P := fun _ pc => pc.early = true) h.early rfl
    unowned := nofun
    isOwner := setPc_forall (P := fun j pc => pc = .single → some i = some j)
      (fun j hj hsingle => by
        rw [h.unowned hnone j hj] at hsingle
        cases hsingle) fun _ => rfl
    owner_lt := by
      rintro o ⟨⟩
      rw [setPc_self]
      exact ⟨hi, nofun⟩
    created := by
      rintro o ⟨⟩ hbarrier
      rw [setPc_self] at hbarrier
      cases hbarrier }

/-- A thread comes to the barrier; with the owner, the scheduler does. -/
theorem toBarrier (h : Before threads s) (howner : s.owner = some o)
    (hcreated : o = i → s.live = true ∧ s.scheduler o = true ∧ s.numThreadsCountPtr o = some o) :
    Before threads (s.setPc i .barrier) :=
  { h with
    early := setPc_forall (P := fun _ pc => pc.early = true) h.early rfl
    unowned := fun hnone => by
      rw [Block.setPc, howner] at hnone
      cases hnone
    isOwner := setPc_forall (P := fun j pc => pc = .single → s.owner = some j) h.isOwner nofun
    owner_lt := fun o' ho' => by
      cases howner.symm.trans ho'
      obtain ⟨hlt, hne⟩ := h.owner_lt o howner
      refine ⟨hlt, ?_⟩
      by_cases hoi : o = i
      · rw [hoi, setPc_self]
        nofun
      · rwa [setPc_of_ne hoi]
    created := fun o' ho' => by
      cases howner.symm.trans ho'
      intro hbarrier
      -- another thread does not bring the owner to the barrier
      by_cases hoi : o = i
      · exact hcreated hoi
      · rw [setPc_of_ne hoi] at hbarrier
        exact h.created o howner hbarrier }

theorem step_skip (h : Before threads s) (hpc : s.pc i = .entry) (howner : s.owner = some o) :
    Before threads (s.setPc i .barrier) := by
  refine h.toBarrier howner ?_
  rintro rfl
  exact absurd hpc (h.owner_lt o howner).2

theorem step_create (h : Before threads s) (hi : i < threads) (hpc : s.pc i = .single) :
    Before threads
      ({ s with
          live := true
          scheduler := Function.update s.scheduler i true
          numThreadsCountPtr := Function.update s.numThreadsCountPtr i (some i) }.setPc i
        .barrier) := by
  have howner := h.isOwner i hi hpc
  have hcreated : Before threads
      { s with
        live := true
        scheduler := Function.update s.scheduler i true
        numThreadsCountPtr := Function.update s.numThreadsCountPtr i (some i) } :=
    { h with
      created := fun o ho hbarrier => by
        cases howner.symm.trans ho
        exact absurd (hpc.symm.trans hbarrier) (by decide) }
  exact hcreated.toBarrier howner fun _ =>
    ⟨rfl, Function.update_self _ _ _, Function.update_self _ _ _⟩

theorem step_release (h : Before threads s) (hpc : ∀ i < threads, s.pc i = .barrier)
    (howner : s.owner = some o) :
    After threads o
      { s with
        scheduler := fun _ => s.scheduler o
        numThreadsCountPtr := fun _ => s.numThreadsCountPtr o
        pc := fun _ => .getBuffer } := by
  have hlt := (h.owner_lt o howner).1
  obtain ⟨hlive, hscheduler, hptr⟩ := h.created o howner (hpc o hlt)
  have hremaining : tally Pc.toCount threads (fun _ => .getBuffer) = threads :=
    tally_of_eq_one fun _ _ => rfl
  refine
    { late := fun _ _ => rfl
      owner := howner
      owner_lt := hlt
      scheduler := fun _ => hscheduler
      ptr := fun _ => hptr
      misused := h.misused
      dangling := h.dangling
      counting := fun _ => ⟨nofun, ?_, hlive, h.deleted⟩
      finished := fun hzero => ?_ }
  · rw [Block.remaining, hremaining]
    exact h.count o
  · rw [Block.remaining, hremaining] at hzero
    omega

/-- One step before the barrier. -/
theorem step (h : Before threads s) (hs : Step threads tasks s a t) : Inv threads t := by
  cases hs with
  | single hi _ hnone => exact Or.inl (h.step_single hi hnone)
  | skip hi hpc howner => exact Or.inl (h.step_skip hpc howner)
  | create hi hpc => exact Or.inl (h.step_create hi hpc)
  | release hpc howner => exact Or.inr ⟨_, h.step_release hpc howner⟩
  | getBuffer hi hpc | next hi hpc _ | done hi hpc _ | runTask hi hpc | countDown hi hpc _
  | leave hi hpc => exact absurd (early_at (h.early _ hi) hpc) (by decide)

end Before

namespace After

/-- A thread that has not counted down may use the scheduler. -/
theorem usable (h : After threads o s) (hi : i < threads) (hpc : (s.pc i).gone = false) :
    s.scheduler i = true ∧ s.live = true :=
  ⟨h.scheduler i, (h.counting (remaining_pos hi hpc)).2.2.1⟩

theorem use_eq (h : After threads o s) (hi : i < threads) (hpc : (s.pc i).gone = false) :
    s.use i = s := if_pos (h.usable hi hpc)

/-- It may access the counter, too. -/
theorem counter_eq (h : After threads o s) (hi : i < threads) (hpc : (s.pc i).gone = false) :
    s.counter i = some o := by
  rw [Block.counter, h.ptr, Option.filter_some, if_pos]
  exact decide_eq_true (h.counting (remaining_pos hi hpc)).1

/-- A step of one thread that counts nothing down. -/
theorem setPc (h : After threads o s) (hi : i < threads) (hgone : (s.pc i).gone = pc.gone)
    (hlate : pc.early = false)
    (hout : 0 < s.remaining threads → i = o → pc ≠ .outside) : After threads o (s.setPc i pc) :=
  { h with
    late := setPc_forall (P := fun _ pc => pc.early = false) h.late hlate
    counting := fun hpos => by
      rw [remaining_setPc hi hgone] at hpos ⊢
      obtain ⟨hinside, hcount, hlive, hdeleted⟩ := h.counting hpos
      refine ⟨?_, hcount, hlive, hdeleted⟩
      -- only a step of the owner itself could end its variable
      by_cases hio : o = i
      · rw [hio, setPc_self]
        exact hout hpos hio.symm
      · rwa [setPc_of_ne hio]
    finished := fun hzero => by
      rw [remaining_setPc hi hgone] at hzero
      exact h.finished hzero }

/-- A thread that is not the last to count down. -/
theorem countDown_more (h : After threads o s) (hi : i < threads) (hpc : (s.pc i).gone = false)
    (hv : v - 1 ≠ 0) : s.countDown i v = Block.setPc
      { s with numThreadsCount := Function.update s.numThreadsCount o (v - 1) } i .counted := by
  rw [Block.countDown, Block.store, h.counter_eq hi hpc]
  exact congrArg (fun s => Block.setPc s i .counted) (if_neg hv)

/-- The last one deletes the scheduler. -/
theorem countDown_last (h : After threads o s) (hi : i < threads) (hpc : (s.pc i).gone = false)
    (hv : v - 1 = 0) : s.countDown i v = Block.setPc
      { s with
        numThreadsCount := Function.update s.numThreadsCount o (v - 1)
        live := false
        deleted := s.deleted + 1 } i .counted := by
  rw [Block.countDown, Block.store, h.counter_eq hi hpc]
  refine congrArg (fun s => Block.setPc s i .counted) ((if_pos hv).trans ?_)
  rw [Block.delete, Block.use, if_pos (h.usable hi hpc)]

theorem step_countDown (h : After threads o s) (hi : i < threads) (hpc : s.pc i = .left)
    (hreads : s.Reads i v) : After threads o (s.countDown i v) := by
  have hgone : (s.pc i).gone = false := by rw [hpc]; rfl
  obtain ⟨hinside, hcount, hlive, hdeleted⟩ := h.counting (remaining_pos hi hgone)
  have hv : v = s.remaining threads := (hreads o (h.counter_eq hi hgone)).trans hcount
  have hremaining : (s.setPc i .counted).remaining threads + 1 = s.remaining threads :=
    remaining_counted hi hgone
  have hlate : ∀ j < threads, ((s.setPc i .counted).pc j).early = false :=
    setPc_forall (P := fun _ pc => pc.early = false) h.late rfl
  -- the thread that finds 1 is the last one
  by_cases hlast : v - 1 = 0
  · rw [h.countDown_last hi hgone hlast]
    have hzero : (s.setPc i .counted).remaining threads = 0 := by omega
    exact
      { h with
        late := hlate
        counting := fun hpos => absurd hzero (Nat.ne_of_gt hpos)
        finished := fun _ => ⟨rfl, congrArg (· + 1) hdeleted⟩ }
  · rw [h.countDown_more hi hgone hlast]
    have hpos : (s.setPc i .counted).remaining threads ≠ 0 := by omega
    have hinside' : (s.setPc i .counted).pc o ≠ .outside := by
      by_cases hio : o = i
      · rw [hio, setPc_self]
        nofun
      · rwa [setPc_of_ne hio]
    have hcount' : Function.update s.numThreadsCount o (v - 1) o =
        (s.setPc i .counted).remaining threads := by
      rw [Function.update_self]
      omega
    exact
      { h with
        late := hlate
        counting := fun _ => ⟨hinside', hcount', hlive, hdeleted⟩
        finished := fun hzero => absurd hzero hpos }

theorem step_leave (h : After threads o s) (hi : i < threads) (hpc : s.pc i = .counted)
    (hok : OwnerLast threads s (.leave i)) : After threads o (s.setPc i .outside) := by
  refine h.setPc hi (by rw [hpc]; rfl) rfl fun hpos hio => ?_
  subst hio
  -- the owner leaves last, so nobody has still to count down
  have hzero : s.remaining threads = 0 := remaining_eq_zero.mpr fun j hj => by
    by_cases hji : j = i
    · rw [hji, hpc]
      rfl
    · exact hok i rfl h.owner j hj hji
  omega

/-- One step after the barrier. -/
theorem step (h : After threads o s) (hok : OwnerLast threads s a)
    (hs : Step threads tasks s a t) : After threads o t := by
  cases hs with
  | single hi hpc _ | skip hi hpc _ | create hi hpc =>
    exact absurd (early_at (h.late _ hi) hpc) (by decide)
  | release hpc _ => exact absurd (early_at (h.late o h.owner_lt) (hpc o h.owner_lt)) (by decide)
  | getBuffer hi hpc =>
    rw [h.use_eq hi (by rw [hpc]; rfl)]
    exact h.setPc hi (by rw [hpc]; rfl) rfl fun _ _ => nofun
  | @next i task hi hpc _ =>
    rw [h.use_eq hi (by rw [hpc]; rfl)]
    have hkeep : After threads o
        { s with
          nexts := s.nexts + 1
          gssTask := Function.update s.gssTask i task } := { h with }
    exact hkeep.setPc hi (by rw [hpc]; rfl) rfl fun _ _ => nofun
  | done hi hpc _ =>
    rw [h.use_eq hi (by rw [hpc]; rfl)]
    exact h.setPc hi (by rw [hpc]; rfl) rfl fun _ _ => nofun
  | runTask hi hpc => exact h.setPc hi (by rw [hpc]; rfl) rfl fun _ _ => nofun
  | countDown hi hpc hreads => exact h.step_countDown hi hpc hreads
  | leave hi hpc => exact h.step_leave hi hpc hok

end After

theorem inv (h : LTS.Reachable (ownerLastSys threads tasks) s) : Inv threads s := by
  induction h with
  | init h =>
    cases h
    exact Or.inl before_initial
  | step _ hs ih =>
    rcases ih with hbefore | ⟨o, hafter⟩
    · exact hbefore.step hs.2
    · exact Or.inr ⟨o, hafter.step hs.1 hs.2⟩

theorem Pc.outOfLoop_of_gone (h : pc.gone = true) : pc.outOfLoop = true := by
  cases pc <;> first
    | rfl
    | cases h

theorem Pc.gone_of_early (h : pc.early = true) : pc.gone = false := by
  cases pc <;> first
    | rfl
    | cases h

/-- A scheduler that is deleted with the last countdown. -/
theorem safe_of_deleted (h : s.deleted = if s.remaining threads = 0 then 1 else 0)
    (hmisused : s.misused = 0) (hdangling : s.dangling = 0) : s.Safe threads := by
  split at h
  · next hzero =>
    have hall := remaining_eq_zero.mp hzero
    exact ⟨Nat.le_of_eq h, iff_of_true h hall, fun _ i hi => Pc.outOfLoop_of_gone (hall i hi),
      hmisused, hdangling⟩
  · next hpos =>
    have hone : s.deleted ≠ 1 := by omega
    exact ⟨by omega, iff_of_false hone (mt remaining_eq_zero.mpr hpos), fun hdel => by omega,
      hmisused, hdangling⟩

theorem Inv.safe (h : Inv threads s) (hthreads : 0 < threads) : s.Safe threads := by
  rcases h with hbefore | ⟨o, hafter⟩
  · have hpos := remaining_pos hthreads (Pc.gone_of_early (hbefore.early 0 hthreads))
    refine safe_of_deleted ?_ hbefore.misused hbefore.dangling
    rw [hbefore.deleted, if_neg (Nat.ne_of_gt hpos)]
  · refine safe_of_deleted ?_ hafter.misused hafter.dangling
    split
    · next hzero => exact (hafter.finished hzero).2
    · next hpos => exact (hafter.counting (Nat.pos_of_ne_zero hpos)).2.2.2

end SimpleParallel.Schedule.Teardown
