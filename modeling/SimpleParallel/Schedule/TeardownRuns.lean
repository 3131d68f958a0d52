import SimpleParallel.Schedule.Teardown

/-!
# Whole runs of the block

The runs of a block to their end: those in which the owner of the counter leaves last, and the
others.

* `ownerLast_or`: a run in which the owner leaves early accesses the counter behind the block,
  or will.
* `todo_lt`, `outside_of_stuck`: the other runs end, with every thread behind the block.
* `teardown`: in the runs in which the owner leaves last, and of the finished ones in no
  others, the scheduler is deleted once, after its last use, and the counter is accessed only
  while its thread is in the block.
* `owner_leaves_first`: two threads, the owner leaves, and nobody deletes the scheduler.
-/

namespace SimpleParallel.Schedule.Teardown

open Tally

variable {threads : Nat} {tasks : Nat → Option SimpleTask} {s t : Block} {a : Label} {i o : Nat}
  {pc : Pc}

/-! ## The owner leaves first -/

/-- The owner is behind the block, and a thread has still to count down. -/
structure LeftEarly (threads : Nat) (s : Block) : Prop where
  late : ∀ i < threads, (s.pc i).early = false
  owner : ∃ o < threads, s.pc o = .outside ∧ ∀ i, s.numThreadsCountPtr i = some o
  waiting : ∃ j < threads, (s.pc j).gone = false

/-- An owner that does not leave last leaves early. -/
theorem After.leftEarly (h : After threads o s) (hi : i < threads)
    (hnot : ¬ OwnerLast threads s (.leave i)) : LeftEarly threads (s.setPc i .outside) := by
  -- the condition speaks of the owner only
  have hearly : s.owner = some i ∧ ∃ j < threads, j ≠ i ∧ (s.pc j).gone = false := by
    by_contra hlast
    refine hnot fun k hk howner j hj hjk => ?_
    cases hk
    cases hgone : (s.pc j).gone with
    | true => rfl
    | false => exact absurd ⟨howner, j, hj, hjk, hgone⟩ hlast
  obtain ⟨howner, j, hj, hji, hgone⟩ := hearly
  cases h.owner.symm.trans howner
  exact
    { late := setPc_forall (P := fun _ pc => pc.early = false) h.late rfl
      owner := ⟨i, hi, setPc_self, h.ptr⟩
      waiting := ⟨j, hj, by rw [setPc_of_ne hji, hgone]⟩ }

/-- What was accessed stays accessed. -/
theorem dangling_le (hs : Step threads tasks s a t) : s.dangling ≤ t.dangling := by
  cases hs with
  | getBuffer _ _ | next _ _ _ | done _ _ _ => exact Nat.le_of_eq use_keeps.2.2.2.symm
  | countDown _ _ _ =>
    rw [countDown_keeps.2.2]
    exact Nat.le_add_right _ _
  | single _ _ _ | skip _ _ _ | create _ _ | release _ _ | runTask _ _ | leave _ _ =>
    exact Nat.le_refl _

namespace LeftEarly

theorem setPc (h : LeftEarly threads s) (hgone : (s.pc i).gone = pc.gone)
    (hlate : pc.early = false) (hinside : s.pc i ≠ .outside) :
    LeftEarly threads (s.setPc i pc) := by
  obtain ⟨o, ho, hout, hptr⟩ := h.owner
  obtain ⟨j, hj, hwait⟩ := h.waiting
  have hne : o ≠ i := by
    rintro rfl
    exact hinside hout
  refine
    { late := setPc_forall (P := fun _ pc => pc.early = false) h.late hlate
      owner := ⟨o, ho, by rw [setPc_of_ne hne, hout], hptr⟩
      waiting := ⟨j, hj, ?_⟩ }
  by_cases hji : j = i
  · rw [hji, setPc_self, ← hgone, ← hji, hwait]
  · rw [setPc_of_ne hji, hwait]

theorem use (h : LeftEarly threads s) : LeftEarly threads (s.use i) := by
  obtain ⟨hpc, -, hptr, -⟩ := use_keeps (s := s) (i := i)
  exact
    { late := hpc ▸ h.late
      owner := hpc ▸ hptr ▸ h.owner
      waiting := hpc ▸ h.waiting }

/-- Then every thread that counts down accesses a variable that does not exist. -/
theorem counter_eq (h : LeftEarly threads s) : s.counter i = none := by
  obtain ⟨o, -, hout, hptr⟩ := h.owner
  rw [Block.counter, hptr, Option.filter_some, if_neg]
  simp [hout]

theorem step (h : LeftEarly threads s) (hs : Step threads tasks s a t) :
    LeftEarly threads t ∨ 0 < t.dangling := by
  have husepc : ∀ {i : Nat}, (s.use i).pc = s.pc := use_keeps.1
  cases hs with
  | single hi hpc _ | skip hi hpc _ | create hi hpc =>
    exact absurd (early_at (h.late _ hi) hpc) (by decide)
  | release hpc _ =>
    obtain ⟨o, ho, -⟩ := h.owner
    exact absurd (early_at (h.late o ho) (hpc o ho)) (by decide)
  | getBuffer hi hpc | done hi hpc _ =>
    refine Or.inl (h.use.setPc ?_ rfl ?_)
    · rw [husepc, hpc]
      rfl
    · rw [husepc, hpc]
      nofun
  | @next i task hi hpc _ =>
    have hkeep : LeftEarly threads
        { s.use i with
          nexts := s.nexts + 1
          gssTask := Function.update s.gssTask i task } := { h.use with }
    refine Or.inl (hkeep.setPc ?_ rfl ?_)
    · show ((s.use i).pc i).gone = false
      rw [husepc, hpc]
      rfl
    · show (s.use i).pc i ≠ .outside
      rw [husepc, hpc]
      nofun
  | runTask hi hpc | leave hi hpc =>
    refine Or.inl (h.setPc ?_ rfl ?_)
    · rw [hpc]
      rfl
    · rw [hpc]
      nofun
  | countDown hi hpc _ =>
    refine Or.inr ?_
    rw [countDown_keeps.2.2, if_pos h.counter_eq]
    exact Nat.succ_pos _

end LeftEarly

/-- A run keeps the owner to the end, or accesses its variable behind the block, or will. -/
theorem ownerLast_or (h : LTS.Reachable (blockSys threads tasks) s) :
    LTS.Reachable (ownerLastSys threads tasks) s ∨ LeftEarly threads s ∨ 0 < s.dangling := by
  induction h with
  | init h => exact Or.inl (.init h)
  | @step s t a _ hs ih =>
    rcases ih with hlast | hearly | hdangling
    · by_cases hok : OwnerLast threads s a
      · exact Or.inl (hlast.restrict_step a hok hs)
      · obtain ⟨i, rfl⟩ : ∃ i, a = .leave i := by
          by_contra hnot
          exact hok fun i hi => absurd ⟨i, hi⟩ hnot
        rcases inv hlast with hbefore | ⟨o, hafter⟩
        · cases hs with
          | leave hi hpc => exact absurd (early_at (hbefore.early i hi) hpc) (by decide)
        · cases hs with
          | leave hi hpc => exact Or.inr (Or.inl (hafter.leftEarly hi hok))
    · exact Or.inr (hearly.step hs)
    · exact Or.inr (Or.inr (Nat.lt_of_lt_of_le hdangling (dangling_le hs)))

/-! ## The end of a run -/

/-- What the threads have still to do when `s_p_done` is true after `n` calls of `s_p_next`. -/
def Block.todo (threads n : Nat) (s : Block) : Nat :=
  2 * (n - s.nexts) + tally Pc.rank threads s.pc

/-- A step of one thread towards the end. -/
theorem todo_setPc_lt {n : Nat} (hi : i < threads) (hrank : pc.rank < (s.pc i).rank)
    (hpc : t.pc = (s.setPc i pc).pc) (hnexts : t.nexts = s.nexts) :
    t.todo threads n < s.todo threads n := by
  have hupdate : tally Pc.rank threads (s.setPc i pc).pc + (s.pc i).rank =
      tally Pc.rank threads s.pc + pc.rank := tally_update hi
  rw [Block.todo, Block.todo, hpc, hnexts]
  omega

theorem use_setPc : ((s.use i).setPc i pc).pc = (s.setPc i pc).pc :=
  congrArg (fun f : Nat → Pc => Function.update f i pc) use_keeps.1

/-- `s_p_next` is called for a task of an existing scheduler. -/
theorem next_task {task : SimpleTask} (h : Inv threads s) (hi : i < threads) (hpc : s.pc i = .loop)
    (htask : s.AtTask tasks task) : tasks s.nexts = some task := by
  rcases h with hbefore | ⟨o, hafter⟩
  · exact absurd (early_at (hbefore.early i hi) hpc) (by decide)
  · exact htask (hafter.usable hi (by rw [hpc]; rfl)).2

theorem nexts_le {n : Nat} (hn : tasks n = none)
    (h : LTS.Reachable (ownerLastSys threads tasks) s) : s.nexts ≤ n := by
  induction h with
  | init h =>
    cases h
    exact Nat.zero_le n
  | step hr hs ih =>
    cases hs.2 with
    | next hi hpc htask =>
      have htask' := next_task (inv hr) hi hpc htask
      refine Nat.lt_of_le_of_ne ih fun heq => ?_
      rw [heq, hn] at htask'
      cases htask'
    | getBuffer _ _ | done _ _ _ => exact Nat.le_trans (Nat.le_of_eq use_keeps.2.1) ih
    | countDown _ _ _ => exact Nat.le_trans (Nat.le_of_eq countDown_keeps.2.1) ih
    | single _ _ _ | skip _ _ _ | create _ _ | release _ _ | runTask _ _ | leave _ _ => exact ih

/-- Every step leaves less to do. -/
theorem todo_lt {n : Nat} (hn : tasks n = none) (hthreads : 0 < threads)
    (h : LTS.Reachable (ownerLastSys threads tasks) s) (hs : Step threads tasks s a t) :
    t.todo threads n < s.todo threads n := by
  cases hs with
  | @next i task hi hpc htask =>
    have htask' := next_task (inv h) hi hpc htask
    have hne : s.nexts ≠ n := fun heq => by
      rw [heq, hn] at htask'
      cases htask'
    have hle := nexts_le hn h
    have hupdate : tally Pc.rank threads (s.setPc i .body).pc + (s.pc i).rank =
        tally Pc.rank threads s.pc + Pc.body.rank := tally_update hi
    rw [hpc] at hupdate
    show 2 * (n - (s.nexts + 1)) + tally Pc.rank threads ((s.use i).setPc i .body).pc <
      2 * (n - s.nexts) + tally Pc.rank threads s.pc
    rw [use_setPc]
    -- the task that was taken counts more than the way through its body
    simp only [Pc.rank] at hupdate
    omega
  | release hpc _ =>
    have hlt : tally Pc.rank threads (fun _ => Pc.getBuffer) < tally Pc.rank threads s.pc :=
      tally_lt hthreads fun i hi => by rw [hpc i hi]; decide
    exact Nat.add_lt_add_left hlt _
  | getBuffer hi hpc | done hi hpc _ =>
    exact todo_setPc_lt hi (by rw [hpc]; decide) use_setPc use_keeps.2.1
  | countDown hi hpc _ =>
    exact todo_setPc_lt hi (by rw [hpc]; decide) countDown_keeps.1 countDown_keeps.2.1
  | single hi hpc _ | skip hi hpc _ | create hi hpc | runTask hi hpc | leave hi hpc =>
    exact todo_setPc_lt hi (by rw [hpc]; decide) rfl rfl

/-- A thread that waits for no other can go on. -/
theorem exists_step (hi : i < threads) (hbarrier : s.pc i ≠ .barrier)
    (hgone : (s.pc i).gone = false) : ∃ a t, (ownerLastSys threads tasks).step s a t := by
  cases hpc : s.pc i with
  | entry =>
    cases howner : s.owner with
    | none => exact ⟨.single i, _, nofun, .single hi hpc howner⟩
    | some o => exact ⟨.skip i, _, nofun, .skip hi hpc howner⟩
  | single => exact ⟨.create i, _, nofun, .create hi hpc⟩
  | barrier => exact absurd hpc hbarrier
  | getBuffer => exact ⟨.getBuffer i, _, nofun, .getBuffer hi hpc⟩
  | loop =>
    cases htask : tasks s.nexts with
    | none => exact ⟨.done i, _, nofun, .done hi hpc fun _ => htask⟩
    | some task => exact ⟨.next i, _, nofun, .next hi hpc fun _ => htask⟩
  | body => exact ⟨.runTask i, _, nofun, .runTask hi hpc⟩
  | left =>
    have hreads : ∃ v, s.Reads i v := by
      unfold Block.Reads
      cases s.counter i with
      | none => exact ⟨0, nofun⟩
      | some o => exact ⟨s.numThreadsCount o, fun _ ho => by cases ho; rfl⟩
    obtain ⟨v, hv⟩ := hreads
    exact ⟨.countDown i v, _, nofun, .countDown hi hpc hv⟩
  | counted | outside =>
    rw [hpc] at hgone
    cases hgone

/-- The threads never wait for each other for good. -/
theorem outside_of_stuck (hthreads : 0 < threads) (h : Inv threads s)
    (hstuck : ∀ a t, ¬ (ownerLastSys threads tasks).step s a t) :
    ∀ i < threads, s.pc i = .outside := by
  have hwaits : ∀ i < threads, s.pc i = .barrier ∨ (s.pc i).gone = true := by
    intro i hi
    by_contra hnot
    obtain ⟨hbarrier, hgone⟩ := not_or.mp hnot
    obtain ⟨a, t, hs⟩ := exists_step hi hbarrier (Bool.eq_false_iff.mpr hgone)
    exact hstuck a t hs
  rcases h with hbefore | ⟨o, hafter⟩
  · -- all are at the barrier, which opens
    have hall : ∀ i < threads, s.pc i = .barrier := fun i hi =>
      (hwaits i hi).resolve_right fun hgone => by
        rw [Pc.gone_of_early (hbefore.early i hi)] at hgone
        cases hgone
    cases howner : s.owner with
    | none =>
      have hentry := hbefore.unowned howner 0 hthreads
      rw [hall 0 hthreads] at hentry
      cases hentry
    | some o => exact (hstuck .release _ ⟨nofun, .release hall howner⟩).elim
  · -- all have counted down, so any of them may leave
    have hall : ∀ i < threads, (s.pc i).gone = true := fun i hi =>
      (hwaits i hi).resolve_left fun hbarrier =>
        absurd (early_at (hafter.late i hi) hbarrier) (by decide)
    intro i hi
    have hgone := hall i hi
    cases hpc : s.pc i with
    | outside => rfl
    | counted => exact (hstuck (.leave i) _ ⟨fun _ _ _ j hj _ => hall j hj, .leave hi hpc⟩).elim
    | _ =>
      rw [hpc] at hgone
      cases hgone

/-! ## Teardown -/

/-- In every run in which the owner leaves the block after the others have counted down, the
scheduler is deleted once, after every thread has left its loop, it is not used afterwards, and
the counter is accessed only while its thread is in the block; such a run comes to its end.
A run that has come to its end otherwise has accessed the counter behind the block. A thread
that is alone is always the last. -/
theorem teardown (hthreads : 0 < threads) (tasks : Nat → Option SimpleTask) :
    (∀ s, LTS.Reachable (ownerLastSys threads tasks) s → s.Safe threads) ∧
    (∀ s, LTS.Reachable (ownerLastSys threads tasks) s →
      (∀ a t, ¬ (ownerLastSys threads tasks).step s a t) →
      s.deleted = 1 ∧ ∀ i < threads, s.pc i = .outside) ∧
    (∀ n, tasks n = none → ∀ s, LTS.Reachable (ownerLastSys threads tasks) s →
      Acc (fun t s => ∃ a, (ownerLastSys threads tasks).step s a t) s) ∧
    (∀ s, LTS.Reachable (blockSys threads tasks) s → (∀ i < threads, s.pc i = .outside) →
      (s.Safe threads ↔ LTS.Reachable (ownerLastSys threads tasks) s)) ∧
    (threads = 1 → ∀ s, LTS.Reachable (blockSys threads tasks) s →
      LTS.Reachable (ownerLastSys threads tasks) s) := by
  have hsafe : ∀ s, LTS.Reachable (ownerLastSys threads tasks) s → s.Safe threads :=
    fun s h => (inv h).safe hthreads
  have hgone : ∀ s : Block, (∀ i < threads, s.pc i = .outside) →
      ∀ i < threads, (s.pc i).gone = true := fun s hall i hi => by rw [hall i hi]; rfl
  refine ⟨hsafe, fun s h hstuck => ?_, fun n hn s h => ?_, fun s h hall => ⟨fun hs => ?_, hsafe s⟩,
    fun hone s h => ?_⟩
  · have hall := outside_of_stuck hthreads (inv h) hstuck
    exact ⟨(hsafe s h).deleted_iff.mpr (hgone s hall), hall⟩
  · -- on what is left to do
    induction hk : s.todo threads n using Nat.strong_induction_on generalizing s with
    | _ k ih =>
      refine Acc.intro s fun t ⟨a, hs⟩ => ?_
      exact ih _ (hk ▸ todo_lt hn hthreads h hs.2) t (h.step hs) rfl
  · rcases ownerLast_or h with hlast | hearly | hdangling
    · exact hlast
    · -- a thread that has still to count down is not behind the block
      obtain ⟨j, hj, hwait⟩ := hearly.waiting
      rw [hgone s hall j hj] at hwait
      cases hwait
    · exact absurd hs.dangling (Nat.ne_of_gt hdangling)
  · induction h with
    | init h => exact .init h
    | step _ hs ih =>
      refine ih.restrict_step _ ?_ hs
      rintro i rfl - j hj hji
      cases hs with
      | leave hi _ => omega

/-- What holds of each of two threads. -/
theorem forall_two {P : Nat → Prop} (h0 : P 0) (h1 : P 1) : ∀ i < 2, P i := by
  intro i hi
  match i, hi with
  | 0, _ => exact h0
  | 1, _ => exact h1

/-- One task for the rank. -/
def oneTask (k : Nat) : Option SimpleTask := if k = 0 then some ⟨7, 8⟩ else none

/-- Two threads delete the scheduler after one task. -/
theorem teardown_oneTask :
    ∃ s, LTS.Reachable (ownerLastSys 2 oneTask) s ∧ s.nexts = 1 ∧ s.deleted = 1 ∧ s.Safe 2 := by
  have h0 : LTS.Reachable (ownerLastSys 2 oneTask) (Block.initial 2) := .init rfl
  have h1 := h0.restrict_step (.single 0) nofun (.single (i := 0) (by decide) rfl rfl)
  have h2 := h1.restrict_step (.skip 1) nofun (.skip (i := 1) (by decide) rfl rfl)
  have h3 := h2.restrict_step (.create 0) nofun (.create (i := 0) (by decide) rfl)
  have h4 := h3.restrict_step .release nofun (.release (forall_two rfl rfl) rfl)
  have h5 := h4.restrict_step (.getBuffer 0) nofun (.getBuffer (i := 0) (by decide) rfl)
  have h6 := h5.restrict_step (.next 0) nofun (.next (i := 0) (by decide) rfl fun _ => rfl)
  have h7 := h6.restrict_step (.getBuffer 1) nofun (.getBuffer (i := 1) (by decide) rfl)
  have h8 := h7.restrict_step (.done 1) nofun (.done (i := 1) (by decide) rfl fun _ => rfl)
  have h9 := h8.restrict_step (.runTask 0) nofun (.runTask (i := 0) (by decide) rfl)
  have h10 := h9.restrict_step (.done 0) nofun (.done (i := 0) (by decide) rfl fun _ => rfl)
  have h11 := h10.restrict_step (.countDown 0 2) nofun
    (.countDown (i := 0) (v := 2) (by decide) rfl fun o ho => by cases ho; rfl)
  have h12 := h11.restrict_step (.countDown 1 1) nofun
    (.countDown (i := 1) (v := 1) (by decide) rfl fun o ho => by cases ho; rfl)
  exact ⟨_, h12, rfl, rfl, (teardown (by decide) oneTask).1 _ h12⟩

/-- Two threads without a task. The owner counts down and leaves. What the other one finds at
the address of the counter is not 1. -/
theorem owner_leaves_first :
    ∃ s, LTS.Reachable (blockSys 2 fun _ => none) s ∧ (∀ i < 2, s.pc i = .outside) ∧
      s.deleted = 0 ∧ s.dangling = 1 ∧ ¬ s.Safe 2 := by
  have h0 : LTS.Reachable (blockSys 2 fun _ => none) (Block.initial 2) := .init rfl
  have h1 := h0.step (.single (i := 0) (by decide) rfl rfl)
  have h2 := h1.step (.skip (i := 1) (by decide) rfl rfl)
  have h3 := h2.step (.create (i := 0) (by decide) rfl)
  have h4 := h3.step (.release (forall_two rfl rfl) rfl)
  have h5 := h4.step (.getBuffer (i := 0) (by decide) rfl)
  have h6 := h5.step (.getBuffer (i := 1) (by decide) rfl)
  have h7 := h6.step (.done (i := 0) (by decide) rfl fun _ => rfl)
  have h8 := h7.step (.done (i := 1) (by decide) rfl fun _ => rfl)
  have h9 := h8.step (.countDown (i := 0) (v := 2) (by decide) rfl fun o ho => by cases ho; rfl)
  have h10 := h9.step (.leave (i := 0) (by decide) rfl)
  have h11 := h10.step (.countDown (i := 1) (v := 7) (by decide) rfl nofun)
  have h12 := h11.step (.leave (i := 1) (by decide) rfl)
  refine ⟨_, h12, forall_two rfl rfl, rfl, rfl, fun hsafe => ?_⟩
  exact absurd hsafe.dangling (by decide)

end SimpleParallel.Schedule.Teardown
