import SimpleParallel.Schedule.Counted
import SimpleParallel.Schedule.Gss

/-!
# The parallel for loop

`S_P_GSS_UINT64_T_PAR_FOR` (`c_dynamic_schedule_binding.h`): a counted crew whose tasks are
those of the guided generator. A thread copies the task in the schedule's buffer and calls
`s_p_next` in one critical section; it runs through the copy outside.

The schedule of a rank is its part of a `Session` whose elements are the tasks of the
generator: what the buffer holds is the element that the rank's handler stands at
(`root_iterator`).

Results:
* `parFor_exactly_once`: as long as only the last thread of a rank finds the counter gone,
  the bodies run at most once for each index of the range and for no other, exactly once
  when all threads have left the loop, and a thread leaves only when nothing is left for its
  rank.
* `parFor_strays`: three threads, of which two find the counter gone.
* `parFor_completes`: from every state the loop can be brought to its end, if the owners
  leave last.
-/

namespace SimpleParallel.Schedule

/-! ## The loop -/

/-- What the ranks pass to the macro: the number of threads of each team, and
the range. OpenMP teams are not empty. -/
structure ParFor where
  size : Nat
  threads : Nat → Nat
  beginIdx : UInt64
  endIdx : UInt64
  grainSize : UInt64
  size_pos : 0 < size
  threads_pos : ∀ r < size, 0 < threads r
  range : beginIdx ≤ endIdx

/-- `for (; i < _s_p_gss_task.end_idx; i++)` -/
def simpleTurn (task : SimpleTask) (i : UInt64) : Option (UInt64 × Option Nat) :=
  if i < task.endIdx then some (i + 1, some i.toNat) else some (i, none)

namespace ParFor

/-- `s_p_new_gss_state` after its `all_reduce`: every rank counts each of its
threads forty times. -/
def gssState (p : ParFor) : GssState where
  current := p.beginIdx
  endIdx := p.endIdx
  grainSize := p.grainSize
  allRankProcessCount :=
    (List.range p.size).foldl (fun count r => count + UInt64.ofNat (p.threads r) * 40) 0

def tasks (p : ParFor) : List SimpleTask := p.gssState.tasks

/-- The element with index `k`. -/
def task (p : ParFor) (k : Nat) : SimpleTask := p.tasks.getD k ⟨0, 0⟩

/-- The session over the tasks, and the loop over a task. Each rank passes its number of
threads as the buffer size. -/
def crew (p : ParFor) : CrewConfig SimpleTask UInt64 Nat where
  config := ⟨p.size, p.threads, p.tasks.length, p.size_pos⟩
  threads := p.threads
  task := p.task
  start task := task.beginIdx
  turn := simpleTurn
  threads_pos := p.threads_pos

/-- The indices of the range. -/
def indices (p : ParFor) : List Nat :=
  List.range' p.beginIdx.toNat (p.endIdx.toNat - p.beginIdx.toNat)

end ParFor

/-- The loop on all ranks. -/
abbrev Team := Counted SimpleTask UInt64 Nat

/-- The runs in which the constructor of the generator comes back: a division by zero ends
the program there. -/
def ParFor.started (p : ParFor) (S : LTS.Sys Team (CountedLabel Nat)) :
    LTS.Sys Team (CountedLabel Nat) :=
  { S with init := fun s => S.init s ∧ TaskIterator.new p.gssState ≠ none }

/-- The loop executes the serial index set, as far as the threads have come. -/
structure Team.Serial (p : ParFor) (s : Team) : Prop where
  once : (s.crew.ran p.crew).Nodup
  inRange : ∀ n ∈ s.crew.ran p.crew, p.beginIdx.toNat ≤ n ∧ n < p.endIdx.toNat
  noneLeft : ∀ m ∈ p.crew.members, (s.crew.thread m).pc = .left →
    s.crew.session.NoneLeft p.crew.config m.1
  all : s.crew.AllLeft p.crew → (s.crew.ran p.crew).Perm p.indices

/-! ## Tasks -/

/-- One run of the body. -/
theorem range'_next {n m : UInt64} (hlt : n < m) : List.range' n.toNat (m.toNat - n.toNat) =
    n.toNat :: List.range' (n + 1).toNat (m.toNat - (n + 1).toNat) := by
  have hn : n.toNat < m.toNat := UInt64.lt_iff_toNat_lt.mp hlt
  have hm := m.toNat_lt
  have hsucc : (n + 1).toNat = n.toNat + 1 := by
    rw [UInt64.toNat_add, UInt64.toNat_one, Nat.mod_eq_of_lt (by omega)]
  have hsub : m.toNat - n.toNat = m.toNat - (n.toNat + 1) + 1 := by omega
  rw [hsucc, hsub, List.range'_succ]

theorem simpleTurn_yields (task : SimpleTask) (i : UInt64) :
    Yields (simpleTurn task) i (List.range' i.toNat (task.endIdx.toNat - i.toNat)) := by
  induction hn : task.endIdx.toNat - i.toNat generalizing i with
  | zero =>
    have hge : ¬ i < task.endIdx := fun hlt =>
      Nat.not_le.mpr (UInt64.lt_iff_toNat_lt.mp hlt) (Nat.le_of_sub_eq_zero hn)
    exact .done (if_neg hge)
  | succ n ih =>
    have hlt : i < task.endIdx := UInt64.lt_iff_toNat_lt.mpr (Nat.lt_of_sub_eq_succ hn)
    have hnext := range'_next hlt
    rw [hn, List.range'_succ] at hnext
    obtain ⟨-, hrest⟩ := List.cons.inj hnext
    have hcount : task.endIdx.toNat - (i + 1).toNat = n := by
      have hlength := congrArg List.length hrest
      rw [List.length_range', List.length_range'] at hlength
      exact hlength.symm
    rw [List.range'_succ, hrest, hcount]
    exact .more (if_pos hlt) (ih (i + 1) hcount)

section

variable {p : ParFor} {s : Team}

theorem ParFor.crew_visits (p : ParFor) : p.crew.Visits fun k => (p.task k).indices :=
  fun _ _ => simpleTurn_yields _ _

/-- The tasks end to end are the range of the loop. -/
theorem indices_cover (h : p.gssState.Ok) :
    ((List.range p.crew.config.n).flatMap fun k => (p.task k).indices) = p.indices := by
  have hmap : (List.range p.tasks.length).map p.task = p.tasks := by
    refine List.ext_getElem (by simp) fun k hk hk' => ?_
    simp [ParFor.task, List.getElem?_eq_getElem hk']
  calc (List.range p.tasks.length).flatMap (fun k => (p.task k).indices)
      = ((List.range p.tasks.length).map p.task).flatMap SimpleTask.indices := by
        rw [List.flatMap_map]
    _ = p.tasks.flatMap SimpleTask.indices := by rw [hmap]
    _ = _ := GssState.tasks_cover h

/-! ## Runs -/

theorem reachable_started {S : LTS.Sys Team (CountedLabel Nat)} :
    LTS.Reachable (p.started S) s ↔ LTS.Reachable S s ∧ TaskIterator.new p.gssState ≠ none := by
  constructor
  · intro h
    induction h with
    | init h => exact ⟨.init h.1, h.2⟩
    | step _ hs ih => exact ⟨ih.1.step hs, ih.2⟩
  · rintro ⟨h, hnew⟩
    induction h with
    | init h => exact .init ⟨h, hnew⟩
    | step _ hs ih => exact ih.step hs

/-- The root's iterator stands at the element that the session says: its buffer
holds that task, and it is at its end when the session's is. -/
theorem root_iterator (hok : p.gssState.Ok) {s : Crew SimpleTask UInt64 Nat}
    (h : Crew.Reachable p.crew s) :
    ∃ iter, TaskIterator.after p.gssState s.session.iter = some iter ∧
      (iter.done = true ↔ s.session.done p.crew.config) ∧
      (¬ s.session.done p.crew.config → iter.buffer = p.task s.session.iter) := by
  have hle : s.session.iter ≤ p.tasks.length := (rangeInv (crewInv p.crew_visits h).reachable).le
  obtain ⟨iter, hafter, hdone, hbuffer⟩ := TaskIterator.iterator_at hok s.session.iter
  refine ⟨iter, hafter, ?_, fun hnot => hbuffer _ ?_⟩
  · rw [hdone]
    exact ⟨fun hge => Nat.le_antisymm hle hge, fun heq => Nat.le_of_eq heq.symm⟩
  · have hlt : s.session.iter < p.tasks.length := Nat.lt_of_le_of_ne hle hnot
    have hget := List.getElem?_eq_getElem hlt
    rw [ParFor.task, List.getD, hget]
    exact hget

/-! ## Every index once -/

theorem Team.serial (hnew : TaskIterator.new p.gssState ≠ none)
    (h : LTS.Reachable (lastDanglesSys p.crew) s) : s.Serial p := by
  have hle := UInt64.le_iff_toNat_le.mp p.range
  obtain ⟨honce, hin, hleft, hall⟩ := Crew.executes p.crew_visits
    (indices_cover (TaskIterator.ok_of_new p.range hnew)) List.nodup_range'
    (Counted.crew_reachable h)
  refine ⟨honce, fun n hn => ?_, hleft, hall⟩
  have hmem := List.mem_range'_1.mp (hin n hn)
  omega

theorem Team.finished_perm (hnew : TaskIterator.new p.gssState ≠ none)
    (h : LTS.Reachable (lastDanglesSys p.crew) s) (hfinished : s.Finished p.crew) :
    (s.crew.ran p.crew).Perm p.indices :=
  (Team.serial hnew h).all (hfinished.left (countedInv h))

end

/-- Parallel for executes the serial index set, in the runs in which only the last thread
of a rank finds the counter gone. In every state that such a run reaches the body ran at
most once for an index, for no index outside the range, and a thread has left the loop only
if nothing is left for its rank; when all threads have left it ran exactly once for each
index of the range. With teams of at most two threads all runs are such runs. -/
theorem parFor_exactly_once (p : ParFor) (s : Team) :
    (LTS.Reachable (p.started (lastDanglesSys p.crew)) s → s.Serial p) ∧
    ((∀ r < p.size, p.threads r ≤ 2) → LTS.Reachable (p.started (countedSys p.crew)) s →
      s.Serial p) := by
  refine ⟨fun h => ?_, fun hp h => ?_⟩
  · obtain ⟨hrun, hnew⟩ := reachable_started.mp h
    exact Team.serial hnew hrun
  · obtain ⟨hrun, hnew⟩ := reachable_started.mp h
    exact Team.serial hnew (lastDangles_of_two hp hrun)

/-- Two ranks with two threads each, and three tasks. -/
def twoTeams : ParFor where
  size := 2
  threads _ := 2
  beginIdx := 0
  endIdx := 3
  grainSize := 1
  size_pos := Nat.two_pos
  threads_pos _ _ := Nat.two_pos
  range := by decide

theorem twoTeams_new : TaskIterator.new twoTeams.gssState ≠ none := by decide

/-- Whoever runs the `omp single` on each rank, the loop can come to its end. -/
theorem twoTeams_finished (owner : Nat → Nat) (h : ∀ r < 2, owner r < 2) :
    ∃ s, LTS.Reachable (countedProbingSys twoTeams.crew) s ∧ s.Finished twoTeams.crew := by
  have h0 : LTS.Reachable (countedProbingSys twoTeams.crew)
      (Counted.initial twoTeams.crew owner) := .init ⟨owner, h, rfl⟩
  obtain ⟨s, hs, hfinished⟩ := Counted.exists_finished twoTeams.crew_visits h0
  exact ⟨s, h0.trans hs, hfinished⟩

theorem parFor_exactly_once_twoTeams :
    ∃ s, LTS.Reachable (twoTeams.started (lastDanglesSys twoTeams.crew)) s ∧
      s.Finished twoTeams.crew ∧ (s.crew.ran twoTeams.crew).Perm [0, 1, 2] := by
  obtain ⟨s, hs, hfinished⟩ := twoTeams_finished (fun r => r) fun r hr => hr
  have hrun := lastDangles_of_ownersLast hs.of_restrict
  have hstarted := reachable_started.mpr ⟨hrun, twoTeams_new⟩
  exact ⟨s, hstarted, hfinished,
    ((parFor_exactly_once twoTeams s).1 hstarted).all (hfinished.left (countedInv hrun))⟩

/-- One rank with three threads, and one task. -/
def threeThreads : ParFor where
  size := 1
  threads _ := 3
  beginIdx := 7
  endIdx := 8
  grainSize := 1
  size_pos := Nat.one_pos
  threads_pos _ _ := Nat.succ_pos 2
  range := by decide

/-- Thread 0 owns the counter, runs the task, counts down and leaves the block. Thread 1
reads 1 where the counter was, and deletes the schedule; thread 2 takes index 100 from it. -/
theorem parFor_strays :
    ∃ s, LTS.Reachable (threeThreads.started (countedSys threeThreads.crew)) s ∧
      100 ∈ s.crew.ran threeThreads.crew ∧ ¬ s.Serial threeThreads := by
  have hfree : ∀ s : Crew SimpleTask UInt64 Nat, (s.thread (0, 0)).pc.critical = false →
      (s.thread (0, 1)).pc.critical = false → (s.thread (0, 2)).pc.critical = false →
      s.Free threeThreads.crew 0 := by
    intro s h0 h1 h2 i hi
    match i, hi with
    | 0, _ => exact h0
    | 1, _ => exact h1
    | 2, _ => exact h2
  have hm : ∀ {i : Nat}, i < 3 → (0, i) ∈ threeThreads.crew.members := fun hi =>
    threeThreads.crew.mem_members.mpr ⟨Nat.one_pos, hi⟩
  have alone : ∀ {s : Team} {t : Session}, s.crew.session.pc ≠ .finished →
      s.crew.session.pc ≠ .singleFinished → s.Deletes threeThreads.crew t := by
    intro s t hne hne' r hr hend _
    rw [Nat.lt_one_iff.mp hr] at hend
    exact (hend.elim hne hne').elim
  have h0 : LTS.Reachable (countedSys threeThreads.crew)
      (Counted.initial threeThreads.crew fun _ => 0) := .init ⟨_, fun _ _ => Nat.succ_pos 2, rfl⟩
  have h1 := h0.step (.crew (.session (.server (.singleRank rfl rfl)) rfl (alone nofun nofun)))
  have h2 := h1.step (.crew (.take (i := 0) (hm (by decide)) rfl (hfree _ rfl rfl rfl)
    (.inr ⟨rfl, by decide⟩) (.serverUse (.single rfl (by decide)))))
  have h3 := h2.step (.crew (.session (.advance (.single rfl)) rfl (alone nofun nofun)))
  have h4 := h3.step (.crew (.session (.server (.singleDone rfl rfl)) rfl (alone nofun nofun)))
  have h5 := h4.step (.crew (.release (i := 0) (hm (by decide)) rfl (.inr (.inr rfl))))
  have h6 := h5.step (.crew (.run (i := 0) (hm (by decide)) rfl rfl))
  have h7 := h6.step (.crew (.endTask (i := 0) (hm (by decide)) rfl rfl))
  have h8 := h7.step (.crew (.leave (i := 0) (hm (by decide)) rfl (hfree _ rfl rfl rfl)
    (.inr rfl)))
  have h9 := h8.step (.countDown (i := 0) (hm (by decide)) rfl rfl fun _ => rfl)
  have h10 := h9.step (.leave (i := 0) (hm (by decide)) rfl)
  have h11 := h10.step (.crew (.leave (i := 1) (hm (by decide)) rfl (hfree _ rfl rfl rfl)
    (.inr rfl)))
  have h12 := h11.step (.countDown (i := 1) (v := 1) (hm (by decide)) rfl rfl
    fun hin => absurd rfl hin)
  have h13 := h12.step (.stray (i := 2) (x := ⟨100, 101⟩) (hm (by decide)) rfl
    (hfree _ rfl rfl rfl) Nat.one_pos)
  have h14 := h13.step (.crew (.run (i := 2) (hm (by decide)) rfl rfl))
  have hnew : TaskIterator.new threeThreads.gssState ≠ none := by decide
  have hstray : ∀ {s : Team}, (s.crew.thread (0, 2)).ran = [100] →
      100 ∈ s.crew.ran threeThreads.crew ∧ ¬ s.Serial threeThreads := by
    intro s hran
    have hmem : 100 ∈ s.crew.ran threeThreads.crew :=
      List.mem_flatMap.mpr ⟨(0, 2), hm (by decide), hran ▸ List.mem_singleton_self 100⟩
    exact ⟨hmem, fun hserial => absurd (hserial.inRange 100 hmem).2 (by decide)⟩
  exact ⟨_, reachable_started.mpr ⟨h14, hnew⟩, hstray rfl⟩

/-! ## The end of the loop -/

/-- Wherever the loop is, in the runs in which the owners leave last it can be brought to
its end: all threads leave the block, each schedule is deleted once, and the body has run
once for each index. -/
theorem parFor_completes (p : ParFor) (s : Team)
    (h : LTS.Reachable (p.started (countedProbingSys p.crew)) s) :
    ∃ t, LTS.Reachable ((countedProbingSys p.crew).startingAt s) t ∧ t.Finished p.crew ∧
      (t.crew.ran p.crew).Perm p.indices := by
  obtain ⟨hrun, hnew⟩ := reachable_started.mp h
  obtain ⟨t, ht, hfinished⟩ := Counted.exists_finished p.crew_visits hrun
  refine ⟨t, ht, hfinished, Team.finished_perm hnew ?_ hfinished⟩
  exact lastDangles_of_ownersLast (hrun.trans ht).of_restrict

theorem parFor_completes_twoTeams :
    ∃ t, LTS.Reachable ((countedProbingSys twoTeams.crew).startingAt
      (Counted.initial twoTeams.crew fun r => r)) t ∧
      t.Finished twoTeams.crew ∧ (t.crew.ran twoTeams.crew).Perm [0, 1, 2] :=
  parFor_completes twoTeams _ (.init ⟨⟨_, fun _ hr => hr, rfl⟩, twoTeams_new⟩)

end SimpleParallel.Schedule
