import Mathlib.Data.List.GetD
import SimpleParallel.Schedule.CollapseTasks
import SimpleParallel.Schedule.Counted

/-!
# The collapsed parallel loop

`S_P_GSS_UINT64_T_PAR_FOR_COLLAPSE_2` (`c_dynamic_schedule_binding.h`): a counted crew
whose tasks are those of `s_p_collapse_2_gss_generator`, and whose loop goes from the first
point of a task to its last with `gen_func`.

Results:
* `collapseFor_exactly_once`: over all threads of all ranks the bodies run for each point
  of the space at most once, exactly once when all threads have left, and no thread finds
  the schedule deleted, as long as only the last thread of a rank finds the counter gone.
* `collapseFor_completes`: from every state the loop can be brought to its end, if the
  owners leave last.
-/

namespace SimpleParallel.Schedule

/-! ## The loop -/

/-- `s_p_new_collapse_2_gss_state` after its `all_reduce`: every rank counts each of its
threads forty times. -/
def allRankProcessCount (size : Nat) (threads : Nat → Nat) : UInt64 :=
  (List.range size).foldl (fun count r => count + UInt64.ofNat (threads r) * 40) 0

/-- What the ranks pass to the macro: the number of threads of each team, and a space
that `gen_func` enumerates. The generator comes to its end; a division by zero ends the
program. -/
structure CollapseFor where
  size : Nat
  threads : Nat → Nat
  ijBegin : IjPoint
  finalEnd : IjPoint
  grainSize : UInt64
  allIndexCount : UInt64
  genFunc : GenFunc
  ndebug : Bool
  points : Nat → IjPoint
  tasks : List Collapse2Task
  size_pos : 0 < size
  threads_pos : ∀ r < size, 0 < threads r
  space : Enumerates genFunc finalEnd points allIndexCount.toNat
  begins : ijBegin = points 0
  yields : Yields (collapse2GssGenerator ndebug) (newCollapse2GssState ijBegin finalEnd grainSize
    allIndexCount genFunc (allRankProcessCount size threads)) tasks

namespace CollapseFor

/-- The session over the tasks, and the loop over a task. -/
def crew (p : CollapseFor) : CrewConfig Collapse2Task IjPoint IjPoint where
  config := ⟨p.size, p.threads, p.tasks.length, p.size_pos⟩
  threads := p.threads
  task k := p.tasks.getD k ⟨p.finalEnd, p.finalEnd⟩
  start task := task.ijBegin
  turn task := loopStep p.genFunc p.finalEnd task.ijEnd
  threads_pos := p.threads_pos

variable (p : CollapseFor)

def state : Collapse2GssState :=
  newCollapse2GssState p.ijBegin p.finalEnd p.grainSize p.allIndexCount p.genFunc
    (allRankProcessCount p.size p.threads)

/-- What the tasks cover, by number of the points. -/
def spans : List (Nat × Nat) := p.state.cut.spans 0 p.allIndexCount.toNat

/-- The generator follows the rule. -/
theorem tasks_eq : p.tasks = p.spans.map (Collapse2GssState.taskOf p.points) := by
  have hspace : Enumerates p.state.genFunc p.state.finalEnd p.points p.state.remainingIndex.toNat :=
    p.space
  have hstart : p.state.atPoint p.points 0 = p.state := Collapse2GssState.atPoint_zero p.begins
  refine Yields.unique p.yields ?_
  by_cases hcount : p.state.allRankProcessCount = 0
  · -- then the first call has nothing to divide
    have hzero : p.allIndexCount.toNat = 0 := by
      by_contra hne
      have hinner : ¬ p.state.current.i = p.state.finalEnd.i := by
        rw [show p.state.current = p.points 0 from p.begins]
        exact p.space.inner 0 (Nat.pos_of_ne_zero hne)
      have hcall : collapse2GssGenerator p.ndebug p.state = none := by
        rw [collapse2GssGenerator, if_neg hinner, if_pos hcount]
      exact p.yields.returns hcall
    have hlast : collapse2GssGenerator p.ndebug _ = _ := Collapse2GssState.generator_last hspace
    rw [show p.state.remainingIndex.toNat = 0 from hzero, hstart] at hlast
    rw [spans, hzero, Cut.spans_zero]
    exact .done hlast
  · have hyields : Yields (collapse2GssGenerator p.ndebug) (p.state.atPoint p.points 0) _ :=
      Collapse2GssState.yields_spans hspace hcount 0 _ (Nat.zero_add _)
    rwa [hstart] at hyields

/-- The points of the task with index `k`. -/
def visits (k : Nat) : List IjPoint :=
  Collapse2GssState.pointsOf p.points (p.spans.getD k (0, 0))

theorem crew_visits : p.crew.Visits p.visits := by
  intro k hk
  have hk' : k < p.spans.length := by
    rwa [show p.crew.config.n = p.tasks.length from rfl, p.tasks_eq, List.length_map] at hk
  have htask : p.crew.task k = Collapse2GssState.taskOf p.points (p.spans[k]) := by
    show p.tasks.getD k _ = _
    rw [p.tasks_eq, List.getD_eq_getElem _ _ (by rwa [List.length_map]), List.getElem_map]
  obtain ⟨-, hlt, hhi, -⟩ := Cut.mem_spans (List.getElem_mem hk')
  rw [Nat.zero_add] at hhi
  have hspace : Enumerates p.state.genFunc p.state.finalEnd p.points p.state.remainingIndex.toNat :=
    p.space
  rw [htask, visits, List.getD_eq_getElem _ _ hk']
  exact Collapse2GssState.loop_visits hspace (Nat.le_of_lt hlt) hhi

/-- The tasks end to end are the space. -/
theorem visits_cover : (List.range p.crew.config.n).flatMap p.visits =
    (List.range p.allIndexCount.toNat).map p.points := by
  have hn : p.crew.config.n = p.spans.length := by
    show p.tasks.length = _
    rw [p.tasks_eq, List.length_map]
  have hmap : (List.range p.spans.length).map (fun k => p.spans.getD k (0, 0)) = p.spans :=
    List.ext_getElem (by simp) fun k hk hk' => by simp [List.getElem?_eq_getElem hk']
  calc (List.range p.crew.config.n).flatMap p.visits
      = ((List.range p.spans.length).map fun k => p.spans.getD k (0, 0)).flatMap
          (Collapse2GssState.pointsOf p.points) := by rw [hn, List.flatMap_map]; rfl
    _ = p.spans.flatMap (Collapse2GssState.pointsOf p.points) := by rw [hmap]
    _ = (p.spans.flatMap fun span => List.range' span.1 (span.2 - span.1)).map p.points := by
        rw [List.map_flatMap]
        rfl
    _ = _ := by rw [spans, Cut.flatMap_spans, List.range_eq_range']

theorem points_nodup : ((List.range p.allIndexCount.toNat).map p.points).Nodup :=
  List.Nodup.map_on (fun k hk l hl heq => p.space.injective k l
    (Nat.le_of_lt (List.mem_range.mp hk)) (Nat.le_of_lt (List.mem_range.mp hl)) heq)
    List.nodup_range

end CollapseFor

/-- The collapsed loop visits its space, in the runs in which only the last thread of a rank
finds the counter gone. In every state that such a run reaches the body ran at most once
for a point, for no point outside the space; a thread has left the loop only if nothing is
left for its rank, and in the loop it finds the schedule alive, which is deleted at most
once. When all have left, the body ran exactly once for each point. -/
theorem collapseFor_exactly_once (p : CollapseFor) (s : Counted Collapse2Task IjPoint IjPoint)
    (h : LTS.Reachable (lastDanglesSys p.crew) s) :
    (s.crew.ran p.crew).Nodup ∧
    (∀ ij ∈ s.crew.ran p.crew, ∃ k < p.allIndexCount.toNat, ij = p.points k) ∧
    (∀ m ∈ p.crew.members, (s.crew.thread m).pc = .left →
      s.crew.session.NoneLeft p.crew.config m.1) ∧
    (∀ m ∈ p.crew.members, (s.crew.thread m).pc ≠ .left →
      s.deleted m.1 = 0 ∧ ¬ s.crew.session.deleted m.1) ∧
    (∀ r, s.deleted r ≤ 1) ∧
    (s.crew.AllLeft p.crew → (s.crew.ran p.crew).Perm
      ((List.range p.allIndexCount.toNat).map p.points)) := by
  have hcounted := countedInv h
  have hcrew := Counted.crew_reachable h
  obtain ⟨honce, hin, hleft, hall⟩ :=
    Crew.executes p.crew_visits p.visits_cover p.points_nodup hcrew
  refine ⟨honce, fun ij hij => ?_, hleft, fun m hm hloop => ⟨?_, fun hdel => ?_⟩, hcounted.once,
    hall⟩
  · obtain ⟨k, hk, rfl⟩ := List.mem_map.mp (hin ij hij)
    exact ⟨k, List.mem_range.mp hk, rfl⟩
  · by_contra hne
    exact hloop (hcounted.left_of_deleted (Nat.pos_of_ne_zero hne) hm)
  · exact hloop ((crewInv p.crew_visits hcrew).alive m.1 m.2 hm hdel)

/-- Two ranks with two threads each run a triangle of three points, each a task. -/
def threePoints : CollapseFor where
  size := 2
  threads _ := 2
  ijBegin := ⟨0, 0⟩
  finalEnd := ⟨2, 2⟩
  grainSize := 1
  allIndexCount := 3
  genFunc := myGenFunc
  ndebug := false
  points := trianglePoint 2
  tasks := [⟨⟨0, 0⟩, ⟨1, 0⟩⟩, ⟨⟨1, 0⟩, ⟨1, 1⟩⟩, ⟨⟨1, 1⟩, ⟨2, 2⟩⟩]
  size_pos := Nat.two_pos
  threads_pos _ _ := Nat.two_pos
  space := triangle_enumerates ⟨2, 2⟩
  begins := by decide
  yields := .more rfl (.more rfl (.more rfl (.done rfl)))

theorem threePoints_start : LTS.Reachable (countedProbingSys threePoints.crew)
    (Counted.initial threePoints.crew fun r => r) := .init ⟨_, fun _ hr => hr, rfl⟩

theorem collapseFor_exactly_once_threePoints :
    ∃ s, LTS.Reachable (lastDanglesSys threePoints.crew) s ∧ s.Finished threePoints.crew ∧
      (s.crew.ran threePoints.crew).Perm [⟨0, 0⟩, ⟨1, 0⟩, ⟨1, 1⟩] := by
  obtain ⟨s, hs, hfinished⟩ := Counted.exists_finished threePoints.crew_visits threePoints_start
  have hrun := lastDangles_of_ownersLast (threePoints_start.trans hs).of_restrict
  obtain ⟨-, -, -, -, -, hall⟩ := collapseFor_exactly_once threePoints s hrun
  exact ⟨s, hrun, hfinished, hall (hfinished.left (countedInv hrun))⟩

/-- Wherever the loop is, in the runs in which the owners leave last it can be brought to
its end: all threads leave the block, each schedule is deleted once, and the body has run
once for each point. -/
theorem collapseFor_completes (p : CollapseFor) (s : Counted Collapse2Task IjPoint IjPoint)
    (h : LTS.Reachable (countedProbingSys p.crew) s) :
    ∃ t, LTS.Reachable ((countedProbingSys p.crew).startingAt s) t ∧ t.Finished p.crew ∧
      (t.crew.ran p.crew).Perm ((List.range p.allIndexCount.toNat).map p.points) := by
  obtain ⟨t, ht, hfinished⟩ := Counted.exists_finished p.crew_visits h
  have hrun := lastDangles_of_ownersLast (h.trans ht).of_restrict
  refine ⟨t, ht, hfinished, ?_⟩
  rw [← p.visits_cover]
  exact Crew.ran_perm p.crew_visits (Counted.crew_reachable hrun)
    (hfinished.left (countedInv hrun))

theorem collapseFor_completes_threePoints :
    ∃ t, LTS.Reachable ((countedProbingSys threePoints.crew).startingAt
      (Counted.initial threePoints.crew fun r => r)) t ∧ t.Finished threePoints.crew ∧
      (t.crew.ran threePoints.crew).Perm [⟨0, 0⟩, ⟨1, 0⟩, ⟨1, 1⟩] :=
  collapseFor_completes threePoints _ threePoints_start

end SimpleParallel.Schedule
