import SimpleParallel.Lib.Generator
import SimpleParallel.Schedule.GssTiling

/-!
# How many tasks a guided loop has

Each task of a loop costs the scheduler a message, so their number matters. It is
logarithmic in the length of the range, and no task but the last is below the grain.

* `gss_task_count`: the tasks of the C generator, for every range of 64 bits.
-/

namespace SimpleParallel.Schedule

open Cut

/-- The C generator over `begin .. end` ends, after at most as many tasks for each halving of
the range as there are threads on all ranks. No task is empty, and all but the last have the
grain, so that the number of tasks is also bounded by the range over the grain. -/
theorem gss_task_count {beginIdx endIdx grainSize allRankProcessCount : UInt64}
    (hle : beginIdx ≤ endIdx) (hcount : 1 ≤ allRankProcessCount) :
    ∃ tasks, Yields gssGenerator ⟨beginIdx, endIdx, grainSize, allRankProcessCount⟩ tasks ∧
      tasks.length ≤ allRankProcessCount.toNat * ((endIdx - beginIdx).toNat.log2 + 1) ∧
      (∀ task ∈ tasks, 0 < task.size) ∧ (∀ task ∈ tasks.dropLast, grainSize.toNat ≤ task.size) ∧
      grainSize.toNat * (tasks.length - 1) ≤ (endIdx - beginIdx).toNat := by
  have hpos : 0 < allRankProcessCount.toNat := UInt64.le_iff_toNat_le.mp hcount
  have hne : allRankProcessCount ≠ 0 := fun h => absurd hpos (by rw [h]; exact Nat.lt_irrefl 0)
  let gss : GssState := ⟨beginIdx, endIdx, grainSize, allRankProcessCount⟩
  have hok : gss.Ok := ⟨hle, fun _ => hne⟩
  have hlen : gss.tasks.length =
      ((guided grainSize.toNat allRankProcessCount.toNat).spans beginIdx.toNat
        (endIdx - beginIdx).toNat).length := by
    rw [← List.length_map (f := SimpleTask.span), GssState.tasks_spans hok hne]
    rfl
  refine ⟨gss.tasks, GssState.yields_tasks hne, ?_, fun task htask => ?_,
    fun task htask => GssState.grain_le_size hok hne htask, ?_⟩
  · rw [hlen]
    exact length_guided_le hpos _ _
  · obtain ⟨-, hleft, hsize⟩ := GssState.mem_tasks hok hne htask
    rw [hsize]
    exact gss.cut.pos hleft
  · rw [hlen]
    exact mul_length_guided_le _ _

/-- A range of almost `2 ^ 60` indices for 80 threads. -/
theorem gss_task_count_large : ∃ tasks,
    Yields gssGenerator ⟨7, 1152921504606846975, 1000, 80⟩ tasks ∧ tasks.length ≤ 4800 ∧
      ∀ task ∈ tasks.dropLast, 1000 ≤ task.size := by
  obtain ⟨tasks, hyields, hlen, -, hgrain, -⟩ :=
    @gss_task_count 7 1152921504606846975 1000 80 (by decide) (by decide)
  have hlog : ((1152921504606846975 : UInt64) - 7).toNat.log2 = 59 := by
    rw [Nat.log2_eq_iff (by decide)]
    decide
  rw [hlog] at hlen
  exact ⟨tasks, hyields, hlen, hgrain⟩

end SimpleParallel.Schedule
