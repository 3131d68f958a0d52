import SimpleParallel.Lib.Spans
import SimpleParallel.Lib.Generator
import SimpleParallel.Lib.Checked
import SimpleParallel.Schedule.Gss

/-!
# How the guided generator tiles its range

`gssGenerator` follows the rule `Cut.guided`: `gssGenerator_step` says what one call
does in any state, `tasks_spans` that the tasks of a loop are the spans of the rule.
`gss_tiles` is what follows for a loop `begin .. end`, call by call.
-/

namespace SimpleParallel.Schedule

open SimpleParallel.Cut

/-! ## Calls -/

/-- The numbers of a task, as a span. -/
def SimpleTask.span (task : SimpleTask) : Nat × Nat := (task.beginIdx.toNat, task.endIdx.toNat)

/-- How many numbers a task has. -/
def SimpleTask.size (task : SimpleTask) : Nat := task.endIdx.toNat - task.beginIdx.toNat

namespace GssState

/-- The rule by which the generator cuts. -/
def cut (gss : GssState) : Cut := guided gss.grainSize.toNat gss.allRankProcessCount.toNat

end GssState

/-- `s_p_gss_generator` on operations that give nothing instead of wrapping. -/
def gssGeneratorChecked (gss : GssState) : Option (GssState × Option SimpleTask) := do
  let remaining ← checkedSub gss.endIdx gss.current
  if remaining = 0 then
    return (gss, none)
  else if gss.allRankProcessCount = 0 then
    none
  else
    let pred ← checkedSub remaining 1
    let next ← checkedAdd (pred / gss.allRankProcessCount) 1
    let next := max next gss.grainSize
    let next := min next remaining
    let last ← checkedAdd gss.current next
    return ({ gss with current := last }, some ⟨gss.current, last⟩)

/-! ## One call -/

/-- `((remaining - 1) / all_rank_process_count) + 1` cannot wrap. -/
theorem toNat_share {r c : UInt64} (hr : r ≠ 0) :
    (r - 1).toNat = r.toNat - 1 ∧ ((r - 1) / c).toNat + (1 : UInt64).toNat < UInt64.size ∧
      ((r - 1) / c + 1).toNat = (r.toNat - 1) / c.toNat + 1 := by
  have hpos := toNat_pos hr
  have hpred : (r - 1).toNat = r.toNat - 1 :=
    UInt64.toNat_sub_of_le _ _ (UInt64.le_iff_toNat_le.mpr hpos)
  have hdiv : ((r - 1) / c).toNat = (r.toNat - 1) / c.toNat := by rw [UInt64.toNat_div, hpred]
  have hle : (r.toNat - 1) / c.toNat ≤ r.toNat - 1 := Nat.div_le_self _ _
  have hlt : r.toNat < UInt64.size := r.toNat_lt
  have hsum : ((r - 1) / c).toNat + (1 : UInt64).toNat < UInt64.size := by
    rw [hdiv, UInt64.toNat_one]
    omega
  exact ⟨hpred, hsum, by rw [toNat_add_of_lt hsum, hdiv, UInt64.toNat_one]⟩

/-- The three clamps, as numbers. -/
theorem toNat_next {r c g : UInt64} (hr : r ≠ 0) :
    (min (max ((r - 1) / c + 1) g) r).toNat = (guided g.toNat c.toNat).size r.toNat := by
  rw [toNat_min, toNat_max, (toNat_share hr).2.2]
  rfl

namespace GssState

variable {gss : GssState}

/-- The state after a task of `next` indices. -/
def advance (gss : GssState) (next : UInt64) : GssState :=
  { gss with current := gss.current + next }

@[simp] theorem advance_count (next : UInt64) :
    (gss.advance next).allRankProcessCount = gss.allRankProcessCount := rfl

@[simp] theorem advance_cut (next : UInt64) : (gss.advance next).cut = gss.cut := rfl

theorem remaining_advance {next : UInt64} (h : next.toNat ≤ gss.remaining) :
    (gss.advance next).remaining = gss.remaining - next.toNat := by
  have hsub : gss.endIdx - (gss.current + next) = gss.endIdx - gss.current - next := by
    rw [UInt64.sub_eq_add_neg, UInt64.neg_add, UInt64.sub_eq_add_neg (gss.endIdx - gss.current),
      UInt64.sub_eq_add_neg gss.endIdx, UInt64.sub_eq_add_neg, UInt64.add_assoc]
  show (gss.endIdx - (gss.current + next)).toNat = _
  rw [hsub, UInt64.toNat_sub_of_le _ _ (UInt64.le_iff_toNat_le.mpr h)]
  rfl

end GssState

/-- What a call does in any state that can divide: it reports the end if nothing is
left, else it hands out a task of the size the rule gives. -/
theorem gssGenerator_step {gss : GssState} (hcount : gss.allRankProcessCount ≠ 0) :
    (gss.remaining = 0 ∧ gssGenerator gss = some (gss, none)) ∨
    ∃ next : UInt64, next.toNat = gss.cut.size gss.remaining ∧ 0 < next.toNat ∧
      next.toNat ≤ gss.remaining ∧
      gssGenerator gss = some (gss.advance next, some ⟨gss.current, gss.current + next⟩) := by
  by_cases hz : gss.endIdx - gss.current = 0
  · refine .inl ⟨GssState.remaining_eq_zero.mpr hz, ?_⟩
    unfold gssGenerator
    rw [if_pos hz]
  · refine .inr ⟨_, toNat_next hz, ?_, ?_, ?_⟩
    · rw [toNat_next hz]
      exact (guided _ _).pos (toNat_pos hz)
    · rw [toNat_next hz]
      exact (guided _ _).le _
    · unfold gssGenerator
      simp only [if_neg hz, if_neg hcount]
      rfl

/-- No operation of a call wraps while the loop has not run past its end. -/
theorem gssGeneratorChecked_eq {gss : GssState} (h : gss.Ok) :
    gssGeneratorChecked gss = gssGenerator gss := by
  unfold gssGeneratorChecked gssGenerator
  rw [checkedSub_of_le h.le]
  by_cases hz : gss.endIdx - gss.current = 0
  · simp [hz]
  · have hcount := h.count fun heq => hz (by rw [heq, UInt64.sub_self])
    have hone : (1 : UInt64) ≤ gss.endIdx - gss.current :=
      UInt64.le_iff_toNat_le.mpr (toNat_pos hz)
    have hnext : gss.current.toNat +
        (min (max ((gss.endIdx - gss.current - 1) / gss.allRankProcessCount + 1) gss.grainSize)
          (gss.endIdx - gss.current)).toNat < UInt64.size := by
      have hsub := UInt64.toNat_sub_of_le _ _ h.le
      have hle := UInt64.le_iff_toNat_le.mp h.le
      have hend : gss.endIdx.toNat < UInt64.size := gss.endIdx.toNat_lt
      rw [toNat_min]
      omega
    simp [hz, hcount, checkedSub_of_le hone, checkedAdd_of_lt (toNat_share hz).2.1,
      checkedAdd_of_lt hnext]

/-! ## A whole run -/

namespace GssState

variable {gss : GssState}

/-- With a count to divide by, more fuel than indices does not matter: `tasks` is
all that the generator hands out, wherever it starts. -/
theorem draw_eq_tasks (hcount : gss.allRankProcessCount ≠ 0) {fuel : Nat}
    (hf : gss.remaining ≤ fuel) : gss.draw fuel = gss.tasks := by
  have key : ∀ (fuel fuel' : Nat) (gss : GssState), gss.allRankProcessCount ≠ 0 →
      gss.remaining ≤ fuel → gss.remaining ≤ fuel' → gss.draw fuel = gss.draw fuel' := by
    intro fuel
    induction fuel with
    | zero =>
      intro fuel' gss hcount hf hf'
      rcases gssGenerator_step hcount with ⟨-, hcall⟩ | ⟨next, -, hpos, hle, -⟩
      · cases fuel' <;> simp only [draw, hcall]
      · omega
    | succ fuel ih =>
      intro fuel' gss hcount hf hf'
      rcases gssGenerator_step hcount with ⟨-, hcall⟩ | ⟨next, -, hpos, hle, hcall⟩
      · cases fuel' <;> simp only [draw, hcall]
      · have hrem := remaining_advance hle
        cases fuel' with
        | zero => omega
        | succ fuel' =>
          simp only [draw, hcall]
          rw [ih fuel' (gss.advance next) hcount (by omega) (by omega)]
  exact key fuel gss.remaining gss hcount hf (Nat.le_refl _)

/-- The first task of a run, and those of the state it leaves. -/
theorem tasks_advance (hcount : gss.allRankProcessCount ≠ 0) {next : UInt64}
    (hpos : 0 < next.toNat) (hle : next.toNat ≤ gss.remaining)
    (hcall : gssGenerator gss =
      some (gss.advance next, some ⟨gss.current, gss.current + next⟩)) :
    gss.tasks = ⟨gss.current, gss.current + next⟩ :: (gss.advance next).tasks := by
  have hrem := remaining_advance hle
  obtain ⟨fuel, hfuel⟩ := Nat.exists_eq_succ_of_ne_zero (n := gss.remaining) (by omega)
  rw [tasks, hfuel]
  simp only [draw, hcall]
  rw [draw_eq_tasks (show (gss.advance next).allRankProcessCount ≠ 0 from hcount) (by omega)]

/-- From any state that can divide the generator comes to its end. -/
theorem yields_tasks (hcount : gss.allRankProcessCount ≠ 0) :
    Yields gssGenerator gss gss.tasks := by
  induction hn : gss.remaining using Nat.strong_induction_on generalizing gss with
  | _ n ih =>
    rcases gssGenerator_step hcount with ⟨hz, hcall⟩ | ⟨next, -, hpos, hle, hcall⟩
    · rw [tasks, hz]
      exact .done hcall
    · have hrem := remaining_advance hle
      rw [tasks_advance hcount hpos hle hcall]
      exact .more hcall (ih _ (by omega) hcount rfl)

theorem Ok.advance (h : gss.Ok) (hcount : gss.allRankProcessCount ≠ 0) {next : UInt64}
    (hle : next.toNat ≤ gss.remaining) :
    (gss.advance next).Ok ∧
      (gss.advance next).current.toNat = gss.current.toNat + next.toNat := by
  have hrem := h.remaining_eq
  have hend : gss.endIdx.toNat < UInt64.size := gss.endIdx.toNat_lt
  have hcur := UInt64.le_iff_toNat_le.mp h.le
  have hadd : (gss.current + next).toNat = gss.current.toNat + next.toNat :=
    toNat_add_of_lt (by omega)
  refine ⟨⟨UInt64.le_iff_toNat_le.mpr ?_, fun _ => hcount⟩, hadd⟩
  show (gss.current + next).toNat ≤ gss.endIdx.toNat
  omega

/-- The tasks of a loop are the spans of the rule. -/
theorem tasks_spans (h : gss.Ok) (hcount : gss.allRankProcessCount ≠ 0) :
    gss.tasks.map SimpleTask.span = gss.cut.spans gss.current.toNat gss.remaining := by
  induction hn : gss.remaining using Nat.strong_induction_on generalizing gss with
  | _ n ih =>
    subst hn
    rcases gssGenerator_step hcount with ⟨hz, -⟩ | ⟨next, hnext, hpos, hle, hcall⟩
    · rw [tasks, hz, spans_zero]
      rfl
    · have hrem := remaining_advance hle
      obtain ⟨hok, hcur⟩ := h.advance hcount hle
      have hne : gss.remaining ≠ 0 := by omega
      rw [tasks_advance hcount hpos hle hcall, List.map_cons,
        ih _ (by omega) hok hcount rfl, spans_pos hne, advance_cut, hrem, ← hnext, ← hcur]
      rfl

theorem Ok.add_remaining (h : gss.Ok) : gss.current.toNat + gss.remaining = gss.endIdx.toNat := by
  have hrem := h.remaining_eq
  have hle := UInt64.le_iff_toNat_le.mp h.le
  omega

/-- A task has the size the rule gives for the indices that are left where it
begins. -/
theorem mem_tasks (h : gss.Ok) (hcount : gss.allRankProcessCount ≠ 0) {task : SimpleTask}
    (htask : task ∈ gss.tasks) :
    (gss.endIdx - task.beginIdx).toNat = gss.endIdx.toNat - task.beginIdx.toNat ∧
      0 < (gss.endIdx - task.beginIdx).toNat ∧
      task.size = gss.cut.size (gss.endIdx - task.beginIdx).toNat := by
  have hspan := List.mem_map_of_mem (f := SimpleTask.span) htask
  rw [tasks_spans h hcount] at hspan
  obtain ⟨-, hlt, hhi, hsize⟩ := mem_spans hspan
  rw [h.add_remaining] at hhi hsize
  have hlt' : task.beginIdx.toNat < gss.endIdx.toNat := Nat.lt_of_lt_of_le hlt hhi
  have hsub : (gss.endIdx - task.beginIdx).toNat = gss.endIdx.toNat - task.beginIdx.toNat :=
    UInt64.toNat_sub_of_le _ _ (UInt64.le_iff_toNat_le.mpr (Nat.le_of_lt hlt'))
  exact ⟨hsub, hsub ▸ Nat.sub_pos_of_lt hlt', hsub ▸ hsize⟩

/-- Only the last task takes all that is left. -/
theorem mem_dropLast_tasks (h : gss.Ok) (hcount : gss.allRankProcessCount ≠ 0)
    {task : SimpleTask} (htask : task ∈ gss.tasks.dropLast) :
    task.size < (gss.endIdx - task.beginIdx).toNat := by
  have hspan := List.mem_map_of_mem (f := SimpleTask.span) htask
  rw [List.map_dropLast, tasks_spans h hcount] at hspan
  have hlt := mem_dropLast_spans hspan
  rw [h.add_remaining] at hlt
  obtain ⟨hsub, hpos, -⟩ := mem_tasks h hcount (List.mem_of_mem_dropLast htask)
  change task.endIdx.toNat < _ at hlt
  rw [SimpleTask.size]
  omega

/-- Every other task has the grain. -/
theorem grain_le_size (h : gss.Ok) (hcount : gss.allRankProcessCount ≠ 0) {task : SimpleTask}
    (htask : task ∈ gss.tasks.dropLast) : gss.grainSize.toNat ≤ task.size := by
  have hlt := mem_dropLast_tasks h hcount htask
  obtain ⟨-, -, hsize⟩ := mem_tasks h hcount (List.mem_of_mem_dropLast htask)
  rw [hsize] at hlt ⊢
  exact grain_le_guided hlt

/-- After `k` calls the tasks from `k` on are still to come. -/
theorem afterCalls_tasks (h : gss.Ok) (hcount : gss.allRankProcessCount ≠ 0) (k : Nat) :
    ∃ gss', afterCalls gssGenerator gss k = some gss' ∧ gss'.Ok ∧ gss'.allRankProcessCount ≠ 0 ∧
      gss'.endIdx = gss.endIdx ∧ gss'.tasks = gss.tasks.drop k := by
  induction k with
  | zero => exact ⟨gss, rfl, h, hcount, rfl, rfl⟩
  | succ k ih =>
    obtain ⟨gss', hafter, hok, hcount', hend, htasks⟩ := ih
    rw [← List.tail_drop, ← htasks]
    rcases gssGenerator_step hcount' with ⟨hz, hcall⟩ | ⟨next, -, hpos, hle, hcall⟩
    · refine ⟨gss', afterCalls_succ hafter hcall, hok, hcount', hend, ?_⟩
      rw [tasks, hz]
      rfl
    · refine ⟨gss'.advance next, afterCalls_succ hafter hcall, (hok.advance hcount' hle).1,
        hcount', hend, ?_⟩
      rw [tasks_advance hcount' hpos hle hcall]
      rfl

/-- The call after `k` others hands out task `k`, or reports the end and leaves the
state as it is. -/
theorem call_after (h : gss.Ok) (hcount : gss.allRankProcessCount ≠ 0) (k : Nat) :
    ∃ gss', afterCalls gssGenerator gss k = some gss' ∧ gss'.Ok ∧
      (∀ task, gss.tasks[k]? = some task → gss'.remaining = (gss.endIdx - task.beginIdx).toNat ∧
        ∃ gss'', gssGenerator gss' = some (gss'', some task)) ∧
      (gss.tasks[k]? = none → gssGenerator gss' = some (gss', none)) := by
  obtain ⟨gss', hafter, hok, hcount', hend, htasks⟩ := afterCalls_tasks h hcount k
  refine ⟨gss', hafter, hok, ?_⟩
  rw [← List.head?_drop, ← htasks]
  rcases gssGenerator_step hcount' with ⟨hz, hcall⟩ | ⟨next, -, hpos, hle, hcall⟩
  · rw [tasks, hz]
    exact ⟨fun task htask => (by cases htask), fun _ => hcall⟩
  · rw [tasks_advance hcount' hpos hle hcall]
    refine ⟨fun task htask => ?_, fun hnone => (by cases hnone)⟩
    cases htask
    exact ⟨by rw [← hend]; rfl, _, hcall⟩

end GssState

/-- Guided self-scheduling tiles the range `begin .. end`. -/
theorem gss_tiles {beginIdx endIdx grainSize allRankProcessCount : UInt64}
    (hle : beginIdx ≤ endIdx) (hcount : 1 ≤ allRankProcessCount) :
    ∃ tasks : List SimpleTask,
      tasks.length ≤ (endIdx - beginIdx).toNat ∧
      Tiles beginIdx.toNat endIdx.toNat (tasks.map SimpleTask.span) ∧
      tasks.Pairwise (fun task task' => task'.size ≤ task.size) ∧
      (∀ task ∈ tasks,
        (endIdx - task.beginIdx).toNat ⌈/⌉ allRankProcessCount.toNat ≤ task.size ∧
        task.size ≤ max ((endIdx - task.beginIdx).toNat ⌈/⌉ allRankProcessCount.toNat)
          grainSize.toNat) ∧
      (∀ task ∈ tasks.dropLast, grainSize.toNat ≤ task.size) ∧
      ∀ k, ∃ gss,
        afterCalls gssGenerator ⟨beginIdx, endIdx, grainSize, allRankProcessCount⟩ k = some gss ∧
        gssGeneratorChecked gss = gssGenerator gss ∧
        (∀ task, tasks[k]? = some task → gss.remaining = (endIdx - task.beginIdx).toNat ∧
          ∃ gss', gssGenerator gss = some (gss', some task)) ∧
        (tasks[k]? = none → gssGenerator gss = some (gss, none)) := by
  have hpos : 0 < allRankProcessCount.toNat := UInt64.le_iff_toNat_le.mp hcount
  have hne : allRankProcessCount ≠ 0 := fun h => absurd hpos (by rw [h]; exact Nat.lt_irrefl 0)
  let gss : GssState := ⟨beginIdx, endIdx, grainSize, allRankProcessCount⟩
  have hok : gss.Ok := ⟨hle, fun _ => hne⟩
  have hspans : gss.tasks.map SimpleTask.span = gss.cut.spans beginIdx.toNat gss.remaining :=
    GssState.tasks_spans hok hne
  refine ⟨gss.tasks, ?_, ?_, ?_, fun task htask => ?_,
    fun task htask => GssState.grain_le_size hok hne htask, fun k => ?_⟩
  · have hlen := length_spans_le gss.cut beginIdx.toNat gss.remaining
    rwa [← hspans, List.length_map] at hlen
  · have htiles := spans_tiles gss.cut beginIdx.toNat gss.remaining
    rwa [← hspans, hok.add_remaining] at htiles
  · have hpairwise := spans_pairwise (show Monotone gss.cut.size from guided_mono)
      beginIdx.toNat gss.remaining
    rw [← hspans] at hpairwise
    exact List.pairwise_map.mp hpairwise
  · obtain ⟨-, hleft, hsize⟩ := GssState.mem_tasks hok hne htask
    rw [hsize]
    exact ⟨ceilDiv_le_guided hpos hleft, guided_le hpos hleft⟩
  · obtain ⟨gss', hafter, hok', htask, hnone⟩ := GssState.call_after hok hne k
    exact ⟨gss', hafter, gssGeneratorChecked_eq hok', htask, hnone⟩

/-- Three quarters of the address space for seven threads and a grain of ten. -/
theorem gss_tiles_large : ∃ tasks : List SimpleTask,
    Tiles 5 13835058055282163712 (tasks.map SimpleTask.span) ∧
      ∀ task ∈ tasks.dropLast, 10 ≤ task.size := by
  obtain ⟨tasks, -, htiles, -, -, hgrain, -⟩ :=
    @gss_tiles 5 13835058055282163712 10 7 (by decide) (by decide)
  exact ⟨tasks, htiles, hgrain⟩

end SimpleParallel.Schedule
