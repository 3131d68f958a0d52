import Mathlib.Data.List.Basic
import Mathlib.Data.List.Range

/-!
# The guided generator

`s_p_gss_generator` (`c_dynamic_schedule_binding.cc`) cuts `[begin, end)` into
tasks: each is a share of what is left, at least `grain_size` and at most all of
it. `TaskIterator` is the iterator over a C generator, which keeps the task in
its own buffer.

* All numbers are `uint64_t` with its wrap-around. A division by zero ends the
  program: the generator then returns nothing (`none`).
* `GssState.tasks` lists what the generator hands out. `tasks_cover`: the tasks
  laid end to end are the indices of the range, each once and in order.
* `iterator_at`: after `k` increments `*m_iter` is task `k`, and the iterator is
  at its end exactly when all tasks were handed out.
-/

namespace SimpleParallel.Schedule

/-- `s_p_simple_task`: the indices from `beginIdx` up to `endIdx`. -/
structure SimpleTask where
  beginIdx : UInt64
  endIdx : UInt64
  deriving DecidableEq

/-- `s_p_gss_state_t`. -/
structure GssState where
  current : UInt64
  endIdx : UInt64
  grainSize : UInt64
  allRankProcessCount : UInt64
  deriving DecidableEq

/-- `s_p_gss_generator`: the next state, and the task unless the range is used
up. -/
def gssGenerator (gss : GssState) : Option (GssState × Option SimpleTask) :=
  let remaining := gss.endIdx - gss.current
  if remaining = 0 then
    some (gss, none)
  else if gss.allRankProcessCount = 0 then
    none
  else
    let next := (remaining - 1) / gss.allRankProcessCount + 1
    let next := max next gss.grainSize
    let next := min next remaining
    some ({ gss with current := gss.current + next }, some ⟨gss.current, gss.current + next⟩)

/-- `c_task_generator::iterator`. -/
structure TaskIterator where
  buffer : SimpleTask
  state : GssState
  done : Bool
  deriving DecidableEq

namespace TaskIterator

/-- `done = m_task_gen_func(m_state, &m_buffer)`. The generator leaves the
buffer alone when it has no task. -/
def call (buffer : SimpleTask) (state : GssState) : Option TaskIterator :=
  match gssGenerator state with
  | none => none
  | some (state, none) => some ⟨buffer, state, true⟩
  | some (state, some task) => some ⟨task, state, false⟩

/-- The constructor, with a zeroed buffer. -/
def new (state : GssState) : Option TaskIterator := call ⟨0, 0⟩ state

/-- `operator++`. -/
def next (iter : TaskIterator) : Option TaskIterator := call iter.buffer iter.state

/-- The iterator after its constructor and `k` increments. -/
def after (state : GssState) : Nat → Option TaskIterator
  | 0 => new state
  | k + 1 => (after state k).bind next

end TaskIterator

namespace GssState

/-- What the generator hands out, at most `fuel` tasks. -/
def draw : Nat → GssState → List SimpleTask
  | 0, _ => []
  | fuel + 1, gss =>
    match gssGenerator gss with
    | some (gss', some task) => task :: draw fuel gss'
    | _ => []

/-- What is left of the range. -/
def remaining (gss : GssState) : Nat := (gss.endIdx - gss.current).toNat

/-- All that the generator hands out; a task takes one index at least. -/
def tasks (gss : GssState) : List SimpleTask := gss.draw gss.remaining

/-- A loop that has not run past its end, and can divide if it has to. -/
structure Ok (gss : GssState) : Prop where
  le : gss.current ≤ gss.endIdx
  count : gss.current ≠ gss.endIdx → gss.allRankProcessCount ≠ 0

end GssState

/-- The numbers of a task, as the loop runs through them. -/
def SimpleTask.indices (task : SimpleTask) : List Nat :=
  List.range' task.beginIdx.toNat (task.endIdx.toNat - task.beginIdx.toNat)

/-! ## One call -/

theorem toNat_max (a b : UInt64) : (max a b).toNat = max a.toNat b.toNat := by
  show (if a ≤ b then b else a).toNat = _
  split
  · next h => rw [Nat.max_eq_right (UInt64.le_iff_toNat_le.mp h)]
  · next h => rw [Nat.max_eq_left (Nat.le_of_not_le fun h' => h (UInt64.le_iff_toNat_le.mpr h'))]

theorem toNat_min (a b : UInt64) : (min a b).toNat = min a.toNat b.toNat := by
  show (if a ≤ b then a else b).toNat = _
  split
  · next h => rw [Nat.min_eq_left (UInt64.le_iff_toNat_le.mp h)]
  · next h => rw [Nat.min_eq_right (Nat.le_of_not_le fun h' => h (UInt64.le_iff_toNat_le.mpr h'))]

theorem toNat_pos {r : UInt64} (h : r ≠ 0) : 0 < r.toNat :=
  Nat.pos_of_ne_zero fun hz => h (UInt64.toNat_inj.mp hz)

/-- A share of something is something: the sum does not wrap. -/
theorem share_pos {r c : UInt64} (hr : r ≠ 0) : 0 < ((r - 1) / c + 1).toNat := by
  have hpos := toNat_pos hr
  have hpred : (r - 1).toNat = r.toNat - 1 :=
    UInt64.toNat_sub_of_le _ _ (UInt64.le_iff_toNat_le.mpr hpos)
  have hdiv : ((r - 1) / c).toNat ≤ r.toNat - 1 := by
    rw [UInt64.toNat_div, hpred]
    exact Nat.div_le_self _ _
  have hlt := r.toNat_lt
  rw [UInt64.toNat_add, UInt64.toNat_one, Nat.mod_eq_of_lt (by omega)]
  exact Nat.succ_pos _

namespace GssState

variable {gss : GssState}

theorem Ok.remaining_eq (h : gss.Ok) :
    gss.remaining = gss.endIdx.toNat - gss.current.toNat :=
  UInt64.toNat_sub_of_le _ _ h.le

theorem remaining_eq_zero : gss.remaining = 0 ↔ gss.endIdx - gss.current = 0 :=
  ⟨fun h => UInt64.toNat_inj.mp h, fun h => by rw [remaining, h]; rfl⟩

end GssState

/-- What a call hands out: nothing when the range is used up, else a task that
begins where the last one ended and leaves less. -/
theorem gssGenerator_cases {gss : GssState} (h : gss.Ok) :
    (gss.remaining = 0 ∧ gssGenerator gss = some (gss, none)) ∨
    ∃ gss', gssGenerator gss = some (gss', some ⟨gss.current, gss'.current⟩) ∧ gss'.Ok ∧
      gss'.endIdx = gss.endIdx ∧ gss.current.toNat < gss'.current.toNat := by
  unfold gssGenerator
  by_cases hz : gss.endIdx - gss.current = 0
  · exact .inl ⟨GssState.remaining_eq_zero.mpr hz, by rw [if_pos hz]⟩
  · refine .inr ?_
    have hcount := h.count fun heq => hz (by rw [heq, UInt64.sub_self])
    simp only [if_neg hz, if_neg hcount]
    generalize hnext : min (max ((gss.endIdx - gss.current - 1) / gss.allRankProcessCount + 1)
      gss.grainSize) (gss.endIdx - gss.current) = next
    have hrem := h.remaining_eq
    unfold GssState.remaining at hrem
    have hshare : 0 < _ := share_pos (c := gss.allRankProcessCount) hz
    have hpos := toNat_pos hz
    have htoNat := congrArg UInt64.toNat hnext
    rw [toNat_min, toNat_max] at htoNat
    have hle := UInt64.le_iff_toNat_le.mp h.le
    have hend := gss.endIdx.toNat_lt
    have hadd : (gss.current + next).toNat = gss.current.toNat + next.toNat := by
      rw [UInt64.toNat_add, Nat.mod_eq_of_lt (by omega)]
    refine ⟨_, rfl, ⟨?_, fun _ => hcount⟩, rfl, ?_⟩
    · rw [UInt64.le_iff_toNat_le]
      show (gss.current + next).toNat ≤ gss.endIdx.toNat
      omega
    · rw [hadd]
      omega

/-! ## All tasks -/

namespace GssState

variable {gss : GssState}

/-- More fuel than indices does not matter. -/
theorem draw_eq {fuel fuel' : Nat} (h : gss.Ok) (hf : gss.remaining ≤ fuel)
    (hf' : gss.remaining ≤ fuel') : gss.draw fuel = gss.draw fuel' := by
  induction fuel generalizing gss fuel' with
  | zero =>
    cases fuel' with
    | zero => rfl
    | succ fuel' =>
      rcases gssGenerator_cases h with ⟨-, hcall⟩ | ⟨gss', -, hok, hend, hlt⟩
      · simp only [draw, hcall]
      · have := h.remaining_eq
        have := UInt64.le_iff_toNat_le.mp hok.le
        rw [hend] at this
        omega
  | succ fuel ih =>
    rcases gssGenerator_cases h with ⟨-, hcall⟩ | ⟨gss', hcall, hok, hend, hlt⟩
    · cases fuel' <;> simp only [draw, hcall]
    · have hrem := h.remaining_eq
      have hrem' := hok.remaining_eq
      have hle := UInt64.le_iff_toNat_le.mp hok.le
      rw [hend] at hrem' hle
      cases fuel' with
      | zero => omega
      | succ fuel' =>
        simp only [draw, hcall]
        rw [ih hok (by omega) (by omega : gss'.remaining ≤ fuel')]

/-- The first task, and those of the state it leaves. -/
theorem tasks_cases (h : gss.Ok) :
    (gss.remaining = 0 ∧ gssGenerator gss = some (gss, none) ∧ gss.tasks = []) ∨
    ∃ gss', gssGenerator gss = some (gss', some ⟨gss.current, gss'.current⟩) ∧ gss'.Ok ∧
      gss'.endIdx = gss.endIdx ∧ gss.current.toNat < gss'.current.toNat ∧
      gss.tasks = ⟨gss.current, gss'.current⟩ :: gss'.tasks := by
  rcases gssGenerator_cases h with ⟨hz, hcall⟩ | ⟨gss', hcall, hok, hend, hlt⟩
  · exact .inl ⟨hz, hcall, by rw [tasks, hz]; rfl⟩
  · refine .inr ⟨gss', hcall, hok, hend, hlt, ?_⟩
    have hrem := h.remaining_eq
    have hrem' := hok.remaining_eq
    have hle := UInt64.le_iff_toNat_le.mp hok.le
    rw [hend] at hrem' hle
    obtain ⟨fuel, hfuel⟩ := Nat.exists_eq_succ_of_ne_zero (n := gss.remaining) (by omega)
    rw [tasks, hfuel]
    simp only [draw, hcall]
    rw [draw_eq hok (by omega) (Nat.le_refl gss'.remaining)]
    rfl

/-- The tasks end to end are the range. -/
theorem tasks_cover (h : gss.Ok) : gss.tasks.flatMap SimpleTask.indices =
    List.range' gss.current.toNat (gss.endIdx.toNat - gss.current.toNat) := by
  induction hn : gss.remaining using Nat.strong_induction_on generalizing gss with
  | _ n ih =>
    have hrem := h.remaining_eq
    rcases tasks_cases h with ⟨hz, -, htasks⟩ | ⟨gss', -, hok, hend, hlt, htasks⟩
    · rw [htasks, ← hrem, hz]
      rfl
    · have hrem' := hok.remaining_eq
      have hle := UInt64.le_iff_toNat_le.mp hok.le
      rw [hend] at hrem' hle
      have hstart : gss'.current.toNat =
          gss.current.toNat + 1 * (gss'.current.toNat - gss.current.toNat) := by omega
      rw [htasks, List.flatMap_cons, ih gss'.remaining (by omega) hok rfl, hend]
      show List.range' gss.current.toNat (gss'.current.toNat - gss.current.toNat) ++ _ = _
      nth_rewrite 2 [hstart]
      rw [List.range'_append]
      congr 1
      omega

end GssState

/-! ## The iterator over the tasks -/

namespace TaskIterator

variable {gss : GssState}

/-- The iterator, with the tasks that are still to come: the current one is in
the buffer. -/
structure Holds (iter : TaskIterator) (rest : List SimpleTask) : Prop where
  ok : iter.state.Ok
  tasks : (iter.done = false ∧ rest = iter.buffer :: iter.state.tasks) ∨
    (iter.done = true ∧ rest = [] ∧ iter.state.tasks = [])

theorem call_holds (h : gss.Ok) (buffer : SimpleTask) :
    ∃ iter, call buffer gss = some iter ∧ iter.Holds gss.tasks := by
  unfold call
  rcases GssState.tasks_cases h with ⟨-, hcall, htasks⟩ | ⟨gss', hcall, hok, -, -, htasks⟩
  · rw [hcall]
    exact ⟨_, rfl, h, .inr ⟨rfl, htasks, htasks⟩⟩
  · rw [hcall]
    exact ⟨_, rfl, hok, .inl ⟨rfl, htasks⟩⟩

theorem Holds.next {iter : TaskIterator} {rest : List SimpleTask} (h : iter.Holds rest) :
    ∃ iter', iter.next = some iter' ∧ iter'.Holds rest.tail := by
  obtain ⟨iter', hcall, hholds⟩ := call_holds h.ok iter.buffer
  refine ⟨iter', hcall, ?_⟩
  rcases h.tasks with ⟨-, hrest⟩ | ⟨-, hrest, htasks⟩
  · rwa [hrest]
  · rw [hrest]
    rwa [htasks] at hholds

/-- After `k` increments the tasks from `k` on are still to come. -/
theorem after_holds (h : gss.Ok) (k : Nat) :
    ∃ iter, after gss k = some iter ∧ iter.Holds (gss.tasks.drop k) := by
  induction k with
  | zero => exact call_holds h _
  | succ k ih =>
    obtain ⟨iter, hafter, hholds⟩ := ih
    obtain ⟨iter', hnext, hholds'⟩ := hholds.next
    refine ⟨iter', by rw [after, hafter]; exact hnext, ?_⟩
    rwa [← List.tail_drop]

/-- The iterator enumerates the tasks: after `k` increments `*m_iter` is task
`k`, and `m_iter == m_end` exactly if there is no such task. -/
theorem iterator_at (h : gss.Ok) (k : Nat) : ∃ iter, after gss k = some iter ∧
    (iter.done = true ↔ gss.tasks.length ≤ k) ∧
    ∀ task, gss.tasks[k]? = some task → iter.buffer = task := by
  obtain ⟨iter, hafter, hholds⟩ := after_holds h k
  refine ⟨iter, hafter, ?_, fun task htask => ?_⟩
  · rw [← List.drop_eq_nil_iff]
    rcases hholds.tasks with ⟨hd, hrest⟩ | ⟨hd, hrest, -⟩
    · simp [hd, hrest]
    · simp [hd, hrest]
  · rw [← List.head?_drop] at htask
    rcases hholds.tasks with ⟨-, hrest⟩ | ⟨-, hrest, -⟩
    · rw [hrest] at htask
      exact Option.some.inj htask
    · rw [hrest] at htask
      cases htask

/-- A division by zero in the constructor is the only way to fail. -/
theorem new_eq_none_iff : new gss = none ↔
    gss.current ≠ gss.endIdx ∧ gss.allRankProcessCount = 0 := by
  have hsub : gss.endIdx - gss.current = 0 ↔ gss.current = gss.endIdx := by
    rw [UInt64.sub_eq_iff_eq_add, UInt64.zero_add, eq_comm]
  unfold new call gssGenerator
  by_cases hz : gss.endIdx - gss.current = 0
  · simp [hsub.mp hz]
  · by_cases hc : gss.allRankProcessCount = 0
    · simpa [hz, hc] using fun heq => hz (hsub.mpr heq)
    · simp [hz, hc]

theorem ok_of_new (hle : gss.current ≤ gss.endIdx) (h : new gss ≠ none) : gss.Ok :=
  ⟨hle, fun hne hc => h (new_eq_none_iff.mpr ⟨hne, hc⟩)⟩

end TaskIterator

end SimpleParallel.Schedule
