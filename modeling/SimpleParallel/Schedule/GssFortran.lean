import SimpleParallel.Lib.Generator
import SimpleParallel.Schedule.GssTiling

/-!
# The guided generator of the Fortran binding

`gss_next` (`fortran_dynamic_schedule_binding.f90`) is a second guided generator: on
`integer(c_int64_t)`, with the last index of a task instead of the one behind it.

* `GssScheduler.yields_spans`: over a range that is not reversed it follows the same
  rule as the C generator, and no operation leaves the 64-bit numbers.
* `gss_agree_iff`: the two generators and the serial loop run through the same
  indices exactly if the range is not reversed or there is one thread. Below its
  begin the C generator sees a range of almost `2 ^ 64` indices.
-/

namespace SimpleParallel.Schedule

open SimpleParallel.Cut

/-- An `integer(c_int64_t)`. A result that is none has no meaning in Fortran. -/
def int64 (x : Int) : Option Int :=
  if -9223372036854775808 ≤ x ∧ x < 9223372036854775808 then some x else none

/-- `gss_scheduler`. -/
structure GssScheduler where
  current : Int
  endIdx : Int
  threadCount : Int
  grainsize : Int
  deriving DecidableEq

/-- The two entries of `optional_buffer%buffer` that are used. -/
structure GssBuffer where
  buffer1 : Int
  buffer2 : Int
  deriving DecidableEq

/-- `gss_next`. A division truncates, and one by zero has no result. -/
def gssNext (self : GssScheduler) : Option (GssScheduler × Option GssBuffer) := do
  let distance ← int64 (self.endIdx - self.current)
  let remaining ← int64 (distance + 1)
  if remaining = 0 then
    return (self, none)
  else if self.threadCount = 0 then
    none
  else
    let pred ← int64 (remaining - 1)
    let share ← int64 (pred.tdiv self.threadCount)
    let nextCount ← int64 (share + 1)
    let nextCount := max nextCount self.grainsize
    let nextCount := min nextCount remaining
    let current ← int64 (self.current + nextCount)
    let last ← int64 (current - 1)
    return ({ self with current := current }, some ⟨self.current, last⟩)

/-- `do i = first, last`. -/
def doLoop (first last : Int) : List Int :=
  (List.range (last - first + 1).toNat).map fun k : Nat => first + k

/-- The loop over a buffer. -/
def GssBuffer.indices (buffer : GssBuffer) : List Int := doLoop buffer.buffer1 buffer.buffer2

/-- The C generator for `first .. last`, which takes the index behind the last. -/
def cSchedule (first last grainSize threadCount : Nat) : GssState :=
  ⟨.ofNat first, .ofNat (last + 1), .ofNat grainSize, .ofNat threadCount⟩

/-- The Fortran generator for `first .. last`. -/
def fortranSchedule (first last grainSize threadCount : Nat) : GssScheduler :=
  ⟨first, last, threadCount, grainSize⟩

/-- Both generators come to their end, and the loops over what they hand out run
through the indices of the serial loop. -/
def GssAgree (first last grainSize threadCount : Nat) : Prop :=
  ∃ tasks buffers,
    Yields gssGenerator (cSchedule first last grainSize threadCount) tasks ∧
    Yields gssNext (fortranSchedule first last grainSize threadCount) buffers ∧
    tasks.flatMap (fun task => task.indices.map Int.ofNat) = doLoop first last ∧
    buffers.flatMap GssBuffer.indices = doLoop first last

/-! ## The Fortran generator -/

theorem int64_of_range {x : Int} (hlo : -9223372036854775808 ≤ x)
    (hhi : x < 9223372036854775808) : int64 x = some x :=
  if_pos ⟨hlo, hhi⟩

/-- One call of `gss_next` in the range of the loops considered here. -/
theorem gssNext_eq {c e p g : Int} (hc : 0 ≤ c) (hc' : c ≤ 4611686018427387904)
    (he : 0 ≤ e) (he' : e < 4611686018427387904) (hp : p ≠ 0) (hg : 1 ≤ g)
    (hne : e - c + 1 ≠ 0) :
    gssNext ⟨c, e, p, g⟩ =
      some (⟨c + min (max ((e - c).tdiv p + 1) g) (e - c + 1), e, p, g⟩,
        some ⟨c, c + min (max ((e - c).tdiv p + 1) g) (e - c + 1) - 1⟩) := by
  have hquot := Int.natAbs_tdiv_le_natAbs (e - c) p
  generalize hshare : (e - c).tdiv p = share at hquot ⊢
  generalize hnext : min (max (share + 1) g) (e - c + 1) = next
  have hdistance : int64 (e - c) = some (e - c) := int64_of_range (by omega) (by omega)
  have hremaining : int64 (e - c + 1) = some (e - c + 1) := int64_of_range (by omega) (by omega)
  have hquotient : int64 share = some share := int64_of_range (by omega) (by omega)
  have hsucc : int64 (share + 1) = some (share + 1) := int64_of_range (by omega) (by omega)
  have hcurrent : int64 (c + next) = some (c + next) := int64_of_range (by omega) (by omega)
  have hlast : int64 (c + next - 1) = some (c + next - 1) := int64_of_range (by omega) (by omega)
  simp [gssNext, hdistance, hremaining, hshare, hquotient, hsucc, hnext, hcurrent, hlast,
    hne, hp]

theorem gssNext_end (e p g : Int) :
    gssNext ⟨e + 1, e, p, g⟩ = some (⟨e + 1, e, p, g⟩, none) := by
  have hdistance : e - (e + 1) = -1 := by omega
  simp [gssNext, hdistance, int64]

/-- A span, with its last number. -/
def GssBuffer.ofSpan (span : Nat × Nat) : GssBuffer := ⟨span.1, span.2 - 1⟩

/-- Over `r` indices from `c` on the Fortran generator follows the rule of the C
one. -/
theorem GssScheduler.yields_spans {p g : Nat} (hp : p ≠ 0) (hg : 1 ≤ g) (c r : Nat) {e : Int}
    (he : 0 ≤ e) (he' : e < 4611686018427387904) (hr : e + 1 = c + r) :
    Yields gssNext ⟨c, e, p, g⟩ (((guided g p).spans c r).map GssBuffer.ofSpan) := by
  induction c, r using spans.induct (guided g p) with
  | case1 c =>
    have hc : (c : Int) = e + 1 := by omega
    rw [spans_zero, hc]
    exact .done (gssNext_end e p g)
  | case2 c r h ih =>
    have hle := (guided g p).le r
    rw [spans_pos h]
    have hcall := gssNext_eq (c := c) (e := e) (p := p) (g := g) (by omega) (by omega) he he'
      (by omega) (by omega) (by omega)
    have hnext : min (max ((e - c).tdiv p + 1) g) (e - c + 1) = ((guided g p).size r : Int) := by
      have hpred : e - c = (r - 1 : Nat) := by omega
      rw [guided_size, hpred, ← Int.ofNat_tdiv]
      omega
    rw [hnext] at hcall
    refine .more ?_ (ih (by omega))
    rw [hcall, GssBuffer.ofSpan]
    simp

/-! ## The two schedules -/

/-- A loop up to the index before `stop`. -/
theorem doLoop_pred (start stop : Nat) :
    doLoop start (stop - 1) = (List.range' start (stop - start)).map Int.ofNat := by
  have hcount : ((stop : Int) - 1 - start + 1).toNat = stop - start := by omega
  rw [doLoop, hcount, List.range'_eq_map_range, List.map_map]
  rfl

/-- A reversed loop has no index. -/
theorem doLoop_reversed {first last : Int} (h : last < first) : doLoop first last = [] := by
  have hcount : (last - first + 1).toNat = 0 := by omega
  rw [doLoop, hcount]
  rfl

/-- The loops over the buffers of a range that is not reversed are the serial loop. -/
theorem flatMap_ofSpan (cut : Cut) (c r : Nat) :
    ((cut.spans c r).map GssBuffer.ofSpan).flatMap GssBuffer.indices =
      (List.range' c r).map Int.ofNat := by
  rw [← flatMap_spans cut c r, List.map_flatMap, List.flatMap_map]
  exact List.flatMap_congr fun span _ => doLoop_pred span.1 span.2

section

variable {first last grainSize threadCount : Nat}

theorem fortran_yields (hlast : last < 4611686018427387904) (hgrain : 1 ≤ grainSize)
    (hthread : 1 ≤ threadCount) (hle : first ≤ last + 1) :
    ∃ buffers, Yields gssNext (fortranSchedule first last grainSize threadCount) buffers ∧
      buffers.flatMap GssBuffer.indices = doLoop first last := by
  have hyields := GssScheduler.yields_spans (p := threadCount) (by omega) hgrain first
    (last + 1 - first) (e := last) (by omega) (by omega) (by omega)
  refine ⟨_, hyields, ?_⟩
  have hloop := doLoop_pred first (last + 1)
  rw [Int.natCast_add, Int.natCast_one, Int.add_sub_cancel] at hloop
  rw [flatMap_ofSpan, hloop]

/-- Over a reversed range the Fortran generator hands out one buffer, whose loop is
empty. -/
theorem fortran_yields_reversed (hfirst : first < 4611686018427387904)
    (hgrain : 1 ≤ grainSize) (hthread : 1 ≤ threadCount) (hlt : last + 1 < first) :
    Yields gssNext (fortranSchedule first last grainSize threadCount) [⟨first, last⟩] := by
  have hcall := gssNext_eq (c := first) (e := last) (p := threadCount) (g := grainSize)
    (by omega) (by omega) (by omega) (by omega) (by omega) (by omega) (by omega)
  have hnext : min (max (((last : Int) - first).tdiv threadCount + 1) grainSize)
      ((last : Int) - first + 1) = last - first + 1 := by omega
  have hcurrent : (first : Int) + (last - first + 1) = last + 1 := by omega
  rw [hnext, hcurrent, Int.add_sub_cancel] at hcall
  exact .more hcall (.done (gssNext_end _ _ _))

theorem toNat_ofNat_of_lt {n : Nat} (h : n < 18446744073709551616) : (UInt64.ofNat n).toNat = n :=
  UInt64.toNat_ofNat_of_lt h

theorem cSchedule_count (hthread : 1 ≤ threadCount) (hthread' : threadCount < 9223372036854775808) :
    (cSchedule first last grainSize threadCount).allRankProcessCount ≠ 0 := by
  intro h
  have htoNat := toNat_ofNat_of_lt (n := threadCount) (by omega)
  rw [show UInt64.ofNat threadCount = 0 from h, UInt64.toNat_zero] at htoNat
  omega

theorem c_yields (hfirst : first < 4611686018427387904) (hlast : last < 4611686018427387904)
    (hthread : 1 ≤ threadCount) (hthread' : threadCount < 9223372036854775808)
    (hle : first ≤ last + 1) :
    ∃ tasks, Yields gssGenerator (cSchedule first last grainSize threadCount) tasks ∧
      tasks.flatMap (fun task => task.indices.map Int.ofNat) = doLoop first last := by
  have hcount : (cSchedule first last grainSize threadCount).allRankProcessCount ≠ 0 :=
    cSchedule_count hthread hthread'
  have hbegin := toNat_ofNat_of_lt (n := first) (by omega)
  have hend := toNat_ofNat_of_lt (n := last + 1) (by omega)
  have hok : (cSchedule first last grainSize threadCount).Ok := by
    refine ⟨UInt64.le_iff_toNat_le.mpr ?_, fun _ => hcount⟩
    show (UInt64.ofNat first).toNat ≤ (UInt64.ofNat (last + 1)).toNat
    omega
  have hcover := GssState.tasks_cover hok
  change _ = List.range' (UInt64.ofNat first).toNat
    ((UInt64.ofNat (last + 1)).toNat - (UInt64.ofNat first).toNat) at hcover
  have hloop := doLoop_pred first (last + 1)
  rw [Int.natCast_add, Int.natCast_one, Int.add_sub_cancel] at hloop
  refine ⟨_, GssState.yields_tasks hcount, ?_⟩
  rw [← List.map_flatMap, hcover, hbegin, hend, hloop]

/-- Below its begin the C generator sees a range of almost `2 ^ 64` indices. -/
theorem remaining_reversed (hfirst : first < 4611686018427387904) (hlt : last + 1 < first) :
    (cSchedule first last grainSize threadCount).remaining =
      18446744073709551616 - (first - (last + 1)) := by
  have hbegin := toNat_ofNat_of_lt (n := first) (by omega)
  have hend := toNat_ofNat_of_lt (n := last + 1) (by omega)
  show (UInt64.ofNat (last + 1) - UInt64.ofNat first).toNat = _
  rw [UInt64.toNat_sub, hbegin, hend]
  omega

/-- The first call on a reversed range hands out a task. -/
theorem c_reversed_step (hfirst : first < 4611686018427387904)
    (hthread : 1 ≤ threadCount) (hthread' : threadCount < 9223372036854775808)
    (hgrain : grainSize < 9223372036854775808) (hlt : last + 1 < first) :
    ∃ next : UInt64, 0 < next.toNat ∧
      next.toNat = (guided grainSize threadCount).size
        (18446744073709551616 - (first - (last + 1))) ∧
      next.toNat ≤ (cSchedule first last grainSize threadCount).remaining ∧
      gssGenerator (cSchedule first last grainSize threadCount) =
        some ((cSchedule first last grainSize threadCount).advance next,
          some ⟨.ofNat first, .ofNat first + next⟩) := by
  have hrem : (cSchedule first last grainSize threadCount).remaining = _ :=
    remaining_reversed hfirst hlt
  rcases gssGenerator_step (cSchedule_count hthread hthread') with
    ⟨hz, -⟩ | ⟨next, hnext, hpos, hle, hcall⟩
  · rw [hrem] at hz
    omega
  · refine ⟨next, hpos, ?_, hle, hcall⟩
    rw [hnext, hrem, GssState.cut]
    show (guided (UInt64.ofNat grainSize).toNat (UInt64.ofNat threadCount).toNat).size _ = _
    rw [toNat_ofNat_of_lt (by omega), toNat_ofNat_of_lt (by omega)]

/-- One thread takes all of a reversed range at once, and its task wraps around to an
empty loop. -/
theorem c_reversed_one (hfirst : first < 4611686018427387904)
    (hgrain : grainSize < 9223372036854775808) (hlt : last + 1 < first) :
    ∃ task : SimpleTask, Yields gssGenerator (cSchedule first last grainSize 1) [task] ∧
      task.indices = [] := by
  obtain ⟨next, -, hnext, hle, hcall⟩ :=
    c_reversed_step hfirst (Nat.le_refl 1) (by omega) hgrain hlt
  rw [guided_one (by omega)] at hnext
  have hbegin := toNat_ofNat_of_lt (n := first) (by omega)
  have hrest : ((cSchedule first last grainSize 1).advance next).remaining = 0 := by
    rw [GssState.remaining_advance hle, remaining_reversed hfirst hlt, hnext, Nat.sub_self]
  refine ⟨⟨.ofNat first, .ofNat first + next⟩, .more hcall ?_, ?_⟩
  · have hcount : ((cSchedule first last grainSize 1).advance next).allRankProcessCount ≠ 0 :=
      cSchedule_count (Nat.le_refl 1) (by omega)
    rcases gssGenerator_step hcount with ⟨-, hend⟩ | ⟨_, _, hpos, hle', _⟩
    · exact .done hend
    · omega
  · have hwrap : (UInt64.ofNat first + next).toNat - (UInt64.ofNat first).toNat = 0 := by
      rw [UInt64.toNat_add, hbegin, hnext]
      omega
    rw [SimpleTask.indices, hwrap]
    rfl

/-- With more threads the first task has indices, all beyond `last`. -/
theorem c_reversed_many (hfirst : first < 4611686018427387904)
    (hthread : 2 ≤ threadCount) (hthread' : threadCount < 9223372036854775808)
    (hgrain : grainSize < 9223372036854775808) (hlt : last + 1 < first) {tasks : List SimpleTask}
    (hyields : Yields gssGenerator (cSchedule first last grainSize threadCount) tasks) :
    tasks.flatMap (fun task => task.indices.map Int.ofNat) ≠ [] := by
  obtain ⟨next, hpos, hnext, -, hcall⟩ := c_reversed_step hfirst (by omega) hthread' hgrain hlt
  obtain ⟨rest, rfl, -⟩ := hyields.tail hcall
  have hbegin := toNat_ofNat_of_lt (n := first) (by omega)
  have hadd : (UInt64.ofNat first + next).toNat = first + next.toNat := by
    have hhalf : (18446744073709551616 - (first - (last + 1)) - 1) / threadCount ≤
        (18446744073709551616 - (first - (last + 1)) - 1) / 2 :=
      Nat.div_le_div_left hthread (by omega)
    rw [guided_size] at hnext
    rw [UInt64.toNat_add, hbegin]
    exact Nat.mod_eq_of_lt (by omega)
  have hindices : (SimpleTask.indices ⟨.ofNat first, .ofNat first + next⟩) ≠ [] := by
    rw [SimpleTask.indices, hadd, hbegin, Nat.add_sub_cancel_left]
    exact fun h => by simp at h; omega
  intro h
  rw [List.flatMap_cons, List.append_eq_nil_iff, List.map_eq_nil_iff] at h
  exact hindices h.1

end

/-- The generators agree with each other and with the serial loop on every loop that
is not reversed, and on a reversed one only for a single thread. -/
theorem gss_agree_iff {first last grainSize threadCount : Nat}
    (hfirst : first < 4611686018427387904) (hlast : last < 4611686018427387904)
    (hgrain : 1 ≤ grainSize) (hgrain' : grainSize < 9223372036854775808)
    (hthread : 1 ≤ threadCount) (hthread' : threadCount < 9223372036854775808) :
    GssAgree first last grainSize threadCount ↔ first ≤ last + 1 ∨ threadCount = 1 := by
  by_cases hle : first ≤ last + 1
  · obtain ⟨tasks, htasks, hc⟩ := c_yields hfirst hlast hthread hthread' hle
    obtain ⟨buffers, hbuffers, hf⟩ := fortran_yields hlast hgrain hthread hle
    exact ⟨fun _ => .inl hle, fun _ => ⟨tasks, buffers, htasks, hbuffers, hc, hf⟩⟩
  · have hlt : last + 1 < first := Nat.lt_of_not_le hle
    have hserial : doLoop first last = [] := doLoop_reversed (by omega)
    constructor
    · rintro ⟨tasks, -, htasks, -, hc, -⟩
      rw [hserial] at hc
      by_contra hne
      exact c_reversed_many hfirst (by omega) hthread' hgrain' hlt htasks hc
    · intro h
      obtain rfl := h.resolve_left hle
      obtain ⟨task, htask, hindices⟩ := c_reversed_one hfirst hgrain' hlt
      refine ⟨[task], _, htask, fortran_yields_reversed hfirst hgrain hthread hlt, ?_, ?_⟩
      · rw [hserial, List.flatMap_singleton, hindices]
        rfl
      · rw [hserial, List.flatMap_singleton]
        exact hserial

/-- The loop from 1 to 10 with a grain of 2 for four threads: the first of its tasks has three
indices. -/
theorem gss_agree_ten : GssAgree 1 10 2 4 ∧
    ∃ gss, gssGenerator (cSchedule 1 10 2 4) = some (gss, some ⟨1, 4⟩) :=
  ⟨(gss_agree_iff (by decide) (by decide) (by decide) (by decide) (by decide)
    (by decide)).mpr (.inl (by decide)), _, rfl⟩

/-- The loop from 2 to 0 for 80 threads: the C generator hands out indices. -/
theorem gss_not_agree : ¬ GssAgree 2 0 1 80 := by
  rintro ⟨tasks, -, htasks, -, hc, -⟩
  exact c_reversed_many (by decide) (by decide) (by decide) (by decide) (by decide) htasks
    (hc.trans (doLoop_reversed (by decide)))

end SimpleParallel.Schedule
