import Mathlib.Algebra.Order.BigOperators.Group.List
import SimpleParallel.Schedule.Crew
import SimpleParallel.Schedule.GssFortran

/-!
# The parallel loop of the Fortran binding

`gss_dynamic_schedule_begin.h`: a crew whose tasks are the buffers of `gss_next`, and whose
loop is a `do` loop over a buffer. `parallel_scheduler_next` copies the buffer before it
asks whether there is one, and moves on afterwards, in one critical section.
`MPI_Allreduce` sums the number of threads as an `MPI_INT`, which is the lower half of the
64-bit variable.

* `GssScheduler.yields_from`, `GssScheduler.yields_reversed`: what `gss_next` hands out, for
  bounds of either sign.
* `FortranDo.visits_cover`: the buffers end to end are the serial loop.
-/

namespace SimpleParallel.Schedule

open Cut

/-! ## The generator -/

/-- The buffer over a span of a loop that begins at `first`. -/
def GssBuffer.ofSpanFrom (first : Int) (span : Nat × Nat) : GssBuffer :=
  ⟨first + span.1, first + span.2 - 1⟩

/-- A share of what is left has its sign. -/
theorem tdiv_between {x p : Int} (hp : 0 < p) :
    (0 ≤ x → 0 ≤ x.tdiv p ∧ x.tdiv p ≤ x) ∧ (x ≤ 0 → x ≤ x.tdiv p ∧ x.tdiv p ≤ 0) := by
  have hquot := Int.natAbs_tdiv_le_natAbs x p
  constructor
  · intro hx
    have hnonneg := Int.tdiv_nonneg hx (Int.le_of_lt hp)
    omega
  · intro hx
    have hnonneg : 0 ≤ (-x).tdiv p := Int.tdiv_nonneg (by omega) (Int.le_of_lt hp)
    rw [Int.neg_tdiv] at hnonneg
    omega

/-- One call of `gss_next`, in loops whose bounds have at most 62 bits. -/
theorem gssNext_of_range {c e p g : Int} (hc : -4611686018427387904 < c)
    (hc' : c ≤ 4611686018427387904) (he : -4611686018427387904 < e)
    (he' : e < 4611686018427387904) (hp : 0 < p) (hne : e - c + 1 ≠ 0) :
    gssNext ⟨c, e, p, g⟩ =
      some (⟨c + min (max ((e - c).tdiv p + 1) g) (e - c + 1), e, p, g⟩,
        some ⟨c, c + min (max ((e - c).tdiv p + 1) g) (e - c + 1) - 1⟩) := by
  obtain ⟨hpos, hneg⟩ := tdiv_between (x := e - c) hp
  generalize hshare : (e - c).tdiv p = share at hpos hneg ⊢
  generalize hnext : min (max (share + 1) g) (e - c + 1) = next
  have hdistance : int64 (e - c) = some (e - c) := int64_of_range (by omega) (by omega)
  have hremaining : int64 (e - c + 1) = some (e - c + 1) := int64_of_range (by omega) (by omega)
  have hquotient : int64 share = some share := int64_of_range (by omega) (by omega)
  have hsucc : int64 (share + 1) = some (share + 1) := int64_of_range (by omega) (by omega)
  have hcurrent : int64 (c + next) = some (c + next) := int64_of_range (by omega) (by omega)
  have hlast : int64 (c + next - 1) = some (c + next - 1) := int64_of_range (by omega) (by omega)
  have hp' : p ≠ 0 := by omega
  simp [gssNext, hdistance, hremaining, hshare, hquotient, hsucc, hnext, hcurrent, hlast, hne, hp']

/-- Over `r` indices from the `k`-th of the loop on the generator follows the rule of the C
one. A grain that is not positive has no effect. -/
theorem GssScheduler.yields_from {p : Nat} {g first e : Int} (hp : 0 < p)
    (hfirst : -4611686018427387904 < first) (he : -4611686018427387904 < e)
    (he' : e < 4611686018427387904) (k r : Nat) (hr : e + 1 = first + k + r) :
    Yields gssNext ⟨first + k, e, p, g⟩
      (((guided g.toNat p).spans k r).map (GssBuffer.ofSpanFrom first)) := by
  induction k, r using spans.induct (guided g.toNat p) with
  | case1 k =>
    have hk : first + (k : Int) = e + 1 := by omega
    rw [spans_zero, hk]
    exact .done (gssNext_end e p g)
  | case2 k r h ih =>
    have hle := (guided g.toNat p).le r
    rw [spans_pos h]
    have hcall := gssNext_of_range (c := first + k) (e := e) (p := p) (g := g) (by omega) (by omega)
      he he' (by omega) (by omega)
    have hnext : min (max ((e - (first + k)).tdiv p + 1) g) (e - (first + k) + 1) =
        ((guided g.toNat p).size r : Int) := by
      have hpred : e - (first + k) = (r - 1 : Nat) := by omega
      rw [guided_size, hpred, ← Int.ofNat_tdiv]
      generalize (r - 1) / p = share
      omega
    rw [hnext] at hcall
    refine .more ?_ (ih (by omega))
    rw [hcall, GssBuffer.ofSpanFrom, Nat.cast_add, Int.add_assoc]

/-- Over a reversed range it hands out one buffer, whose loop is empty. -/
theorem GssScheduler.yields_reversed {p : Nat} {g first e : Int} (hp : 0 < p)
    (hfirst : first < 4611686018427387904) (he : -4611686018427387904 < e) (hlt : e + 1 < first) :
    Yields gssNext ⟨first, e, p, g⟩ [⟨first, e⟩] := by
  have hcall := gssNext_of_range (c := first) (e := e) (p := p) (g := g) (by omega) (by omega) he
    (by omega) (by omega) (by omega)
  have hshare := (tdiv_between (x := e - first) (p := p) (by omega)).2 (by omega)
  have hnext : min (max ((e - first).tdiv p + 1) g) (e - first + 1) = e - first + 1 := by omega
  have hcurrent : first + (e - first + 1) = e + 1 := by omega
  rw [hnext, hcurrent, Int.add_sub_cancel] at hcall
  exact .more hcall (.done (gssNext_end _ _ _))

/-! ## The loop over a buffer -/

/-- `do s_p_do_index = s_p_buffer%buffer(1),s_p_buffer%buffer(2)` -/
def doTurn (buffer : GssBuffer) (i : Int) : Option (Int × Option Int) :=
  if i ≤ buffer.buffer2 then some (i + 1, some i) else some (i, none)

theorem doLoop_cons {i last : Int} (h : i ≤ last) : doLoop i last = i :: doLoop (i + 1) last := by
  have hcount : (last - i + 1).toNat = (last - (i + 1) + 1).toNat + 1 := by omega
  unfold doLoop
  rw [hcount, List.range_succ_eq_map, List.map_cons, List.map_map]
  congr 1
  · exact Int.add_zero i
  · refine List.map_congr_left fun k _ => ?_
    show i + ((k + 1 : Nat) : Int) = i + 1 + k
    omega

theorem doTurn_yields (buffer : GssBuffer) (i : Int) :
    Yields (doTurn buffer) i (doLoop i buffer.buffer2) := by
  induction hn : (buffer.buffer2 - i + 1).toNat generalizing i with
  | zero =>
    have hlt : buffer.buffer2 < i := by omega
    rw [doLoop_reversed hlt]
    exact .done (if_neg (Int.not_le.mpr hlt))
  | succ n ih =>
    have hle : i ≤ buffer.buffer2 := by omega
    rw [doLoop_cons hle]
    exact .more (if_pos hle) (ih (i + 1) (by omega))

/-- The loop over the buffer of a span. -/
theorem indices_ofSpanFrom (first : Int) (span : Nat × Nat) :
    (GssBuffer.ofSpanFrom first span).indices =
      (List.range' span.1 (span.2 - span.1)).map fun k : Nat => first + k := by
  have hcount : (first + span.2 - 1 - (first + span.1) + 1).toNat = span.2 - span.1 := by omega
  unfold GssBuffer.indices GssBuffer.ofSpanFrom doLoop
  rw [hcount, List.range'_eq_map_range, List.map_map]
  refine List.map_congr_left fun k _ => ?_
  show first + span.1 + (k : Int) = first + ((span.1 + k : Nat) : Int)
  omega

theorem doLoop_nodup (first last : Int) : (doLoop first last).Nodup :=
  List.nodup_range.map fun k l h => by
    have heq : first + (k : Int) = first + l := h
    omega

theorem mem_doLoop {first last i : Int} (h : i ∈ doLoop first last) : first ≤ i ∧ i ≤ last := by
  obtain ⟨k, hk, rfl⟩ := List.mem_map.mp h
  have hlt := List.mem_range.mp hk
  omega

/-! ## The loop -/

/-- The lower half of `s_p_all_thread_count`, which is what `MPI_INT` sums, and then forty
times that. -/
def allThreadCount (size : Nat) (threads : Nat → Nat) : Nat :=
  ((List.range size).map threads).sum % 4294967296 * 40

/-- What the ranks pass: the number of threads of each team, and the bounds of the loop.
An `MPI_INT` holds the number of all threads, and the bounds have at most 62 bits. -/
structure FortranDo where
  size : Nat
  threads : Nat → Nat
  first : Int
  last : Int
  grainsize : Int
  buffers : List GssBuffer
  size_pos : 0 < size
  threads_pos : ∀ r < size, 0 < threads r
  threads_lt : ((List.range size).map threads).sum < 2147483648
  first_gt : -4611686018427387904 < first
  first_lt : first < 4611686018427387904
  last_gt : -4611686018427387904 < last
  last_lt : last < 4611686018427387904
  yields : Yields gssNext ⟨first, last, allThreadCount size threads, grainsize⟩ buffers

namespace FortranDo

/-- The session over the buffers, and the loop over a buffer. -/
def crew (p : FortranDo) : CrewConfig GssBuffer Int Int where
  config := ⟨p.size, p.threads, p.buffers.length, p.size_pos⟩
  threads := p.threads
  task k := p.buffers.getD k ⟨0, -1⟩
  start buffer := buffer.buffer1
  turn := doTurn
  threads_pos := p.threads_pos

variable (p : FortranDo)

theorem allThreadCount_pos : 0 < allThreadCount p.size p.threads := by
  have hroot : 0 < ((List.range p.size).map p.threads).sum :=
    (p.threads_pos 0 p.size_pos).trans_le
      (List.le_sum_of_mem (List.mem_map_of_mem (List.mem_range.mpr p.size_pos)))
  have hlt := p.threads_lt
  unfold allThreadCount
  rw [Nat.mod_eq_of_lt (by omega)]
  omega

/-- The buffers end to end are the serial loop. -/
theorem buffers_cover : p.buffers.flatMap GssBuffer.indices = doLoop p.first p.last := by
  rcases Int.lt_or_le (p.last + 1) p.first with hlt | hle
  · have hbuffers := Yields.unique p.yields
      (GssScheduler.yields_reversed p.allThreadCount_pos p.first_lt p.last_gt hlt)
    rw [hbuffers, List.flatMap_singleton]
    rfl
  · have hyields := GssScheduler.yields_from (g := p.grainsize) p.allThreadCount_pos p.first_gt
      p.last_gt p.last_lt 0 (p.last + 1 - p.first).toNat (by omega)
    rw [Nat.cast_zero, Int.add_zero] at hyields
    have hcount : p.last - p.first + 1 = p.last + 1 - p.first := by omega
    rw [Yields.unique p.yields hyields, List.flatMap_map,
      List.flatMap_congr fun span _ => indices_ofSpanFrom p.first span, ← List.map_flatMap,
      flatMap_spans, doLoop, hcount, List.range_eq_range']

theorem crew_visits : p.crew.Visits fun k => (p.crew.task k).indices :=
  fun _ _ => doTurn_yields _ _

theorem visits_cover : ((List.range p.crew.config.n).flatMap fun k => (p.crew.task k).indices) =
    doLoop p.first p.last := by
  have hmap : (List.range p.buffers.length).map p.crew.task = p.buffers :=
    List.ext_getElem (by simp) fun k hk hk' => by
      simp [crew, List.getElem?_eq_getElem hk']
  rw [← p.buffers_cover, ← List.flatMap_map]
  exact congrArg (List.flatMap GssBuffer.indices) hmap

end FortranDo

end SimpleParallel.Schedule
