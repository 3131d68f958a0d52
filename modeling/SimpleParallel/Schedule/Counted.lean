import SimpleParallel.Schedule.CrewRuns

/-!
# Counting down

The loops of `c_dynamic_schedule_binding.h` are blocks. On every rank one thread, the
owner, creates the schedule in an `omp single`, and passes the address of its own
`_num_threads_count` to the others. A block ends with a critical section in which each
thread counts that variable down, and the one that comes to zero deletes the schedule.
No barrier follows, so the owner may leave the block, and end the variable, before the
others have counted.

* `Counted` is a crew with its counters. A counter that has ended may have any value, and
  a schedule that is deleted may hand out any task. A second call for a schedule that is
  deleted is recorded only.
* `Counted.crew_reachable`: in the runs in which only the last thread of a rank finds the
  counter gone, the threads are a crew: they have all left when the schedule is deleted.
* `Counted.exists_finished`: in the runs in which the owners leave last, all threads can
  leave the block, and all schedules be deleted.
-/

namespace SimpleParallel.Schedule

open Tally

variable {τ ι β : Type}

/-! ## The end of the block -/

/-- Where a thread is behind the loop. -/
inductive Behind
  /-- before the critical section that counts the threads down -/
  | waiting
  | counted
  /-- behind the block -/
  | outside
  deriving DecidableEq

/-- A crew, its threads behind the loop, and the counters and schedules of the ranks. -/
structure Counted (τ ι β : Type) where
  crew : Crew τ ι β
  behind : Nat × Nat → Behind
  /-- the thread of each rank that runs the `omp single` -/
  owner : Nat → Nat
  /-- the `_num_threads_count` of the owner -/
  numThreadsCount : Nat → Int
  /-- calls of `s_p_delete_dynamic_schedule` -/
  deleted : Nat → Nat

inductive CountedLabel (β : Type)
  | crew (l : CrewLabel β)
  | stray (r i : Nat)
  | strayLeave (r i : Nat)
  | countDown (r i : Nat) (v : Int)
  | leave (r i : Nat)

namespace Counted

/-- `_num_threads_count = omp_get_num_threads()` in every thread. -/
def initial (p : CrewConfig τ ι β) (owner : Nat → Nat) : Counted τ ι β where
  crew := Crew.initial p
  behind _ := .waiting
  owner := owner
  numThreadsCount r := p.threads r
  deleted _ := 0

def setBehind (s : Counted τ ι β) (m : Nat × Nat) (b : Behind) : Counted τ ι β :=
  { s with behind := Function.update s.behind m b }

/-- The variable of the owner of rank `r` has ended. -/
def Dangles (s : Counted τ ι β) (r : Nat) : Prop := s.behind (r, s.owner r) = .outside

/-- `v` may be the value of `*_num_threads_count_ptr` on rank `r`. -/
def Reads (s : Counted τ ι β) (r : Nat) (v : Int) : Prop := ¬ s.Dangles r → v = s.numThreadsCount r

/-- The critical section `_s_p_last_treads` of thread `i` of rank `r`, in which the counter
was `v`. -/
def countDown (s : Counted τ ι β) (r i : Nat) (v : Int) : Counted τ ι β :=
  { s with
    behind := Function.update s.behind (r, i) .counted
    numThreadsCount := Function.update s.numThreadsCount r (v - 1)
    deleted := if v - 1 = 0 then Function.update s.deleted r (s.deleted r + 1) else s.deleted }

/-- A handler is destroyed when its schedule is deleted. -/
def Deletes (p : CrewConfig τ ι β) (s : Counted τ ι β) (t : Session) : Prop :=
  ∀ r < p.config.size, s.crew.session.atEnd r → ¬ t.atEnd r → 0 < s.deleted r

inductive Step (p : CrewConfig τ ι β) : Counted τ ι β → CountedLabel β → Counted τ ι β → Prop
  | crew {s : Counted τ ι β} {l : CrewLabel β} {t : Crew τ ι β} :
      Crew.Step p (fun _ => s.Deletes p) s.crew l t → Step p s (.crew l) { s with crew := t }
  /-- `s_p_done`, the copy of the buffer and `s_p_next`, on a schedule that is deleted -/
  | stray {s : Counted τ ι β} {r i : Nat} {x : τ} : (r, i) ∈ p.members →
      (s.crew.thread (r, i)).pc = .loop → s.crew.Free p r → 0 < s.deleted r →
      Step p s (.stray r i)
        { s with
          crew := s.crew.setThread (r, i)
            { s.crew.thread (r, i) with pc := .body x (p.start x) } }
  /-- `s_p_done` on a schedule that is deleted, and the `break` -/
  | strayLeave {s : Counted τ ι β} {r i : Nat} : (r, i) ∈ p.members →
      (s.crew.thread (r, i)).pc = .loop → s.crew.Free p r → 0 < s.deleted r →
      Step p s (.strayLeave r i)
        { s with crew := s.crew.setThread (r, i) { s.crew.thread (r, i) with pc := .left } }
  | countDown {s : Counted τ ι β} {r i : Nat} {v : Int} : (r, i) ∈ p.members →
      (s.crew.thread (r, i)).pc = .left → s.behind (r, i) = .waiting → s.Reads r v →
      Step p s (.countDown r i v) (s.countDown r i v)
  | leave {s : Counted τ ι β} {r i : Nat} : (r, i) ∈ p.members → s.behind (r, i) = .counted →
      Step p s (.leave r i) (s.setBehind (r, i) .outside)

/-- A thread that finds the counter gone is the last of its rank to count down. -/
def LastDangles (p : CrewConfig τ ι β) (s : Counted τ ι β) (l : CountedLabel β) : Prop :=
  ∀ r i v, l = .countDown r i v → s.Dangles r →
    ∀ j < p.threads r, j ≠ i → s.behind (r, j) ≠ .waiting

/-- If this is an owner that leaves, all threads of its rank have counted down. -/
def OwnerLast (p : CrewConfig τ ι β) (s : Counted τ ι β) (l : CountedLabel β) : Prop :=
  ∀ r i, l = .leave r i → s.owner r = i → ∀ j < p.threads r, s.behind (r, j) ≠ .waiting

end Counted

/-- The runs of the block, with any threads as owners. -/
def countedSys (p : CrewConfig τ ι β) : LTS.Sys (Counted τ ι β) (CountedLabel β) where
  init s := ∃ owner, (∀ r < p.config.size, owner r < p.threads r) ∧ s = Counted.initial p owner
  step := Counted.Step p

/-- The runs in which only the last thread of a rank finds the counter gone. -/
def lastDanglesSys (p : CrewConfig τ ι β) : LTS.Sys (Counted τ ι β) (CountedLabel β) :=
  (countedSys p).restrict (Counted.LastDangles p)

/-- The runs in which the owners leave after the others have counted down. -/
def ownersLastSys (p : CrewConfig τ ι β) : LTS.Sys (Counted τ ι β) (CountedLabel β) :=
  (countedSys p).restrict (Counted.OwnerLast p)

/-- Those in which also no probed request is taken back. -/
def countedProbingSys (p : CrewConfig τ ι β) : LTS.Sys (Counted τ ι β) (CountedLabel β) :=
  (ownersLastSys p).restrict fun s l =>
    ∀ a, l = .crew (.session a) → ¬ a.TakesProbed s.crew.session

/-! ## The invariant -/

/-- 1 for a thread that has still to count down. -/
def Behind.toCount (b : Behind) : Nat := if b = .waiting then 1 else 0

/-- The number of threads of rank `r` that have still to count down. -/
def Counted.remaining (p : CrewConfig τ ι β) (s : Counted τ ι β) (r : Nat) : Nat :=
  tally Behind.toCount (p.threads r) fun i => s.behind (r, i)

/-- Who has counted down has left; a counter that exists is the number of threads that have
still to count down; and a schedule is deleted with the last of them. -/
structure CountedInv (p : CrewConfig τ ι β) (s : Counted τ ι β) : Prop where
  left : ∀ m, s.behind m ≠ .waiting → (s.crew.thread m).pc = .left
  count : ∀ r < p.config.size, ¬ s.Dangles r → s.numThreadsCount r = s.remaining p r
  deleted : ∀ r < p.config.size, 0 < s.deleted r → s.remaining p r = 0
  once : ∀ r, s.deleted r ≤ 1

/-- Where the owners leave last, they wait for the last thread, which finds the counter. -/
structure OwnersInv (p : CrewConfig τ ι β) (s : Counted τ ι β) : Prop extends CountedInv p s where
  owner : ∀ r < p.config.size, s.owner r < p.threads r
  inside : ∀ r < p.config.size, s.Dangles r → s.remaining p r = 0
  finished : ∀ r < p.config.size, s.remaining p r = 0 → s.deleted r = 1

section

variable {p : CrewConfig τ ι β} {s t : Counted τ ι β} {l : CountedLabel β} {r r' i : Nat}
  {b : Behind} {v : Int}

theorem Behind.toCount_eq_zero : b.toCount = 0 ↔ b ≠ .waiting := by
  cases b <;> simp [Behind.toCount]

theorem Counted.remaining_eq_zero :
    s.remaining p r = 0 ↔ ∀ i < p.threads r, s.behind (r, i) ≠ .waiting := by
  rw [remaining, tally_eq_zero]
  exact forall₂_congr fun i _ => Behind.toCount_eq_zero

theorem Counted.remaining_ne_zero (hm : (r, i) ∈ p.members) (h : s.behind (r, i) = .waiting) :
    s.remaining p r ≠ 0 := fun hzero =>
  Counted.remaining_eq_zero.mp hzero i (p.mem_members.mp hm).2 h

theorem update_rank (behind : Nat × Nat → Behind) (r i : Nat) (b : Behind) :
    (fun j => Function.update behind (r, i) b (r, j)) =
      Function.update (fun j => behind (r, j)) i b := by
  funext j
  by_cases hj : j = i
  · subst hj
    rw [Function.update_self, Function.update_self]
  · rw [Function.update_of_ne hj, Function.update_of_ne fun heq => hj (Prod.mk.inj heq).2]

/-- A thread behind the loop moves on. -/
theorem Counted.remaining_setBehind (hm : (r, i) ∈ p.members) :
    (s.setBehind (r, i) b).remaining p r + (s.behind (r, i)).toCount =
      s.remaining p r + b.toCount := by
  unfold Counted.remaining Counted.setBehind
  dsimp only
  rw [update_rank]
  exact tally_update (p.mem_members.mp hm).2

/-- The threads of the other ranks are where they were. -/
theorem Counted.remaining_other (h : r' ≠ r) :
    (s.setBehind (r, i) b).remaining p r' = s.remaining p r' := by
  refine congrArg (tally Behind.toCount (p.threads r')) (funext fun j => ?_)
  exact Function.update_of_ne (fun heq => h (Prod.mk.inj heq).1) _ _

theorem Counted.remaining_countDown : (s.countDown r i v).remaining p r' =
    (s.setBehind (r, i) .counted).remaining p r' := rfl

/-- One thread less has to count down. -/
theorem Counted.remaining_counted (hm : (r, i) ∈ p.members) (hwait : s.behind (r, i) = .waiting) :
    (s.setBehind (r, i) .counted).remaining p r + 1 = s.remaining p r := by
  have hmove : (s.setBehind (r, i) .counted).remaining p r + (s.behind (r, i)).toCount =
      s.remaining p r + Behind.counted.toCount := Counted.remaining_setBehind hm
  rw [hwait] at hmove
  exact hmove

theorem Counted.remaining_leave (hm : (r, i) ∈ p.members) (hpc : s.behind (r, i) = .counted) :
    (s.setBehind (r, i) .outside).remaining p r' = s.remaining p r' := by
  by_cases hr : r' = r
  · subst hr
    have hmove : (s.setBehind (r', i) .outside).remaining p r' + (s.behind (r', i)).toCount =
        s.remaining p r' + Behind.outside.toCount := Counted.remaining_setBehind hm
    rw [hpc] at hmove
    exact hmove
  · exact Counted.remaining_other hr

/-- Only by leaving does a thread end the counter of its rank. -/
theorem Counted.dangles_setBehind (hb : b ≠ .outside) (h : s.behind (r, i) ≠ .outside) :
    (s.setBehind (r, i) b).Dangles r' ↔ s.Dangles r' := by
  unfold Counted.Dangles Counted.setBehind
  by_cases hself : (r', s.owner r') = (r, i)
  · dsimp only
    rw [hself, Function.update_self]
    exact iff_of_false hb h
  · dsimp only
    rw [Function.update_of_ne hself]

theorem Counted.dangles_countDown (h : s.behind (r, i) = .waiting) :
    (s.countDown r i v).Dangles r' ↔ s.Dangles r' :=
  Counted.dangles_setBehind (b := .counted) nofun (by rw [h]; nofun)

theorem Counted.dangles_leave (h : (s.setBehind (r, i) .outside).Dangles r') :
    s.Dangles r' ∨ r' = r ∧ s.owner r = i := by
  unfold Counted.Dangles Counted.setBehind at h
  by_cases hself : (r', s.owner r') = (r, i)
  · obtain ⟨rfl, howner⟩ := Prod.mk.inj hself
    exact .inr ⟨rfl, howner⟩
  · dsimp only at h
    rw [Function.update_of_ne hself] at h
    exact .inl h

end

namespace CountedInv

variable {p : CrewConfig τ ι β} {s t : Counted τ ι β} {l : CountedLabel β} {r i : Nat}

theorem initial (p : CrewConfig τ ι β) (owner : Nat → Nat) :
    CountedInv p (Counted.initial p owner) where
  left _ h := absurd rfl h
  count _ _ _ := congrArg Nat.cast (tally_of_eq_one fun _ _ => rfl).symm
  deleted _ _ := nofun
  once _ := Nat.zero_le 1

/-- All threads of a rank have left whose schedule is deleted. -/
theorem left_of_deleted (h : CountedInv p s) (hdel : 0 < s.deleted r) (hm : (r, i) ∈ p.members) :
    (s.crew.thread (r, i)).pc = .left := by
  obtain ⟨hr, hi⟩ := p.mem_members.mp hm
  exact h.left _ (Counted.remaining_eq_zero.mp (h.deleted r hr hdel) i hi)

/-- So the counters keep to what a crew asks. -/
theorem deletes (h : CountedInv p s) {u : Session} (hdel : s.Deletes p u) :
    s.crew.Deletes p u := fun r _ hm hend hgone =>
  h.left_of_deleted (hdel r (p.mem_members.mp hm).1 hend hgone) hm

/-- Nobody is in the loop to use a deleted schedule. -/
theorem not_stray (h : CountedInv p s) (hdel : 0 < s.deleted r) (hm : (r, i) ∈ p.members)
    (hpc : (s.crew.thread (r, i)).pc = .loop) : False := by
  cases hpc.symm.trans (h.left_of_deleted hdel hm)

/-- While a thread has to count down, the schedule is there. -/
theorem not_deleted (h : CountedInv p s) (hm : (r, i) ∈ p.members)
    (hwait : s.behind (r, i) = .waiting) : s.deleted r = 0 := by
  by_contra hne
  exact Counted.remaining_ne_zero hm hwait
    (h.deleted r (p.mem_members.mp hm).1 (Nat.pos_of_ne_zero hne))

/-- What a thread reads of a counter that exists. -/
theorem reads_eq (h : CountedInv p s) {v : Int} (hr : r < p.config.size) (hreads : s.Reads r v)
    (hin : ¬ s.Dangles r) : v = s.remaining p r :=
  (hreads hin).trans (h.count r hr hin)

/-- The thread that finds 1 is the last one. -/
theorem last_of_reads (h : CountedInv p s) {v : Int} (hm : (r, i) ∈ p.members)
    (hwait : s.behind (r, i) = .waiting) (hreads : s.Reads r v)
    (hlast : s.Dangles r → ∀ j < p.threads r, j ≠ i → s.behind (r, j) ≠ .waiting)
    (hv : v - 1 = 0) : (s.setBehind (r, i) .counted).remaining p r = 0 := by
  by_cases hdangles : s.Dangles r
  · refine Counted.remaining_eq_zero.mpr fun j hj => ?_
    show Function.update s.behind (r, i) .counted (r, j) ≠ .waiting
    by_cases hji : j = i
    · rw [hji, Function.update_self]
      nofun
    · rw [Function.update_of_ne fun heq => hji (Prod.mk.inj heq).2]
      exact hlast hdangles j hj hji
  · have hcount := h.reads_eq (p.mem_members.mp hm).1 hreads hdangles
    have hone := Counted.remaining_counted hm hwait
    omega

theorem step_countDown (h : CountedInv p s) {v : Int} (hm : (r, i) ∈ p.members)
    (hpc : (s.crew.thread (r, i)).pc = .left) (hwait : s.behind (r, i) = .waiting)
    (hreads : s.Reads r v)
    (hlast : s.Dangles r → ∀ j < p.threads r, j ≠ i → s.behind (r, j) ≠ .waiting) :
    CountedInv p (s.countDown r i v) := by
  have hr := (p.mem_members.mp hm).1
  have hzero := h.not_deleted hm hwait
  have hdangles : ∀ {r'}, (s.countDown r i v).Dangles r' ↔ s.Dangles r' :=
    Counted.dangles_countDown hwait
  refine ⟨fun m hne => ?_, fun r' hr' hin => ?_, fun r' hr' hdel => ?_, fun r' => ?_⟩
  · by_cases hself : m = (r, i)
    · rw [hself]
      exact hpc
    · refine h.left m ?_
      rwa [← Function.update_of_ne hself Behind.counted s.behind]
  · rw [Counted.remaining_countDown]
    show Function.update s.numThreadsCount r (v - 1) r' = _
    by_cases hself : r' = r
    · subst hself
      have hcount := h.reads_eq hr hreads (mt hdangles.mpr hin)
      have hone := Counted.remaining_counted hm hwait
      rw [Function.update_self]
      omega
    · rw [Function.update_of_ne hself, Counted.remaining_other hself]
      exact h.count r' hr' (mt hdangles.mpr hin)
  · rw [Counted.remaining_countDown]
    by_cases hself : r' = r
    · subst hself
      refine h.last_of_reads hm hwait hreads hlast ?_
      by_contra hv
      rw [Counted.countDown, if_neg hv] at hdel
      exact absurd hzero (Nat.ne_of_gt hdel)
    · rw [Counted.remaining_other hself]
      refine h.deleted r' hr' ?_
      unfold Counted.countDown at hdel
      dsimp only at hdel
      split at hdel
      · rwa [Function.update_of_ne hself] at hdel
      · exact hdel
  · unfold Counted.countDown
    dsimp only
    split
    · by_cases hself : r' = r
      · rw [hself, Function.update_self, hzero]
      · rw [Function.update_of_ne hself]
        exact h.once r'
    · exact h.once r'

theorem step (h : CountedInv p s) (hok : s.LastDangles p l) (hs : Counted.Step p s l t) :
    CountedInv p t := by
  cases hs with
  | crew hs => exact ⟨fun m hm => hs.left (h.left m hm), h.count, h.deleted, h.once⟩
  | stray hm hpc _ hdel => exact (h.not_stray hdel hm hpc).elim
  | strayLeave hm hpc _ hdel => exact (h.not_stray hdel hm hpc).elim
  | countDown hm hpc hwait hreads =>
    exact h.step_countDown hm hpc hwait hreads fun hdangles => hok _ _ _ rfl hdangles
  | @leave r i hm hcounted =>
    refine ⟨fun m hne => ?_, fun r' hr' hin => ?_, fun r' hr' hdel => ?_, h.once⟩
    · by_cases hself : m = (r, i)
      · refine h.left m ?_
        rw [hself, hcounted]
        nofun
      · refine h.left m ?_
        rwa [← Function.update_of_ne hself Behind.outside s.behind]
    · rw [Counted.remaining_leave hm hcounted]
      refine h.count r' hr' fun hdangles => hin ?_
      show Function.update s.behind (r, i) .outside (r', s.owner r') = .outside
      by_cases hself : (r', s.owner r') = (r, i)
      · rw [hself, Function.update_self]
      · rwa [Function.update_of_ne hself]
    · rw [Counted.remaining_leave hm hcounted]
      exact h.deleted r' hr' hdel

end CountedInv

namespace OwnersInv

variable {p : CrewConfig τ ι β} {s t : Counted τ ι β} {l : CountedLabel β} {r i : Nat}

theorem initial {owner : Nat → Nat} (h : ∀ r < p.config.size, owner r < p.threads r) :
    OwnersInv p (Counted.initial p owner) where
  toCountedInv := .initial p owner
  owner := h
  inside _ _ := nofun
  finished r hr hzero :=
    absurd (Counted.remaining_eq_zero.mp hzero 0 (p.threads_pos r hr)) fun hne => hne rfl

/-- Nobody finds the counter gone. -/
theorem lastDangles (h : OwnersInv p s) (hs : Counted.Step p s l t) : s.LastDangles p l := by
  rintro r i v rfl hdangles
  cases hs with
  | countDown hm _ hwait _ =>
    exact absurd (h.inside r (p.mem_members.mp hm).1 hdangles) (Counted.remaining_ne_zero hm hwait)

theorem step (h : OwnersInv p s) (hok : s.OwnerLast p l) (hs : Counted.Step p s l t) :
    OwnersInv p t := by
  have hinv := h.toCountedInv.step (h.lastDangles hs) hs
  cases hs with
  | crew hs => exact ⟨hinv, h.owner, h.inside, h.finished⟩
  | stray hm hpc _ hdel => exact (h.not_stray hdel hm hpc).elim
  | strayLeave hm hpc _ hdel => exact (h.not_stray hdel hm hpc).elim
  | @countDown r i v hm hpc hwait hreads =>
    have hr := (p.mem_members.mp hm).1
    have hin : ¬ s.Dangles r := mt (h.inside r hr) (Counted.remaining_ne_zero hm hwait)
    have hdangles : ∀ {r'}, (s.countDown r i v).Dangles r' ↔ s.Dangles r' :=
      Counted.dangles_countDown hwait
    refine ⟨hinv, h.owner, fun r' hr' hdangles' => ?_, fun r' hr' hzero => ?_⟩
    · have hother : r' ≠ r := fun heq => hin (heq ▸ hdangles.mp hdangles')
      rw [Counted.remaining_countDown, Counted.remaining_other hother]
      exact h.inside r' hr' (hdangles.mp hdangles')
    · rw [Counted.remaining_countDown] at hzero
      unfold Counted.countDown
      dsimp only
      by_cases hself : r' = r
      · subst hself
        have hcount := h.reads_eq hr hreads hin
        have hone := Counted.remaining_counted hm hwait
        have hlast : v - 1 = 0 := by omega
        rw [if_pos hlast, Function.update_self, h.not_deleted hm hwait]
      · rw [Counted.remaining_other hself] at hzero
        have hkeep := h.finished r' hr' hzero
        split
        · rwa [Function.update_of_ne hself]
        · exact hkeep
  | @leave r i hm hcounted =>
    refine ⟨hinv, h.owner, fun r' hr' hdangles => ?_, fun r' hr' hzero => ?_⟩
    · rw [Counted.remaining_leave hm hcounted]
      rcases Counted.dangles_leave hdangles with hold | ⟨rfl, howner⟩
      · exact h.inside r' hr' hold
      · exact Counted.remaining_eq_zero.mpr (hok r' i rfl howner)
    · rw [Counted.remaining_leave hm hcounted] at hzero
      exact h.finished r' hr' hzero

end OwnersInv

/-! ## Runs -/

section

variable {p : CrewConfig τ ι β} {visits : Nat → List β} {s : Counted τ ι β}

theorem countedInv (h : LTS.Reachable (lastDanglesSys p) s) : CountedInv p s := by
  induction h with
  | init h =>
    obtain ⟨owner, -, rfl⟩ := h
    exact .initial p owner
  | step _ hs ih => exact ih.step hs.1 hs.2

theorem ownersInv (h : LTS.Reachable (ownersLastSys p) s) : OwnersInv p s := by
  induction h with
  | init h =>
    obtain ⟨owner, howner, rfl⟩ := h
    exact .initial howner
  | step _ hs ih => exact ih.step hs.1 hs.2

/-- Where the owners leave last, nobody finds the counter gone. -/
theorem lastDangles_of_ownersLast (h : LTS.Reachable (ownersLastSys p) s) :
    LTS.Reachable (lastDanglesSys p) s := by
  induction h with
  | init h => exact .init h
  | step hr hs ih => exact ih.restrict_step _ ((ownersInv hr).lastDangles hs.2) hs.2

/-- In teams of two only the last thread can find it so. -/
theorem lastDangles_of_two (hp : ∀ r < p.config.size, p.threads r ≤ 2)
    (h : LTS.Reachable (countedSys p) s) : LTS.Reachable (lastDanglesSys p) s := by
  have howner : ∀ {s}, LTS.Reachable (countedSys p) s →
      ∀ r < p.config.size, s.owner r < p.threads r := by
    intro s h
    induction h with
    | init h =>
      obtain ⟨owner, howner, rfl⟩ := h
      exact howner
    | step _ hs ih => cases hs <;> exact ih
  induction h with
  | init h => exact .init h
  | @step s t l hr hs ih =>
    refine ih.restrict_step l ?_ hs
    rintro r i v rfl hdangles j hj hji
    cases hs with
    | countDown hm _ hwait _ =>
      obtain ⟨hr', hi⟩ := p.mem_members.mp hm
      have hlt := howner hr r hr'
      have htwo := hp r hr'
      have hne : s.owner r ≠ i := fun heq => by
        rw [Counted.Dangles, heq, hwait] at hdangles
        cases hdangles
      have hjo : j = s.owner r := by omega
      rw [hjo, show s.behind (r, s.owner r) = .outside from hdangles]
      nofun

theorem Counted.crew_reachable (h : LTS.Reachable (lastDanglesSys p) s) :
    Crew.Reachable p s.crew := by
  induction h with
  | init h =>
    obtain ⟨owner, -, rfl⟩ := h
    exact .init rfl
  | step hr hs ih =>
    have hinv := countedInv hr
    obtain ⟨-, hs⟩ := hs
    cases hs with
    | crew hs => exact ih.step (hs.mono fun _ _ _ => hinv.deletes)
    | stray hm hpc _ hdel => exact (hinv.not_stray hdel hm hpc).elim
    | strayLeave hm hpc _ hdel => exact (hinv.not_stray hdel hm hpc).elim
    | countDown _ _ _ _ | leave _ _ => exact ih

theorem Counted.crew_probing (h : LTS.Reachable (countedProbingSys p) s) :
    LTS.Reachable (crewProbingSys p) s.crew := by
  induction h with
  | init h =>
    obtain ⟨owner, -, rfl⟩ := h
    exact .init rfl
  | step hr hs ih =>
    obtain ⟨hok, -, hs⟩ := hs
    have hinv := (ownersInv hr.of_restrict).toCountedInv
    cases hs with
    | crew hs =>
      refine ih.restrict_step _ (fun a ha => hok a (congrArg _ ha)) ?_
      exact hs.mono fun _ _ _ => hinv.deletes
    | stray hm hpc _ hdel => exact (hinv.not_stray hdel hm hpc).elim
    | strayLeave hm hpc _ hdel => exact (hinv.not_stray hdel hm hpc).elim
    | countDown _ _ _ _ | leave _ _ => exact ih

/-- All threads are behind the block, and each schedule is deleted, once. -/
structure Counted.Finished (p : CrewConfig τ ι β) (s : Counted τ ι β) : Prop where
  outside : ∀ m ∈ p.members, s.behind m = .outside
  deleted : ∀ r < p.config.size, s.deleted r = 1
  sessionOver : Over p.config s.crew.session

/-- Who is behind the block has left the loop. -/
theorem Counted.Finished.left (h : s.Finished p) (hinv : CountedInv p s) : s.crew.AllLeft p :=
  fun m hm => hinv.left m (by rw [h.outside m hm]; nofun)

/-- The way of a thread out of the block. -/
def Behind.todo : Behind → Nat
  | waiting => 2
  | counted => 1
  | outside => 0

def Counted.todo (p : CrewConfig τ ι β) (visits : Nat → List β) (s : Counted τ ι β) :
    (Nat ×ₗ Nat) ×ₗ Nat :=
  toLex (s.crew.todo p visits, (p.members.map fun m => (s.behind m).todo).sum)

/-- Some step brings the end nearer. -/
def Counted.CanStep (p : CrewConfig τ ι β) (visits : Nat → List β) (s : Counted τ ι β) : Prop :=
  ∃ l t, (countedProbingSys p).step s l t ∧ t.todo p visits < s.todo p visits

/-- A step of a thread behind the loop. -/
theorem Counted.canStep_of_behind {l : CountedLabel β} {t : Counted τ ι β} {r i : Nat} {b : Behind}
    (hm : (r, i) ∈ p.members) (hok : s.OwnerLast p l) (hs : Counted.Step p s l t)
    (hl : ∀ l', l ≠ .crew l') (hcrew : t.crew = s.crew)
    (hbehind : t.behind = Function.update s.behind (r, i) b)
    (hlt : b.todo < (s.behind (r, i)).todo) : s.CanStep p visits := by
  refine ⟨l, t, ⟨fun a ha => absurd ha (hl _), hok, hs⟩,
    Prod.Lex.toLex_lt_toLex.mpr (.inr ⟨?_, ?_⟩)⟩
  · rw [hcrew]
  · rw [hbehind]
    exact sum_update_lt hm hlt

section Stuck

variable (hstuck : ¬ s.CanStep p visits)
include hstuck

/-- Who has left has counted down. -/
theorem counted_of_stuck {r i : Nat} (hm : (r, i) ∈ p.members)
    (hleft : (s.crew.thread (r, i)).pc = .left) : s.behind (r, i) ≠ .waiting := by
  intro hwait
  refine hstuck (Counted.canStep_of_behind (l := .countDown r i (s.numThreadsCount r)) hm nofun
    (.countDown hm hleft hwait fun _ => rfl) nofun rfl rfl ?_)
  rw [hwait]
  exact Nat.lt_succ_self 1

/-- Where all have left, none remains. -/
theorem remaining_of_stuck {r : Nat} (hr : r < p.config.size)
    (hleft : ∀ i < p.threads r, (s.crew.thread (r, i)).pc = .left) : s.remaining p r = 0 :=
  Counted.remaining_eq_zero.mpr fun i hi =>
    counted_of_stuck hstuck (p.mem_members.mpr ⟨hr, hi⟩) (hleft i hi)

end Stuck

/-- Until the loop is finished some step brings its end nearer: of a thread that has left
the counting, of one that has counted the way out, of the others what the crew can do. -/
theorem Counted.exists_step (hvisits : p.Visits visits)
    (h : LTS.Reachable (countedProbingSys p) s) (hno : ¬ s.Finished p) : s.CanStep p visits := by
  by_contra hstuck
  have hinv := ownersInv h.of_restrict
  by_cases hcrew : s.crew.AllLeft p ∧ Over p.config s.crew.session
  · obtain ⟨hleft, hover⟩ := hcrew
    have hzero : ∀ r < p.config.size, s.remaining p r = 0 := fun r hr =>
      remaining_of_stuck hstuck hr fun i hi => hleft _ (p.mem_members.mpr ⟨hr, hi⟩)
    refine hno ⟨fun m hm => ?_, fun r hr => hinv.finished r hr (hzero r hr), hover⟩
    obtain ⟨r, i⟩ := m
    have hall := Counted.remaining_eq_zero.mp (hzero r (p.mem_members.mp hm).1)
    cases hpc : s.behind (r, i) with
    | waiting => exact absurd hpc (hall i (p.mem_members.mp hm).2)
    | outside => rfl
    | counted =>
      refine (hstuck (Counted.canStep_of_behind hm ?_ (.leave hm hpc) nofun rfl rfl ?_)).elim
      · rintro _ _ ⟨⟩ _
        exact hall
      · rw [hpc]
        exact Nat.one_pos
  · obtain ⟨l, t, ⟨hok, hs⟩, hlt⟩ := Crew.exists_step hvisits (Counted.crew_probing h) hcrew
    refine hstuck ⟨.crew l, { s with crew := t }, ⟨fun a ha => ?_, nofun, .crew (hs.mono ?_)⟩,
      Prod.Lex.toLex_lt_toLex.mpr (.inl hlt)⟩
    · cases ha
      exact hok a rfl
    -- all threads of the rank have left, so the last of them has deleted the schedule
    · intro _ u _ hdel r hr hend hgone
      have hzero := remaining_of_stuck hstuck hr fun i hi =>
        hdel r i (p.mem_members.mpr ⟨hr, hi⟩) hend hgone
      rw [hinv.finished r hr hzero]
      exact Nat.one_pos

theorem Counted.exists_finished (hvisits : p.Visits visits)
    (h : LTS.Reachable (countedProbingSys p) s) :
    ∃ t, LTS.Reachable ((countedProbingSys p).startingAt s) t ∧ t.Finished p :=
  h.exists_goal (Counted.Finished p) (Counted.todo p visits) fun _ hs hno =>
    Counted.exists_step hvisits hs hno

end

end SimpleParallel.Schedule
