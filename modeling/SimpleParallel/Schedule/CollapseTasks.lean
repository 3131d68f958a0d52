import SimpleParallel.Lib.Spans
import SimpleParallel.Lib.Checked
import SimpleParallel.Schedule.GssTiling
import SimpleParallel.Schedule.Triangle

/-!
# The tasks of a collapsed loop

On a space that `gen_func` enumerates the generator follows the rule `Cut.guided`,
like the one for a single loop.

* `collapse_visits`: the loops over the tasks visit the points of the space, each once
  and in order.
* `collapse_sound_iff`: without a first point where the description says the space
  begins, the count of what is left wraps, or the loop visits a point that the space
  does not have.
-/

namespace SimpleParallel.Schedule

open SimpleParallel.Cut

/-! ## One call -/

namespace Collapse2GssState

variable {state : Collapse2GssState} {p : Nat → IjPoint} {k size : Nat} {ndebug : Bool}

/-- The rule by which the generator cuts. -/
def cut (state : Collapse2GssState) : Cut :=
  guided state.grainSize.toNat state.allRankProcessCount.toNat

/-- The state with the points from `k` on still to come. -/
def atPoint (state : Collapse2GssState) (p : Nat → IjPoint) (k : Nat) : Collapse2GssState :=
  { state with
    current := p k
    remainingIndex := .ofNat (state.remainingIndex.toNat - k) }

theorem toNat_ofNat_le {n : UInt64} (h : k ≤ n.toNat) : (UInt64.ofNat k).toNat = k :=
  UInt64.toNat_ofNat_of_lt' (Nat.lt_of_le_of_lt h n.toNat_lt)

theorem ofNat_ne_zero {n : UInt64} (hpos : 0 < k) (hle : k ≤ n.toNat) : UInt64.ofNat k ≠ 0 := by
  intro hz
  have htoNat := toNat_ofNat_le hle
  rw [hz, UInt64.toNat_zero] at htoNat
  omega

@[simp] theorem atPoint_remaining (state : Collapse2GssState) (p : Nat → IjPoint) (k : Nat) :
    (state.atPoint p k).remainingIndex.toNat = state.remainingIndex.toNat - k :=
  toNat_ofNat_le (Nat.sub_le _ _)

theorem atPoint_zero (hbegin : state.current = p 0) : state.atPoint p 0 = state := by
  rw [atPoint, ← hbegin, Nat.sub_zero, UInt64.ofNat_toNat]

/-- With something left the clamps are those of the rule. -/
theorem toNat_next (hr : state.remainingIndex ≠ 0) :
    state.next.toNat = state.cut.size state.remainingIndex.toNat :=
  Schedule.toNat_next hr

/-- A call asks for as many points as the rule gives. -/
theorem toNat_next_atPoint (hk : k < state.remainingIndex.toNat) :
    (state.atPoint p k).next.toNat = state.cut.size (state.remainingIndex.toNat - k) := by
  have hne : (state.atPoint p k).remainingIndex ≠ 0 :=
    ofNat_ne_zero (Nat.sub_pos_of_lt hk) (Nat.sub_le _ _)
  rw [toNat_next hne, atPoint_remaining]
  rfl

/-- It gets them: `gen_func` leads to the point behind them. -/
theorem genRes_atPoint
    (h : Enumerates state.genFunc state.finalEnd p state.remainingIndex.toNat)
    (hk : k < state.remainingIndex.toNat)
    (hsize : state.cut.size (state.remainingIndex.toNat - k) = size) :
    (state.atPoint p k).genRes = ⟨p (k + size), .ofNat size⟩ := by
  have hnext := toNat_next_atPoint (p := p) hk
  have hpos := state.cut.pos (Nat.sub_pos_of_lt hk)
  have hle := state.cut.le (state.remainingIndex.toNat - k)
  have hcall := h.step k hk _ (UInt64.le_iff_toNat_le.mpr (hnext ▸ hpos))
  rw [hnext, hsize, Nat.min_eq_left (by omega), Nat.min_eq_left (by omega)] at hcall
  exact hcall

/-- Before the end a call hands out the points it asks for. -/
theorem generator_atPoint
    (h : Enumerates state.genFunc state.finalEnd p state.remainingIndex.toNat)
    (hcount : state.allRankProcessCount ≠ 0) (hk : k < state.remainingIndex.toNat)
    (hsize : state.cut.size (state.remainingIndex.toNat - k) = size) :
    collapse2GssGenerator ndebug (state.atPoint p k) =
      some (state.atPoint p (k + size), some ⟨p k, p (k + size)⟩) := by
  have hpos := state.cut.pos (Nat.sub_pos_of_lt hk)
  have hle := state.cut.le (state.remainingIndex.toNat - k)
  have hres := genRes_atPoint h hk hsize
  have hsize' : size ≤ state.remainingIndex.toNat := by omega
  have htoNat : (UInt64.ofNat size).toNat = size := toNat_ofNat_le hsize'
  have hne : UInt64.ofNat size ≠ 0 := ofNat_ne_zero (by omega) hsize'
  have hleft : (state.atPoint p k).remainingIndex - UInt64.ofNat size =
      (state.atPoint p (k + size)).remainingIndex := by
    rw [← UInt64.toNat_inj, UInt64.toNat_sub_of_le, atPoint_remaining, atPoint_remaining, htoNat,
      Nat.sub_sub]
    rw [UInt64.le_iff_toNat_le, atPoint_remaining, htoNat]
    omega
  have hinner : ¬ (state.atPoint p k).current.i = (state.atPoint p k).finalEnd.i :=
    h.inner k hk
  have hcount' : ¬ (state.atPoint p k).allRankProcessCount = 0 := hcount
  rw [collapse2GssGenerator, if_neg hinner, if_neg hcount', hres, hleft,
    if_pos (by simp [hne])]
  rfl

/-- At the end every call reports it. -/
theorem generator_last
    (h : Enumerates state.genFunc state.finalEnd p state.remainingIndex.toNat) :
    collapse2GssGenerator ndebug (state.atPoint p state.remainingIndex.toNat) =
      some (state.atPoint p state.remainingIndex.toNat, none) := by
  have hzero : (state.atPoint p state.remainingIndex.toNat).remainingIndex = 0 := by
    rw [← UInt64.toNat_inj, atPoint_remaining, Nat.sub_self]
    rfl
  have hlast : (state.atPoint p state.remainingIndex.toNat).current.i =
      (state.atPoint p state.remainingIndex.toNat).finalEnd.i := h.last
  rw [collapse2GssGenerator, if_pos hlast, hzero, if_pos (by simp)]

/-! ## A run, and the loops over its tasks -/

/-- The task over a span of points. -/
def taskOf (p : Nat → IjPoint) (span : Nat × Nat) : Collapse2Task := ⟨p span.1, p span.2⟩

/-- The points of a span. -/
def pointsOf (p : Nat → IjPoint) (span : Nat × Nat) : List IjPoint :=
  (List.range' span.1 (span.2 - span.1)).map p

/-- The generator follows the rule to the end of the space. -/
theorem yields_spans (h : Enumerates state.genFunc state.finalEnd p state.remainingIndex.toNat)
    (hcount : state.allRankProcessCount ≠ 0) (k r : Nat) (hr : k + r = state.remainingIndex.toNat) :
    Yields (collapse2GssGenerator ndebug) (state.atPoint p k)
      ((state.cut.spans k r).map (taskOf p)) := by
  induction k, r using spans.induct state.cut with
  | case1 k =>
    obtain rfl : k = state.remainingIndex.toNat := hr
    rw [spans_zero]
    exact .done (generator_last h)
  | case2 k r hne ih =>
    have hle := state.cut.le r
    have hleft : state.remainingIndex.toNat - k = r := by omega
    rw [spans_pos hne]
    exact .more (generator_atPoint h hcount (by omega) (by rw [hleft])) (ih (by omega))

/-- After any number of calls the state is at the point behind those handed out. -/
theorem afterCalls_spans
    (h : Enumerates state.genFunc state.finalEnd p state.remainingIndex.toNat)
    (hcount : state.allRankProcessCount ≠ 0) (k r : Nat) (hr : k + r = state.remainingIndex.toNat)
    (calls : Nat) : ∃ handed, handed ≤ r ∧
      handed = (((state.cut.spans k r).map (pointsOf p)).take calls).flatten.length ∧
      afterCalls (collapse2GssGenerator ndebug) (state.atPoint p k) calls =
        some (state.atPoint p (k + handed)) := by
  induction k, r using spans.induct state.cut generalizing calls with
  | case1 k =>
    obtain rfl : k = state.remainingIndex.toNat := hr
    refine ⟨0, Nat.le_refl 0, ?_, afterCalls_fixed (generator_last h) calls⟩
    rw [spans_zero, List.map_nil, List.take_nil]
    rfl
  | case2 k r hne ih =>
    cases calls with
    | zero => exact ⟨0, Nat.zero_le r, by rw [List.take_zero]; rfl, rfl⟩
    | succ calls =>
      have hle := state.cut.le r
      have hleft : state.remainingIndex.toNat - k = r := by omega
      obtain ⟨handed, hhanded, hlen, hafter⟩ := ih (by omega) calls
      refine ⟨state.cut.size r + handed, by omega, ?_, ?_⟩
      · rw [spans_pos hne, List.map_cons, List.take_succ_cons, List.flatten_cons,
          List.length_append, ← hlen, pointsOf, List.length_map, List.length_range']
        show _ = k + state.cut.size r - k + handed
        omega
      · rw [afterCalls_cons (generator_atPoint h hcount (by omega) (by rw [hleft])), hafter,
          Nat.add_assoc]

/-- The two comparisons of the loop compare points. -/
theorem loopStep_eq (genFunc : GenFunc) (finalEnd ijEnd ij : IjPoint) :
    loopStep genFunc finalEnd ijEnd ij =
      if ij = ijEnd then some (ij, none) else some ((genFunc ij finalEnd 1).ijEnd, some ij) := by
  have hne : ij.i ≠ ijEnd.i ∨ ij.j ≠ ijEnd.j ↔ ¬ ij = ijEnd := by
    rw [IjPoint.ext_iff, not_and_or]
  simp only [loopStep, hne, ite_not]

/-- From a point to a later one the loop visits the points between them. -/
theorem loop_visits (h : Enumerates state.genFunc state.finalEnd p state.remainingIndex.toNat)
    {a b : Nat} (hab : a ≤ b) (hb : b ≤ state.remainingIndex.toNat) :
    Yields (loopStep state.genFunc state.finalEnd (p b)) (p a) (pointsOf p (a, b)) := by
  induction hd : b - a generalizing a with
  | zero =>
    obtain rfl : a = b := by omega
    rw [pointsOf, Nat.sub_self]
    exact .done ((loopStep_eq _ _ _ _).trans (if_pos rfl))
  | succ d ih =>
    have hne : p a ≠ p b := fun heq => absurd (h.injective a b (by omega) hb heq) (by omega)
    have hnext : (state.genFunc (p a) state.finalEnd 1).ijEnd = p (a + 1) := by
      rw [h.step a (by omega) 1 (by decide), UInt64.toNat_one, Nat.min_eq_left (by omega)]
    have hcall : loopStep state.genFunc state.finalEnd (p b) (p a) =
        some (p (a + 1), some (p a)) := by
      rw [loopStep_eq, if_neg hne, hnext]
    have hpoints : pointsOf p (a, b) = p a :: pointsOf p (a + 1, b) := by
      have hcount : b - a = (b - (a + 1)) + 1 := by omega
      simp only [pointsOf]
      rw [hcount, List.range'_succ, List.map_cons]
    rw [hpoints]
    exact .more hcall (ih (by omega) (by omega))

end Collapse2GssState

/-- The loops over the tasks of a space visit its points, each once and in order, and
what is left is counted right. -/
theorem collapse_visits (ndebug : Bool) {genFunc : GenFunc} {finalEnd : IjPoint}
    {p : Nat → IjPoint} {allIndexCount : UInt64} (grainSize : UInt64)
    {allRankProcessCount : UInt64} (h : Enumerates genFunc finalEnd p allIndexCount.toNat)
    (hcount : 1 ≤ allRankProcessCount) :
    ∃ (tasks : List Collapse2Task) (visits : List (List IjPoint)),
      Yields (collapse2GssGenerator ndebug) (newCollapse2GssState (p 0) finalEnd grainSize
        allIndexCount genFunc allRankProcessCount) tasks ∧
      tasks.length ≤ allIndexCount.toNat ∧
      List.Forall₂ (fun task => Yields (loopStep genFunc finalEnd task.ijEnd) task.ijBegin)
        tasks visits ∧
      visits.flatten = (List.range allIndexCount.toNat).map p ∧
      ∀ calls, ∃ state,
        afterCalls (collapse2GssGenerator ndebug) (newCollapse2GssState (p 0) finalEnd grainSize
          allIndexCount genFunc allRankProcessCount) calls = some state ∧
        state.remainingIndex.toNat = allIndexCount.toNat - (visits.take calls).flatten.length := by
  have hne : allRankProcessCount ≠ 0 := by
    intro hz
    rw [hz] at hcount
    exact absurd hcount (by decide)
  let state := newCollapse2GssState (p 0) finalEnd grainSize allIndexCount genFunc
    allRankProcessCount
  have hspace : Enumerates state.genFunc state.finalEnd p state.remainingIndex.toNat := h
  have hcount' : state.allRankProcessCount ≠ 0 := hne
  have hstart : state.atPoint p 0 = state := Collapse2GssState.atPoint_zero rfl
  let spans := state.cut.spans 0 allIndexCount.toNat
  refine ⟨spans.map (Collapse2GssState.taskOf p), spans.map (Collapse2GssState.pointsOf p),
    ?_, ?_, ?_, ?_, fun calls => ?_⟩
  · have hyields : Yields (collapse2GssGenerator ndebug) (state.atPoint p 0) _ :=
      Collapse2GssState.yields_spans hspace hcount' 0 _ (Nat.zero_add _)
    rwa [hstart] at hyields
  · rw [List.length_map]
    exact length_spans_le _ _ _
  · rw [List.forall₂_map_left_iff, List.forall₂_map_right_iff, List.forall₂_same]
    intro span hspan
    obtain ⟨-, hlt, hhi, -⟩ := mem_spans hspan
    rw [Nat.zero_add] at hhi
    exact Collapse2GssState.loop_visits hspace (Nat.le_of_lt hlt) hhi
  · rw [List.range_eq_range', ← flatMap_spans state.cut 0 allIndexCount.toNat, List.map_flatMap]
    rfl
  · obtain ⟨handed, -, hlen, hafter⟩ :=
      Collapse2GssState.afterCalls_spans hspace hcount' 0 _ (Nat.zero_add _) calls
    rw [hstart, Nat.zero_add] at hafter
    exact ⟨_, hafter, by rw [Collapse2GssState.atPoint_remaining, hlen]; rfl⟩

/-- The loop of the C example: 55 points, for two threads of one rank. -/
theorem collapse_visits_example : ∃ tasks : List Collapse2Task,
    Yields (collapse2GssGenerator false)
      (newCollapse2GssState ⟨0, 0⟩ ⟨10, 10⟩ 4 55 myGenFunc 80) tasks ∧ tasks.length ≤ 55 := by
  have h : Enumerates myGenFunc ⟨10, 10⟩ (trianglePoint 10) (55 : UInt64).toNat :=
    triangle_enumerates ⟨10, 10⟩
  obtain ⟨tasks, -, hyields, hlen, -⟩ := collapse_visits false 4 h (by decide : 1 ≤ (80 : UInt64))
  exact ⟨tasks, hyields, hlen⟩

/-! ## Spaces without a first point -/

/-- A space described to `s_p_new_collapse_2_gss_state`: the begin may lie before its
first point, and there may be none. -/
structure Describes (genFunc : GenFunc) (ijBegin finalEnd : IjPoint) (p : Nat → IjPoint)
    (n : Nat) : Prop extends Enumerates genFunc finalEnd p n where
  /-- no row, no point -/
  rows : ijBegin.i = finalEnd.i → n = 0
  start : ijBegin.i ≠ finalEnd.i → ∀ count : UInt64, 1 ≤ count →
    genFunc ijBegin finalEnd count = ⟨p (min count.toNat n), .ofNat (min count.toNat n)⟩

/-- No call wraps below zero or gets no point, and no body runs on a point that the space
does not have. -/
structure CollapseSound (ndebug : Bool) (start : Collapse2GssState) (p : Nat → IjPoint)
    (n : Nat) : Prop where
  ends : ∃ tasks, Yields (collapse2GssGenerator ndebug) start tasks ∧ tasks.length ≤ n
  pred : ∀ calls state, afterCalls (collapse2GssGenerator ndebug) start calls = some state →
    state.current.i ≠ state.finalEnd.i → checkedSub state.remainingIndex 1 ≠ none
  asked : ∀ calls state, afterCalls (collapse2GssGenerator ndebug) start calls = some state →
    state.current.i ≠ state.finalEnd.i → 1 ≤ state.next ∧ state.genRes.count ≠ 0
  body : ∀ calls state state' task,
    afterCalls (collapse2GssGenerator ndebug) start calls = some state →
    collapse2GssGenerator ndebug state = some (state', some task) →
    ∀ steps ij ij', afterCalls (loopStep start.genFunc start.finalEnd task.ijEnd) task.ijBegin
      steps = some ij →
    loopStep start.genFunc start.finalEnd task.ijEnd ij = some (ij', some ij) →
    ∃ k < n, ij = p k

/-- A space with a point is described by its first. -/
theorem Enumerates.describes {genFunc : GenFunc} {finalEnd : IjPoint} {p : Nat → IjPoint} {n : Nat}
    (h : Enumerates genFunc finalEnd p n) (hn : 0 < n) : Describes genFunc (p 0) finalEnd p n where
  toEnumerates := h
  rows hrow := absurd hrow (h.inner 0 hn)
  start _ count hcount := by
    rw [h.step 0 hn count hcount, Nat.zero_add, Nat.sub_zero]

/-- The begin of a description is the first point, or none. -/
theorem Describes.begin_ne {genFunc : GenFunc} {ijBegin finalEnd : IjPoint} {p : Nat → IjPoint}
    {n k : Nat} (h : Describes genFunc ijBegin finalEnd p n)
    (hrow : ijBegin.i ≠ finalEnd.i) (hne : ijBegin ≠ p 0) (hk : k ≤ n) : ijBegin ≠ p k := by
  rintro rfl
  have hlt : k < n := Nat.lt_of_le_of_ne hk fun hkn => hrow (hkn ▸ h.last)
  have hone := h.start hrow 1 (by decide)
  rw [h.step k hlt 1 (by decide), GenFuncRes.mk.injEq, UInt64.toNat_one] at hone
  have hplace := h.injective _ _ (Nat.min_le_right _ _) (Nat.min_le_right _ _) hone.1
  have hpos : k ≠ 0 := fun hz => hne (hz ▸ rfl)
  omega

namespace Collapse2GssState

variable {state : Collapse2GssState} {p : Nat → IjPoint} {ndebug : Bool}

/-- However far it has run, the loop over a task is at one of the task's points. -/
theorem loop_at (h : Enumerates state.genFunc state.finalEnd p state.remainingIndex.toNat)
    {a b steps : Nat} {ij : IjPoint} (hab : a ≤ b) (hb : b ≤ state.remainingIndex.toNat)
    (hafter : afterCalls (loopStep state.genFunc state.finalEnd (p b)) (p a) steps = some ij) :
    ∃ k ≤ b, ij = p k := by
  refine afterCalls_invariant (P := fun ij => ∃ k ≤ b, ij = p k) ⟨a, hab, rfl⟩ ?_ hafter
  rintro _ ij' next ⟨k, hk, rfl⟩ hcall
  rw [loopStep_eq] at hcall
  split at hcall
  · cases hcall
    exact ⟨k, hk, rfl⟩
  · next hne =>
    have hlt : k < b := Nat.lt_of_le_of_ne hk fun hkb => hne (hkb ▸ rfl)
    rw [h.step k (by omega) 1 (by decide), UInt64.toNat_one, Nat.min_eq_left (by omega)] at hcall
    cases hcall
    exact ⟨k + 1, hlt, rfl⟩

/-- The generator is always at one of the points, or at the end. -/
theorem exists_atPoint (h : Enumerates state.genFunc state.finalEnd p state.remainingIndex.toNat)
    (hcount : state.allRankProcessCount ≠ 0) (hbegin : state.current = p 0) {calls : Nat}
    {state' : Collapse2GssState}
    (hafter : afterCalls (collapse2GssGenerator ndebug) state calls = some state') :
    ∃ k ≤ state.remainingIndex.toNat, state' = state.atPoint p k := by
  obtain ⟨k, hk, -, hafter'⟩ := afterCalls_spans h hcount 0 _ (Nat.zero_add _) calls
  rw [atPoint_zero hbegin, Nat.zero_add, hafter] at hafter'
  exact ⟨k, hk, Option.some.inj hafter'⟩

/-- Where a row is left, a point is left. -/
theorem lt_of_row_ne (h : Enumerates state.genFunc state.finalEnd p state.remainingIndex.toNat)
    {k : Nat} (hk : k ≤ state.remainingIndex.toNat)
    (hrow : (state.atPoint p k).current.i ≠ (state.atPoint p k).finalEnd.i) :
    k < state.remainingIndex.toNat :=
  Nat.lt_of_le_of_ne hk fun heq => hrow (heq ▸ h.last)

/-- The bodies of a task run on points of the space. -/
theorem body_at (h : Enumerates state.genFunc state.finalEnd p state.remainingIndex.toNat)
    (hcount : state.allRankProcessCount ≠ 0) {k steps : Nat} (hk : k ≤ state.remainingIndex.toNat)
    {state' : Collapse2GssState} {task : Collapse2Task} {ij ij' : IjPoint}
    (hcall : collapse2GssGenerator ndebug (state.atPoint p k) = some (state', some task))
    (hloop : afterCalls (loopStep state.genFunc state.finalEnd task.ijEnd) task.ijBegin steps =
      some ij)
    (hbody : loopStep state.genFunc state.finalEnd task.ijEnd ij = some (ij', some ij)) :
    ∃ l < state.remainingIndex.toNat, ij = p l := by
  rcases Nat.lt_or_eq_of_le hk with hleft | rfl
  · have hle := state.cut.le (state.remainingIndex.toNat - k)
    rw [generator_atPoint h hcount hleft rfl] at hcall
    cases hcall
    obtain ⟨l, hl, rfl⟩ := loop_at h (Nat.le_add_right k _) (by omega) hloop
    refine ⟨l, Nat.lt_of_lt_of_le (Nat.lt_of_le_of_ne hl ?_) (by omega), rfl⟩
    -- at the task's end the loop runs no body
    rintro rfl
    rw [loopStep_eq, if_pos rfl] at hbody
    cases hbody
  · rw [generator_last h] at hcall
    cases hcall

/-- A space that begins with its first point is handled as it should be. -/
theorem sound_of_first
    (h : Enumerates state.genFunc state.finalEnd p state.remainingIndex.toNat)
    (hcount : state.allRankProcessCount ≠ 0) (hbegin : state.current = p 0) :
    CollapseSound ndebug state p state.remainingIndex.toNat := by
  constructor
  · have hyields : Yields (collapse2GssGenerator ndebug) (state.atPoint p 0) _ :=
      yields_spans h hcount 0 _ (Nat.zero_add _)
    rw [atPoint_zero hbegin] at hyields
    exact ⟨_, hyields, by rw [List.length_map]; exact length_spans_le _ _ _⟩
  · intro calls state' hafter hrow
    obtain ⟨k, hk, rfl⟩ := exists_atPoint h hcount hbegin hafter
    have hleft := lt_of_row_ne h hk hrow
    rw [checkedSub_of_le]
    · exact Option.some_ne_none _
    · rw [UInt64.le_iff_toNat_le, atPoint_remaining, UInt64.toNat_one]
      omega
  · intro calls state' hafter hrow
    obtain ⟨k, hk, rfl⟩ := exists_atPoint h hcount hbegin hafter
    have hleft := lt_of_row_ne h hk hrow
    have hpos := state.cut.pos (Nat.sub_pos_of_lt hleft)
    have hle := state.cut.le (state.remainingIndex.toNat - k)
    refine ⟨?_, ?_⟩
    · rw [UInt64.le_iff_toNat_le, toNat_next_atPoint hleft]
      exact hpos
    · rw [genRes_atPoint h hleft rfl]
      exact ofNat_ne_zero hpos (hle.trans (Nat.sub_le _ _))
  · intro calls state' state'' task hafter hcall steps ij ij' hloop hbody
    obtain ⟨k, hk, rfl⟩ := exists_atPoint h hcount hbegin hafter
    exact body_at h hcount hk hcall hloop hbody

/-- Without rows the first call reports the end. -/
theorem sound_of_noRows {n : Nat} (hrow : state.current.i = state.finalEnd.i)
    (hzero : state.remainingIndex = 0) : CollapseSound ndebug state p n := by
  have hcall : collapse2GssGenerator ndebug state = some (state, none) := by
    rw [collapse2GssGenerator, if_pos hrow, hzero, if_pos (by simp)]
  have hat : ∀ calls state', afterCalls (collapse2GssGenerator ndebug) state calls = some state' →
      state' = state := by
    intro calls state' hafter
    rw [afterCalls_fixed hcall] at hafter
    exact (Option.some.inj hafter).symm
  constructor
  · exact ⟨[], .done hcall, Nat.zero_le n⟩
  · intro calls state' hafter hne
    exact absurd (hat calls state' hafter ▸ hrow) hne
  · intro calls state' hafter hne
    exact absurd (hat calls state' hafter ▸ hrow) hne
  · intro calls state' state'' task hafter hcall'
    rw [hat calls state' hafter, hcall] at hcall'
    cases hcall'

/-- With rows but no point the first call wraps. -/
theorem not_sound_of_empty {n : Nat} (hrow : state.current.i ≠ state.finalEnd.i)
    (hzero : state.remainingIndex = 0) : ¬ CollapseSound ndebug state p n := by
  intro hsound
  refine hsound.pred 0 state rfl hrow ?_
  rw [hzero]
  exact checkedSub_eq_none (by decide)

/-- A begin before the first point is a point to the loop. -/
theorem not_sound_of_before
    (h : Describes state.genFunc state.current state.finalEnd p state.remainingIndex.toNat)
    (hcount : state.allRankProcessCount ≠ 0) (hrow : state.current.i ≠ state.finalEnd.i)
    (hn : state.remainingIndex ≠ 0) (hbegin : state.current ≠ p 0) :
    ¬ CollapseSound ndebug state p state.remainingIndex.toNat := by
  intro hsound
  have hpos := state.cut.pos (toNat_pos hn)
  have hle := state.cut.le state.remainingIndex.toNat
  have hnext := toNat_next hn
  have hres : state.genRes = ⟨p (state.cut.size state.remainingIndex.toNat), state.next⟩ := by
    rw [genRes, h.start hrow _ (UInt64.le_iff_toNat_le.mpr (hnext ▸ hpos)), hnext,
      Nat.min_eq_left hle, ← hnext, UInt64.ofNat_toNat]
  have hcall : collapse2GssGenerator ndebug state =
      some ({ state with
          current := state.genRes.ijEnd
          remainingIndex := state.remainingIndex - state.genRes.count },
        some ⟨state.current, state.genRes.ijEnd⟩) := by
    have hcount' : state.genRes.count ≠ 0 := (hsound.asked 0 state rfl hrow).2
    rw [collapse2GssGenerator, if_neg hrow, if_neg hcount, if_pos (by simp [hcount'])]
  have hbody := (loopStep_eq state.genFunc state.finalEnd state.genRes.ijEnd state.current).trans
    (if_neg (by rw [hres]; exact h.begin_ne hrow hbegin hle))
  obtain ⟨k, hk, heq⟩ := hsound.body 0 state _ _ rfl hcall 0 state.current _ rfl hbody
  exact h.begin_ne hrow hbegin (Nat.le_of_lt hk) heq

end Collapse2GssState

/-- The generator is sound for a description exactly if this has no rows, or begins with
the first point of the space. -/
theorem collapse_sound_iff (ndebug : Bool) {genFunc : GenFunc} {ijBegin finalEnd : IjPoint}
    {p : Nat → IjPoint} {allIndexCount : UInt64} (grainSize : UInt64)
    {allRankProcessCount : UInt64}
    (h : Describes genFunc ijBegin finalEnd p allIndexCount.toNat)
    (hcount : 1 ≤ allRankProcessCount) :
    CollapseSound ndebug (newCollapse2GssState ijBegin finalEnd grainSize allIndexCount genFunc
        allRankProcessCount) p allIndexCount.toNat ↔
      ijBegin.i = finalEnd.i ∨ 1 ≤ allIndexCount ∧ ijBegin = p 0 := by
  have hne : allRankProcessCount ≠ 0 := by
    intro hz
    rw [hz] at hcount
    exact absurd hcount (by decide)
  by_cases hrow : ijBegin.i = finalEnd.i
  · have hzero : allIndexCount = 0 := UInt64.toNat_inj.mp (h.rows hrow)
    exact ⟨fun _ => .inl hrow, fun _ => Collapse2GssState.sound_of_noRows hrow hzero⟩
  by_cases hzero : allIndexCount = 0
  · refine ⟨fun hsound => ?_, fun hor => ?_⟩
    · exact absurd hsound (Collapse2GssState.not_sound_of_empty hrow hzero)
    · rw [hzero] at hor
      exact absurd (hor.resolve_left hrow).1 (by decide)
  · have hone : 1 ≤ allIndexCount := UInt64.le_iff_toNat_le.mpr (toNat_pos hzero)
    let state := newCollapse2GssState ijBegin finalEnd grainSize allIndexCount genFunc
      allRankProcessCount
    by_cases hbegin : ijBegin = p 0
    · have hspace : Enumerates state.genFunc state.finalEnd p state.remainingIndex.toNat :=
        h.toEnumerates
      exact ⟨fun _ => .inr ⟨hone, hbegin⟩,
        fun _ => Collapse2GssState.sound_of_first hspace hne hbegin⟩
    · have hspace : Describes state.genFunc state.current state.finalEnd p
          state.remainingIndex.toNat := h
      refine ⟨fun hsound => ?_, fun hor => ?_⟩
      · exact absurd hsound (Collapse2GssState.not_sound_of_before hspace hne hrow hzero hbegin)
      · exact absurd (hor.resolve_left hrow).2 hbegin

/-- The triangle of the C example begins with its first point. -/
theorem collapse_sound_example : CollapseSound true
    (newCollapse2GssState ⟨0, 0⟩ ⟨10, 10⟩ 4 55 myGenFunc 80) (trianglePoint 10)
    (55 : UInt64).toNat := by
  have h : Describes myGenFunc ⟨0, 0⟩ ⟨10, 10⟩ (trianglePoint 10) (55 : UInt64).toNat :=
    (triangle_enumerates ⟨10, 10⟩).describes (by decide)
  exact (collapse_sound_iff true 4 h (by decide : 1 ≤ (80 : UInt64))).mpr
    (.inr ⟨by decide, rfl⟩)

/-- `my_gen_func` with `j < i`. -/
def strictGenFunc : GenFunc := rowGenFunc fun i j => j < i

/-- The first row of the strict triangle has no point. -/
theorem strict_describes :
    Describes strictGenFunc ⟨0, 0⟩ ⟨1, 0⟩ (fun _ => ⟨1, 0⟩) (0 : UInt64).toNat where
  injective k l hk hl _ := by
    rw [Nat.le_zero.mp hk, Nat.le_zero.mp hl]
  last := rfl
  inner k hk := absurd hk (Nat.not_lt_zero k)
  step k hk := absurd hk (Nat.not_lt_zero k)
  rows h := absurd h (by decide)
  start _ count _ := by
    rw [strictGenFunc, rowGenFunc, rowLoop_end _ (by decide) (by decide), UInt64.toNat_zero,
      Nat.min_zero]
    rfl

/-- The strict triangle with one row: no point, but a row. -/
theorem collapse_not_sound :
    Describes strictGenFunc ⟨0, 0⟩ ⟨1, 0⟩ (fun _ => ⟨1, 0⟩) (0 : UInt64).toNat ∧
    ∀ ndebug, ¬ CollapseSound ndebug
      (newCollapse2GssState ⟨0, 0⟩ ⟨1, 0⟩ 4 0 strictGenFunc 80) (fun _ => ⟨1, 0⟩)
      (0 : UInt64).toNat :=
  ⟨strict_describes, fun _ => Collapse2GssState.not_sound_of_empty (by decide) rfl⟩

/-- Without assertions the task leads the loop through a point outside the space. -/
example : ∃ state,
    collapse2GssGenerator true (newCollapse2GssState ⟨0, 0⟩ ⟨1, 0⟩ 4 0 strictGenFunc 80) =
        some (state, some ⟨⟨0, 0⟩, ⟨1, 0⟩⟩) ∧
      loopStep strictGenFunc ⟨1, 0⟩ ⟨1, 0⟩ ⟨0, 0⟩ = some (⟨1, 0⟩, some ⟨0, 0⟩) :=
  ⟨_, rfl, rfl⟩

end SimpleParallel.Schedule
