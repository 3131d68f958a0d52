import Mathlib.Algebra.Order.BigOperators.Group.Finset
import SimpleParallel.Lib.RoundRobin
import SimpleParallel.Schedule.Session

/-!
# The first distribution

`first_time_handle_client_request` (`cxx/dynamic_schedule.h`) answers the requests that
all clients have sent ahead: one element to each client in a pass over the ranks, again
and again until all are answered or the range has ended. Here it is a loop by itself.
Its calls into MPI, and the buffers in which it keeps the requests, are those of
`Session`.

* `firstWhile_turns`: the clients are dealt the elements in rounds (`RoundRobin`).
* `first_round_sent`: in every run of a session the server sends what this loop sends.
* `first_distribution`: which element goes where, and that the loop ends.
-/

namespace SimpleParallel.Schedule

open RoundRobin

/-- `buffer_sizes`, the position of `m_iter`, and the sends so far: the client and the
index of the element. -/
structure FirstRound where
  bufferSizes : Nat → Nat
  iter : Nat
  sent : List (Nat × Nat)

/-- `m_comm.isend(i, server_send_val, *m_iter)`, `m_iter++` and `buffer_size--`. -/
def FirstRound.send (st : FirstRound) (i : Nat) : FirstRound where
  bufferSizes := Function.update st.bufferSizes i (st.bufferSizes i - 1)
  iter := st.iter + 1
  sent := st.sent ++ [(i, st.iter)]

/-- One pass of the `for` over the ranks, with whether it returned. -/
def firstFor (n : Nat) : List Nat → FirstRound → FirstRound × Bool
  | [], st => (st, false)
  | i :: ranks, st =>
    if i = rootRank then firstFor n ranks st
    else if st.bufferSizes i = 0 then firstFor n ranks st
    else if st.iter = n then (st, true)
    else firstFor n ranks (st.send i)

/-- `while (!all_of(buffer_sizes, handled))`. -/
def firstWhile (size n : Nat) : Nat → FirstRound → Option FirstRound
  | 0, _ => none
  | fuel + 1, st =>
    if ∀ i < size, st.bufferSizes i = 0 then some st
    else match firstFor n (List.range size) st with
      | (st', true) => some st'
      | (st', false) => firstWhile size n fuel st'

/-- `first_time_handle_client_request` over a range of `n` elements. -/
def firstTimeHandleClientRequest (size n : Nat) (bufferSizes : Nat → Nat) (fuel : Nat) :
    Option FirstRound :=
  firstWhile size n fuel ⟨bufferSizes, 0, []⟩

/-- The ranks that the loop does not pass over. -/
def clients (size : Nat) : List Nat := (List.range size).filter fun i => i ≠ rootRank

theorem mem_clients {size i : Nat} : i ∈ clients size ↔ i < size ∧ i ≠ rootRank := by
  rw [clients, List.mem_filter, List.mem_range, decide_eq_true_iff]

theorem clients_nodup (size : Nat) : (clients size).Nodup :=
  List.nodup_range.filter _

theorem clients_sorted (size : Nat) : (clients size).Pairwise (· < ·) :=
  List.pairwise_lt_range.filter _

/-! ## One pass -/

section

variable {n : Nat} {st st' : FirstRound} {ranks : List Nat} {i : Nat}

/-- The ranks of a pass that wait for an element. -/
def FirstRound.due (st : FirstRound) (ranks : List Nat) : List Nat :=
  ranks.filter fun i => st.bufferSizes i ≠ 0

theorem FirstRound.send_self : (st.send i).bufferSizes i = st.bufferSizes i - 1 :=
  Function.update_self _ _ _

theorem FirstRound.send_of_ne {j : Nat} (h : j ≠ i) :
    (st.send i).bufferSizes j = st.bufferSizes j :=
  Function.update_of_ne h _ _

theorem firstFor_skip (ranks : List Nat) (hz : st.bufferSizes i = 0) :
    firstFor n (i :: ranks) st = firstFor n ranks st := by
  rw [firstFor, if_pos hz, ite_self]

theorem firstFor_return (ranks : List Nat) (hroot : i ≠ rootRank) (hz : st.bufferSizes i ≠ 0)
    (hdone : st.iter = n) : firstFor n (i :: ranks) st = (st, true) := by
  rw [firstFor, if_neg hroot, if_neg hz, if_pos hdone]

theorem firstFor_send (ranks : List Nat) (hroot : i ≠ rootRank) (hz : st.bufferSizes i ≠ 0)
    (hdone : st.iter ≠ n) : firstFor n (i :: ranks) st = firstFor n ranks (st.send i) := by
  rw [firstFor, if_neg hroot, if_neg hz, if_neg hdone]

theorem FirstRound.due_skip (hz : st.bufferSizes i = 0) : st.due (i :: ranks) = st.due ranks :=
  List.filter_cons_of_neg (by simp [hz])

theorem FirstRound.due_cons (hz : st.bufferSizes i ≠ 0) :
    st.due (i :: ranks) = i :: st.due ranks :=
  List.filter_cons_of_pos (by simp [hz])

theorem FirstRound.due_send (hi : i ∉ ranks) : (st.send i).due ranks = st.due ranks :=
  List.filter_congr fun j hj => by rw [send_of_ne fun h : j = i => hi (h ▸ hj)]

/-- A pass that returns has found the end of the range before a rank that waits. -/
theorem firstFor_returned (hnodup : ranks.Nodup) (hroot : st.bufferSizes rootRank = 0)
    (hle : st.iter ≤ n) (hshort : n - st.iter < (st.due ranks).length) :
    ∃ st', firstFor n ranks st = (st', true) ∧
      st'.sent = st.sent ++ ((st.due ranks).take (n - st.iter)).zipIdx st.iter := by
  induction ranks generalizing st with
  | nil => exact absurd hshort (Nat.not_lt_zero _)
  | cons i ranks ih =>
    obtain ⟨hi, hnodup'⟩ := List.nodup_cons.mp hnodup
    by_cases hz : st.bufferSizes i = 0
    · rw [FirstRound.due_skip hz] at hshort ⊢
      rw [firstFor_skip ranks hz]
      exact ih hnodup' hroot hle hshort
    · have hne : i ≠ rootRank := fun h => hz (h ▸ hroot)
      by_cases hdone : st.iter = n
      · refine ⟨st, firstFor_return ranks hne hz hdone, ?_⟩
        rw [hdone, Nat.sub_self, List.take_zero]
        exact (List.append_nil _).symm
      · rw [FirstRound.due_cons hz] at hshort ⊢
        rw [firstFor_send ranks hne hz hdone]
        have hleft : n - st.iter = n - (st.iter + 1) + 1 := by omega
        rw [hleft, List.length_cons] at hshort
        rw [← FirstRound.due_send hi] at hshort ⊢
        obtain ⟨st', hfor, hsent⟩ := ih hnodup' ((FirstRound.send_of_ne hne.symm).trans hroot)
          (show st.iter + 1 ≤ n by omega) (Nat.lt_of_succ_lt_succ hshort)
        refine ⟨st', hfor, ?_⟩
        rw [hsent, hleft, List.take_succ_cons, List.zipIdx_cons]
        exact List.append_assoc _ _ _

/-- Else it has handed out one element to each of those that wait. -/
theorem firstFor_passed (hnodup : ranks.Nodup) (hroot : st.bufferSizes rootRank = 0)
    (hle : st.iter + (st.due ranks).length ≤ n) :
    ∃ st', firstFor n ranks st = (st', false) ∧
      st'.sent = st.sent ++ (st.due ranks).zipIdx st.iter ∧
      st'.iter = st.iter + (st.due ranks).length ∧
      (∀ i ∈ ranks, st'.bufferSizes i = st.bufferSizes i - 1) ∧
      ∀ i, i ∉ ranks → st'.bufferSizes i = st.bufferSizes i := by
  induction ranks generalizing st with
  | nil =>
    exact ⟨st, rfl, (List.append_nil _).symm, rfl, fun i hi => absurd hi List.not_mem_nil,
      fun _ _ => rfl⟩
  | cons i ranks ih =>
    obtain ⟨hi, hnodup'⟩ := List.nodup_cons.mp hnodup
    by_cases hz : st.bufferSizes i = 0
    · rw [FirstRound.due_skip hz] at hle ⊢
      rw [firstFor_skip ranks hz]
      obtain ⟨st', hfor, hsent, hiter, hin, hout⟩ := ih hnodup' hroot hle
      refine ⟨st', hfor, hsent, hiter, fun j hj => ?_, fun j hj => ?_⟩
      · rcases List.mem_cons.mp hj with rfl | hj
        · rw [hout j hi, hz]
        · exact hin j hj
      · exact hout j (List.not_mem_of_not_mem_cons hj)
    · have hne : i ≠ rootRank := fun h => hz (h ▸ hroot)
      rw [FirstRound.due_cons hz, List.length_cons] at hle ⊢
      rw [firstFor_send ranks hne hz (by omega)]
      rw [← FirstRound.due_send hi] at hle ⊢
      obtain ⟨st', hfor, hsent, hiter, hin, hout⟩ := ih hnodup'
        ((FirstRound.send_of_ne hne.symm).trans hroot)
        (show st.iter + 1 + ((st.send i).due ranks).length ≤ n by omega)
      refine ⟨st', hfor, ?_, ?_, fun j hj => ?_, fun j hj => ?_⟩
      · rw [hsent, List.zipIdx_cons]
        exact List.append_assoc _ _ _
      · rw [hiter]
        show st.iter + 1 + _ = _
        omega
      · rcases List.mem_cons.mp hj with rfl | hj
        · rw [hout j hi, FirstRound.send_self]
        · rw [hin j hj, FirstRound.send_of_ne fun h : j = i => hi (h ▸ hj)]
      · rw [hout j (List.not_mem_of_not_mem_cons hj),
          FirstRound.send_of_ne (List.ne_of_not_mem_cons hj)]

end

/-! ## All passes -/

section

variable {size n : Nat} {bufferSizes : Nat → Nat}

/-- The state before pass `k`. The root takes no part. -/
structure FirstRound.InPass (st : FirstRound) (size : Nat) (bufferSizes : Nat → Nat) (k : Nat) :
    Prop where
  sizes : ∀ i < size, st.bufferSizes i = bufferSizes i - k
  root : st.bufferSizes rootRank = 0

theorem firstWhile_handled {fuel : Nat} {st : FirstRound} (h : ∀ i < size, st.bufferSizes i = 0) :
    firstWhile size n (fuel + 1) st = some st := by
  rw [firstWhile, if_pos h]

theorem firstWhile_returned {fuel : Nat} {st st' : FirstRound}
    (h : ¬ ∀ i < size, st.bufferSizes i = 0)
    (hfor : firstFor n (List.range size) st = (st', true)) :
    firstWhile size n (fuel + 1) st = some st' := by
  rw [firstWhile, if_neg h, hfor]

theorem firstWhile_passed {fuel : Nat} {st st' : FirstRound}
    (h : ¬ ∀ i < size, st.bufferSizes i = 0)
    (hfor : firstFor n (List.range size) st = (st', false)) :
    firstWhile size n (fuel + 1) st = firstWhile size n fuel st' := by
  rw [firstWhile, if_neg h, hfor]

namespace FirstRound.InPass

variable {st st' : FirstRound} {k d : Nat}

/-- Who waits in pass `k`: those that take part in round `k`. -/
theorem due_eq (h : st.InPass size bufferSizes k) (hroot : bufferSizes rootRank = 0) :
    st.due (List.range size) = RoundRobin.round (clients size) bufferSizes k := by
  rw [FirstRound.due, RoundRobin.round, clients, List.filter_filter]
  refine List.filter_congr fun i hi => ?_
  rw [h.sizes i (List.mem_range.mp hi), ← Bool.decide_and, decide_eq_decide]
  constructor
  · intro h
    exact ⟨by omega, fun hi => by rw [hi, hroot] at h; omega⟩
  · rintro ⟨h, -⟩
    omega

/-- When all are answered, no turn is left. -/
theorem turns_handled (h : st.InPass size bufferSizes k) (hall : ∀ i < size, st.bufferSizes i = 0) :
    turns (clients size) bufferSizes k d = [] := by
  refine turns_eq_nil fun i hi => ?_
  have hi' := (mem_clients.mp hi).1
  have hzero := hall i hi'
  rw [h.sizes i hi'] at hzero
  omega

/-- The range ends in this pass. -/
theorem returned (h : st.InPass size bufferSizes k) (hroot : bufferSizes rootRank = 0)
    (hle : st.iter ≤ n) (hshort : n - st.iter < (st.due (List.range size)).length) :
    ∃ st', firstFor n (List.range size) st = (st', true) ∧ st'.sent = st.sent ++
      (((turns (clients size) bufferSizes k (d + 1)).take (n - st.iter)).map Prod.snd).zipIdx
        st.iter := by
  obtain ⟨st', hfor, hsent⟩ := firstFor_returned List.nodup_range h.root hle hshort
  rw [h.due_eq hroot] at hshort hsent
  refine ⟨st', hfor, ?_⟩
  rw [hsent, turns_succ, List.take_append_of_le_length, ← List.map_take, snd_round]
  rw [List.length_map]
  exact Nat.le_of_lt hshort

/-- The range does not end in this pass. -/
theorem passed (h : st.InPass size bufferSizes k) (hroot : bufferSizes rootRank = 0)
    (hroom : st.iter + (st.due (List.range size)).length ≤ n) :
    ∃ st', firstFor n (List.range size) st = (st', false) ∧
      st'.InPass size bufferSizes (k + 1) ∧
      st'.sent = st.sent ++ (RoundRobin.round (clients size) bufferSizes k).zipIdx st.iter ∧
      st'.iter = st.iter + (RoundRobin.round (clients size) bufferSizes k).length := by
  obtain ⟨st', hfor, hsent, hiter, hin, hout⟩ := firstFor_passed List.nodup_range h.root hroom
  rw [h.due_eq hroot] at hsent hiter
  refine ⟨st', hfor, ⟨fun i hi => ?_, ?_⟩, hsent, hiter⟩
  · rw [hin i (List.mem_range.mpr hi), h.sizes i hi, Nat.sub_sub]
  · by_cases hmem : rootRank ∈ List.range size
    · rw [hin _ hmem, h.root]
    · rw [hout _ hmem, h.root]

end FirstRound.InPass

/-- What pass `k` deals and what the later ones deal. -/
theorem take_turns_succ {k d left : Nat} (iter : Nat)
    (hfull : (RoundRobin.round (clients size) bufferSizes k).length ≤ left) :
    (((turns (clients size) bufferSizes k (d + 1)).take left).map Prod.snd).zipIdx iter =
      (RoundRobin.round (clients size) bufferSizes k).zipIdx iter ++
        (((turns (clients size) bufferSizes (k + 1) d).take
          (left - (RoundRobin.round (clients size) bufferSizes k).length)).map Prod.snd).zipIdx
          (iter + (RoundRobin.round (clients size) bufferSizes k).length) := by
  rw [turns_succ, List.take_append, List.take_of_length_le (by rwa [List.length_map]),
    List.map_append, snd_round, List.zipIdx_append, List.length_map]

/-- The loop deals the elements that are left to the clients, in rounds. -/
theorem firstWhile_turns (hroot : bufferSizes rootRank = 0) (d : Nat) :
    ∀ (k fuel : Nat) (st : FirstRound), (∀ i < size, bufferSizes i ≤ k + d) → d < fuel →
      st.iter ≤ n → st.InPass size bufferSizes k →
      ∃ st', firstWhile size n fuel st = some st' ∧ st'.sent = st.sent ++
        (((turns (clients size) bufferSizes k d).take (n - st.iter)).map Prod.snd).zipIdx
          st.iter := by
  induction d with
  | zero =>
    intro k fuel st hmax hfuel _ hpass
    obtain ⟨fuel, rfl⟩ := Nat.exists_eq_succ_of_ne_zero (n := fuel) (by omega)
    have hall : ∀ i < size, st.bufferSizes i = 0 := fun i hi => by
      rw [hpass.sizes i hi]
      exact Nat.sub_eq_zero_of_le (hmax i hi)
    refine ⟨st, firstWhile_handled hall, ?_⟩
    rw [turns_zero, List.take_nil]
    exact (List.append_nil _).symm
  | succ d ih =>
    intro k fuel st hmax hfuel hle hpass
    obtain ⟨fuel, rfl⟩ := Nat.exists_eq_succ_of_ne_zero (n := fuel) (by omega)
    by_cases hall : ∀ i < size, st.bufferSizes i = 0
    · refine ⟨st, firstWhile_handled hall, ?_⟩
      rw [hpass.turns_handled hall, List.take_nil]
      exact (List.append_nil _).symm
    by_cases hshort : n - st.iter < (st.due (List.range size)).length
    · obtain ⟨st', hfor, hsent⟩ := hpass.returned hroot hle hshort
      exact ⟨st', firstWhile_returned hall hfor, hsent⟩
    · have hroom : st.iter + (st.due (List.range size)).length ≤ n := by omega
      obtain ⟨st', hfor, hpass', hsent, hiter⟩ := hpass.passed hroot hroom
      rw [hpass.due_eq hroot] at hshort
      have hmax' : ∀ i < size, bufferSizes i ≤ k + 1 + d := fun i hi => by
        rw [Nat.add_right_comm]
        exact hmax i hi
      have hle' : st'.iter ≤ n := by omega
      obtain ⟨st'', hwhile, hsent'⟩ :=
        ih (k + 1) fuel st' hmax' (Nat.lt_of_succ_lt_succ hfuel) hle' hpass'
      refine ⟨st'', (firstWhile_passed hall hfor).trans hwhile, ?_⟩
      rw [hsent', hsent, hiter, take_turns_succ _ (Nat.le_of_not_lt hshort), List.append_assoc,
        Nat.sub_sub]

/-- More fuel changes nothing. -/
theorem firstWhile_mono {fuel fuel' : Nat} {st st' : FirstRound} (hle : fuel ≤ fuel')
    (h : firstWhile size n fuel st = some st') : firstWhile size n fuel' st = some st' := by
  induction fuel generalizing fuel' st with
  | zero => cases h
  | succ fuel ih =>
    obtain ⟨fuel', rfl⟩ := Nat.exists_eq_succ_of_ne_zero (n := fuel') (by omega)
    rw [firstWhile] at h ⊢
    by_cases hall : ∀ i < size, st.bufferSizes i = 0
    · rwa [if_pos hall] at h ⊢
    · rw [if_neg hall] at h ⊢
      cases hfor : firstFor n (List.range size) st with
      | mk st'' returned =>
        rw [hfor] at h
        cases returned with
        | true => exact h
        | false => exact ih (Nat.le_of_succ_le_succ hle) h

end

/-! ## The loop in a session -/

namespace FirstRound

/-- The elements dealt to client `i`. -/
def dealt (st : FirstRound) (i : Nat) : List Nat :=
  (st.sent.filter fun send => send.1 = i).map Prod.snd

theorem dealt_send_self (st : FirstRound) (i : Nat) :
    (st.send i).dealt i = st.dealt i ++ [st.iter] := by
  rw [dealt, send, List.filter_append, List.filter_cons_of_pos (by simp), List.map_append]
  rfl

theorem dealt_send_of_ne {st : FirstRound} {i j : Nat} (h : j ≠ i) :
    (st.send i).dealt j = st.dealt j := by
  rw [dealt, send, List.filter_append, List.filter_cons_of_neg (by simp [h.symm]),
    List.filter_nil, List.append_nil]
  rfl

/-- The loop has come so far in a session with these variables. -/
structure At (st : FirstRound) (sizes : Nat → Nat) (iter : Nat) (sentVals : Nat → List Nat) :
    Prop where
  sizes : st.bufferSizes = sizes
  iter : st.iter = iter
  sent : ∀ i, sentVals i = st.dealt i

end FirstRound

/-- The loop from rank `i` of a pass on. -/
def firstRest (size n fuel i : Nat) (st : FirstRound) : Option FirstRound :=
  match firstFor n (List.range' i (size - i)) st with
  | (st', true) => some st'
  | (st', false) => firstWhile size n fuel st'

section

variable {size n fuel i : Nat} {st : FirstRound}

theorem firstWhile_loop (hi : i < size) (h : st.bufferSizes i ≠ 0) :
    firstWhile size n (fuel + 1) st = firstRest size n fuel 0 st := by
  rw [firstWhile, if_neg fun hall => h (hall i hi), List.range_eq_range', firstRest, Nat.sub_zero]

theorem firstRest_end (hi : ¬ i < size) :
    firstRest size n fuel i st = firstWhile size n fuel st := by
  rw [firstRest, Nat.sub_eq_zero_of_le (Nat.le_of_not_lt hi)]
  rfl

theorem range'_cons (hi : i < size) :
    List.range' i (size - i) = i :: List.range' (i + 1) (size - (i + 1)) := by
  have hcount : size - i = size - (i + 1) + 1 := by omega
  rw [hcount, List.range'_succ]

theorem firstRest_skip (hi : i < size) (h : i = rootRank ∨ st.bufferSizes i = 0) :
    firstRest size n fuel i st = firstRest size n fuel (i + 1) st := by
  rw [firstRest, range'_cons hi]
  rcases h with hroot | hz
  · rw [firstFor, if_pos hroot]
    rfl
  · rw [firstFor_skip _ hz]
    rfl

theorem firstRest_return (hi : i < size) (hroot : i ≠ rootRank) (hz : st.bufferSizes i ≠ 0)
    (hdone : st.iter = n) : firstRest size n fuel i st = some st := by
  rw [firstRest, range'_cons hi, firstFor_return _ hroot hz hdone]

theorem firstRest_send (hi : i < size) (hroot : i ≠ rootRank) (hz : st.bufferSizes i ≠ 0)
    (hdone : st.iter ≠ n) :
    firstRest size n fuel i st = firstRest size n fuel (i + 1) (st.send i) := by
  rw [firstRest, range'_cons hi, firstFor_send _ hroot hz hdone]
  rfl

end

/-- What the server has sent so far and what the loop still sends are `total`. -/
def FirstStage (cfg : Config) (total : FirstRound) (iter : Nat) (sentVals : Nat → List Nat) :
    ServerPc → Prop
  | .start | .allGather | .barrier => iter = 0 ∧ ∀ i, sentVals i = []
  | .firstWhile sizes => ∃ fuel, ∃ st : FirstRound, st.At sizes iter sentVals ∧
      firstWhile cfg.size cfg.n fuel st = some total
  | .firstFor sizes i => ∃ fuel, ∃ st : FirstRound, st.At sizes iter sentVals ∧
      firstRest cfg.size cfg.n fuel i st = some total
  | .firstSent sizes i => ∃ fuel, ∃ st : FirstRound, st.bufferSizes = sizes ∧ st.iter = iter ∧
      (∀ j, sentVals j = (st.send i).dealt j) ∧
      firstRest cfg.size cfg.n fuel (i + 1) (st.send i) = some total
  | _ => True

def FirstInv (cfg : Config) (total : FirstRound) (s : Session) : Prop :=
  FirstStage cfg total s.iter s.sentVals s.pc

namespace FirstInv

variable {cfg : Config} {total : FirstRound} {s t : Session} {a : Act}

/-- A branch of the loop, or one outside it. -/
theorem move {fuel : Nat} {pc : ServerPc}
    (htotal : firstTimeHandleClientRequest cfg.size cfg.n cfg.allBufferSizes fuel = some total)
    (h : FirstInv cfg total s) (hm : ServerMove cfg s pc) :
    FirstInv cfg total { s with pc := pc } := by
  unfold FirstInv at h
  cases hm with
  | enterAllGather hpc _ | leaveAllGather hpc _ =>
    rw [hpc] at h
    exact h
  | leaveBarrier hpc _ =>
    rw [hpc] at h
    exact ⟨fuel, ⟨cfg.allBufferSizes, 0, []⟩, ⟨rfl, h.1.symm, h.2⟩, htotal⟩
  | firstLoop hpc hi hne =>
    rw [hpc] at h
    obtain ⟨fuel, st, hat, hrun⟩ := h
    cases fuel with
    | zero => cases hrun
    | succ fuel =>
      rw [firstWhile_loop hi (hat.sizes ▸ hne)] at hrun
      exact ⟨fuel, st, ⟨hat.sizes, hat.iter, hat.sent⟩, hrun⟩
  | firstEnd hpc hi =>
    rw [hpc] at h
    obtain ⟨fuel, st, hat, hrun⟩ := h
    rw [firstRest_end hi] at hrun
    exact ⟨fuel, st, ⟨hat.sizes, hat.iter, hat.sent⟩, hrun⟩
  | firstSkip hpc hi hskip =>
    rw [hpc] at h
    obtain ⟨fuel, st, hat, hrun⟩ := h
    rw [firstRest_skip hi (hat.sizes ▸ hskip)] at hrun
    exact ⟨fuel, st, ⟨hat.sizes, hat.iter, hat.sent⟩, hrun⟩
  | _ => trivial

theorem isendVal {i : Nat} {pc : ServerPc} (h : FirstInv cfg total s)
    (hs : SendSite cfg s i pc) : FirstInv cfg total (s.isendVal i pc) := by
  unfold FirstInv at h
  cases hs with
  | first hpc hi hne hdone =>
    rw [hpc] at h
    obtain ⟨fuel, st, hat, hrun⟩ := h
    have hdone' : st.iter ≠ cfg.n := fun hn => hdone (hat.iter.symm.trans hn)
    rw [firstRest_send hi.1 hi.2 (hat.sizes ▸ hne) hdone'] at hrun
    refine ⟨fuel, st, hat.sizes, hat.iter, fun j => ?_, hrun⟩
    by_cases hij : j = i
    · subst hij
      rw [FirstRound.dealt_send_self, hat.iter, ← hat.sent j]
      exact Function.update_self _ _ _
    · rw [FirstRound.dealt_send_of_ne hij, ← hat.sent j]
      exact Function.update_of_ne hij _ _
  | answer _ _ => trivial

theorem advance {pc : ServerPc} (h : FirstInv cfg total s) (hs : AdvanceSite s pc) :
    FirstInv cfg total { s with pc := pc, iter := s.iter + 1 } := by
  unfold FirstInv at h
  cases hs with
  | first hpc =>
    rw [hpc] at h
    obtain ⟨fuel, st, hsizes, hiter, hsent, hrun⟩ := h
    refine ⟨fuel, st.send _, ⟨?_, congrArg (· + 1) hiter, hsent⟩, hrun⟩
    rw [← hsizes]
    rfl
  | _ => trivial

theorem step {fuel : Nat}
    (htotal : firstTimeHandleClientRequest cfg.size cfg.n cfg.allBufferSizes fuel = some total)
    (h : FirstInv cfg total s) (hs : Step cfg s a t) : FirstInv cfg total t := by
  cases hs with
  | server hm => exact h.move htotal hm
  | advance hs => exact h.advance hs
  | serverUse hs => cases hs <;> trivial
  | isendVal hs => exact h.isendVal hs
  | recvRequest _ _ | drain _ _ | isendDone _ _ | recvFinished _ _ _ => trivial
  | _ => exact h

end FirstInv

/-- In every run, when the server leaves its first round it has sent to each client what
the loop deals to it. -/
theorem first_round_sent {cfg : Config} {s : Session} {fuel : Nat} {total : FirstRound}
    (htotal : firstTimeHandleClientRequest cfg.size cfg.n cfg.allBufferSizes fuel = some total)
    (h : Reachable cfg s) (hm : ServerMove cfg s .handle) (i : Nat) :
    s.sentVals i = total.dealt i := by
  have hinv : FirstInv cfg total s :=
    h.invariant (fun s hs => hs ▸ ⟨rfl, fun _ => rfl⟩) fun _ _ _ _ hi hs => hi.step htotal hs
  unfold FirstInv at hinv
  cases hm with
  | firstHandled hpc hall =>
    rw [hpc] at hinv
    obtain ⟨fuel, st, hat, hrun⟩ := hinv
    cases fuel with
    | zero => cases hrun
    | succ fuel =>
      rw [firstWhile_handled (hat.sizes ▸ hall)] at hrun
      cases hrun
      exact hat.sent i
  | firstDone hpc hi hne hdone =>
    rw [hpc] at hinv
    obtain ⟨fuel, st, hat, hrun⟩ := hinv
    rw [firstRest_return hi.1 hi.2 (hat.sizes ▸ hne) (hat.iter.trans hdone)] at hrun
    cases hrun
    exact hat.sent i

/-- The root has no room, so the room of the clients is all there is. -/
theorem sum_clients {size d : Nat} {bufferSizes : Nat → Nat} (hroot : bufferSizes rootRank = 0)
    (hmax : ∀ i < size, bufferSizes i ≤ 0 + d) :
    ∑ i ∈ (clients size).toFinset, min d (bufferSizes i) =
      ∑ i ∈ Finset.range size, bufferSizes i := by
  have hsub : (clients size).toFinset ⊆ Finset.range size := fun i hi =>
    Finset.mem_range.mpr (mem_clients.mp (List.mem_toFinset.mp hi)).1
  rw [← Finset.sum_subset hsub]
  · refine Finset.sum_congr rfl fun i hi => Nat.min_eq_right ?_
    have := hmax i (mem_clients.mp (List.mem_toFinset.mp hi)).1
    omega
  · intro i hi hnot
    have hi' : i = rootRank := by
      by_contra hne
      exact hnot (List.mem_toFinset.mpr (mem_clients.mpr ⟨Finset.mem_range.mp hi, hne⟩))
    rw [hi', hroot]

/-- The first distribution deals the elements of the range to the clients in rounds, as
far as there is room and there are elements. -/
theorem first_distribution (size n : Nat) (bufferSizes : Nat → Nat)
    (hroot : bufferSizes rootRank = 0) :
    ∃ (pairs : List (Nat × Nat)) (st : FirstRound),
      pairs.Pairwise (Prod.Lex (· < ·) (· < ·)) ∧
      (∀ k i, (k, i) ∈ pairs ↔ i < size ∧ i ≠ rootRank ∧ k < bufferSizes i) ∧
      (∀ fuel, ∑ i ∈ Finset.range size, bufferSizes i < fuel →
        firstTimeHandleClientRequest size n bufferSizes fuel = some st) ∧
      st.sent = ((pairs.take n).map Prod.snd).zipIdx ∧
      st.sent.length = min n (∑ i ∈ Finset.range size, bufferSizes i) ∧
      (∀ i, (st.sent.map Prod.fst).count i ≤ bufferSizes i) ∧
      ∀ i j, i < size → i ≠ rootRank → j < size → j ≠ rootRank →
        (st.sent.map Prod.fst).count i < bufferSizes i →
        (st.sent.map Prod.fst).count j < bufferSizes j →
        (st.sent.map Prod.fst).count i ≤ (st.sent.map Prod.fst).count j + 1 := by
  let total := ∑ i ∈ Finset.range size, bufferSizes i
  have hmax : ∀ i < size, bufferSizes i ≤ 0 + total := fun i hi => by
    rw [Nat.zero_add]
    exact Finset.single_le_sum (fun _ _ => Nat.zero_le _) (Finset.mem_range.mpr hi)
  obtain ⟨st, hwhile, hsent⟩ := firstWhile_turns hroot total 0 (total + 1) ⟨bufferSizes, 0, []⟩
    hmax (Nat.lt_succ_self _) (Nat.zero_le n) ⟨fun i _ => rfl, hroot⟩
  change st.sent = (((turns (clients size) bufferSizes 0 total).take n).map Prod.snd).zipIdx
    at hsent
  have hclients : st.sent.map Prod.fst =
      ((turns (clients size) bufferSizes 0 total).take n).map Prod.snd := by
    rw [hsent, List.zipIdx_map_fst]
  refine ⟨turns (clients size) bufferSizes 0 total, st, turns_sorted (clients_sorted size) _ _,
    fun k i => ?_, fun fuel hfuel => firstWhile_mono hfuel hwhile, hsent, ?_, fun i => ?_, ?_⟩
  · rw [mem_turns, mem_clients]
    exact ⟨fun ⟨_, _, hi, hk⟩ => ⟨hi.1, hi.2, hk⟩,
      fun ⟨hi, hne, hk⟩ => ⟨Nat.zero_le k, Nat.lt_of_lt_of_le hk (hmax i hi), ⟨hi, hne⟩, hk⟩⟩
  · have hlen := congrArg List.length hclients
    rw [List.length_map, List.length_map, List.length_take,
      length_turns (clients_nodup size)] at hlen
    rw [hlen, sum_clients hroot fun i hi => hmax i hi]
  · rw [hclients]
    exact count_le_room (clients_nodup size) n total i
  · intro i j hi hi' hj hj'
    rw [hclients]
    obtain ⟨full, -, hcount⟩ := count_take bufferSizes (clients_nodup size) n 0 total
    have hcounti := hcount i (mem_clients.mpr ⟨hi, hi'⟩)
    have hcountj := hcount j (mem_clients.mpr ⟨hj, hj'⟩)
    omega

/-- Three clients with room for 2, 0 and 3 elements, and a range of 4. -/
theorem first_distribution_four : ∃ st : FirstRound,
    firstTimeHandleClientRequest 4 4 (fun i => [0, 2, 0, 3].getD i 0) 6 = some st ∧
      st.sent.length = 4 := by
  obtain ⟨pairs, st, -, -, hends, -, hlen, -⟩ :=
    first_distribution 4 4 (fun i => [0, 2, 0, 3].getD i 0) rfl
  exact ⟨st, hends 6 (by decide), hlen⟩

example : (firstTimeHandleClientRequest 4 4 (fun i => [0, 2, 0, 3].getD i 0) 6).map
    FirstRound.sent = some [(1, 0), (3, 1), (1, 2), (3, 3)] := by decide

end SimpleParallel.Schedule
