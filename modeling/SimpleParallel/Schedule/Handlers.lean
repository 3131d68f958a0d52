import SimpleParallel.Schedule.Blocking

/-!
# The handlers of the ranks

What a user of a session sees of it, rank by rank: the root's server and the clients are
two kinds of handlers, with the same `done()`, `next()` and `operator*`.

* `Session.atTask`, `Session.atEnd`: what `s_p_done` answers on a rank, once it answers.
* `noneLeft_of_ended`: a handler at its end has nothing left for its rank.
* `allDone_of_ended`: when all handlers have come to their end the session is done.
-/

namespace SimpleParallel.Schedule

/-! ## The use of a handler -/

namespace Session

/-- The handler of rank `r` stands at an element: `s_p_done` is false. -/
def atTask (cfg : Config) (s : Session) (r : Nat) : Prop :=
  if r = rootRank then s.pc = .yield ∨ (s.pc = .single ∧ ¬ s.done cfg) else (s.client r).pc = .yield

/-- The handler of rank `r` has come to its end: `s_p_done` is true. -/
def atEnd (s : Session) (r : Nat) : Prop :=
  if r = rootRank then s.pc = .finished ∨ s.pc = .singleFinished else (s.client r).pc = .finished

/-- The index of the element in the buffer of rank `r`. -/
def current (s : Session) (r : Nat) : Nat := if r = rootRank then s.iter else (s.client r).value

end Session

/-- The copy of the buffer, as a step of the handler of rank `r`. -/
def Act.use (r k : Nat) : Act := if r = rootRank then .serverUse k else .clientUse r k

def Act.isUse : Act → Bool
  | serverUse _ | clientUse _ _ => true
  | _ => false

/-! ## The end of a handler -/

section

variable {cfg : Config} {s t : Session} {a : Act} {r : Nat}

/-- A step that passes nothing to a user leaves the lists of used elements
alone. -/
theorem Step.yieldedBy_eq (h : Step cfg s a t) (ha : a.isUse = false) (r : Nat) :
    t.yieldedBy r = s.yieldedBy r := by
  have keep : t.serverYielded = s.serverYielded → (t.client r).yielded = (s.client r).yielded →
      t.yieldedBy r = s.yieldedBy r := fun hs hc => by
    rw [Session.yieldedBy, Session.yieldedBy, hs, hc]
  cases h with
  | serverUse _ | clientUse _ _ => cases ha
  | client _ _ | post _ _ | recvDone _ _ _ | recheckNone _ _ _ | sendFinished _ _ | recvVal _ _ _
  | rerequest _ _ | cancel _ _ _ => exact keep rfl (client_keeps Client.yielded rfl (by rfl) r)
  | _ => exact keep rfl rfl

/-- The copy appends the current element to the list of its rank. -/
theorem Step.yieldedBy_use (h : Step cfg s (.use r (s.current r)) t) :
    t.yieldedBy = Function.update s.yieldedBy r (s.yieldedBy r ++ [s.current r]) := by
  funext j
  unfold Act.use Session.current at h
  by_cases hr : r = rootRank
  · subst hr
    simp only [if_pos] at h
    cases h with
    | serverUse _ =>
      by_cases hj : j = rootRank
      · subst hj
        simp [Session.yieldedBy, Session.current]
      · simp [Session.yieldedBy, hj]
  · simp only [if_neg hr] at h
    cases h with
    | clientUse _ _ =>
      by_cases hj : j = r
      · subst hj
        simp [Session.yieldedBy, Session.current, hr]
      · simp [Session.yieldedBy, hj]

/-- The handler of rank `r` has come to its end; it may be destroyed since. -/
def Session.ended (s : Session) (r : Nat) : Prop :=
  if r = rootRank then s.pc = .finished ∨ s.pc = .destroyed ∨ s.pc = .singleFinished
  else (s.client r).pc.gone = true

theorem Session.ended_of_atEnd (h : s.atEnd r) : s.ended r := by
  unfold Session.atEnd at h
  unfold Session.ended
  split
  · next hr =>
    rw [if_pos hr] at h
    exact h.imp_right .inr
  · next hr =>
    rw [if_neg hr] at h
    rw [h]
    rfl

/-- A handler that has come to its end stays there. -/
theorem Step.ended (h : Step cfg s a t) (he : s.ended r) : t.ended r := by
  unfold Session.ended at he ⊢
  split
  · next hr =>
    rw [if_pos hr] at he
    cases h with
    | server hm =>
      cases hm with
      | destroy _ _ => exact .inr (.inl rfl)
      | _ => rcases he with he | he | he <;> simp_all
    | isendVal hs => cases hs <;> rcases he with he | he | he <;> simp_all
    | advance hs => cases hs <;> rcases he with he | he | he <;> simp_all
    | serverUse hs => cases hs <;> rcases he with he | he | he <;> simp_all
    | recvRequest hpc _ | isendDone hpc _ | recvFinished hpc _ _ | drain hpc _ =>
      rcases he with he | he | he <;> simp_all
    | _ => exact he
  · next hr =>
    rw [if_neg hr] at he
    have moved : ∀ {j : Nat} {c : Client}, t.client = Function.update s.client j c →
        ((s.client j).pc.gone = true → c.pc.gone = true) → (t.client r).pc.gone = true := by
      intro j c ht hc
      rw [ht]
      by_cases hj : r = j
      · subst hj
        rw [Function.update_self]
        exact hc he
      · rw [Function.update_of_ne hj]
        exact he
    cases h with
    | client _ hm => exact moved rfl fun hg => by rw [← hg]; exact hm.gone
    | post _ hpc | recvDone _ hpc _ | recheckNone _ hpc _ | recvVal _ hpc _ | rerequest _ hpc
    | clientUse _ hpc =>
      refine moved rfl fun hg => ?_
      rw [hpc] at hg
      cases hg
    | sendFinished _ _ | cancel _ _ _ => exact moved rfl fun _ => rfl
    | _ => exact he

/-- Nothing is left for a rank whose handler has come to its end: all elements
were generated, and none is on its way to it. -/
def Session.NoneLeft (cfg : Config) (s : Session) (r : Nat) : Prop :=
  s.iter = cfg.n ∧ (r ≠ rootRank → (s.client r).held ++ s.inTransit r = [])

theorem noneLeft_of_ended (h : Reachable cfg s) (hr : r < cfg.size) (he : s.ended r) :
    s.NoneLeft cfg r := by
  have hrange := rangeInv h
  unfold Session.ended at he
  split at he
  · next hz =>
    refine ⟨hrange.ended ?_, fun hne => absurd hz hne⟩
    rcases he with he | he | he <;> rw [he] <;> rfl
  · next hz =>
    have hok := markInv h r ⟨hr, hz⟩
    have hstop : (s.client r).pc.stopped = true := by
      cases hpc : (s.client r).pc <;> rw [hpc] at he <;> first
        | rfl
        | cases he
    rw [hok.stopped] at hstop
    obtain ⟨hseen, hempty⟩ := hok.empty hstop
    have hmark := hok.mark
    rw [hseen] at hmark
    refine ⟨hrange.ended ?_, fun _ => ?_⟩
    · cases hd : s.pc.doneSent r with
      | false =>
        rw [hd] at hmark
        exact hmark.elim
      | true =>
        cases hpc : s.pc <;> rw [hpc] at hd <;> first
          | rfl
          | cases hd
    · have hheld : (s.client r).held = [] := by
        unfold Client.held
        cases hpc : (s.client r).pc <;> rw [hpc] at he <;> first
          | rfl
          | cases he
      rw [hheld]
      exact hempty

theorem allDone_of_ended (h : Reachable cfg s) (he : ∀ r < cfg.size, s.ended r) :
    AllDone cfg s := by
  refine ⟨?_, fun i hi => ?_⟩
  · have hroot := he rootRank cfg.size_pos
    rw [Session.ended, if_pos rfl] at hroot
    exact hroot
  · have hgone := he i hi.1
    rw [Session.ended, if_neg hi.2] at hgone
    rw [← (markInv h i hi).stopped]
    cases hpc : (s.client i).pc <;> rw [hpc] at hgone <;> first
      | rfl
      | cases hgone

/-- The handler of rank `r` is destroyed, or about to be. -/
def Session.deleted (s : Session) (r : Nat) : Prop := s.ended r ∧ ¬ s.atEnd r

/-- A handler comes to its end before it is destroyed. -/
theorem Step.ended_or (h : Schedule.Step cfg s a t) (ht : t.ended r) : s.ended r ∨ t.atEnd r := by
  unfold Session.ended Session.atEnd at *
  split at ht
  · next hr =>
    rw [if_pos hr, if_pos hr]
    cases h with
    | server hm => cases hm <;> simp_all
    | isendVal hs => cases hs <;> simp_all [Session.isendVal]
    | advance hs => cases hs <;> simp_all
    | serverUse hs => cases hs <;> simp_all
    | recvRequest _ _ | isendDone _ _ | recvFinished _ _ _ | drain _ _ =>
      rcases ht with ht | ht | ht <;> cases ht
    | _ => exact .inl ht
  · next hr =>
    rw [if_neg hr, if_neg hr]
    have moved : ∀ {j : Nat} {c : Client}, t.client = Function.update s.client j c →
        (c.pc.gone = true → (s.client j).pc.gone = true ∨ c.pc = .finished) →
        (s.client r).pc.gone = true ∨ (t.client r).pc = .finished := by
      intro j c htc hc
      rw [htc] at ht ⊢
      by_cases hj : r = j
      · subst hj
        rw [Function.update_self] at ht ⊢
        exact hc ht
      · rw [Function.update_of_ne hj] at ht
        exact .inl ht
    cases h with
    | client _ hm => exact moved rfl fun hg => .inl (by rw [← hm.gone]; exact hg)
    | post _ _ | recvDone _ _ _ | recheckNone _ _ _ | recvVal _ _ _ | rerequest _ _
    | clientUse _ _ => exact moved rfl fun hg => by cases hg
    | sendFinished _ _ => exact moved rfl fun _ => .inr rfl
    | cancel _ hpc _ => exact moved rfl fun _ => .inl (by rw [hpc]; rfl)
    | _ => exact .inl ht

/-- The user of one rank takes an element: no handler comes to its end. -/
theorem Step.ended_use {k : Nat} (h : Schedule.Step cfg s (.use r k) t) (j : Nat) :
    (t.ended j → s.ended j) ∧ (s.atEnd j → t.atEnd j) := by
  have hclient : ∀ {c : Client}, (s.client r).pc = .yield → c.pc = .poll →
      ((Function.update s.client r c j).pc.gone = true → (s.client j).pc.gone = true) ∧
      ((s.client j).pc = .finished → (Function.update s.client r c j).pc = .finished) := by
    intro c hpc hc
    by_cases hj : j = r
    · subst hj
      rw [Function.update_self, hpc, hc]
      exact ⟨nofun, nofun⟩
    · rw [Function.update_of_ne hj]
      exact ⟨id, id⟩
  unfold Session.ended Session.atEnd
  unfold Act.use at h
  split at h
  · cases h with
    | serverUse hs => cases hs <;> split <;> simp_all
  · cases h with
    | clientUse _ hpc =>
      split
      · exact ⟨id, id⟩
      · exact hclient hpc rfl

/-- The user of a rank takes an element when its handler stands at one. -/
theorem Step.use_cases (h : Schedule.Step cfg s a t) (ha : a.isUse = true) :
    ∃ r < cfg.size, s.atTask cfg r ∧ a = .use r (s.current r) := by
  cases h with
  | serverUse hs =>
    refine ⟨rootRank, cfg.size_pos, ?_, rfl⟩
    cases hs with
    | yield hpc => exact .inl hpc
    | single hpc hd => exact .inr ⟨hpc, hd⟩
  | @clientUse i hi hpc =>
    refine ⟨i, hi.1, ?_, ?_⟩
    · rw [Session.atTask, if_neg hi.2, hpc]
    · rw [Act.use, if_neg hi.2, Session.current, if_neg hi.2]
  | _ => cases ha

/-- A handler that stands at an element has not come to its end. -/
theorem Session.not_ended_of_atTask (h : s.atTask cfg r) : ¬ s.ended r := by
  unfold Session.atTask at h
  unfold Session.ended
  split at h
  · next hr =>
    rw [if_pos hr]
    rintro (hpc | hpc | hpc) <;> rw [hpc] at h <;> simp at h
  · next hr =>
    rw [if_neg hr, h]
    nofun

/-- What a rank has used are elements of the session. -/
theorem lt_of_yielded {k : Nat} (h : Schedule.Reachable cfg s) (hr : r < cfg.size)
    (hk : k ∈ s.yieldedBy r) : k < cfg.n := by
  obtain ⟨l, hperm, hsub⟩ := yielded_subperm h
  refine List.mem_range.mp (hsub.subset (hperm.mem_iff.mpr ?_))
  exact List.mem_flatMap.mpr ⟨r, List.mem_range.mpr hr, hk⟩

end

/-- Nothing is used at first. -/
theorem yieldedBy_initial (cfg : Config) :
    (List.range cfg.size).flatMap (Session.initial cfg).yieldedBy = [] := by
  refine List.flatMap_eq_nil_iff.mpr fun r _ => ?_
  unfold Session.yieldedBy
  split <;> rfl

end SimpleParallel.Schedule
