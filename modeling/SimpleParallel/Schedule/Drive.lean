import Mathlib.Data.Nat.Find
import SimpleParallel.Schedule.Credit

/-!
# A run that sends a chosen element

For every element `k` of the range there is a run in which the server sends `k`
to a client while no value sent before has been received or completed, as soon
as some client has a buffer (`reach_send`). The run gathers all ranks at the
barrier, then lets the server run alone: through its first round, and from
there by using elements itself until it stands at `k` and lets one request
through.

`quietSys` is the system without the steps that complete the send of a value.
-/

namespace SimpleParallel.Schedule

/-- A step that completes no send of a value. -/
def Act.quiet : Act → Bool
  | recvVal _ _ | complete _ => false
  | _ => true

def quietSys (cfg : Config) : LTS.Sys Session Act := (sys cfg).restrict fun _ a => a.quiet = true

abbrev QuietReachable (cfg : Config) (s : Session) : Prop := LTS.Reachable (quietSys cfg) s

section Quiet

variable {cfg : Config} {s t : Session} {a : Act}

theorem QuietReachable.then (h : QuietReachable cfg s) (ha : a.quiet = true)
    (hs : Step cfg s a t) : QuietReachable cfg t :=
  LTS.Reachable.step h ⟨ha, hs⟩

theorem QuietReachable.reachable (h : QuietReachable cfg s) : Reachable cfg s :=
  LTS.Reachable.of_restrict h

/-- No send of a value is complete. -/
theorem QuietReachable.incomplete (h : QuietReachable cfg s) (k : Nat) :
    s.completed (.sendVal k) = false := by
  refine LTS.Reachable.invariant (P := fun s => s.completed (.sendVal k) = false) ?_ ?_ h
  · rintro _ rfl
    rfl
  · rintro s a t - hk ⟨ha, hs⟩
    cases hs with
    | recvVal _ _ _ | complete => cases ha
    | recvRequest _ _ | drain _ _ => simpa [Session.takeRequest, Function.update_apply] using hk
    | recvDone _ _ _ => simpa [Session.recvDone, Function.update_apply] using hk
    | cancel _ _ _ => simpa [Function.update_apply] using hk
    | _ => exact hk

/-- With every send incomplete, nothing is popped before a push. -/
theorem QuietReachable.frontComplete (h : QuietReachable cfg s) (i : Nat) :
    s.frontComplete i = false := by
  unfold Session.frontComplete
  split
  · exact h.incomplete _
  · rfl

end Quiet

/-! ## Gathering the ranks -/

/-- One rank after the other: what a run can do to any one client, it can do to
all of them. `A` and `B` speak of a client and of its channel to the server. -/
theorem each_client {cfg : Config} {I : Session → Prop}
    {A B : Nat → Client → Channel ClientMsg → Prop}
    (one : ∀ i s, cfg.IsClient i → QuietReachable cfg s → I s → A i (s.client i) (s.toServer i) →
      ∃ t, QuietReachable cfg t ∧ I t ∧ B i (t.client i) (t.toServer i) ∧
        ∀ j, j ≠ i → t.client j = s.client j ∧ t.toServer j = s.toServer j)
    {s : Session} (hs : QuietReachable cfg s) (hI : I s)
    (hA : ∀ i, cfg.IsClient i → A i (s.client i) (s.toServer i)) :
    ∃ t, QuietReachable cfg t ∧ I t ∧ ∀ i, cfg.IsClient i → B i (t.client i) (t.toServer i) := by
  have upTo : ∀ m, ∃ t, QuietReachable cfg t ∧ I t ∧
      (∀ i, cfg.IsClient i → i < m → B i (t.client i) (t.toServer i)) ∧
      ∀ i, cfg.IsClient i → m ≤ i → A i (t.client i) (t.toServer i) := by
    intro m
    induction m with
    | zero => exact ⟨s, hs, hI, fun i _ hi => absurd hi (Nat.not_lt_zero i), fun i hi _ => hA i hi⟩
    | succ m ih =>
      obtain ⟨t, ht, hIt, hB, hA'⟩ := ih
      by_cases hm : cfg.IsClient m
      · obtain ⟨u, hu, hIu, hBu, hframe⟩ := one m t hm ht hIt (hA' m hm (Nat.le_refl m))
        refine ⟨u, hu, hIu, fun i hi him => ?_, fun i hi him => ?_⟩
        · by_cases heq : i = m
          · subst heq
            exact hBu
          · rw [(hframe i heq).1, (hframe i heq).2]
            exact hB i hi (by omega)
        · have hne : i ≠ m := by omega
          rw [(hframe i hne).1, (hframe i hne).2]
          exact hA' i hi (by omega)
      · refine ⟨t, ht, hIt, fun i hi him => hB i hi ?_, fun i hi him => hA' i hi (by omega)⟩
        have hne : i ≠ m := fun heq => hm (heq ▸ hi)
        omega
  obtain ⟨t, ht, hIt, hB, -⟩ := upTo cfg.size
  exact ⟨t, ht, hIt, fun i hi => hB i hi hi.1⟩

/-- A client that has sent `p` requests, none of them delivered. -/
structure Asked (c : Client) (ch : Channel ClientMsg) (p : Nat) : Prop where
  posted : c.posted = p
  channel : ch = ⟨[], (List.range p).map .clientRequestVal⟩

/-- A client that has not begun to send requests. -/
structure Fresh (pc : ClientPc) (c : Client) (ch : Channel ClientMsg) : Prop where
  at_pc : c.pc = pc
  items : c.requests.items = []
  asked : Asked c ch 0

/-- A client that waits at the barrier. -/
structure AtBarrier (b : Nat) (c : Client) (ch : Channel ClientMsg) : Prop where
  at_pc : c.pc = .barrier
  asked : Asked c ch b

/-- The server stands at `pc`, before the first element. -/
structure ServerAt (pc : ServerPc) (s : Session) : Prop where
  at_pc : s.pc = pc
  iter : s.iter = 0
  got : s.gotRequests = fun _ => 0

section Gather

variable {cfg : Config} {s : Session} {i : Nat}

theorem setClientPc_frame (s : Session) (i : Nat) (pc : ClientPc) :
    ∀ j, j ≠ i → (s.setClientPc i pc).client j = s.client j ∧
      (s.setClientPc i pc).toServer j = s.toServer j :=
  fun _ hj => ⟨Function.update_of_ne hj _ _, rfl⟩

/-- All clients enter `all_gather`. -/
theorem clients_enter (hsize : cfg.size ≠ 1) :
    ∃ t, QuietReachable cfg t ∧ ServerAt .start t ∧
      ∀ i, cfg.IsClient i → Fresh .allGather (t.client i) (t.toServer i) := by
  refine each_client (s := Session.initial cfg)
    (A := fun _ => Fresh .start) (B := fun _ => Fresh .allGather) ?_ (.init rfl) ⟨rfl, rfl, rfl⟩ ?_
  · rintro i s hi hs hI ⟨hpc, hitems, hasked⟩
    have hmove : ClientMove cfg s i .allGather := .enterAllGather hpc hsize
    refine ⟨_, hs.then rfl (.client hi hmove), ⟨hI.at_pc, hI.iter, hI.got⟩, ?_,
      setClientPc_frame s i _⟩
    simp only [Session.setClientPc, Function.update_self]
    exact ⟨rfl, hitems, hasked.posted, hasked.channel⟩
  · intro i _
    exact ⟨rfl, rfl, rfl, rfl⟩

/-- The loop of the client's constructor. -/
theorem client_posts {k p : Nat} (hi : cfg.IsClient i) (hs : QuietReachable cfg s)
    (hpc : (s.client i).pc = .post k) (hp : Asked (s.client i) (s.toServer i) p) :
    ∃ t, QuietReachable cfg t ∧ t.pc = s.pc ∧ t.iter = s.iter ∧ t.gotRequests = s.gotRequests ∧
      (t.client i).pc = .post 0 ∧ Asked (t.client i) (t.toServer i) (p + k) ∧
      ∀ j, j ≠ i → t.client j = s.client j ∧ t.toServer j = s.toServer j := by
  induction k generalizing s p with
  | zero => exact ⟨s, hs, rfl, rfl, rfl, hpc, hp, fun _ _ => ⟨rfl, rfl⟩⟩
  | succ k ih =>
    have hstep := hs.then rfl (.post hi hpc)
    have hpc' : ((s.sendRequest i (s.client i).requests (.post k)).client i).pc = .post k := by
      simp [Session.sendRequest]
    have hasked : Asked ((s.sendRequest i (s.client i).requests (.post k)).client i)
        ((s.sendRequest i (s.client i).requests (.post k)).toServer i) (p + 1) := by
      refine ⟨by simp [Session.sendRequest, hp.posted], ?_⟩
      simp [Session.sendRequest, hp.channel, hp.posted, Channel.send, List.range_succ]
    obtain ⟨t, ht, h1, h2, h3, h4, h5, hframe⟩ := ih hstep hpc' hasked
    refine ⟨t, ht, h1, h2, h3, h4, by rwa [Nat.add_assoc, Nat.add_comm 1 k] at h5, fun j hj => ?_⟩
    rw [(hframe j hj).1, (hframe j hj).2]
    exact ⟨Function.update_of_ne hj _ _, Function.update_of_ne hj _ _⟩

/-- A client goes from `all_gather` to the barrier, once all ranks are there. -/
theorem client_gathers (hi : cfg.IsClient i) (hs : QuietReachable cfg s)
    (hI : ServerAt .allGather s ∧ s.AllGatherEntered cfg)
    (hf : Fresh .allGather (s.client i) (s.toServer i)) :
    ∃ t, QuietReachable cfg t ∧ (ServerAt .allGather t ∧ t.AllGatherEntered cfg) ∧
      AtBarrier (cfg.bufferSize i) (t.client i) (t.toServer i) ∧
      ∀ j, j ≠ i → t.client j = s.client j ∧ t.toServer j = s.toServer j := by
  obtain ⟨hat, hent⟩ := hI
  have hreserve : (s.client i).requests.reserve = cfg.bufferSize i := by
    simp [CircularBuffer.reserve, hf.items, (postInv hs.reachable i hi).capacity]
  -- leave `all_gather`, send all requests, enter the barrier
  have h1 := hs.then rfl (.client hi (.leaveAllGather hf.at_pc hent))
  rw [hreserve] at h1
  have hframe1 := setClientPc_frame s i (.post (cfg.bufferSize i))
  have hpc1 : ((s.setClientPc i (.post (cfg.bufferSize i))).client i).pc =
      .post (cfg.bufferSize i) := by simp [Session.setClientPc]
  have hasked1 : Asked ((s.setClientPc i (.post (cfg.bufferSize i))).client i)
      ((s.setClientPc i (.post (cfg.bufferSize i))).toServer i) 0 := by
    simp only [Session.setClientPc, Function.update_self]
    exact ⟨hf.asked.posted, hf.asked.channel⟩
  obtain ⟨u, hu, hupc, huiter, hugot, hucl, huasked, hframe2⟩ := client_posts hi h1 hpc1 hasked1
  rw [Nat.zero_add] at huasked
  have h2 := hu.then rfl (.client hi (.enterBarrier hucl))
  have hframe3 := setClientPc_frame u i .barrier
  have hsame : ∀ j, j ≠ i → (u.setClientPc i .barrier).client j = s.client j ∧
      (u.setClientPc i .barrier).toServer j = s.toServer j := fun j hj =>
    ⟨(hframe3 j hj).1.trans ((hframe2 j hj).1.trans (hframe1 j hj).1),
      (hframe3 j hj).2.trans ((hframe2 j hj).2.trans (hframe1 j hj).2)⟩
  have hbar : AtBarrier (cfg.bufferSize i) ((u.setClientPc i .barrier).client i)
      ((u.setClientPc i .barrier).toServer i) := by
    simp only [Session.setClientPc, Function.update_self]
    exact ⟨rfl, huasked.posted, huasked.channel⟩
  refine ⟨_, h2, ⟨⟨hupc.trans hat.at_pc, huiter.trans hat.iter, hugot.trans hat.got⟩, ?_, ?_⟩, hbar,
    hsame⟩
  · show u.pc ≠ .start
    rw [hupc]
    exact hent.1
  · intro j hj
    by_cases hji : j = i
    · rw [hji, hbar.at_pc]
      intro h
      cases h
    · rw [(hsame j hji).1]
      exact hent.2 j hj

/-- The server enters its first round while all clients wait at the barrier and
none of their requests was delivered. -/
theorem reach_first_round (hsize : cfg.size ≠ 1) :
    ∃ t, QuietReachable cfg t ∧ ServerAt (.firstWhile cfg.allBufferSizes) t ∧
      ∀ i, cfg.IsClient i → AtBarrier (cfg.bufferSize i) (t.client i) (t.toServer i) := by
  obtain ⟨s, hs, hat, hfresh⟩ := clients_enter hsize
  have h1 := hs.then rfl (.server (.enterAllGather hat.at_pc hsize))
  have hent : Session.AllGatherEntered cfg { s with pc := .allGather } :=
    ⟨nofun, fun i hi => by rw [(hfresh i hi).at_pc]; nofun⟩
  obtain ⟨t, ht, ⟨hat', hent'⟩, hbar⟩ := each_client
    (I := fun s => ServerAt .allGather s ∧ s.AllGatherEntered cfg)
    (A := fun _ => Fresh .allGather) (B := fun i => AtBarrier (cfg.bufferSize i))
    (fun i s hi hs hI hf => client_gathers hi hs hI hf) h1 ⟨⟨rfl, hat.iter, hat.got⟩, hent⟩ hfresh
  have h2 := ht.then rfl (.server (.leaveAllGather hat'.at_pc hent'))
  have hbarrier : Session.BarrierEntered cfg { t with pc := .barrier } := by
    refine ⟨nofun, nofun, fun i hi => ?_⟩
    simp [(hbar i hi).at_pc]
  have h3 := h2.then rfl (.server (.leaveBarrier rfl hbarrier))
  exact ⟨_, h3, ⟨rfl, hat'.iter, hat'.got⟩, hbar⟩

end Gather

/-! ## The server alone -/

/-- All clients wait at the barrier, and their requests are in transit. -/
def Waiting (cfg : Config) (s : Session) : Prop :=
  ∀ i, cfg.IsClient i → AtBarrier (cfg.bufferSize i) (s.client i) (s.toServer i)

/-- A run reaches a state at `pc` in which the server is still alone. -/
def Alone (cfg : Config) (pc : ServerPc) (k : Nat) (s : Session) : Prop :=
  QuietReachable cfg s ∧ Waiting cfg s ∧ s.pc = pc ∧ s.iter = k

/-- The next client in the round of `for` that has not got all its values. -/
def Candidate (cfg : Config) (sizes : Nat → Nat) (i : Nat) : Prop :=
  cfg.IsClient i ∧ sizes i ≠ 0

section Alone

variable {cfg : Config} {s : Session} {sizes : Nat → Nat} {i j k : Nat}

theorem Alone.move {pc pc' : ServerPc} (h : Alone cfg pc k s) (hm : ServerMove cfg s pc') :
    Alone cfg pc' k { s with pc := pc' } :=
  ⟨h.1.then rfl (.server hm), h.2.1, rfl, h.2.2.2⟩

/-- The loop passes over ranks that are no candidates. -/
theorem Alone.skip (d : Nat) (h : Alone cfg (.firstFor sizes j) k s) (hd : j + d ≤ cfg.size)
    (hskip : ∀ l, j ≤ l → l < j + d → ¬ Candidate cfg sizes l) :
    ∃ t, Alone cfg (.firstFor sizes (j + d)) k t := by
  induction d generalizing j s with
  | zero => exact ⟨s, h⟩
  | succ d ih =>
    have hj : j < cfg.size := by omega
    have hno := hskip j (Nat.le_refl j) (by omega)
    have hroot : j = rootRank ∨ sizes j = 0 := by
      by_contra hcon
      rw [not_or] at hcon
      exact hno ⟨⟨hj, hcon.1⟩, hcon.2⟩
    have h1 := h.move (.firstSkip h.2.2.1 hj hroot)
    obtain ⟨t, ht⟩ := ih h1 (by omega) fun l hl hl' => hskip l (by omega) (by omega)
    exact ⟨t, by rwa [Nat.add_assoc, Nat.add_comm 1 d] at ht⟩

/-- The loop stops at the first candidate. -/
theorem Alone.to_candidate (h : Alone cfg (.firstFor sizes j) k s)
    (hex : ∃ i, j ≤ i ∧ Candidate cfg sizes i) :
    ∃ i t, Candidate cfg sizes i ∧ Alone cfg (.firstFor sizes i) k t := by
  classical
  have hge := (Nat.find_spec hex).1
  have hc := (Nat.find_spec hex).2
  have hlt : Nat.find hex < cfg.size := hc.1.1
  obtain ⟨t, ht⟩ := h.skip (Nat.find hex - j) (by omega) fun l hl hl' hcl =>
    Nat.find_min hex (m := l) (by omega) ⟨hl, hcl⟩
  rw [Nat.add_sub_cancel' hge] at ht
  exact ⟨Nat.find hex, t, hc, ht⟩

/-- From anywhere in the first round the server gets to a candidate or to
`handle_client_request`. -/
theorem Alone.next_candidate (h : Alone cfg (.firstFor sizes j) k s) (hj : j ≤ cfg.size)
    (hroot : sizes rootRank = 0) :
    (∃ i t, Candidate cfg sizes i ∧ Alone cfg (.firstFor sizes i) k t) ∨
      ∃ t, Alone cfg .handle k t := by
  by_cases hex : ∃ i, j ≤ i ∧ Candidate cfg sizes i
  · exact .inl (h.to_candidate hex)
  · -- no candidate in the rest of this round: back to the `while`
    obtain ⟨t, ht⟩ := h.skip (cfg.size - j) (by omega) fun l hl _ hc => hex ⟨l, hl, hc⟩
    rw [Nat.add_sub_cancel' hj] at ht
    have hw := ht.move (.firstEnd ht.2.2.1 (Nat.lt_irrefl _))
    by_cases hall : ∀ i < cfg.size, sizes i = 0
    · exact .inr ⟨_, hw.move (.firstHandled rfl hall)⟩
    · push Not at hall
      obtain ⟨i, hi, hne⟩ := hall
      have hc : Candidate cfg sizes i := ⟨⟨hi, fun hz => hne (hz ▸ hroot)⟩, hne⟩
      exact .inl ((hw.move (.firstLoop rfl hi hne)).to_candidate ⟨i, Nat.zero_le i, hc⟩)

/-- The server sends its current element in the first round and goes on. -/
theorem Alone.send_first (h : Alone cfg (.firstFor sizes i) k s) (hc : Candidate cfg sizes i)
    (hk : k < cfg.n) :
    ∃ t, Alone cfg (.firstFor (Function.update sizes i (sizes i - 1)) (i + 1)) (k + 1) t := by
  obtain ⟨hs, hw, hpc, hiter⟩ := h
  have hnd : ¬ s.done cfg := by
    unfold Session.done
    omega
  have h1 := hs.then rfl (.isendVal (.first hpc hc.1 hc.2 hnd))
  have h2 := h1.then rfl (.advance (.first rfl))
  refine ⟨_, h2, hw, rfl, ?_⟩
  show s.iter + 1 = k + 1
  rw [hiter]

/-- The server sends the first round up to the element `k`, or ends it before. -/
theorem Alone.first_round {k₀ : Nat} (h : Alone cfg (.firstFor sizes j) k₀ s) (hj : j ≤ cfg.size)
    (hroot : sizes rootRank = 0) (hle : k₀ ≤ k) (hk : k < cfg.n) :
    (∃ sizes i t, Candidate cfg sizes i ∧ Alone cfg (.firstFor sizes i) k t) ∨
      ∃ k₁ ≤ k, ∃ t, Alone cfg .handle k₁ t := by
  obtain ⟨d, rfl⟩ := Nat.exists_eq_add_of_le hle
  induction d generalizing k₀ sizes j s with
  | zero =>
    rcases h.next_candidate hj hroot with ⟨i, t, hc, ht⟩ | ⟨t, ht⟩
    · exact .inl ⟨sizes, i, t, hc, ht⟩
    · exact .inr ⟨k₀, Nat.le_refl _, t, ht⟩
  | succ d ih =>
    rcases h.next_candidate hj hroot with ⟨i, t, hc, ht⟩ | ⟨t, ht⟩
    · obtain ⟨u, hu⟩ := ht.send_first hc (by omega)
      have hroot' : Function.update sizes i (sizes i - 1) rootRank = 0 := by
        rw [Function.update_of_ne (Ne.symm hc.1.2), hroot]
      have := ih hu hc.1.1 hroot' (by omega) (by omega)
      rwa [show k₀ + 1 + d = k₀ + (d + 1) by omega] at this
    · exact .inr ⟨k₀, by omega, t, ht⟩

theorem Waiting.hasRequest (h : Waiting cfg s) (hi : cfg.IsClient i) : s.hasRequest i = false := by
  rw [Session.hasRequest, (h i hi).asked.channel]
  rfl

/-- With no request in sight the server uses elements itself. -/
theorem Alone.use {k₀ : Nat} (h : Alone cfg .handle k₀ s) (hle : k₀ ≤ k) (hk : k < cfg.n) :
    ∃ t, Alone cfg .handle k t := by
  obtain ⟨d, rfl⟩ := Nat.exists_eq_add_of_le hle
  induction d generalizing k₀ s with
  | zero => exact ⟨s, h⟩
  | succ d ih =>
    have hnd : ¬ s.done cfg := by
      have := h.2.2.2
      unfold Session.done
      omega
    have h1 := h.move (.handleNone h.2.2.1 hnd fun i hi => h.2.1.hasRequest hi)
    have h2 := h1.1.then rfl (.serverUse (.yield rfl))
    have h3 := h2.then rfl (.advance (.next rfl))
    have h4 : Alone cfg .handle (k₀ + 1) _ := ⟨h3, h.2.1, rfl, congrArg (· + 1) h.2.2.2⟩
    have := ih h4 (by omega) (by omega)
    rwa [show k₀ + 1 + d = k₀ + (d + 1) by omega] at this

/-- One delivered request makes the server send its current element. -/
theorem Alone.send_answer (h : Alone cfg .handle k s) (hk : k < cfg.n) (hi : cfg.IsClient i)
    (hb : cfg.bufferSize i ≠ 0) :
    ∃ t, QuietReachable cfg t ∧ SendSite cfg t i .sent ∧ t.iter = k := by
  obtain ⟨hs, hw, hpc, hiter⟩ := h
  obtain ⟨b, hb'⟩ := Nat.exists_eq_succ_of_ne_zero hb
  have hch := (hw i hi).asked.channel
  rw [hb', List.range_succ_eq_map, List.map_cons] at hch
  have h1 := hs.then rfl (.deliverToServer (i := i))
  generalize hu : ({ s with toServer := Function.update s.toServer i (s.toServer i).deliver } :
    Session) = u at h1
  have hchan : u.toServer i = (s.toServer i).deliver := by
    rw [← hu]
    exact Function.update_self _ _ _
  have hupc : u.pc = .handle := by rw [← hu]; exact hpc
  have huiter : u.iter = k := by rw [← hu]; exact hiter
  have hprobe : (u.toServer i).iprobe ClientMsg.isRequest = some (.clientRequestVal 0) := by
    rw [hchan, hch]
    rfl
  have hnd : ¬ u.done cfg := by
    unfold Session.done
    omega
  have h2 := h1.then rfl
    (.server (.handleSome hupc hnd hi (by rw [Session.hasRequest, hprobe]; rfl)))
  have h3 := h2.then rfl (.recvRequest rfl hprobe)
  exact ⟨_, h3, .answer rfl (h3.frontComplete i), huiter⟩

end Alone

/-- The server enters the first round, before its first candidate. -/
theorem reach_first_for {cfg : Config} {i : Nat} (hi : cfg.IsClient i)
    (hb : cfg.bufferSize i ≠ 0) :
    cfg.allBufferSizes i ≠ 0 ∧ ∃ s, Alone cfg (.firstFor cfg.allBufferSizes 0) 0 s := by
  have hsize : cfg.size ≠ 1 := by
    have := hi.1
    have : i ≠ 0 := hi.2
    omega
  have hne : cfg.allBufferSizes i ≠ 0 := by rwa [Config.allBufferSizes, if_neg hi.2]
  obtain ⟨s, hs, hat, hw⟩ := reach_first_round hsize
  have h0 : Alone cfg (.firstWhile cfg.allBufferSizes) 0 s := ⟨hs, hw, hat.at_pc, hat.iter⟩
  exact ⟨hne, _, h0.move (.firstLoop hat.at_pc hi.1 hne)⟩

theorem Alone.sendSite {cfg : Config} {sizes : Nat → Nat} {i k : Nat} {s : Session}
    (h : Alone cfg (.firstFor sizes i) k s) (hc : Candidate cfg sizes i) (hk : k < cfg.n) :
    SendSite cfg s i (.firstSent sizes i) := by
  have := h.2.2.2
  exact .first h.2.2.1 hc.1 hc.2 (by unfold Session.done; omega)

/-- For each element there is a run that sends it to some client, with no value
received or completed before. -/
theorem reach_send {cfg : Config} {i k : Nat} (hi : cfg.IsClient i) (hb : cfg.bufferSize i ≠ 0)
    (hk : k < cfg.n) :
    ∃ s j pc, QuietReachable cfg s ∧ SendSite cfg s j pc ∧ s.iter = k := by
  obtain ⟨-, s, hs⟩ := reach_first_for hi hb
  rcases hs.first_round (Nat.zero_le _) rfl (Nat.zero_le k) hk with
    ⟨sizes, j, t, hc, ht⟩ | ⟨k₁, hle, t, ht⟩
  · exact ⟨t, j, _, ht.1, ht.sendSite hc hk, ht.2.2.2⟩
  · obtain ⟨u, hu⟩ := ht.use hle hk
    obtain ⟨v, hv, hsend, hiter⟩ := hu.send_answer hk hi hb
    exact ⟨v, i, _, hv, hsend, hiter⟩

/-- The first send of all goes out in the first round. -/
theorem reach_first_send {cfg : Config} {i : Nat} (hi : cfg.IsClient i)
    (hb : cfg.bufferSize i ≠ 0) (hn : cfg.n ≠ 0) :
    ∃ s j sizes, QuietReachable cfg s ∧ s.pc = .firstFor sizes j ∧
      SendSite cfg s j (.firstSent sizes j) := by
  obtain ⟨hne, s, hs⟩ := reach_first_for hi hb
  obtain ⟨j, t, hc, ht⟩ := hs.to_candidate ⟨i, Nat.zero_le i, hi, hne⟩
  exact ⟨t, j, _, ht.1, ht.2.2.1, ht.sendSite hc (Nat.pos_of_ne_zero hn)⟩

end SimpleParallel.Schedule
