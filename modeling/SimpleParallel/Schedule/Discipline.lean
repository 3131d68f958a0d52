import SimpleParallel.Schedule.Drive

/-!
# The credit discipline, and when it holds

`CreditDiscipline` is the discipline the two send sites are written for: a
value answers a request that the server has received, so the push of its
request finds room (the assertions before both pushes) and the request that a
client pops has been received.

`handle_client_request` receives the request it answers.
`first_time_handle_client_request` only looks whether there is one
(`BOOST_ASSERT(m_comm.iprobe(..))`) and leaves it to be answered again, so the
discipline fails at the first value that goes out
(`creditDiscipline_iff`). With two ranks, a buffer of one and two elements
`m_requests[1]` is full when the second request is pushed
(`full_buffer_pushed`).
-/

namespace SimpleParallel.Schedule

/-- The discipline for client `i`. A request was received when its message is
no longer on the channel. -/
structure CreditDiscipline (cfg : Config) (s : Session) (i : Nat) : Prop where
  answered : (s.sentVals i).length ≤ s.gotRequests i
  unreceived : (s.inTransit i).length ≤ cfg.bufferSize i
  room : ∀ pc, SendSite cfg s i pc → (s.requests i).full = false
  popped : (s.client i).pc = .rerequest → ∃ q, (s.client i).requests.front = some q ∧
    .clientRequestVal q ∉ (s.toServer i).contents

/-- The server has not entered `handle_client_request`. -/
def ServerPc.beforeHandle : ServerPc → Bool
  | start | allGather | barrier | firstWhile _ | firstFor _ _ | firstSent _ _ => true
  | _ => false

theorem ServerMove.beforeHandle {cfg : Config} {s : Session} {pc : ServerPc}
    (hm : ServerMove cfg s pc) (h : pc.beforeHandle = true) : s.pc.beforeHandle = true := by
  cases hm <;> simp_all [ServerPc.beforeHandle]

section

variable {cfg : Config} {s : Session} {i : Nat}

/-- No request is received in the first round. -/
theorem gotRequests_first_round (h : Reachable cfg s) (hpc : s.pc.beforeHandle = true) :
    s.gotRequests i = 0 := by
  refine LTS.Reachable.invariant
    (P := fun s => s.pc.beforeHandle = true → s.gotRequests i = 0) ?_ ?_ h hpc
  · rintro _ rfl _
    rfl
  · intro s a t _ hg hs hpc
    cases hs with
    | server hm => exact hg (hm.beforeHandle hpc)
    | isendVal hs => cases hs <;> simp_all [ServerPc.beforeHandle, Session.isendVal]
    | advance hs => cases hs <;> simp_all [ServerPc.beforeHandle]
    | serverUse hs => cases hs <;> cases hpc
    | recvRequest _ _ | isendDone _ _ | recvFinished _ _ _ | drain _ _ => cases hpc
    | _ => exact hg hpc

/-- Where nothing can be sent to client `i`, the discipline holds. -/
theorem discipline_of_no_send (h : Reachable cfg s) (hi : cfg.IsClient i)
    (hno : ∀ s pc, Reachable cfg s → ¬ SendSite cfg s i pc) : CreditDiscipline cfg s i := by
  have hsent := sentVals_of_no_send h hno
  have hflow := flowInv h i hi
  rw [hsent, eq_comm, List.append_eq_nil_iff, List.append_eq_nil_iff] at hflow
  obtain ⟨⟨-, hheld⟩, htransit⟩ := hflow
  refine ⟨?_, ?_, fun pc hs => absurd hs (hno s pc h), fun hpc => ?_⟩
  · rw [hsent]
    exact Nat.zero_le _
  · rw [htransit]
    exact Nat.zero_le _
  · rw [Client.held, hpc] at hheld
    cases hheld

/-- After the first value went out, more was sent than requests received. -/
theorem discipline_broken (hi : cfg.IsClient i) (hb : cfg.bufferSize i ≠ 0) (hn : cfg.n ≠ 0) :
    ∃ s j, Reachable cfg s ∧ cfg.IsClient j ∧ ¬ CreditDiscipline cfg s j := by
  obtain ⟨s, j, sizes, hs, hpc, hsend⟩ := reach_first_send hi hb hn
  have hgot : s.gotRequests j = 0 :=
    gotRequests_first_round hs.reachable (by rw [hpc]; rfl)
  have hj := ((rangeInv hs.reachable).send hsend).2
  refine ⟨_, j, hs.reachable.step (.isendVal hsend), hj, fun hd => ?_⟩
  have hans := hd.answered
  simp only [Session.isendVal, Function.update_self, List.length_append, List.length_singleton,
    hgot] at hans
  omega

end

/-- The discipline holds in every reachable session exactly if nothing is ever
scheduled to a client: the range is empty, or no client has a buffer. -/
theorem creditDiscipline_iff (cfg : Config) :
    (∀ s, Reachable cfg s → ∀ i, cfg.IsClient i → CreditDiscipline cfg s i) ↔
      cfg.n = 0 ∨ ∀ i, cfg.IsClient i → cfg.bufferSize i = 0 := by
  constructor
  · intro h
    by_contra hcon
    push Not at hcon
    obtain ⟨hn, i, hi, hb⟩ := hcon
    obtain ⟨s, j, hs, hj, hbroken⟩ := discipline_broken hi hb hn
    exact hbroken (h s hs j hj)
  · exact fun hc s hs i hi => discipline_of_no_send hs hi fun _ _ hs => no_send hc hs

/-! ## The push onto a full buffer -/

/-- Element 0 was sent in the first round, and nothing was delivered. -/
structure FirstSent (s : Session) : Prop where
  server : ∃ sizes, s.pc = .firstFor sizes 2 ∧ ∀ i < 2, sizes i = 0
  iter : s.iter = 1
  sent : s.sentVals 1 = [0]
  items : (s.requests 1).items = [0]
  full : (s.requests 1).full = true
  client : (s.client 1).pc = .barrier
  toClient : s.toClient 1 = ⟨[], [.serverSendVal 0]⟩
  toServer : s.toServer 1 = ⟨[], [.clientRequestVal 0]⟩

theorem smallSession_sent : ∃ s, QuietReachable smallSession s ∧ FirstSent s := by
  have hc : smallSession.IsClient 1 := by decide
  have h0 : QuietReachable smallSession (Session.initial smallSession) := .init rfl
  -- both ranks gather, the client sends its request
  have h1 := h0.then rfl (.client hc (.enterAllGather rfl (by decide)))
  have h2 := h1.then rfl (.server (.enterAllGather rfl (by decide)))
  have h3 := h2.then rfl (.client hc (.leaveAllGather rfl (.of_two rfl nofun nofun)))
  have h4 := h3.then rfl (.post (k := 0) hc rfl)
  have h5 := h4.then rfl (.client hc (.enterBarrier rfl))
  have h6 := h5.then rfl (.server (.leaveAllGather rfl (.of_two rfl nofun nofun)))
  have h7 := h6.then rfl (.server (.leaveBarrier rfl (.of_two rfl nofun nofun rfl)))
  -- the first round, up to the end of its `for`
  have h8 := h7.then rfl (.server (.firstLoop (i := 1) rfl (by decide) (by decide)))
  have h9 := h8.then rfl (.server (.firstSkip rfl (by decide) (.inl rfl)))
  have h10 := h9.then rfl (.isendVal (.first rfl hc (by decide) (by decide)))
  have h11 := h10.then rfl (.advance (.first rfl))
  exact ⟨_, h11, ⟨_, rfl, by decide⟩, rfl, rfl, rfl, rfl, rfl, rfl, rfl⟩

/-- The request that element 0 answers arrives only now, so the server answers
it again, with element 1. The client has received nothing: `m_requests[1]` is
full when the second push comes. -/
theorem full_buffer_pushed :
    ¬ (∀ s, Reachable smallSession s → ∀ i, smallSession.IsClient i →
      CreditDiscipline smallSession s i) := by
  intro h
  have hc : smallSession.IsClient 1 := by decide
  obtain ⟨s, hs, hsent⟩ := smallSession_sent
  obtain ⟨sizes, hpc, hsizes⟩ := hsent.server
  have h1 := hs.then rfl (.server (.firstEnd hpc (Nat.lt_irrefl 2)))
  have h2 := h1.then rfl (.server (.firstHandled rfl hsizes))
  have h3 := h2.then rfl (.deliverToServer (i := 1))
  have hprobe : ((Function.update s.toServer 1 (s.toServer 1).deliver) 1).iprobe
      ClientMsg.isRequest = some (.clientRequestVal 0) := by
    rw [Function.update_self, hsent.toServer]
    rfl
  have hnd : s.iter ≠ smallSession.n := by
    rw [hsent.iter]
    decide
  have h4 := h3.then rfl (.server (.handleSome rfl hnd hc (by
    rw [Session.hasRequest, hprobe]
    rfl)))
  have h5 := h4.then rfl (.recvRequest rfl hprobe)
  have hroom := (h _ h5.reachable 1 hc).room .sent (.answer rfl (h5.frontComplete 1))
  have hfull : (s.requests 1).full = false := hroom
  rw [hsent.full] at hfull
  cases hfull

end SimpleParallel.Schedule
