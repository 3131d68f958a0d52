import SimpleParallel.Lib.Tally
import SimpleParallel.Schedule.Blocking
import SimpleParallel.Schedule.Drive
import SimpleParallel.Schedule.Silence

/-!
# Sessions come to their end

`Idle` steps get a session no further: MPI completes a send on its own, a
delivery finds nothing in transit, a client that waits for the end goes back to
look for a value. Every other step has its price, and `Session.todo` bounds what
is left to pay. As long as the session is not over, some rank can take a step
that is not idle.

* `todo_lt`: every step that is not idle brings the end nearer.
* `exists_step`: a session that is not over has such a step, if no probed request
  is taken back.
* `session_completes`: so every such session can be brought to its end.
-/

namespace SimpleParallel.Schedule

open Tally

/-- All iterators are destroyed. A single rank has no clean-up. -/
def Over (cfg : Config) (s : Session) : Prop :=
  (s.pc = .destroyed ∨ s.pc = .singleFinished) ∧ ∀ i, cfg.IsClient i → (s.client i).pc = .destroyed

/-- The steps that get the session no further. -/
inductive Idle (s : Session) : Act → Session → Prop
  | complete {r : Request} {t : Session} : Idle s (.complete r) t
  | deliver : Idle s .deliver s
  | poll {i : Nat} : (s.client i).pc = .checkDone → Idle s .control (s.setClientPc i .poll)

/-! ## What is left to do

The sums are chosen so that whatever a step adds to one of them it pays from
another: an element pays for the loop that hands it out and for its message, the
message for its way to the client and for the request that replaces it. -/

def ServerMsg.todo (m : ServerMsg) : Nat := if m.isVal then 17 else 1

/-- Received by the root, a message is paid for. -/
def ClientMsg.todo (_ : ClientMsg) : Nat := 2

/-- The price of an element that is still to be given away. -/
def Config.elementTodo (cfg : Config) : Nat := 24 + 2 * cfg.size

instance (cfg : Config) (sizes : Nat → Nat) (i : Nat) : Decidable (Candidate cfg sizes i) :=
  inferInstanceAs (Decidable (_ ∧ _))

/-- The rest of a pass finds a client to send to. -/
def Config.Sends (cfg : Config) (sizes : Nat → Nat) (i : Nat) : Prop :=
  ∃ j < cfg.size, i ≤ j ∧ Candidate cfg sizes j

instance (cfg : Config) (sizes : Nat → Nat) (i : Nat) : Decidable (cfg.Sends sizes i) :=
  inferInstanceAs (Decidable (∃ j < cfg.size, _))

/-- What the server has still to do if it gives no more elements away. -/
def ServerPc.todo (cfg : Config) : ServerPc → Nat
  | start => 12 + 7 * cfg.size
  | allGather => 11 + 7 * cfg.size
  | barrier => 10 + 7 * cfg.size
  | firstWhile _ => 9 + 7 * cfg.size
  -- a pass that sends nothing is followed by one that does
  | firstFor sizes i => (if cfg.Sends sizes i then 8 + 6 * cfg.size else 10 + 7 * cfg.size) +
      (cfg.size - i)
  | firstSent _ _ => 12 + 8 * cfg.size
  | sent | next => 8 + 6 * cfg.size
  | handle => 7 + 6 * cfg.size
  | recvRequest _ | test _ | yield => 6 + 6 * cfg.size
  | sendDone i => 5 + 2 * cfg.size + 4 * (cfg.size - i)
  | waitDone i => 4 + cfg.size + (cfg.size - i)
  | recvFinished i => 3 + (cfg.size - i)
  | drain | singleNext => 2
  | drainRecv _ | finished | single => 1
  | destroyed | singleFinished => 0

/-- What a client has still to do if it receives nothing more. -/
def Client.todo (c : Client) : Nat :=
  match c.pc with
  | .start => 14 + 5 * c.requests.reserve + c.requests.items.length
  | .allGather => 13 + 5 * c.requests.reserve + c.requests.items.length
  | .post k => 12 + 5 * k + c.requests.items.length
  | .barrier => 11 + c.requests.items.length
  | .poll => 10 + c.requests.items.length
  | .checkDone => 9 + c.requests.items.length
  | .recvDone => 8 + c.requests.items.length
  | .recheck => 7 + c.requests.items.length
  | .recv => c.requests.items.length
  | .rerequest => 16 + c.requests.items.length
  | .yield => 11 + c.requests.items.length
  | .sendFinished => 6 + c.requests.items.length
  | .finished => 2 + c.requests.items.length
  -- the destructor looks at each request once
  | .cancelling reqs => 1 + reqs.length
  | .destroyed => 0

/-- The requests that a buffer keeps. -/
def kept (b : CircularBuffer Nat) : Nat := b.items.length

/-- What is to do apart from the server's loops. -/
def Session.restTodo (cfg : Config) (s : Session) : Nat :=
  tally Client.todo cfg.size s.client + tally (Channel.weight ServerMsg.todo) cfg.size s.toClient +
    tally (Channel.weight ClientMsg.todo) cfg.size s.toServer + tally kept cfg.size s.requests

def Session.todo (cfg : Config) (s : Session) : Nat :=
  s.pc.todo cfg + cfg.elementTodo * (cfg.n - s.given) + s.restTodo cfg

/-! ## Steps that are not idle -/

section Todo

variable {cfg : Config} {s t : Session} {a : Act} {i k : Nat} {pc : ServerPc}

theorem length_pushBack (b : CircularBuffer Nat) (x : Nat) :
    (b.pushBack x).items.length ≤ b.items.length + 1 := by
  unfold CircularBuffer.pushBack
  split
  · exact Nat.le_of_eq List.length_append
  · split
    · exact Nat.le_succ _
    · rw [List.length_append, List.length_tail]
      exact Nat.add_le_add_right (Nat.sub_le _ _) 1

/-- The root gets nothing in the first round. -/
def ServerPc.RootServed : ServerPc → Prop
  | firstWhile sizes | firstFor sizes _ | firstSent sizes _ => sizes rootRank = 0
  | _ => True

theorem rootServed (h : Reachable cfg s) : s.pc.RootServed := by
  refine h.invariant (P := fun s => s.pc.RootServed) (fun s hs => ?_) fun s a t _ hi hs => ?_
  · cases hs
    trivial
  · cases hs with
    | server hm =>
      cases hm with
      | leaveBarrier => rfl
      | firstLoop hpc _ _ | firstEnd hpc _ | firstSkip hpc _ _ =>
        rw [hpc] at hi
        exact hi
      | _ => trivial
    | isendVal hs =>
      cases hs with
      | first hpc _ _ _ =>
        rw [hpc] at hi
        exact hi
      | answer => trivial
    | advance hs =>
      cases hs with
      | @first sizes i hpc =>
        rw [hpc] at hi
        show Function.update sizes i (sizes i - 1) rootRank = 0
        rw [Function.update_apply]
        split
        · next heq => rw [← heq, show sizes rootRank = 0 from hi]
        · exact hi
      | _ => trivial
    | serverUse hs => cases hs <;> trivial
    | recvRequest | isendDone | recvFinished | drain => trivial
    | _ => exact hi

/-- A move of the server. -/
theorem ServerMove.todo_lt (h : Reachable cfg s) (hm : ServerMove cfg s pc) :
    pc.todo cfg < s.pc.todo cfg := by
  have hroot := rootServed h
  cases hm with
  | @firstLoop sizes i hpc hi hne =>
    rw [hpc] at hroot
    have hsends : cfg.Sends sizes 0 := by
      refine ⟨i, hi, Nat.zero_le i, ⟨hi, fun hz => hne ?_⟩, hne⟩
      rw [hz]
      exact hroot
    rw [hpc, ServerPc.todo, ServerPc.todo, if_pos hsends]
    omega
  | @firstEnd sizes i hpc hi =>
    have hno : ¬ cfg.Sends sizes i := fun ⟨j, hj, hij, _⟩ => hi (Nat.lt_of_le_of_lt hij hj)
    rw [hpc, ServerPc.todo, ServerPc.todo, if_neg hno]
    omega
  | @firstSkip sizes i hpc hi hskip =>
    have hsame : cfg.Sends sizes (i + 1) ↔ cfg.Sends sizes i := by
      refine ⟨fun ⟨j, hj, hij, hc⟩ => ⟨j, hj, Nat.le_of_succ_le hij, hc⟩,
        fun ⟨j, hj, hij, hc⟩ => ?_⟩
      refine ⟨j, hj, Nat.lt_of_le_of_ne hij fun heq => ?_, hc⟩
      rw [← heq] at hc
      exact hskip.elim hc.1.2 hc.2
    simp only [hpc, ServerPc.todo, hsame]
    omega
  | @firstDone sizes i hpc hi hne _ =>
    have hsends : cfg.Sends sizes i := ⟨i, hi.1, Nat.le_refl i, hi, hne⟩
    rw [hpc, ServerPc.todo, ServerPc.todo, if_pos hsends]
    omega
  | sendDoneSkip hpc | recvFinishedSkip hpc =>
    have := cfg.size_pos
    rw [hpc]
    simp only [ServerPc.todo, rootRank]
    omega
  | _ =>
    simp only [ServerPc.todo, *]
    omega

/-- A move of a client, if it is not idle. -/
theorem ClientMove.todo_lt {pc : ClientPc} (hm : ClientMove cfg s i pc)
    (hpoll : (s.client i).pc = .checkDone → pc ≠ .poll) :
    Client.todo { s.client i with pc } < (s.client i).todo := by
  cases hm with
  | checkNone hpc _ _ => exact absurd rfl (hpoll hpc)
  | _ =>
    simp only [Client.todo, List.length_cons, *]
    omega

/-- A step that gives nothing away. -/
theorem todo_lt_of_given (hgiven : t.given = s.given)
    (hlt : t.pc.todo cfg + t.restTodo cfg < s.pc.todo cfg + s.restTodo cfg) :
    t.todo cfg < s.todo cfg := by
  unfold Session.todo
  rw [hgiven]
  omega

/-- A step that gives an element away, which pays for it. -/
theorem todo_lt_of_give (ht : Reachable cfg t) (hgiven : t.given = s.given + 1)
    (hlt : t.pc.todo cfg + t.restTodo cfg < s.pc.todo cfg + s.restTodo cfg + cfg.elementTodo) :
    t.todo cfg < s.todo cfg := by
  have hle := (rangeInv ht).given_le
  have hsub : cfg.n - s.given = (cfg.n - t.given) + 1 := by omega
  unfold Session.todo
  rw [hsub, Nat.mul_succ]
  omega

theorem AdvanceSite.handedOver (hs : AdvanceSite s pc) :
    pc.handedOver = false ∧ s.pc.handedOver = true := by
  cases hs <;> simp_all [ServerPc.handedOver]

theorem SendSite.handedOver (hs : SendSite cfg s i pc) :
    pc.handedOver = true ∧ s.pc.handedOver = false := by
  cases hs <;> simp_all [ServerPc.handedOver]

theorem UseSite.handedOver (hs : UseSite cfg s pc) :
    pc.handedOver = true ∧ s.pc.handedOver = false := by
  cases hs <;> simp_all [ServerPc.handedOver]

theorem Step.todo_server (h : Reachable cfg s) (hm : ServerMove cfg s pc) :
    Session.todo cfg { s with pc } < s.todo cfg := by
  have hmove := hm.todo_lt h
  obtain ⟨hto, hfrom⟩ := hm.handedOver
  refine todo_lt_of_given ?_ (Nat.add_lt_add_right hmove _)
  unfold Session.given
  rw [hto, hfrom]

/-- The root sends an element. -/
theorem Step.todo_isendVal (h : Reachable cfg s) (hs : SendSite cfg s i pc) :
    (s.isendVal i pc).todo cfg < s.todo cfg := by
  obtain ⟨hto, hfrom⟩ := hs.handedOver
  have hi : i < cfg.size := ((rangeInv h).send hs).2.1
  have hlater := LTS.Reachable.step h (Step.isendVal hs)
  have hgiven : (s.isendVal i pc).given = s.given + 1 := by
    simp only [Session.given, Session.isendVal, hto, hfrom, if_true, Bool.false_eq_true, if_false,
      Nat.add_zero]
  refine todo_lt_of_give hlater hgiven ?_
  have hchannel := tally_update (w := Channel.weight ServerMsg.todo) (f := s.toClient)
    (a := (s.toClient i).send (.serverSendVal s.iter)) hi
  have hbuffer :=
    tally_update (w := kept) (f := s.requests) (a := (s.requests i).pushBack s.iter) hi
  have hpush : kept ((s.requests i).pushBack s.iter) ≤ kept (s.requests i) + 1 :=
    length_pushBack _ _
  have hmsg : ServerMsg.todo (.serverSendVal s.iter) = 17 := rfl
  rw [Channel.weight_send, hmsg] at hchannel
  have hpc : pc.todo cfg + 19 < s.pc.todo cfg + cfg.elementTodo := by
    unfold Config.elementTodo
    cases hs with
    | first hpc hc hne _ =>
      rw [hpc, ServerPc.todo, ServerPc.todo, if_pos ⟨i, hi, Nat.le_refl i, hc, hne⟩]
      omega
    | answer hpc _ =>
      rw [hpc, ServerPc.todo, ServerPc.todo]
      omega
  unfold Session.restTodo
  simp only [Session.isendVal]
  omega

/-- `m_iter++`. -/
theorem Step.todo_advance (hs : AdvanceSite s pc) :
    Session.todo cfg { s with pc := pc, iter := s.iter + 1 } < s.todo cfg := by
  obtain ⟨hto, hfrom⟩ := hs.handedOver
  refine todo_lt_of_given ?_ (Nat.add_lt_add_right ?_ _)
  · simp only [Session.given, hto, hfrom, if_true, Bool.false_eq_true, if_false, Nat.add_zero]
  · cases hs with
    | @first sizes i hpc =>
      rw [hpc, ServerPc.todo, ServerPc.todo]
      split <;> omega
    | _ =>
      simp only [ServerPc.todo, *]
      omega

/-- The root uses an element. -/
theorem Step.todo_serverUse (h : Reachable cfg s) (hs : UseSite cfg s pc) :
    Session.todo cfg { s with pc := pc, serverYielded := s.serverYielded ++ [s.iter] } <
      s.todo cfg := by
  obtain ⟨hto, hfrom⟩ := hs.handedOver
  have hlater := LTS.Reachable.step h (Step.serverUse hs)
  refine todo_lt_of_give hlater ?_ ?_
  · simp only [Session.given, hto, hfrom, if_true, Bool.false_eq_true, if_false, Nat.add_zero]
  · show pc.todo cfg + s.restTodo cfg < _
    unfold Config.elementTodo
    cases hs with
    | yield hpc =>
      rw [hpc, ServerPc.todo, ServerPc.todo]
      omega
    | single hpc _ =>
      rw [hpc, ServerPc.todo, ServerPc.todo]
      omega

/-- The root receives a request. -/
theorem Step.todo_takeRequest {q : Nat} (hi : i < cfg.size)
    (hq : (s.toServer i).iprobe ClientMsg.isRequest = some (.clientRequestVal q))
    (hover : pc.handedOver = false ∧ s.pc.handedOver = false)
    (hpc : pc.todo cfg ≤ s.pc.todo cfg + 1) : (s.takeRequest i q pc).todo cfg < s.todo cfg := by
  have hgiven : (s.takeRequest i q pc).given = s.given := by
    simp only [Session.given, Session.takeRequest, hover.1, hover.2]
  refine todo_lt_of_given hgiven ?_
  have hchannel := tally_update (w := Channel.weight ClientMsg.todo) (f := s.toServer)
    (a := (s.toServer i).recv ClientMsg.isRequest) hi
  have hweight := Channel.weight_recv ClientMsg.todo hq
  have hmsg : ClientMsg.todo (.clientRequestVal q) = 2 := rfl
  unfold Session.restTodo
  simp only [Session.takeRequest]
  omega

/-- A step of a client, and of the channel from or to it. -/
theorem todo_client {c : Client} {toClient : Channel ServerMsg} {toServer : Channel ClientMsg}
    (hi : i < cfg.size) (hclient : t.client = Function.update s.client i c)
    (htoClient : t.toClient = Function.update s.toClient i toClient)
    (htoServer : t.toServer = Function.update s.toServer i toServer) (hpc : t.pc = s.pc)
    (hiter : t.iter = s.iter) (hrequests : t.requests = s.requests)
    (hlt : c.todo + toClient.weight ServerMsg.todo + toServer.weight ClientMsg.todo <
      (s.client i).todo + (s.toClient i).weight ServerMsg.todo +
        (s.toServer i).weight ClientMsg.todo) : t.todo cfg < s.todo cfg := by
  have hgiven : t.given = s.given := by
    unfold Session.given
    rw [hpc, hiter]
  refine todo_lt_of_given hgiven ?_
  have h1 := tally_update (w := Client.todo) (f := s.client) (a := c) hi
  have h2 := tally_update (w := Channel.weight ServerMsg.todo) (f := s.toClient) (a := toClient) hi
  have h3 := tally_update (w := Channel.weight ClientMsg.todo) (f := s.toServer) (a := toServer) hi
  unfold Session.restTodo
  rw [hpc, hclient, htoClient, htoServer, hrequests]
  omega

/-- A step of a client that leaves the channels alone. -/
theorem todo_client_only {c : Client} (hi : i < cfg.size)
    (hclient : t.client = Function.update s.client i c) (htoClient : t.toClient = s.toClient)
    (htoServer : t.toServer = s.toServer) (hpc : t.pc = s.pc) (hiter : t.iter = s.iter)
    (hrequests : t.requests = s.requests) (hlt : c.todo < (s.client i).todo) :
    t.todo cfg < s.todo cfg := by
  refine todo_client hi hclient (htoClient.trans (Function.update_eq_self i s.toClient).symm)
    (htoServer.trans (Function.update_eq_self i s.toServer).symm) hpc hiter hrequests ?_
  omega

/-- A client sends a request. -/
theorem Step.todo_sendRequest {b : CircularBuffer Nat} {pc : ClientPc} (hi : i < cfg.size)
    (hlt : ∀ c : Client, c.pc = pc → c.requests.items.length ≤ b.items.length + 1 →
      c.todo + 3 < (s.client i).todo) : (s.sendRequest i b pc).todo cfg < s.todo cfg := by
  refine todo_client hi rfl (Function.update_eq_self i s.toClient).symm rfl rfl rfl rfl ?_
  have hsend := Channel.weight_send ClientMsg.todo (s.toServer i)
    (.clientRequestVal (s.client i).posted)
  have hmsg : ClientMsg.todo (.clientRequestVal (s.client i).posted) = 2 := rfl
  have hclient := hlt
    { s.client i with
      pc := pc
      requests := b.pushBack (s.client i).posted
      posted := (s.client i).posted + 1 } rfl (length_pushBack _ _)
  omega

/-- Every step that is not idle brings the end nearer. -/
theorem todo_lt (h : Reachable cfg s) (hs : Step cfg s a t) (hbusy : ¬ Idle s a t) :
    t.todo cfg < s.todo cfg := by
  cases hs with
  | server hm => exact Step.todo_server h hm
  | isendVal hs => exact Step.todo_isendVal h hs
  | advance hs => exact Step.todo_advance hs
  | serverUse hs => exact Step.todo_serverUse h hs
  | @client i pc hi hm =>
    refine todo_client_only hi.1 rfl rfl rfl rfl rfl rfl (hm.todo_lt fun hpc hpoll => ?_)
    subst hpoll
    exact hbusy (.poll hpc)
  | @recvRequest i q hpc hq =>
    have hi := (rangeInv h).source i (by rw [hpc]; rfl)
    refine Step.todo_takeRequest hi.1 hq ?_ ?_ <;> rw [hpc]
    · exact ⟨rfl, rfl⟩
    · exact Nat.le_succ _
  | @drain i q hpc hq =>
    have hi : cfg.IsClient i := by
      by_contra hi
      have hmem := Channel.mem_contents_of_iprobe hq
      rw [((cleanedInv h).others i hi).2] at hmem
      cases hmem
    refine Step.todo_takeRequest hi.1 hq ?_ ?_ <;> rw [hpc]
    · exact ⟨rfl, rfl⟩
    · exact Nat.le_refl _
  | @testPop i hpc hfront =>
    have hi := (rangeInv h).source i (by rw [hpc]; rfl)
    refine todo_lt_of_given rfl ?_
    have hbuffer := tally_update (w := kept) (f := s.requests) (a := (s.requests i).popFront) hi.1
    have hpop : kept (s.requests i).popFront + 1 = kept (s.requests i) := by
      unfold kept
      cases hitems : (s.requests i).items with
      | nil => simp [Session.frontComplete, CircularBuffer.front, hitems] at hfront
      | cons k ks => simp [hitems]
    unfold Session.restTodo
    dsimp only
    omega
  | @isendDone i hpc hi =>
    have hgiven : Session.given
        { s with
          pc := .sendDone (i + 1)
          toClient := Function.update s.toClient i ((s.toClient i).send .valGenDone) } =
        s.given := by
      unfold Session.given
      rw [hpc]
      rfl
    refine todo_lt_of_given hgiven ?_
    have hchannel := tally_update (w := Channel.weight ServerMsg.todo) (f := s.toClient)
      (a := (s.toClient i).send .valGenDone) hi.1
    rw [Channel.weight_send, show ServerMsg.todo .valGenDone = 1 from rfl] at hchannel
    have hlt := hi.1
    unfold Session.restTodo
    simp only [hpc, ServerPc.todo]
    omega
  | @recvFinished i hpc hi hq =>
    have hgiven : Session.given
        { s with
          pc := .recvFinished (i + 1)
          toServer := Function.update s.toServer i ((s.toServer i).recv ClientMsg.isFinished) } =
        s.given := by
      unfold Session.given
      rw [hpc]
      rfl
    refine todo_lt_of_given hgiven ?_
    have hchannel := tally_update (w := Channel.weight ClientMsg.todo) (f := s.toServer)
      (a := (s.toServer i).recv ClientMsg.isFinished) hi.1
    have hweight := Channel.weight_recv ClientMsg.todo hq
    have hlt := hi.1
    unfold Session.restTodo
    simp only [hpc, ServerPc.todo]
    omega
  | @post i k hi hpc =>
    refine Step.todo_sendRequest hi.1 fun c hc hlen => ?_
    unfold Client.todo
    rw [hpc, hc]
    dsimp only
    omega
  | @rerequest i hi hpc =>
    refine Step.todo_sendRequest hi.1 fun c hc hlen => ?_
    have hpop :
        ((s.client i).requests.popFront).items.length ≤ (s.client i).requests.items.length := by
      rw [CircularBuffer.items_popFront, List.length_tail]
      exact Nat.sub_le _ _
    unfold Client.todo
    rw [hpc, hc]
    dsimp only
    omega
  | @recvDone i hi hpc hm =>
    refine todo_client hi.1 rfl rfl (Function.update_eq_self i s.toServer).symm rfl rfl rfl ?_
    have hweight := Channel.weight_recv ServerMsg.todo hm
    unfold Client.todo
    rw [hpc]
    dsimp only
    omega
  | @recvVal i k hi hpc hk =>
    refine todo_client hi.1 rfl rfl (Function.update_eq_self i s.toServer).symm rfl rfl rfl ?_
    have hweight := Channel.weight_recv ServerMsg.todo hk
    rw [show ServerMsg.todo (.serverSendVal k) = 17 from rfl] at hweight
    unfold Client.todo
    rw [hpc]
    dsimp only
    omega
  | @recheckNone i hi hpc _ | @clientUse i hi hpc =>
    refine todo_client_only hi.1 rfl rfl rfl rfl rfl rfl ?_
    unfold Client.todo
    rw [hpc]
    dsimp only
    omega
  | @sendFinished i hi hpc =>
    refine todo_client hi.1 rfl (Function.update_eq_self i s.toClient).symm rfl rfl rfl rfl ?_
    rw [Channel.weight_send, show ClientMsg.todo .clientFinished = 2 from rfl]
    unfold Client.todo
    rw [hpc]
    dsimp only
    omega
  | @cancel i q qs hi hpc hmem =>
    refine todo_client hi.1 rfl (Function.update_eq_self i s.toClient).symm rfl rfl rfl rfl ?_
    have hweight := Channel.weight_cancel_le ClientMsg.todo (s.toServer i) (.clientRequestVal q)
    unfold Client.todo
    rw [hpc]
    dsimp only
    rw [List.length_cons]
    omega
  | complete => exact absurd .complete hbusy
  | @deliverToClient i =>
    rcases Channel.deliver_cases ServerMsg.todo (s.toClient i) with hsame | hless
    · rw [hsame, Function.update_eq_self] at hbusy
      exact absurd .deliver hbusy
    · refine todo_client (c := s.client i) (by_contra fun hi => hless.1 ?_) ?_ rfl
        (Function.update_eq_self i s.toServer).symm rfl rfl rfl ?_
      · exact ((cleanedInv h).others i fun hc => hi hc.1).1
      · exact (Function.update_eq_self i s.client).symm
      · have := hless.2
        omega
  | @deliverToServer i =>
    rcases Channel.deliver_cases ClientMsg.todo (s.toServer i) with hsame | hless
    · rw [hsame, Function.update_eq_self] at hbusy
      exact absurd .deliver hbusy
    · refine todo_client (c := s.client i) (by_contra fun hi => hless.1 ?_) ?_
        (Function.update_eq_self i s.toClient).symm rfl rfl rfl rfl ?_
      · exact ((cleanedInv h).others i fun hc => hi hc.1).2
      · exact (Function.update_eq_self i s.client).symm
      · have := hless.2
        omega

end Todo

/-! ## Always a step

A client that has seen a message before it receives it still sees it. -/

/-- What client `c` has probed is there. -/
structure SeesOk (c : Client) (ch : Channel ServerMsg) : Prop where
  value : c.pc = .recv → (ch.iprobe ServerMsg.isVal).isSome
  genDone : c.pc = .recvDone → (ch.iprobe ServerMsg.isDone).isSome

namespace SeesOk

variable {cfg : Config} {s t : Session} {a : Act} {i j : Nat}

theorem move {pc : ClientPc} (hm : ClientMove cfg s i pc) :
    SeesOk { s.client i with pc } (s.toClient i) := by
  cases hm with
  | pollSome _ hv | recheckSome _ hv => exact ⟨fun _ => hv, nofun⟩
  | checkSome _ _ hd => exact ⟨nofun, fun _ => hd⟩
  | _ => exact ⟨nofun, nofun⟩

/-- A step of client `j` to a place that has probed nothing. -/
theorem client {c : Client} (h : SeesOk (s.client i) (s.toClient i))
    (hclient : t.client = Function.update s.client j c)
    (hchannel : i ≠ j → t.toClient i = s.toClient i) (hc : c.pc ≠ .recv ∧ c.pc ≠ .recvDone) :
    SeesOk (t.client i) (t.toClient i) := by
  rw [hclient]
  by_cases hij : i = j
  · subst hij
    rw [Function.update_self]
    exact ⟨fun hpc => absurd hpc hc.1, fun hpc => absurd hpc hc.2⟩
  · rw [Function.update_of_ne hij, hchannel hij]
    exact h

/-- The server sends, or a message becomes visible. -/
theorem channel {ch : Channel ServerMsg} (h : SeesOk (s.client i) (s.toClient i))
    (hclient : t.client = s.client) (hchannel : t.toClient = Function.update s.toClient j ch)
    (hch : ∀ kind, ((s.toClient j).iprobe kind).isSome → (ch.iprobe kind).isSome) :
    SeesOk (t.client i) (t.toClient i) := by
  rw [hclient, hchannel]
  by_cases hij : i = j
  · subst hij
    rw [Function.update_self]
    exact ⟨fun hpc => hch _ (h.value hpc), fun hpc => hch _ (h.genDone hpc)⟩
  · rwa [Function.update_of_ne hij]

theorem step (h : SeesOk (s.client i) (s.toClient i)) (hs : Step cfg s a t) :
    SeesOk (t.client i) (t.toClient i) := by
  cases hs with
  | @client j pc _ hm =>
    by_cases hij : i = j
    · subst hij
      simpa [Session.setClientPc] using move hm
    · simpa [Session.setClientPc, Function.update_of_ne hij] using h
  | isendVal _ | isendDone _ _ => exact h.channel rfl rfl fun _ hv => hv
  | deliverToClient => exact h.channel rfl rfl fun _ hv => Channel.iprobe_deliver hv
  | recvDone _ _ _ | recvVal _ _ _ =>
    refine h.client rfl (fun hij => Function.update_of_ne hij _ _) ⟨?_, ?_⟩ <;> intro hpc <;>
      cases hpc
  | post _ _ | recheckNone _ _ _ | sendFinished _ _ | rerequest _ _ | clientUse _ _
  | cancel _ _ _ =>
    refine h.client rfl (fun _ => rfl) ⟨?_, ?_⟩ <;> intro hpc <;> cases hpc
  | _ => exact h

end SeesOk

theorem seesOk {cfg : Config} {s : Session} (h : Reachable cfg s) (i : Nat) :
    SeesOk (s.client i) (s.toClient i) :=
  h.invariant (P := fun s => SeesOk (s.client i) (s.toClient i))
    (fun _ hs => hs ▸ ⟨nofun, nofun⟩) fun _ _ _ _ hi hs => hi.step hs

/-- A step that is not idle and takes no probed request back. -/
def CanStep (cfg : Config) (s : Session) : Prop :=
  ∃ a t, Step cfg s a t ∧ ¬ Idle s a t ∧ ¬ a.TakesProbed s

section Progress

variable {cfg : Config} {s : Session} {i : Nat}

theorem canStep_server {pc : ServerPc} (hm : ServerMove cfg s pc) : CanStep cfg s := by
  refine ⟨_, _, .server hm, fun hidle => ?_, id⟩
  generalize ht : ({ s with pc } : Session) = t at hidle
  cases hidle with
  | @poll j hpc =>
    have hsame := congrArg (fun t : Session => (t.client j).pc) ht
    simp [Session.setClientPc, hpc] at hsame

/-- A step of client `i`, but not back to the look for a value, is not idle. -/
theorem not_idle_of_client {t : Session} {c : Client} (ht : t.client = Function.update s.client i c)
    (hpoll : (s.client i).pc = .checkDone → c.pc ≠ .poll) : ¬ Idle s .control t := by
  intro hidle
  cases hidle with
  | @poll j hpc =>
    have hsame := congrArg (fun client : Nat → Client => (client j).pc) ht
    by_cases hij : j = i
    · subst hij
      simp only [Session.setClientPc, Function.update_self] at hsame
      exact hpoll hpc hsame.symm
    · simp [Session.setClientPc, Function.update_of_ne hij, hpc] at hsame

theorem canStep_client {pc : ClientPc} (hi : cfg.IsClient i) (hm : ClientMove cfg s i pc)
    (hpoll : (s.client i).pc = .checkDone → pc ≠ .poll) : CanStep cfg s :=
  ⟨_, _, .client hi hm, not_idle_of_client rfl hpoll, id⟩

/-- A message in transit can be delivered. -/
theorem transit_of_stuck (hstuck : ¬ CanStep cfg s) (i : Nat) :
    (s.toClient i).transit = [] ∧ (s.toServer i).transit = [] := by
  constructor
  · by_contra hne
    refine hstuck ⟨_, _, .deliverToClient (i := i), fun hidle => ?_, id⟩
    generalize ht : ({ s with toClient := Function.update s.toClient i (s.toClient i).deliver } :
      Session) = t at hidle
    cases hidle with
    | deliver =>
      have hsame := congrArg (fun t : Session => (t.toClient i).transit.length) ht
      simp only [Function.update_self, Channel.deliver] at hsame
      split at hsame
      · next hnil => exact hne hnil
      · next hcons => simp [hcons] at hsame
  · by_contra hne
    refine hstuck ⟨_, _, .deliverToServer (i := i), fun hidle => ?_, id⟩
    generalize ht : ({ s with toServer := Function.update s.toServer i (s.toServer i).deliver } :
      Session) = t at hidle
    cases hidle with
    | deliver =>
      have hsame := congrArg (fun t : Session => (t.toServer i).transit.length) ht
      simp only [Function.update_self, Channel.deliver] at hsame
      split at hsame
      · next hnil => exact hne hnil
      · next hcons => simp [hcons] at hsame

/-- Before it waits for the end a client waits for nothing but the other ranks. -/
theorem client_of_stuck (h : Reachable cfg s) (hstuck : ¬ CanStep cfg s) (hi : cfg.IsClient i)
    (hgathered : s.AllGatherEntered cfg) (hbarrier : s.BarrierEntered cfg) :
    ((s.client i).pc = .checkDone ∧ (s.client i).leaderGenFinished = false ∧
      (s.toClient i).iprobe ServerMsg.isDone = none) ∨ (s.client i).pc = .destroyed := by
  have hmove : ∀ {pc : ClientPc}, ClientMove cfg s i pc →
      (s.client i).pc = .checkDone ∧ pc = .poll := by
    intro pc hm
    by_contra hno
    exact hstuck (canStep_client hi hm fun hpc hpoll => hno ⟨hpc, hpoll⟩)
  have hstep : ∀ {a : Act} {t : Session}, Step cfg s a t → ¬ Idle s a t → ¬ a.TakesProbed s →
      False :=
    fun hs hidle hok => hstuck ⟨_, _, hs, hidle, hok⟩
  cases hpc : (s.client i).pc with
  | start => exact absurd hpc (hgathered.2 i hi)
  | allGather => exact absurd hpc (hbarrier.2.2 i hi).2.1
  | post k => exact absurd hpc ((hbarrier.2.2 i hi).2.2 k)
  | barrier => cases (hmove (.leaveBarrier hpc hbarrier)).1.symm.trans hpc
  | poll =>
    cases hv : s.hasValInBuffer i with
    | true => cases (hmove (.pollSome hpc hv)).2
    | false => cases (hmove (.pollNone hpc hv)).2
  | checkDone =>
    cases hf : (s.client i).leaderGenFinished with
    | true => cases (hmove (.checkFlag hpc hf)).2
    | false =>
      refine .inl ⟨rfl, rfl, Option.not_isSome_iff_eq_none.mp fun hd => ?_⟩
      cases (hmove (.checkSome hpc hf hd)).2
  | recvDone =>
    obtain ⟨m, hm⟩ := Option.isSome_iff_exists.mp ((seesOk h i).genDone hpc)
    cases m with
    | valGenDone => exact (hstep (.recvDone hi hpc hm) nofun id).elim
    | serverSendVal k => cases Channel.kind_of_iprobe hm
  | recheck =>
    cases hv : s.hasValInBuffer i with
    | true => cases (hmove (.recheckSome hpc hv)).2
    | false =>
      exact (hstep (.recheckNone hi hpc hv) (not_idle_of_client rfl nofun) id).elim
  | recv =>
    obtain ⟨m, hm⟩ := Option.isSome_iff_exists.mp ((seesOk h i).value hpc)
    cases m with
    | serverSendVal k => exact (hstep (.recvVal hi hpc hm) nofun id).elim
    | valGenDone => cases Channel.kind_of_iprobe hm
  | rerequest => exact (hstep (.rerequest hi hpc) nofun id).elim
  | yield => exact (hstep (.clientUse hi hpc) nofun id).elim
  | sendFinished => exact (hstep (.sendFinished hi hpc) nofun id).elim
  | finished => cases (hmove (.destroy hpc)).1.symm.trans hpc
  | cancelling reqs =>
    cases reqs with
    | nil => cases (hmove (.destroyed hpc)).1.symm.trans hpc
    | cons q qs => cases (hmove (.skipCancel hpc)).1.symm.trans hpc
  | destroyed => exact .inr rfl

/-- Nobody waits at the collectives for ever. -/
theorem entered_of_stuck (hstuck : ¬ CanStep cfg s) (hstart : s.pc ≠ .start) :
    s.AllGatherEntered cfg ∧ s.BarrierEntered cfg := by
  have hmove : ∀ {i : Nat} {pc : ClientPc}, cfg.IsClient i → ClientMove cfg s i pc →
      (s.client i).pc ≠ .checkDone → False := fun hi hm hne =>
    hstuck (canStep_client hi hm fun hpc => absurd hpc hne)
  have hgathered : s.AllGatherEntered cfg := by
    refine ⟨hstart, fun i hi hpc => ?_⟩
    have hsize : cfg.size ≠ 1 := fun h1 => hi.2 (Nat.lt_one_iff.mp (h1 ▸ hi.1))
    exact hmove hi (.enterAllGather hpc hsize) (by rw [hpc]; nofun)
  refine ⟨hgathered, hgathered.1, fun hpc => ?_, fun i hi => ⟨hgathered.2 i hi, fun hpc => ?_,
    fun k hpc => ?_⟩⟩
  · exact hstuck (canStep_server (.leaveAllGather hpc hgathered))
  · exact hmove hi (.leaveAllGather hpc hgathered) (by rw [hpc]; nofun)
  · cases k with
    | zero => exact hmove hi (.enterBarrier hpc) (by rw [hpc]; nofun)
    | succ k => exact hstuck ⟨_, _, .post hi hpc, nofun, id⟩

/-- A client to which the end was announced is destroyed. -/
theorem destroyed_of_stuck (h : Reachable cfg s) (hstuck : ¬ CanStep cfg s) (hi : cfg.IsClient i)
    (hdone : s.pc.doneSent i = true) : (s.client i).pc = .destroyed := by
  have hstart : s.pc ≠ .start := by
    intro hpc
    rw [hpc] at hdone
    cases hdone
  obtain ⟨hgathered, hbarrier⟩ := entered_of_stuck hstuck hstart
  refine (client_of_stuck h hstuck hi hgathered hbarrier).resolve_left ?_
  rintro ⟨-, hflag, hnone⟩
  have hmark := (markInv h i hi).mark
  rw [hdone, hflag] at hmark
  obtain ⟨l, hl, -⟩ := hmark
  have hmem : ServerMsg.valGenDone ∈ (s.toClient i).contents := by
    rw [hl]
    exact List.mem_append_right _ (List.mem_singleton_self _)
  obtain ⟨m, hm⟩ : ∃ m, (s.toClient i).iprobe ServerMsg.isDone = some m :=
    Channel.exists_iprobe (transit_of_stuck hstuck i).1 hmem rfl
  cases hnone.symm.trans hm

/-- A request under way can be received. -/
theorem request_of_stuck (hstuck : ¬ CanStep cfg s) (hne : s.requestsInTransit i ≠ []) :
    ∃ q, (s.toServer i).iprobe ClientMsg.isRequest = some (.clientRequestVal q) := by
  obtain ⟨q, hq⟩ := List.exists_mem_of_ne_nil _ hne
  obtain ⟨m, hm, hmq⟩ := List.mem_filterMap.mp hq
  have hkind : m.isRequest = true := by
    cases m with
    | clientRequestVal => rfl
    | clientFinished => cases hmq
  obtain ⟨m', hm'⟩ := Channel.exists_iprobe (transit_of_stuck hstuck i).2 hm hkind
  cases m' with
  | clientRequestVal q' => exact ⟨q', hm'⟩
  | clientFinished => cases Channel.kind_of_iprobe hm'

/-- While the session is not over, some rank can take a step that is not idle. -/
theorem exists_step (hp : LTS.Reachable (probingSys cfg) s) : Over cfg s ∨ CanStep cfg s := by
  have h : Reachable cfg s := hp.of_restrict
  refine or_iff_not_imp_right.mpr fun hstuck => ?_
  have hmove : ∀ {pc : ServerPc}, ServerMove cfg s pc → Over cfg s := fun hm =>
    absurd (canStep_server hm) hstuck
  have hstep : ∀ {a : Act} {t : Session}, Step cfg s a t → ¬ Idle s a t → ¬ a.TakesProbed s →
      Over cfg s := fun hs hidle hok => absurd ⟨_, _, hs, hidle, hok⟩ hstuck
  -- no client is left once the end was announced to all
  have hclients : (∀ i, s.pc.doneSent i = true) → ∀ i, cfg.IsClient i →
      (s.client i).pc = .destroyed := fun hall i hi => destroyed_of_stuck h hstuck hi (hall i)
  have hrunning : (∀ i, s.pc.doneSent i = true) → ∀ i, cfg.IsClient i →
      (s.client i).totallyFinished ≠ false := by
    intro hall i hi hf
    have hstopped := (markInv h i hi).stopped
    rw [hclients hall i hi, hf] at hstopped
    cases hstopped
  cases hpc : s.pc with
  | start =>
    by_cases hsize : cfg.size = 1
    · exact hmove (.singleRank hpc hsize)
    · exact hmove (.enterAllGather hpc hsize)
  | allGather =>
    have hentered := entered_of_stuck hstuck (by rw [hpc]; nofun)
    exact hmove (.leaveAllGather hpc hentered.1)
  | barrier =>
    have hentered := entered_of_stuck hstuck (by rw [hpc]; nofun)
    exact hmove (.leaveBarrier hpc hentered.2)
  | firstWhile sizes =>
    by_cases hall : ∀ i < cfg.size, sizes i = 0
    · exact hmove (.firstHandled hpc hall)
    · push Not at hall
      obtain ⟨i, hi, hne⟩ := hall
      exact hmove (.firstLoop hpc hi hne)
  | firstFor sizes i =>
    by_cases hi : i < cfg.size
    · by_cases hskip : i = rootRank ∨ sizes i = 0
      · exact hmove (.firstSkip hpc hi hskip)
      · rw [not_or] at hskip
        by_cases hd : s.done cfg
        · exact hmove (.firstDone hpc ⟨hi, hskip.1⟩ hskip.2 hd)
        · exact hstep (.isendVal (.first hpc ⟨hi, hskip.1⟩ hskip.2 hd)) nofun id
    · exact hmove (.firstEnd hpc hi)
  | firstSent sizes i => exact hstep (.advance (.first hpc)) nofun id
  | handle =>
    by_cases hd : s.done cfg
    · exact hmove (.handleDone hpc hd)
    by_cases hr : ∃ i, cfg.IsClient i ∧ s.hasRequest i = true
    · obtain ⟨i, hi, hr⟩ := hr
      exact hmove (.handleSome hpc hd hi hr)
    · push Not at hr
      exact hmove (.handleNone hpc hd fun i hi => Bool.eq_false_iff.mpr (hr i hi))
  | recvRequest i =>
    obtain ⟨q, hq⟩ := request_of_stuck hstuck (probedInv hp i (by rw [hpc]; rfl))
    exact hstep (.recvRequest hpc hq) nofun id
  | test i =>
    cases hf : s.frontComplete i with
    | true => exact hstep (.testPop hpc hf) nofun id
    | false => exact hstep (.isendVal (.answer hpc hf)) nofun id
  | sent => exact hstep (.advance (.answer hpc)) nofun id
  | yield => exact hstep (.serverUse (.yield hpc)) nofun id
  | next => exact hstep (.advance (.next hpc)) nofun id
  | sendDone i =>
    by_cases hi : i < cfg.size
    · by_cases hroot : i = rootRank
      · exact hmove (.sendDoneSkip (hroot ▸ hpc))
      · exact hstep (.isendDone hpc ⟨hi, hroot⟩) nofun id
    · exact hmove (.sendDoneEnd hpc hi)
  | waitDone i =>
    by_cases hi : i < cfg.size
    · refine hmove (.waitDone hpc hi fun hroot => ?_)
      by_contra hc
      have hsupply := supplied_genDone h ⟨hi, hroot⟩ hpc (Bool.eq_false_iff.mpr hc)
      exact hrunning (fun j => by rw [hpc]; rfl) i ⟨hi, hroot⟩ hsupply.2
    · exact hmove (.waitDoneEnd hpc hi)
  | recvFinished i =>
    by_cases hi : i < cfg.size
    · by_cases hroot : i = rootRank
      · exact hmove (.recvFinishedSkip (hroot ▸ hpc))
      · have hc : cfg.IsClient i := ⟨hi, hroot⟩
        rcases supplied_finished h hc hpc with hmem | hgone
        · obtain ⟨m, hm⟩ : ∃ m, (s.toServer i).iprobe ClientMsg.isFinished = some m :=
            Channel.exists_iprobe (transit_of_stuck hstuck i).2 hmem rfl
          cases m with
          | clientFinished => exact hstep (.recvFinished hpc hc hm) nofun id
          | clientRequestVal q => cases Channel.kind_of_iprobe hm
        · rw [hclients (fun j => by rw [hpc]; rfl) i hc] at hgone
          cases hgone
    · exact hmove (.recvFinishedEnd hpc hi)
  | drain =>
    by_cases hr : ∃ i, cfg.IsClient i ∧ s.hasRequest i = true
    · obtain ⟨i, hi, hr⟩ := hr
      exact hmove (.drainSome hpc hi hr)
    · push Not at hr
      exact hmove (.drainNone hpc fun i hi => Bool.eq_false_iff.mpr (hr i hi))
  | drainRecv i =>
    obtain ⟨q, hq⟩ := request_of_stuck hstuck (probedInv hp i (by rw [hpc]; rfl))
    exact hstep (.drain hpc hq) nofun id
  | finished =>
    refine hmove (.destroy hpc fun i k hk => ?_)
    by_contra hc
    have hsupply := supplied_sendVal h hk (Bool.eq_false_iff.mpr hc)
    exact hrunning (fun j => by rw [hpc]; rfl) i (pushedInv h i k hk).1 hsupply.2
  | destroyed => exact ⟨.inl hpc, hclients fun j => by rw [hpc]; rfl⟩
  | single =>
    by_cases hd : s.done cfg
    · exact hmove (.singleDone hpc hd)
    · exact hstep (.serverUse (.single hpc hd)) nofun id
  | singleNext => exact hstep (.advance (.single hpc)) nofun id
  | singleFinished =>
    have hsize := (cleanedInv h).alone (by rw [hpc]; rfl)
    exact ⟨.inr hpc, fun i hi => absurd (Nat.lt_one_iff.mp (hsize ▸ hi.1)) hi.2⟩

end Progress

/-- Where all iterators are destroyed, all loops have ended. -/
theorem allDone_of_over {cfg : Config} {s : Session} (h : Reachable cfg s) (hover : Over cfg s) :
    AllDone cfg s := by
  refine ⟨.inr hover.1, fun i hi => ?_⟩
  rw [← (markInv h i hi).stopped, hover.2 i hi]
  rfl

/-- Busy steps alone bring the session to its end. -/
theorem exists_over {cfg : Config} {s : Session} (h : LTS.Reachable (probingSys cfg) s) :
    ∃ t, LTS.Reachable ((probingSys cfg).along (fun s a t => ¬ Idle s a t) s) t ∧ Over cfg t := by
  refine h.progress (Session.todo cfg) fun s hs hno => ?_
  obtain ⟨a, t, hstep, hbusy, hok⟩ := (exists_step hs).resolve_left hno
  exact ⟨a, t, ⟨hok, hstep⟩, hbusy, todo_lt hs.of_restrict hstep hbusy⟩

/-- The steps of a session that are not idle are bounded, whatever their order.
Until the session is over there always is such a step, if no probed request is
taken back, and so the session can be brought to its end from wherever it is. -/
theorem session_completes (cfg : Config) :
    (∀ s a t, Reachable cfg s → Step cfg s a t → ¬ Idle s a t → t.todo cfg < s.todo cfg) ∧
    ∀ s, LTS.Reachable (probingSys cfg) s →
      (Over cfg s ∨ ∃ a t, Step cfg s a t ∧ ¬ Idle s a t ∧ ¬ a.TakesProbed s) ∧
      ∃ t, LTS.Reachable ((probingSys cfg).along (fun s a t => ¬ Idle s a t) s) t ∧
        Over cfg t ∧ AllDone cfg t := by
  refine ⟨fun s a t h hs hbusy => todo_lt h hs hbusy, fun s h => ⟨exists_step h, ?_⟩⟩
  obtain ⟨t, ht, hover⟩ := exists_over h
  exact ⟨t, ht, hover, allDone_of_over (h.of_along ht).of_restrict hover⟩

end SimpleParallel.Schedule
