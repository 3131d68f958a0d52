import SimpleParallel.Schedule.ExactlyOnce

/-!
# Credits: how far the server runs ahead of the requests

A client asks for each element with a `client_request_val`. `credit_slack`
bounds what the server sends to client `i` by the requests it has received from
`i` plus one full buffer, and what is sent and not yet received by two full
buffers. The extra buffer is real: `first_time_handle_client_request` answers
requests that it does not receive, so `handle_client_request` answers them
again.

* `SentInv`, `GotInv`, `PostInv`: the books of a client: values sent against
  requests received, requests received against requests sent, requests sent
  against values received.
* `credit_slack`: the two bounds.
* `no_send_without_buffer`: a client without a buffer is sent nothing.
-/

namespace SimpleParallel.Schedule

/-! ## The books of one client -/

/-- The values the server may still send to client `i` in the first round. -/
def ServerPc.firstCredit (cfg : Config) (i : Nat) : ServerPc → Nat
  | start | allGather | barrier => cfg.allBufferSizes i
  | firstWhile sizes | firstFor sizes _ => sizes i
  | firstSent sizes j => if i = j then sizes i - 1 else sizes i
  | _ => 0

/-- The request of client `i` that was received and is not answered yet. -/
def ServerPc.toAnswer (i : Nat) : ServerPc → Nat
  | test j => if i = j then 1 else 0
  | _ => 0

/-- The requests that the client is about to send. -/
def ClientPc.toPost (bufferSize : Nat) : ClientPc → Nat
  | start | allGather => bufferSize
  | post k => k
  | rerequest => 1
  | _ => 0

/-- The requests of client `i` on their way to the server. -/
def Session.requestsInTransit (s : Session) (i : Nat) : List Nat :=
  (s.toServer i).contents.filterMap ClientMsg.request?

/-! How the moves change the books. -/

theorem ServerMove.firstCredit {cfg : Config} {s : Session} {pc : ServerPc} {i : Nat}
    (hm : ServerMove cfg s pc) :
    pc.firstCredit cfg i + pc.toAnswer i ≤ s.pc.firstCredit cfg i + s.pc.toAnswer i := by
  cases hm <;> simp [ServerPc.firstCredit, ServerPc.toAnswer, *]

theorem AdvanceSite.firstCredit {cfg : Config} {s : Session} {pc : ServerPc} {i : Nat}
    (hs : AdvanceSite s pc) :
    pc.firstCredit cfg i + pc.toAnswer i ≤ s.pc.firstCredit cfg i + s.pc.toAnswer i := by
  cases hs with
  | @first sizes j hpc =>
    by_cases hij : i = j
    · subst hij
      simp [ServerPc.firstCredit, ServerPc.toAnswer, hpc]
    · simp [ServerPc.firstCredit, ServerPc.toAnswer, hpc, hij]
  | _ => simp [ServerPc.firstCredit, ServerPc.toAnswer, *]

theorem UseSite.firstCredit {cfg : Config} {s : Session} {pc : ServerPc} {i : Nat}
    (hs : UseSite cfg s pc) : pc.firstCredit cfg i + pc.toAnswer i = 0 := by
  cases hs <;> rfl

/-- A send uses up one unit: of the first round, or the request just received. -/
theorem SendSite.firstCredit {cfg : Config} {s : Session} {pc : ServerPc} {i : Nat}
    (hs : SendSite cfg s i pc) :
    pc.firstCredit cfg i + pc.toAnswer i + 1 = s.pc.firstCredit cfg i + s.pc.toAnswer i := by
  cases hs with
  | first hpc _ hne _ =>
    have := Nat.pos_of_ne_zero hne
    simp only [ServerPc.firstCredit, ServerPc.toAnswer, hpc, if_true]
    omega
  | answer hpc _ => simp [ServerPc.firstCredit, ServerPc.toAnswer, hpc]

theorem SendSite.firstCredit_other {cfg : Config} {s : Session} {pc : ServerPc} {i j : Nat}
    (hs : SendSite cfg s j pc) (hij : i ≠ j) :
    pc.firstCredit cfg i + pc.toAnswer i = s.pc.firstCredit cfg i + s.pc.toAnswer i := by
  cases hs <;> simp [ServerPc.firstCredit, ServerPc.toAnswer, *]

theorem ClientMove.toPost {cfg : Config} {s : Session} {i b : Nat} {pc : ClientPc}
    (hb : (s.client i).requests.capacity = b) (hm : ClientMove cfg s i pc) :
    pc.toPost b ≤ (s.client i).pc.toPost b := by
  cases hm <;> simp [ClientPc.toPost, CircularBuffer.reserve, *]

/-! ## Values sent against requests received -/

def SentInv (cfg : Config) (s : Session) : Prop :=
  ∀ i, cfg.IsClient i →
    (s.sentVals i).length + (s.pc.firstCredit cfg i + s.pc.toAnswer i) ≤
      s.gotRequests i + cfg.bufferSize i

namespace SentInv

variable {cfg : Config} {s t : Session} {i j : Nat} {a : Act}

theorem initial (cfg : Config) : SentInv cfg (Session.initial cfg) := by
  intro i hi
  simp [Session.initial, ServerPc.firstCredit, ServerPc.toAnswer, Config.allBufferSizes, hi.2]

/-- Steps that send no value and receive no request. -/
theorem frame (h : SentInv cfg s) (hv : t.sentVals = s.sentVals)
    (hg : t.gotRequests = s.gotRequests)
    (hpc : ∀ i, t.pc.firstCredit cfg i + t.pc.toAnswer i ≤
      s.pc.firstCredit cfg i + s.pc.toAnswer i) : SentInv cfg t := by
  intro i hi
  have := h i hi
  have := hpc i
  rw [hv, hg]
  omega

theorem takeRequest {q : Nat} {pc : ServerPc} (h : SentInv cfg s)
    (hself : pc.firstCredit cfg j + pc.toAnswer j ≤ 1)
    (hother : ∀ i, i ≠ j → pc.firstCredit cfg i + pc.toAnswer i = 0) :
    SentInv cfg (s.takeRequest j q pc) := by
  intro i hi
  have hold := h i hi
  by_cases hij : i = j
  · subst hij
    simp only [Session.takeRequest, Function.update_self]
    omega
  · have := hother i hij
    simp only [Session.takeRequest, Function.update_of_ne hij]
    omega

theorem step (h : SentInv cfg s) (hs : Step cfg s a t) : SentInv cfg t := by
  cases hs with
  | server hm => exact h.frame rfl rfl fun _ => hm.firstCredit
  | advance hs => exact h.frame rfl rfl fun _ => hs.firstCredit
  | serverUse hs => exact h.frame rfl rfl fun _ => by rw [hs.firstCredit]; exact Nat.zero_le _
  | @isendVal j pc hs =>
    intro i hi
    have hold := h i hi
    by_cases hij : i = j
    · subst hij
      have := hs.firstCredit
      simp only [Session.isendVal, Function.update_self, List.length_append, List.length_singleton]
      omega
    · have := hs.firstCredit_other hij
      simp only [Session.isendVal, Function.update_of_ne hij]
      omega
  | @recvRequest j q _ _ =>
    refine h.takeRequest (by simp [ServerPc.firstCredit, ServerPc.toAnswer]) fun i hij => ?_
    simp [ServerPc.firstCredit, ServerPc.toAnswer, hij]
  | @drain j q _ _ => exact h.takeRequest (Nat.zero_le 1) fun _ _ => rfl
  | isendDone _ _ | recvFinished _ _ _ => exact h.frame rfl rfl fun _ => Nat.zero_le _
  | _ => exact h

end SentInv

theorem sentInv {cfg : Config} {s : Session} (h : Reachable cfg s) : SentInv cfg s :=
  h.invariant (fun _ hs => hs ▸ SentInv.initial cfg) fun _ _ _ _ hi hs => hi.step hs

/-! ## Requests received against requests sent -/

theorem ClientMsg.request?_of_isFinished (m : ClientMsg) (h : m.isFinished = true) :
    m.request? = none := by
  cases m with
  | clientRequestVal q => cases h
  | clientFinished => rfl

theorem ClientMsg.request?_of_not_isRequest (m : ClientMsg) (h : m.isRequest = false) :
    m.request? = none := by
  cases m with
  | clientRequestVal q => cases h
  | clientFinished => rfl

def GotInv (cfg : Config) (s : Session) : Prop :=
  ∀ i, cfg.IsClient i → s.gotRequests i + (s.requestsInTransit i).length ≤ (s.client i).posted

namespace GotInv

variable {cfg : Config} {s t : Session} {i j : Nat} {a : Act}

/-- Steps of client `j` that send no request. -/
theorem update_client {c : Client} (h : GotInv cfg s) (hp : c.posted = (s.client j).posted) :
    GotInv cfg { s with client := Function.update s.client j c } := by
  intro i hi
  by_cases hij : i = j
  · subst hij
    simpa [hp, Session.requestsInTransit] using h i hi
  · simpa [Function.update_of_ne hij, Session.requestsInTransit] using h i hi

/-- Steps on the channel from client `j` that add no request. -/
theorem update_channel {ch : Channel ClientMsg} (h : GotInv cfg s)
    (hc : (ch.contents.filterMap ClientMsg.request?).length ≤ (s.requestsInTransit j).length) :
    GotInv cfg { s with toServer := Function.update s.toServer j ch } := by
  intro i hi
  have hold := h i hi
  by_cases hij : i = j
  · subst hij
    simp only [Session.requestsInTransit, Function.update_self] at hold hc ⊢
    omega
  · simpa [Function.update_of_ne hij, Session.requestsInTransit] using hold

theorem sendRequest {b : CircularBuffer Nat} {pc : ClientPc} (h : GotInv cfg s) :
    GotInv cfg (s.sendRequest j b pc) := by
  intro i hi
  have hold := h i hi
  by_cases hij : i = j
  · subst hij
    simp only [Session.requestsInTransit, Session.sendRequest, Function.update_self,
      Channel.contents_send, List.filterMap_append, List.length_append] at hold ⊢
    simp only [ClientMsg.request?, List.filterMap_cons, List.filterMap_nil, List.length_singleton]
    omega
  · simpa [Function.update_of_ne hij, Session.requestsInTransit, Session.sendRequest] using hold

theorem takeRequest {q : Nat} {pc : ServerPc} (h : GotInv cfg s)
    (hq : (s.toServer j).iprobe ClientMsg.isRequest = some (.clientRequestVal q)) :
    GotInv cfg (s.takeRequest j q pc) := by
  intro i hi
  have hold := h i hi
  by_cases hij : i = j
  · subst hij
    have htake : s.requestsInTransit i = q :: ((s.toServer i).recv
        ClientMsg.isRequest).contents.filterMap ClientMsg.request? :=
      Channel.filterMap_recv ClientMsg.request?_of_not_isRequest hq rfl
    rw [htake, List.length_cons] at hold
    simp only [Session.takeRequest, Session.requestsInTransit, Function.update_self]
    omega
  · simpa [Session.takeRequest, Session.requestsInTransit, Function.update_of_ne hij] using hold

theorem step (h : GotInv cfg s) (hs : Step cfg s a t) : GotInv cfg t := by
  cases hs with
  | client _ _ => exact h.update_client rfl
  | recvRequest _ hq | drain _ hq => exact h.takeRequest hq
  | recvFinished _ _ hq =>
    refine h.update_channel (Nat.le_of_eq ?_)
    rw [Channel.filterMap_recv_other ClientMsg.request?_of_isFinished hq]
    rfl
  | post _ _ | rerequest _ _ => exact h.sendRequest
  | recvDone _ _ _ | recheckNone _ _ _ | recvVal _ _ _ | clientUse _ _ => exact h.update_client rfl
  | sendFinished _ _ =>
    refine (h.update_channel ?_).update_client rfl
    simp [Session.requestsInTransit, ClientMsg.request?, List.filterMap_cons]
  | cancel _ _ _ =>
    refine (h.update_channel ?_).update_client rfl
    rw [Channel.contents_cancel]
    exact (List.erase_sublist.filterMap _).length_le
  | deliverToServer =>
    refine h.update_channel ?_
    simp [Session.requestsInTransit]
  | _ => exact h

end GotInv

theorem gotInv {cfg : Config} {s : Session} (h : Reachable cfg s) : GotInv cfg s :=
  h.invariant (fun _ hs => hs ▸ fun _ _ => Nat.le_refl 0) fun _ _ _ _ hi hs => hi.step hs

/-! ## Requests sent against values received -/

/-- The books on the client's side; `b` is its buffer size. -/
structure PostOk (b : Nat) (c : Client) : Prop where
  posted : c.posted + c.pc.toPost b ≤ b + c.received.length
  received : c.received = c.yielded ++ c.held
  capacity : c.requests.capacity = b

def PostInv (cfg : Config) (s : Session) : Prop :=
  ∀ i, cfg.IsClient i → PostOk (cfg.bufferSize i) (s.client i)

namespace PostInv

variable {cfg : Config} {s t : Session} {i j : Nat} {a : Act}

theorem initial (cfg : Config) : PostInv cfg (Session.initial cfg) := fun _ _ =>
  ⟨by simp [Session.initial, ClientPc.toPost], rfl, rfl⟩

theorem update_client {c : Client} (h : PostInv cfg s)
    (hc : ∀ {b}, PostOk b (s.client j) → PostOk b c) (ht : t.client = Function.update s.client j c) :
    PostInv cfg t := by
  intro i hi
  rw [ht]
  by_cases hij : i = j
  · subst hij
    simpa using hc (h i hi)
  · simpa [Function.update_of_ne hij] using h i hi

theorem step (h : PostInv cfg s) (hs : Step cfg s a t) : PostInv cfg t := by
  cases hs with
  | client _ hm =>
    refine h.update_client (fun hok => ?_) rfl
    obtain ⟨hnew, hold⟩ := hm.held
    refine ⟨?_, ?_, hok.capacity⟩
    · exact Nat.le_trans (Nat.add_le_add_left (hm.toPost hok.capacity) _) hok.posted
    · have := hok.received
      rw [hold] at this
      rw [hnew]
      exact this
  | post _ hpc | rerequest _ hpc =>
    refine h.update_client (fun hok => ?_) rfl
    have hp := hok.posted
    have hr := hok.received
    simp only [hpc, ClientPc.toPost, Client.held] at hp hr
    refine ⟨?_, hr, by simp [hok.capacity]⟩
    simp only [ClientPc.toPost]
    omega
  | recvVal _ hpc _ =>
    refine h.update_client (fun hok => ?_) rfl
    have hp := hok.posted
    have hr := hok.received
    simp only [hpc, ClientPc.toPost, Client.held] at hp hr
    refine ⟨?_, ?_, hok.capacity⟩
    · simp only [ClientPc.toPost, List.length_append, List.length_singleton]
      omega
    · rw [hr, List.append_nil]
      rfl
  | clientUse _ hpc =>
    refine h.update_client (fun hok => ?_) rfl
    have hp := hok.posted
    have hr := hok.received
    simp only [hpc, ClientPc.toPost, Client.held] at hp hr
    exact ⟨hp, by rw [hr]; simp [Client.held], hok.capacity⟩
  | recvDone _ hpc _ | recheckNone _ hpc _ | sendFinished _ hpc | cancel _ hpc _ =>
    refine h.update_client (fun hok => ?_) rfl
    have hp := hok.posted
    have hr := hok.received
    simp only [hpc, ClientPc.toPost, Client.held] at hp hr
    exact ⟨hp, hr, hok.capacity⟩
  | _ => exact h

end PostInv

theorem postInv {cfg : Config} {s : Session} (h : Reachable cfg s) : PostInv cfg s :=
  h.invariant (fun _ hs => hs ▸ PostInv.initial cfg) fun _ _ _ _ hi hs => hi.step hs

/-! ## The bounds -/

theorem sent_eq_received {cfg : Config} {s : Session} {i : Nat} (h : Reachable cfg s)
    (hi : cfg.IsClient i) : s.sentVals i = (s.client i).received ++ s.inTransit i := by
  rw [(postInv h i hi).received]
  exact flowInv h i hi

theorem received_le_sent {cfg : Config} {s : Session} {i : Nat} (h : Reachable cfg s)
    (hi : cfg.IsClient i) : (s.client i).received.length ≤ (s.sentVals i).length := by
  rw [sent_eq_received h hi, List.length_append]
  exact Nat.le_add_right _ _

/-- The server is ahead of the requests it received by at most one buffer, and
of the client by at most two. -/
theorem credit_slack {cfg : Config} {s : Session} {i : Nat} (h : Reachable cfg s)
    (hi : cfg.IsClient i) :
    (s.sentVals i).length ≤ s.gotRequests i + cfg.bufferSize i ∧
      (s.inTransit i).length ≤ 2 * cfg.bufferSize i := by
  have hsent := sentInv h i hi
  have hgot := gotInv h i hi
  have hpost := (postInv h i hi).posted
  have hlen : (s.sentVals i).length = (s.client i).received.length + (s.inTransit i).length := by
    rw [sent_eq_received h hi, List.length_append]
  constructor <;> omega

/-- A client without a buffer asks for nothing, so it is sent nothing. -/
theorem no_send_without_buffer {cfg : Config} {s : Session} {i : Nat} {pc : ServerPc}
    (h : Reachable cfg s) (hb : cfg.bufferSize i = 0) : ¬ SendSite cfg s i pc := by
  intro hs
  have hi := ((rangeInv h).send hs).2
  have hsent := sentInv h i hi
  have hgot := gotInv h i hi
  have hpost := (postInv h i hi).posted
  have hrec := received_le_sent h hi
  have := hs.firstCredit
  omega

/-- With no element, or no buffer on any client, nothing is sent. -/
theorem no_send {cfg : Config} (hc : cfg.n = 0 ∨ ∀ i, cfg.IsClient i → cfg.bufferSize i = 0)
    {s : Session} {i : Nat} {pc : ServerPc} (h : Reachable cfg s) : ¬ SendSite cfg s i pc := by
  intro hs
  obtain ⟨hlt, hi⟩ := (rangeInv h).send hs
  rcases hc with hn | hb
  · omega
  · exact no_send_without_buffer h (hb i hi) hs

/-- A client that no step can send to was sent nothing. -/
theorem sentVals_of_no_send {cfg : Config} {s : Session} {i : Nat} (h : Reachable cfg s)
    (hno : ∀ s pc, Reachable cfg s → ¬ SendSite cfg s i pc) : s.sentVals i = [] := by
  refine LTS.Reachable.invariant (P := fun s => s.sentVals i = []) ?_ ?_ h
  · rintro _ rfl
    rfl
  · intro s a t hr hv hs
    cases hs with
    | @isendVal j pc hs =>
      have hij : i ≠ j := fun hij => hno s pc hr (hij ▸ hs)
      simpa [Session.isendVal, Function.update_of_ne hij] using hv
    | _ => exact hv

end SimpleParallel.Schedule
