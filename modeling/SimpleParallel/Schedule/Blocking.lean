import SimpleParallel.Schedule.Credit

/-!
# What the server waits for

The server blocks in a `recv` (of a request it has probed, of `client_finished`)
and in a `wait` on one of its own sends. `BlockedOn` says where it waits and for
what, `Supplied` that the wait can end: the message is under way, or its sender
is still to send it; for a `wait`, the message is under way to a client that has
not finished.

Three invariants answer every wait but one.

1. `FinishInv`: `client_finished` closes the channel from a client.
2. `ReceivedInv`: what a client has received is complete at the server.
3. `PushedInv`: `m_requests` holds requests of values that were sent.

The one left is the `recv` of the drain loop in `finish_cleanup`. Its client has
finished, so `~client_handler` may cancel the request between the `iprobe` and
the `recv`.

Results:
* `never_stuck`: in runs that cancel no probed request the server never waits
  in vain; a step that does leaves it waiting for a message of a finished client.
* `drain_stuck`: such a run, on an empty range.
-/

namespace SimpleParallel.Schedule

/-! ## Waits -/

/-- The message that a call of the server waits for, or whose receipt it waits
for. -/
inductive Awaited
  | requestVal (i : Nat)
  | clientFinished (i : Nat)
  | genDone (i : Nat)
  | sendVal (i k : Nat)

/-- The server is in a call that returns only once the message is received. -/
inductive BlockedOn (cfg : Config) (s : Session) : Awaited → Prop
  | recvRequest {i : Nat} : s.pc = .recvRequest i → BlockedOn cfg s (.requestVal i)
  | drainRecv {i : Nat} : s.pc = .drainRecv i → BlockedOn cfg s (.requestVal i)
  | recvFinished {i : Nat} : s.pc = .recvFinished i → cfg.IsClient i →
      BlockedOn cfg s (.clientFinished i)
  | waitDone {i : Nat} : s.pc = .waitDone i → cfg.IsClient i →
      s.completed (.genDone i) = false → BlockedOn cfg s (.genDone i)
  | destroy {i k : Nat} : s.pc = .finished → k ∈ (s.requests i).items →
      s.completed (.sendVal k) = false → BlockedOn cfg s (.sendVal i k)

/-- The client has sent `client_finished`. -/
def ClientPc.gone : ClientPc → Bool
  | finished | cancelling _ | destroyed => true
  | _ => false

/-- The wait can end. A request must be under way, for a client sends one only
in answer to a value. -/
def Session.Supplied (s : Session) : Awaited → Prop
  | .requestVal i => s.requestsInTransit i ≠ []
  | .clientFinished i =>
    .clientFinished ∈ (s.toServer i).contents ∨ (s.client i).pc.gone = false
  | .genDone i => .valGenDone ∈ (s.toClient i).contents ∧ (s.client i).totallyFinished = false
  | .sendVal i k =>
    .serverSendVal k ∈ (s.toClient i).contents ∧ (s.client i).totallyFinished = false

/-- `~client_handler` takes back the last request of a client whose request the
drain loop has probed and not received. -/
def Act.TakesProbed (s : Session) : Act → Prop
  | .cancel i q => s.pc = .drainRecv i ∧ s.requestsInTransit i = [q]
  | _ => False

/-! ## 1. The last message of a client -/

/-- `client_finished` of client `i` was received. -/
def ServerPc.finishedGot (i : Nat) : ServerPc → Bool
  | recvFinished j => decide (i < j)
  | drain | drainRecv _ | finished | destroyed => true
  | _ => false

theorem ServerMove.finishedGot {cfg : Config} {s : Session} {pc : ServerPc} {i : Nat}
    (hi : cfg.IsClient i) (hm : ServerMove cfg s pc) :
    pc.finishedGot i = s.pc.finishedGot i := by
  obtain ⟨hlt, hne⟩ := hi
  cases hm with
  | recvFinishedSkip hpc =>
    have hz : i ≠ 0 := hne
    simp [hpc, ServerPc.finishedGot, rootRank, hz]
  | recvFinishedEnd hpc hend =>
    have : i < _ := Nat.lt_of_lt_of_le hlt (Nat.le_of_not_lt hend)
    simp [hpc, ServerPc.finishedGot, this]
  | _ => simp [*, ServerPc.finishedGot]

theorem SendSite.finishedGot {cfg : Config} {s : Session} {pc : ServerPc} {i j : Nat}
    (hs : SendSite cfg s i pc) : pc.finishedGot j = s.pc.finishedGot j := by
  cases hs <;> simp [ServerPc.finishedGot, *]

theorem AdvanceSite.finishedGot {s : Session} {pc : ServerPc} {j : Nat} (hs : AdvanceSite s pc) :
    pc.finishedGot j = s.pc.finishedGot j := by
  cases hs <;> simp [ServerPc.finishedGot, *]

theorem UseSite.finishedGot {cfg : Config} {s : Session} {pc : ServerPc} {j : Nat}
    (hs : UseSite cfg s pc) : pc.finishedGot j = s.pc.finishedGot j := by
  cases hs <;> simp [ServerPc.finishedGot, *]

theorem ClientMove.gone {cfg : Config} {s : Session} {i : Nat} {pc : ClientPc}
    (hm : ClientMove cfg s i pc) : pc.gone = (s.client i).pc.gone := by
  cases hm <;> simp [ClientPc.gone, *]

theorem ClientMsg.isFinished_of_isRequest (m : ClientMsg) (h : m.isRequest = true) :
    m.isFinished = false := by
  rw [ClientMsg.isFinished, h]
  rfl

def FinishInv (cfg : Config) (s : Session) : Prop :=
  ∀ i, cfg.IsClient i →
    (s.toServer i).Closing ClientMsg.isFinished (s.client i).pc.gone (s.pc.finishedGot i)

namespace FinishInv

variable {cfg : Config} {s t : Session} {i j : Nat} {a : Act}

theorem initial (cfg : Config) : FinishInv cfg (Session.initial cfg) := fun _ _ => nofun

/-- A step of the server that leaves the channels alone. -/
theorem server {pc : ServerPc} (h : FinishInv cfg s)
    (hpc : ∀ i, cfg.IsClient i → pc.finishedGot i = s.pc.finishedGot i)
    (hc : t.client = s.client) (hch : t.toServer = s.toServer) (ht : t.pc = pc) :
    FinishInv cfg t := by
  intro i hi
  rw [hc, hch, ht, hpc i hi]
  exact h i hi

/-- A step of client `j` on its channel. -/
theorem client {c : Client} {ch : Channel ClientMsg} (h : FinishInv cfg s)
    (hj : (s.toServer j).Closing ClientMsg.isFinished (s.client j).pc.gone (s.pc.finishedGot j) →
      ch.Closing ClientMsg.isFinished c.pc.gone (s.pc.finishedGot j))
    (hpc : t.pc = s.pc) (hc : t.client = Function.update s.client j c)
    (hch : t.toServer = Function.update s.toServer j ch) : FinishInv cfg t := by
  intro i hi
  rw [hpc, hc, hch]
  by_cases hij : i = j
  · subst hij
    simpa using hj (h i hi)
  · simpa [Function.update_of_ne hij] using h i hi

/-- A step of client `j` that neither sends nor finishes. -/
theorem client_only {c : Client} (h : FinishInv cfg s) (hg : c.pc.gone = (s.client j).pc.gone)
    (hpc : t.pc = s.pc) (hc : t.client = Function.update s.client j c)
    (hch : t.toServer = s.toServer) : FinishInv cfg t := by
  refine h.client (fun hj => ?_) hpc hc (hch.trans (Function.update_eq_self j s.toServer).symm)
  rw [hg]
  exact hj

/-- The root takes a message off the channel of client `j`. -/
theorem take {ch : Channel ClientMsg} {pc : ServerPc} (h : FinishInv cfg s)
    (hpc : ∀ i, cfg.IsClient i → i ≠ j → pc.finishedGot i = s.pc.finishedGot i)
    (hj : cfg.IsClient j →
      (s.toServer j).Closing ClientMsg.isFinished (s.client j).pc.gone (s.pc.finishedGot j) →
      ch.Closing ClientMsg.isFinished (s.client j).pc.gone (pc.finishedGot j))
    (ht : t.pc = pc) (hc : t.client = s.client)
    (hch : t.toServer = Function.update s.toServer j ch) : FinishInv cfg t := by
  intro i hi
  rw [ht, hc, hch]
  by_cases hij : i = j
  · subst hij
    simpa using hj hi (h i hi)
  · simpa [Function.update_of_ne hij, hpc i hi hij] using h i hi

theorem step (h : FinishInv cfg s) (hs : Step cfg s a t) : FinishInv cfg t := by
  cases hs with
  | server hm => exact h.server (fun _ hi => hm.finishedGot hi) rfl rfl rfl
  | isendVal hs => exact h.server (fun _ _ => hs.finishedGot) rfl rfl rfl
  | advance hs => exact h.server (fun _ _ => hs.finishedGot) rfl rfl rfl
  | serverUse hs => exact h.server (fun _ _ => hs.finishedGot) rfl rfl rfl
  | isendDone hpc _ =>
    exact h.server (fun _ _ => by simp [hpc, ServerPc.finishedGot]) rfl rfl rfl
  | client _ hm => exact h.client_only hm.gone rfl rfl rfl
  | recvDone _ hpc _ | recheckNone _ hpc _ | recvVal _ hpc _ | clientUse _ hpc =>
    exact h.client_only (by rw [hpc]; rfl) rfl rfl rfl
  | post _ hpc | rerequest _ hpc =>
    refine h.client (fun hj => ?_) rfl rfl rfl
    rw [hpc] at hj
    exact hj.send rfl
  | sendFinished _ hpc =>
    refine h.client (fun hj => ?_) rfl rfl rfl
    rw [hpc] at hj
    exact hj.send_last rfl
  | cancel _ hpc _ =>
    refine h.client (fun hj => ?_) rfl rfl rfl
    rw [hpc] at hj
    exact hj.cancel rfl
  | recvRequest hpc hq | drain hpc hq =>
    refine h.take (fun _ _ _ => by rw [hpc]; rfl) (fun _ hj => ?_) rfl rfl rfl
    rw [hpc] at hj
    exact hj.recv_other ClientMsg.isFinished_of_isRequest hq
  | @recvFinished j hpc _ hq =>
    refine h.take (fun i _ hij => ?_) (fun _ hj => ?_) rfl rfl rfl
    · have : i < j + 1 ↔ i < j := by omega
      simp [hpc, ServerPc.finishedGot, this]
    · obtain ⟨hgone, hclosed⟩ := hj.recv_last hq
      simpa [hgone, ServerPc.finishedGot] using hclosed
  | deliverToServer =>
    exact h.take (fun _ _ _ => rfl) (fun _ hj => hj.deliver) rfl rfl rfl
  | _ => exact h

end FinishInv

theorem finishInv {cfg : Config} {s : Session} (h : Reachable cfg s) : FinishInv cfg s :=
  h.invariant (fun _ hs => hs ▸ FinishInv.initial cfg) fun _ _ _ _ hi hs => hi.step hs

/-! ## 2. What was received is complete -/

/-- A request that is complete stays so. -/
theorem Step.completed_mono {cfg : Config} {s t : Session} {a : Act} {r : Request}
    (hs : Step cfg s a t) (hr : s.completed r = true) : t.completed r = true := by
  have hupd : ∀ r', Function.update s.completed r' true r = true := by
    intro r'
    by_cases heq : r = r'
    · rw [heq, Function.update_self]
    · rw [Function.update_of_ne heq, hr]
  cases hs with
  | recvRequest _ _ | drain _ _ | recvDone _ _ _ | recvVal _ _ _ | cancel _ _ _ | complete =>
    exact hupd _
  | _ => exact hr

structure ReceivedOk (s : Session) (i : Nat) : Prop where
  genDone : (s.client i).leaderGenFinished = true → s.completed (.genDone i) = true
  sendVal : ∀ k ∈ (s.client i).received, s.completed (.sendVal k) = true

/-- What client `j` keeps in its own record, a step of it keeps for every client. -/
theorem client_keeps {β : Type} (f : Client → β) {s t : Session} {j : Nat} {c : Client}
    (ht : t.client = Function.update s.client j c) (h : f c = f (s.client j)) (i : Nat) :
    f (t.client i) = f (s.client i) := by
  rw [ht]
  by_cases hij : i = j
  · rw [hij, Function.update_self, h]
  · rw [Function.update_of_ne hij]

namespace ReceivedOk

variable {cfg : Config} {s t : Session} {a : Act} {i : Nat}

theorem initial (cfg : Config) (i : Nat) : ReceivedOk (Session.initial cfg) i := ⟨nofun, nofun⟩

/-- A step after which client `i` has received no more than before. -/
theorem frame (h : ReceivedOk s i) (hs : Step cfg s a t)
    (hl : (t.client i).leaderGenFinished = (s.client i).leaderGenFinished)
    (hr : (t.client i).received = (s.client i).received) : ReceivedOk t i where
  genDone hg := hs.completed_mono (h.genDone (hl ▸ hg))
  sendVal k hk := hs.completed_mono (h.sendVal k (hr ▸ hk))

theorem step (h : ReceivedOk s i) (hs : Step cfg s a t) : ReceivedOk t i := by
  have hframe := h.frame hs
  cases hs with
  | client _ _ | post _ _ | recheckNone _ _ _ | sendFinished _ _ | rerequest _ _ | clientUse _ _
  | cancel _ _ _ =>
    exact hframe (client_keeps Client.leaderGenFinished rfl (by rfl) i)
      (client_keeps Client.received rfl (by rfl) i)
  | @recvDone j hj hpc hm =>
    have hr : ((s.recvDone j).client i).received = (s.client i).received :=
      client_keeps Client.received rfl (by rfl) i
    by_cases hij : i = j
    · subst hij
      refine ⟨fun _ => Function.update_self .., fun k hk => ?_⟩
      rw [hr] at hk
      exact (Step.recvDone hj hpc hm).completed_mono (h.sendVal k hk)
    · exact hframe (by simp [Session.recvDone, Function.update_of_ne hij]) hr
  | @recvVal j k hj hpc hk =>
    have hl : ((s.recvVal j k).client i).leaderGenFinished = (s.client i).leaderGenFinished :=
      client_keeps Client.leaderGenFinished rfl (by rfl) i
    by_cases hij : i = j
    · subst hij
      refine ⟨fun hg => ?_, fun k' hk' => ?_⟩
      · rw [hl] at hg
        exact (Step.recvVal hj hpc hk).completed_mono (h.genDone hg)
      · have hmem : k' ∈ (s.client i).received ∨ k' = k := by simpa [Session.recvVal] using hk'
        rcases hmem with hold | rfl
        · exact (Step.recvVal hj hpc hk).completed_mono (h.sendVal k' hold)
        · exact Function.update_self ..
    · exact hframe hl (by simp [Session.recvVal, Function.update_of_ne hij])
  | _ => exact hframe rfl rfl

end ReceivedOk

theorem receivedOk {cfg : Config} {s : Session} (h : Reachable cfg s) (i : Nat) :
    ReceivedOk s i :=
  h.invariant (P := fun s => ReceivedOk s i) (by rintro _ rfl; exact ReceivedOk.initial cfg i)
    fun _ _ _ _ hi hs => hi.step hs

/-! ## 3. The requests the server keeps -/

/-- `m_requests[i]` holds requests of values sent to client `i`. -/
def PushedInv (cfg : Config) (s : Session) : Prop :=
  ∀ i, ∀ k ∈ (s.requests i).items, cfg.IsClient i ∧ k ∈ s.sentVals i

theorem PushedInv.step {cfg : Config} {s t : Session} {a : Act} (hr : RangeInv cfg s)
    (h : PushedInv cfg s) (hs : Step cfg s a t) : PushedInv cfg t := by
  cases hs with
  | @isendVal j pc hs =>
    intro i k hk
    by_cases hij : i = j
    · subst hij
      simp only [Session.isendVal, Function.update_self] at hk ⊢
      rcases CircularBuffer.mem_items_pushBack hk with hold | rfl
      · exact ⟨(h i k hold).1, List.mem_append_left _ (h i k hold).2⟩
      · exact ⟨(hr.send hs).2, by simp⟩
    · simp only [Session.isendVal, Function.update_of_ne hij] at hk ⊢
      exact h i k hk
  | @testPop j hpc hfront =>
    intro i k hk
    by_cases hij : i = j
    · subst hij
      simp only [Function.update_self, CircularBuffer.items_popFront] at hk
      exact h i k (List.mem_of_mem_tail hk)
    · simp only [Function.update_of_ne hij] at hk
      exact h i k hk
  | _ => exact h

theorem pushedInv {cfg : Config} {s : Session} (h : Reachable cfg s) : PushedInv cfg s := by
  refine h.invariant ?_ fun _ _ _ hr hi hs => hi.step (rangeInv hr) hs
  rintro _ rfl i k hk
  cases hk

/-! ## 4. A probed request

In the drain loop the client has finished and may cancel what the `iprobe` has
found, so `ProbedInv` needs the condition on the run. -/

/-- The client whose request was probed and is about to be received. -/
def ServerPc.probed? : ServerPc → Option Nat
  | recvRequest i | drainRecv i => some i
  | _ => none

theorem SendSite.probed {cfg : Config} {s : Session} {pc : ServerPc} {i : Nat}
    (hs : SendSite cfg s i pc) : pc.probed? = none := by
  cases hs <;> rfl

theorem AdvanceSite.probed {s : Session} {pc : ServerPc} (hs : AdvanceSite s pc) :
    pc.probed? = none := by
  cases hs <;> rfl

theorem UseSite.probed {cfg : Config} {s : Session} {pc : ServerPc} (hs : UseSite cfg s pc) :
    pc.probed? = none := by
  cases hs <;> rfl

theorem ServerMove.probed {cfg : Config} {s : Session} {pc : ServerPc} {i : Nat}
    (hm : ServerMove cfg s pc) (h : pc.probed? = some i) : s.hasRequest i = true := by
  cases hm with
  | handleSome _ _ _ hr | drainSome _ _ hr =>
    cases h
    exact hr
  | _ => cases h

theorem Session.requestsInTransit_of_hasRequest {s : Session} {i : Nat}
    (h : s.hasRequest i = true) : s.requestsInTransit i ≠ [] := by
  obtain ⟨m, hm⟩ := Option.isSome_iff_exists.mp h
  have hmem := Channel.mem_contents_of_iprobe hm
  have hkind := Channel.kind_of_iprobe hm
  cases m with
  | clientRequestVal q => exact List.ne_nil_of_mem (List.mem_filterMap.mpr ⟨_, hmem, rfl⟩)
  | clientFinished => cases hkind

/-- Taking a request back takes its number out of the requests under way. -/
theorem filterMap_erase_request (l : List ClientMsg) (q : Nat) :
    (l.erase (.clientRequestVal q)).filterMap ClientMsg.request? =
      (l.filterMap ClientMsg.request?).erase q := by
  refine Channel.filterMap_erase (f := ClientMsg.request?) rfl (fun m hm => ?_) l
  cases m with
  | clientRequestVal r =>
    cases hm
    rfl
  | clientFinished => cases hm

/-- A request found by `iprobe` is there for the `recv`. -/
def ProbedInv (s : Session) : Prop :=
  ∀ i, s.pc.probed? = some i → s.requestsInTransit i ≠ []

namespace ProbedInv

variable {cfg : Config} {s t : Session} {j : Nat} {a : Act}

/-- A step of the server to a place that has probed nothing. -/
theorem leave (hpc : t.pc.probed? = none) : ProbedInv t := by
  intro i hi
  rw [hpc] at hi
  cases hi

/-- A step on the channel from client `j` that leaves it a request. -/
theorem channel {ch : Channel ClientMsg} (h : ProbedInv s)
    (hch : s.pc.probed? = some j → s.requestsInTransit j ≠ [] →
      ch.contents.filterMap ClientMsg.request? ≠ [])
    (hpc : t.pc = s.pc) (ht : t.toServer = Function.update s.toServer j ch) : ProbedInv t := by
  intro i hi
  rw [hpc] at hi
  unfold Session.requestsInTransit
  rw [ht]
  by_cases hij : i = j
  · subst hij
    rw [Function.update_self]
    exact hch hi (h i hi)
  · rw [Function.update_of_ne hij]
    exact h i hi

/-- `~client_handler` runs on a finished client. The root has then left
`handle_client_request`, so what it has probed it has probed in the drain loop. -/
theorem cancel {q : Nat} {qs : List Nat} (hmark : MarkInv cfg s)
    (hj : cfg.IsClient j) (hpc : (s.client j).pc = .cancelling (q :: qs))
    (hmem : .clientRequestVal q ∈ (s.toServer j).contents)
    (hok : ¬ (Act.cancel j q).TakesProbed s) (hp : s.pc.probed? = some j) :
    ((s.toServer j).cancel (.clientRequestVal q)).contents.filterMap ClientMsg.request? ≠ [] := by
  have hfin : (s.client j).totallyFinished = true := by
    rw [← (hmark j hj).stopped, hpc]
    rfl
  have hdrain : s.pc = .drainRecv j := by
    cases hs : s.pc with
    | drainRecv i =>
      rw [hs] at hp
      cases hp
      rfl
    | recvRequest i =>
      have hrun := hmark j hj
      rw [hs] at hrun
      exact absurd hfin hrun.not_finished
    | _ =>
      rw [hs] at hp
      cases hp
  have hq : q ∈ s.requestsInTransit j := List.mem_filterMap.mpr ⟨_, hmem, rfl⟩
  rw [Channel.contents_cancel, filterMap_erase_request]
  intro hnil
  refine hok ⟨hdrain, ?_⟩
  have hperm := List.perm_cons_erase hq
  rw [show (s.requestsInTransit j).erase q = [] from hnil] at hperm
  exact List.perm_singleton.mp hperm

theorem step (hmark : MarkInv cfg s) (h : ProbedInv s) (hok : ¬ a.TakesProbed s)
    (hs : Step cfg s a t) : ProbedInv t := by
  cases hs with
  | server hm => exact fun i hi => Session.requestsInTransit_of_hasRequest (hm.probed hi)
  | isendVal hs => exact leave hs.probed
  | advance hs => exact leave hs.probed
  | serverUse hs => exact leave hs.probed
  | recvRequest _ _ | isendDone _ _ | recvFinished _ _ _ | drain _ _ => exact leave rfl
  | post _ _ | rerequest _ _ =>
    refine h.channel (fun _ _ => ?_) rfl rfl
    simp [ClientMsg.request?]
  | sendFinished _ _ =>
    refine h.channel (fun _ hne => ?_) rfl rfl
    simpa [ClientMsg.request?, List.filterMap_cons, Session.requestsInTransit] using hne
  | cancel hj hpc hmem =>
    exact h.channel (fun hp _ => cancel hmark hj hpc hmem hok hp) rfl rfl
  | deliverToServer =>
    refine h.channel (fun _ hne => ?_) rfl rfl
    rwa [Channel.contents_deliver]
  | _ => exact h

end ProbedInv

/-! ## No wait in vain -/

/-- The sessions in which no probed request is taken back. -/
def probingSys (cfg : Config) : LTS.Sys Session Act :=
  (sys cfg).restrict fun s a => ¬ a.TakesProbed s

theorem probedInv {cfg : Config} {s : Session} (h : LTS.Reachable (probingSys cfg) s) :
    ProbedInv s := by
  induction h with
  | init h =>
    cases h
    exact ProbedInv.leave rfl
  | step hr hs ih => exact ih.step (markInv hr.of_restrict) hs.1 hs.2

section Supply

variable {cfg : Config} {s : Session} {i k : Nat}

/-- A client whose `client_finished` is awaited has sent it or will. -/
theorem supplied_finished (h : Reachable cfg s) (hi : cfg.IsClient i)
    (hpc : s.pc = .recvFinished i) : s.Supplied (.clientFinished i) := by
  have hclose := finishInv h i hi
  rw [hpc, show (ServerPc.recvFinished i).finishedGot i = false by simp [ServerPc.finishedGot]]
    at hclose
  cases hg : (s.client i).pc.gone with
  | false => exact .inr hg
  | true =>
    rw [hg] at hclose
    obtain ⟨m, hm, hfin⟩ := hclose.exists_last
    cases m with
    | clientRequestVal q => cases hfin
    | clientFinished => exact .inl hm

/-- A client that has not received `val_gen_done` has it on its channel. -/
theorem supplied_genDone (h : Reachable cfg s) (hi : cfg.IsClient i) (hpc : s.pc = .waitDone i)
    (hc : s.completed (.genDone i) = false) : s.Supplied (.genDone i) := by
  have hok := markInv h i hi
  have hseen : (s.client i).leaderGenFinished = false := by
    by_contra hne
    rw [(receivedOk h i).genDone (by simpa using hne)] at hc
    cases hc
  have hmark := hok.mark
  rw [hpc, hseen] at hmark
  obtain ⟨l, hl, -⟩ := hmark
  refine ⟨by simp [hl], ?_⟩
  by_contra hne
  rw [(hok.empty (by simpa using hne)).1] at hseen
  cases hseen

/-- A value whose send is not complete is on its channel. -/
theorem supplied_sendVal (h : Reachable cfg s) (hk : k ∈ (s.requests i).items)
    (hc : s.completed (.sendVal k) = false) : s.Supplied (.sendVal i k) := by
  obtain ⟨hi, hsent⟩ := pushedInv h i k hk
  rw [sent_eq_received h hi] at hsent
  have htransit : k ∈ s.inTransit i := by
    refine (List.mem_append.mp hsent).resolve_left fun hr => ?_
    rw [(receivedOk h i).sendVal k hr] at hc
    cases hc
  refine ⟨?_, ?_⟩
  · obtain ⟨m, hm, hv⟩ := List.mem_filterMap.mp htransit
    cases m with
    | serverSendVal k' =>
      cases hv
      exact hm
    | valGenDone => cases hv
  · by_contra hne
    have hempty : s.inTransit i = [] := ((markInv h i hi).empty (by simpa using hne)).2
    rw [hempty] at htransit
    cases htransit

end Supply

/-- In a session that takes no probed request back, whatever the server waits
for is under way or still to be sent. A step that does take one back leaves the
server in the `recv` of the drain loop, with no request under way from a client
that has finished. -/
theorem never_stuck (cfg : Config) :
    (∀ s, LTS.Reachable (probingSys cfg) s → ∀ w, BlockedOn cfg s w → s.Supplied w) ∧
    (∀ s a t, Step cfg s a t → a.TakesProbed s →
      ∃ i, BlockedOn cfg t (.requestVal i) ∧ ¬ t.Supplied (.requestVal i) ∧
        (t.client i).pc.gone = true) := by
  constructor
  · intro s hs w hw
    have h : Reachable cfg s := hs.of_restrict
    cases hw with
    | recvRequest hpc | drainRecv hpc => exact probedInv hs _ (by rw [hpc]; rfl)
    | recvFinished hpc hi => exact supplied_finished h hi hpc
    | waitDone hpc hi hc => exact supplied_genDone h hi hpc hc
    | destroy _ hk hc => exact supplied_sendVal h hk hc
  · intro s a t hs ha
    cases hs with
    | @cancel i q qs hi hpc hmem =>
      obtain ⟨hdrain, hlast⟩ := ha
      refine ⟨i, .drainRecv hdrain, ?_, ?_⟩
      · have hl : (s.toServer i).contents.filterMap ClientMsg.request? = [q] := hlast
        simp [Session.Supplied, Session.requestsInTransit, Channel.contents_cancel,
          filterMap_erase_request, hl]
      · simp [Session.setClientPc, ClientPc.gone]
    | _ => cases ha

/-! ## The wait of the drain loop -/

/-- Two ranks, an empty range, and a buffer of one request. -/
def emptySession : Config := ⟨2, fun _ => 1, 0, Nat.two_pos⟩

/-- The client of the run: its program counter, its flag, and its one request. -/
structure OneRequest (s : Session) (pc : ClientPc) (seen : Bool) : Prop where
  at_pc : (s.client 1).pc = pc
  seen : (s.client 1).leaderGenFinished = seen
  items : (s.client 1).requests.items = [0]

/-- Both ranks are past the barrier and the client has asked once. -/
theorem emptySession_gathered : ∃ s, Reachable emptySession s ∧ OneRequest s .poll false ∧
    s.pc = .handle ∧ s.iter = 0 ∧ s.toClient 1 = ⟨[], []⟩ ∧
    s.toServer 1 = ⟨[], [.clientRequestVal 0]⟩ := by
  have hc : emptySession.IsClient 1 := by decide
  have h0 : Reachable emptySession (Session.initial emptySession) := .init rfl
  have h1 := h0.step (.client hc (.enterAllGather rfl (by decide)))
  have h2 := h1.step (.server (.enterAllGather rfl (by decide)))
  have h3 := h2.step (.client hc (.leaveAllGather rfl (.of_two rfl nofun nofun)))
  have h4 := h3.step (.post (k := 0) hc rfl)
  have h5 := h4.step (.client hc (.enterBarrier rfl))
  have h6 := h5.step (.server (.leaveAllGather rfl (.of_two rfl nofun nofun)))
  have h7 := h6.step (.server (.leaveBarrier rfl (.of_two rfl nofun nofun rfl)))
  have h8 := h7.step (.client hc (.leaveBarrier rfl (.of_two rfl nofun nofun rfl)))
  have h9 := h8.step (.server (.firstLoop (i := 1) rfl (by decide) (by decide)))
  have h10 := h9.step (.server (.firstSkip rfl (by decide) (.inl rfl)))
  have h11 := h10.step (.server (.firstDone rfl hc (by decide) rfl))
  exact ⟨_, h11, ⟨rfl, rfl, rfl⟩, rfl, rfl, rfl, rfl⟩

/-- The server has sent `val_gen_done` and waits for `client_finished`. -/
theorem emptySession_announced : ∃ s, Reachable emptySession s ∧ OneRequest s .poll false ∧
    s.pc = .recvFinished 1 ∧ s.toClient 1 = ⟨[], [.valGenDone]⟩ ∧
    s.toServer 1 = ⟨[], [.clientRequestVal 0]⟩ := by
  have hc : emptySession.IsClient 1 := by decide
  obtain ⟨s, h0, hcl, hpc, hiter, hto, hfrom⟩ := emptySession_gathered
  have h1 := h0.step (.server (.handleDone hpc hiter))
  have h2 := h1.step (.server (.sendDoneSkip rfl))
  have h3 := h2.step (.isendDone rfl hc)
  have h4 := h3.step (.server (.sendDoneEnd rfl (by decide)))
  have h5 := h4.step (.complete (r := .genDone 1))
  have h6 := h5.step (.server (.waitDone rfl (by decide) fun h => absurd rfl h))
  have h7 := h6.step (.server (.waitDone rfl (by decide) fun _ => by simp))
  have h8 := h7.step (.server (.waitDoneEnd rfl (by decide)))
  have h9 := h8.step (.server (.recvFinishedSkip rfl))
  refine ⟨_, h9, ⟨hcl.at_pc, hcl.seen, hcl.items⟩, rfl, ?_, hfrom⟩
  simp [rootRank, hto, Channel.send]

/-- The client has seen the end, and its destructor is about to cancel the
request that is left. -/
theorem emptySession_finished : ∃ s, Reachable emptySession s ∧
    (s.client 1).pc = .cancelling [0] ∧ s.pc = .recvFinished 1 ∧
    s.toServer 1 = ⟨[], [.clientRequestVal 0, .clientFinished]⟩ := by
  have hc : emptySession.IsClient 1 := by decide
  obtain ⟨s, h0, hcl, hpc, hto, hfrom⟩ := emptySession_announced
  have h1 := h0.step (.client hc (.pollNone hcl.at_pc (by
    rw [Session.hasValInBuffer, hto]
    rfl)))
  have h2 := h1.step (.deliverToClient (i := 1))
  have hmark : ((s.toClient 1).deliver).iprobe ServerMsg.isDone = some .valGenDone := by
    rw [hto]
    rfl
  have h3 := h2.step (.client (i := 1) hc (.checkSome
    (by simp [Session.setClientPc]) (by simp [Session.setClientPc, hcl.seen])
    (by simp [Session.setClientPc, hmark])))
  have h4 := h3.step (.recvDone (i := 1) hc (by simp [Session.setClientPc])
    (by simp [Session.setClientPc, hmark]))
  have h5 := h4.step (.recheckNone (i := 1) hc (by simp [Session.recvDone]) (by
    simp [Session.recvDone, Session.setClientPc, Session.hasValInBuffer, hto]
    rfl))
  have h6 := h5.step (.sendFinished (i := 1) hc (by simp))
  have h7 := h6.step (.client (i := 1) hc (.destroy (by simp [Session.setClientPc])))
  refine ⟨_, h7, ?_, hpc, ?_⟩
  · simp [Session.setClientPc, Session.recvDone, hcl.items]
  · simp [Session.setClientPc, Session.recvDone, hfrom, Channel.send]

/-- The client finishes without a value; its one request is left over. The
drain loop probes it, the client's destructor cancels it, and the `recv` waits
while no client is left. -/
theorem drain_stuck :
    ¬ (∀ s, Reachable emptySession s → ∀ w, BlockedOn emptySession s w →
      s.Supplied w ∨ ∃ i, emptySession.IsClient i ∧ (s.client i).pc.gone = false) := by
  intro h
  have hc : emptySession.IsClient 1 := by decide
  obtain ⟨s, h0, hcl, hpc, hfrom⟩ := emptySession_finished
  have h1 := h0.step (.deliverToServer (i := 1))
  have h2 := h1.step (.deliverToServer (i := 1))
  have hmail : (s.toServer 1).deliver.deliver = ⟨[.clientRequestVal 0, .clientFinished], []⟩ := by
    rw [hfrom]
    rfl
  have h3 := h2.step (.recvFinished (i := 1) hpc hc (by
    simp [hmail]
    rfl))
  have h4 := h3.step (.server (.recvFinishedEnd rfl (by decide)))
  have h5 := h4.step (.server (.drainSome (i := 1) rfl hc (by
    simp [Session.hasRequest, hmail]
    rfl)))
  have h6 := h5.step (.cancel (i := 1) hc hcl (by
    simp [hmail]
    decide))
  rcases h _ h6 (.requestVal 1) (.drainRecv rfl) with hsup | ⟨i, hi, hrun⟩
  · refine hsup ?_
    simp only [Session.requestsInTransit, Function.update_self, hmail]
    rfl
  · rw [hi.eq_one rfl] at hrun
    simp [Session.setClientPc, ClientPc.gone] at hrun

end SimpleParallel.Schedule
