import Mathlib.Data.List.Flatten
import SimpleParallel.Lib.Assignment
import SimpleParallel.Schedule.Session

/-!
# Exactly-once scheduling

Every element of the range is used by exactly one rank, under every
interleaving of the server, the clients and the deliveries.

Four invariants of the reachable sessions carry the argument.

1. `RangeInv`: where `m_iter` stands, from the server's program counter.
2. `Handed`: the elements given away so far have one owner each; the
   server's own list and the lists it sent are what each owner got.
3. `FlowInv`: what the server sent to a client is what the client used, then
   the element it holds, then the elements on the channel.
4. `MarkInv`: `val_gen_done` is the last message of a client's channel, so a
   client that has seen it and sees no value has no value left in transit.

Results:
* `exactly_once`: the claim for every reachable session: one place for each
  index, increasing lists, and the complete list when all ranks are done.
-/

namespace SimpleParallel.Schedule

open Assignment

/-! ## Reading the server's program counter -/

namespace ServerPc

/-- `*m_iter` was given away and `m_iter++` is still to come. -/
def handedOver : ServerPc → Bool
  | firstSent _ _ | sent | next | singleNext => true
  | _ => false

/-- The code relies on `m_iter != m_end`. -/
def hasCurrent : ServerPc → Bool
  | firstSent _ _ | recvRequest _ | test _ | sent | yield | next | singleNext => true
  | _ => false

/-- `done()` was found true for good. -/
def ended : ServerPc → Bool
  | sendDone _ | waitDone _ | recvFinished _ | drain | drainRecv _ | finished | destroyed
  | singleFinished => true
  | _ => false

/-- `val_gen_done` was sent to client `i`. -/
def doneSent (i : Nat) : ServerPc → Bool
  | sendDone j => decide (i < j)
  | waitDone _ | recvFinished _ | drain | drainRecv _ | finished | destroyed => true
  | _ => false

/-- The client whose request is being answered. -/
def source? : ServerPc → Option Nat
  | recvRequest i | test i => some i
  | _ => none

end ServerPc

/-- How many elements were given away. -/
def Session.given (s : Session) : Nat := s.iter + if s.pc.handedOver then 1 else 0

/-- The element a client has received and not yet passed to the user. -/
def Client.held (c : Client) : List Nat :=
  match c.pc with
  | .rerequest | .yield => [c.value]
  | _ => []

/-! A control move reaches a place of one of these kinds only from such a place,
or after it has looked at what the kind promises. -/

namespace ServerMove

variable {cfg : Config} {s : Session} {pc : ServerPc}

theorem hasCurrent (hm : ServerMove cfg s pc) (h : pc.hasCurrent = true) :
    s.pc.hasCurrent = true ∨ ¬ s.done cfg := by
  cases hm <;> simp_all [ServerPc.hasCurrent]

theorem ended (hm : ServerMove cfg s pc) (h : pc.ended = true) :
    s.pc.ended = true ∨ s.done cfg := by
  cases hm <;> simp_all [ServerPc.ended]

theorem source {i : Nat} (hm : ServerMove cfg s pc) (h : pc.source? = some i) :
    s.pc.source? = some i ∨ cfg.IsClient i := by
  cases hm <;> simp_all [ServerPc.source?]

theorem handedOver (hm : ServerMove cfg s pc) :
    pc.handedOver = false ∧ s.pc.handedOver = false := by
  cases hm <;> simp_all [ServerPc.handedOver]

/-- `val_gen_done` goes to every client before the server stops sending it. -/
theorem doneSent {i : Nat} (hi : cfg.IsClient i) (hm : ServerMove cfg s pc) :
    pc.doneSent i = s.pc.doneSent i := by
  obtain ⟨hlt, hne⟩ := hi
  cases hm with
  | sendDoneSkip hpc =>
    have hz : i ≠ 0 := hne
    simp [hpc, ServerPc.doneSent, rootRank, hz]
  | sendDoneEnd hpc hend =>
    have : i < _ := Nat.lt_of_lt_of_le hlt (Nat.le_of_not_lt hend)
    simp [hpc, ServerPc.doneSent, this]
  | _ => simp [*, ServerPc.doneSent]

end ServerMove

theorem SendSite.doneSent {cfg : Config} {s : Session} {pc : ServerPc} {i j : Nat}
    (hs : SendSite cfg s i pc) : s.pc.doneSent j = false ∧ pc.doneSent j = false := by
  cases hs <;> simp [ServerPc.doneSent, *]

theorem AdvanceSite.doneSent {s : Session} {pc : ServerPc} {j : Nat} (hs : AdvanceSite s pc) :
    pc.doneSent j = s.pc.doneSent j := by
  cases hs <;> simp [ServerPc.doneSent, *]

theorem UseSite.doneSent {cfg : Config} {s : Session} {pc : ServerPc} {j : Nat}
    (hs : UseSite cfg s pc) : pc.doneSent j = s.pc.doneSent j := by
  cases hs <;> simp [ServerPc.doneSent, *]

/-! ## 1. Where the iterator stands -/

structure RangeInv (cfg : Config) (s : Session) : Prop where
  le : s.iter ≤ cfg.n
  current : s.pc.hasCurrent = true → s.iter < cfg.n
  ended : s.pc.ended = true → s.iter = cfg.n
  source : ∀ i, s.pc.source? = some i → cfg.IsClient i

namespace RangeInv

variable {cfg : Config} {s t : Session} {pc : ServerPc} {i : Nat} {a : Act}

theorem initial (cfg : Config) : RangeInv cfg (Session.initial cfg) where
  le := Nat.zero_le _
  current h := by cases h
  ended h := by cases h
  source i h := by cases h

theorem move (hi : RangeInv cfg s) (hm : ServerMove cfg s pc) : RangeInv cfg { s with pc } where
  le := hi.le
  current h := (hm.hasCurrent h).elim hi.current (Nat.lt_of_le_of_ne hi.le)
  ended h := (hm.ended h).elim hi.ended id
  source j h := (hm.source h).elim (hi.source j) id

theorem send (hi : RangeInv cfg s) (hs : SendSite cfg s i pc) :
    s.iter < cfg.n ∧ cfg.IsClient i := by
  cases hs with
  | first _ hc _ hd =>
    exact ⟨Nat.lt_of_le_of_ne hi.le hd, hc⟩
  | answer hpc _ =>
    exact ⟨hi.current (by simp [hpc, ServerPc.hasCurrent]),
      hi.source i (by simp [hpc, ServerPc.source?])⟩

theorem advance (hi : RangeInv cfg s) (hs : AdvanceSite s pc) : s.iter < cfg.n := by
  apply hi.current
  cases hs <;> simp [ServerPc.hasCurrent, *]

theorem use (hi : RangeInv cfg s) (hs : UseSite cfg s pc) : s.iter < cfg.n := by
  cases hs with
  | yield hpc => exact hi.current (by simp [hpc, ServerPc.hasCurrent])
  | single _ hd => exact Nat.lt_of_le_of_ne hi.le hd

theorem step (hi : RangeInv cfg s) (h : Step cfg s a t) : RangeInv cfg t := by
  cases h with
  | server hm => exact hi.move hm
  | isendVal hs =>
    obtain ⟨hlt, -⟩ := hi.send hs
    cases hs <;> exact ⟨hi.le, fun _ => hlt, nofun, nofun⟩
  | advance hs =>
    have hlt := hi.advance hs
    cases hs <;> exact ⟨hlt, nofun, nofun, nofun⟩
  | serverUse hs =>
    have hlt := hi.use hs
    cases hs <;> exact ⟨hi.le, fun _ => hlt, nofun, nofun⟩
  | recvRequest hpc _ =>
    refine ⟨hi.le, fun _ => hi.current (by simp [hpc, ServerPc.hasCurrent]), nofun, ?_⟩
    intro j hj
    cases hj
    exact hi.source _ (by simp [hpc, ServerPc.source?])
  | isendDone hpc _ | recvFinished hpc _ _ | drain hpc _ =>
    exact ⟨hi.le, nofun, fun _ => hi.ended (by simp [hpc, ServerPc.ended]), nofun⟩
  | _ => exact ⟨hi.le, hi.current, hi.ended, hi.source⟩

end RangeInv

theorem rangeInv {cfg : Config} {s : Session} (h : Reachable cfg s) : RangeInv cfg s :=
  h.invariant (fun _ hs => hs ▸ RangeInv.initial cfg) fun _ _ _ _ hi hs => hi.step hs

/-! ## 2. Who got what -/

/-- The elements given away so far have the owners `own`. -/
structure Handed (cfg : Config) (s : Session) (own : Nat → Nat) : Prop where
  server : s.serverYielded = owned own s.given rootRank
  client : ∀ i, cfg.IsClient i → s.sentVals i = owned own s.given i
  ranks : ∀ k < s.given, own k = rootRank ∨ cfg.IsClient (own k)

namespace Handed

variable {cfg : Config} {s t : Session} {own : Nat → Nat} {pc : ServerPc} {i : Nat} {a : Act}

theorem initial (cfg : Config) : Handed cfg (Session.initial cfg) fun _ => rootRank where
  server := rfl
  client _ _ := rfl
  ranks k hk := absurd hk (Nat.not_lt_zero k)

/-- Steps that give nothing away. -/
theorem frame (h : Handed cfg s own) (hy : t.serverYielded = s.serverYielded)
    (hv : t.sentVals = s.sentVals) (hg : t.given = s.given) : Handed cfg t own where
  server := by rw [hy, hg, h.server]
  client i hi := by rw [hv, hg, h.client i hi]
  ranks k hk := h.ranks k (hg ▸ hk)

theorem ranks_give (h : Handed cfg s own) (hi : i = rootRank ∨ cfg.IsClient i) :
    ∀ k < s.given + 1, Function.update own s.given i k = rootRank ∨
      cfg.IsClient (Function.update own s.given i k) := by
  intro k hk
  by_cases hks : k = s.given
  · subst hks
    rwa [Function.update_self]
  · rw [Function.update_of_ne hks]
    exact h.ranks k (by omega)

/-- The server sends its current element to client `i`. -/
theorem give_client (h : Handed cfg s own) (hs : SendSite cfg s i pc) (hc : cfg.IsClient i) :
    Handed cfg (s.isendVal i pc) (Function.update own s.given i) := by
  have hg : s.given = s.iter := by cases hs <;> simp [Session.given, *, ServerPc.handedOver]
  have hg' : (s.isendVal i pc).given = s.given + 1 := by
    rw [hg]
    cases hs <;> rfl
  constructor
  · rw [hg', owned_give_other own _ (Ne.symm hc.2)]
    exact h.server
  · intro j hj
    rw [hg']
    show Function.update s.sentVals i _ j = _
    by_cases hji : j = i
    · subst hji
      rw [Function.update_self, owned_give_self, h.client j hj, hg]
    · rw [Function.update_of_ne hji, owned_give_other own _ hji, h.client j hj]
  · rw [hg']
    exact h.ranks_give (.inr hc)

/-- The root's user uses the current element. -/
theorem give_server (h : Handed cfg s own) (hs : UseSite cfg s pc) :
    Handed cfg { s with pc := pc, serverYielded := s.serverYielded ++ [s.iter] }
      (Function.update own s.given rootRank) := by
  have hg : s.given = s.iter := by cases hs <;> simp [Session.given, *, ServerPc.handedOver]
  have hg' : Session.given { s with pc := pc, serverYielded := s.serverYielded ++ [s.iter] }
      = s.given + 1 := by
    rw [hg]
    cases hs <;> rfl
  constructor
  · rw [hg', owned_give_self, ← h.server, hg]
  · intro j hj
    rw [hg', owned_give_other own _ hj.2]
    exact h.client j hj
  · rw [hg']
    exact h.ranks_give (.inl rfl)

theorem step (hr : RangeInv cfg s) (h : Handed cfg s own) (hs : Step cfg s a t) :
    ∃ own', Handed cfg t own' := by
  cases hs with
  | isendVal hs => exact ⟨_, h.give_client hs (hr.send hs).2⟩
  | serverUse hs => exact ⟨_, h.give_server hs⟩
  | server hm =>
    refine ⟨own, h.frame rfl rfl ?_⟩
    simp [Session.given, hm.handedOver]
  | advance hs =>
    refine ⟨own, h.frame rfl rfl ?_⟩
    cases hs <;> simp [Session.given, *, ServerPc.handedOver]
  | recvRequest hpc _ | isendDone hpc _ | recvFinished hpc _ _ | drain hpc _ =>
    refine ⟨own, h.frame rfl rfl ?_⟩
    simp [Session.given, Session.takeRequest, hpc, ServerPc.handedOver]
  | _ => exact ⟨own, h.frame rfl rfl rfl⟩

end Handed

theorem handed {cfg : Config} {s : Session} (h : Reachable cfg s) : ∃ own, Handed cfg s own :=
  h.invariant (P := fun s => ∃ own, Handed cfg s own)
    (fun _ hs => ⟨_, hs ▸ Handed.initial cfg⟩)
    fun _ _ _ hr ⟨_, hi⟩ hs => hi.step (rangeInv hr) hs

/-! ## 3. What the server sent to a client -/

/-- The elements on a client's channel, oldest first. -/
def Session.inTransit (s : Session) (i : Nat) : List Nat :=
  (s.toClient i).contents.filterMap ServerMsg.val?

/-- The elements sent to client `i` are those it used, the one it holds, and
those on its channel. -/
def FlowInv (cfg : Config) (s : Session) : Prop :=
  ∀ i, cfg.IsClient i →
    s.sentVals i = (s.client i).yielded ++ (s.client i).held ++ s.inTransit i

theorem ClientMove.held {cfg : Config} {s : Session} {i : Nat} {pc : ClientPc}
    (hm : ClientMove cfg s i pc) :
    Client.held { s.client i with pc := pc } = [] ∧ (s.client i).held = [] := by
  cases hm <;> simp [Client.held, *]

theorem ServerMsg.val?_of_isDone (m : ServerMsg) (h : m.isDone = true) : m.val? = none := by
  cases m with
  | serverSendVal k => cases h
  | valGenDone => rfl

theorem ServerMsg.val?_of_not_isVal (m : ServerMsg) (h : m.isVal = false) : m.val? = none := by
  cases m with
  | serverSendVal k => cases h
  | valGenDone => rfl

namespace FlowInv

variable {cfg : Config} {s t : Session} {i : Nat} {a : Act}

/-- Steps that touch none of the three lists of any client. -/
theorem frame (h : FlowInv cfg s) (hv : t.sentVals = s.sentVals)
    (hy : ∀ i, (t.client i).yielded ++ (t.client i).held = (s.client i).yielded ++ (s.client i).held)
    (ht : ∀ i, t.inTransit i = s.inTransit i) : FlowInv cfg t := by
  intro i hi
  rw [hv, hy, ht, h i hi]

/-- Steps of one client that leave the channel alone and pass the element it
holds to the user, if any. -/
theorem client (h : FlowInv cfg s) {c : Client}
    (hc : c.yielded ++ c.held = (s.client i).yielded ++ (s.client i).held) :
    FlowInv cfg { s with client := Function.update s.client i c } := by
  refine h.frame rfl (fun j => ?_) fun _ => rfl
  by_cases hj : j = i
  · subst hj
    simpa using hc
  · simp [Function.update_of_ne hj]

/-- Steps that change one channel to a client, but not the elements on it. -/
theorem channel (h : FlowInv cfg s) {c : Channel ServerMsg}
    (hc : c.contents.filterMap ServerMsg.val? = s.inTransit i) :
    FlowInv cfg { s with toClient := Function.update s.toClient i c } := by
  refine h.frame rfl (fun _ => rfl) fun j => ?_
  by_cases hj : j = i
  · subst hj
    simpa [Session.inTransit] using hc
  · simp [Session.inTransit, Function.update_of_ne hj]

theorem send (h : FlowInv cfg s) (pc : ServerPc) : FlowInv cfg (s.isendVal i pc) := by
  intro j hj
  by_cases hji : j = i
  · subst hji
    simp [Session.isendVal, Session.inTransit, h j hj, ServerMsg.val?]
  · simpa [Session.isendVal, Session.inTransit, Function.update_of_ne hji] using h j hj

theorem recvVal {k : Nat} (h : FlowInv cfg s) (hpc : (s.client i).pc = .recv)
    (hk : (s.toClient i).iprobe ServerMsg.isVal = some (.serverSendVal k)) :
    FlowInv cfg (s.recvVal i k) := by
  intro j hj
  by_cases hji : j = i
  · subst hji
    have htake : s.inTransit j = k :: ((s.toClient j).recv ServerMsg.isVal).contents.filterMap
        ServerMsg.val? :=
      Channel.filterMap_recv ServerMsg.val?_of_not_isVal hk rfl
    have hflow := h j hj
    rw [htake] at hflow
    simpa [Session.recvVal, Session.inTransit, Client.held, hpc] using hflow
  · simpa [Session.recvVal, Session.inTransit, Function.update_of_ne hji] using h j hj

theorem step (h : FlowInv cfg s) (hs : Step cfg s a t) : FlowInv cfg t := by
  cases hs with
  | client _ hm =>
    obtain ⟨hnew, hold⟩ := hm.held
    exact h.client (by rw [hnew, hold])
  | isendVal _ => exact h.send _
  | recvVal _ hpc hk => exact h.recvVal hpc hk
  | isendDone _ _ =>
    refine h.channel ?_
    simp [Session.inTransit, ServerMsg.val?]
  | recvDone _ hpc hk =>
    refine (h.channel ?_).client ?_
    · exact Channel.filterMap_recv_other ServerMsg.val?_of_isDone hk
    · simp [Client.held, hpc]
  | post _ hpc | recheckNone _ hpc _ | sendFinished _ hpc | rerequest _ hpc | clientUse _ hpc
  | cancel _ hpc _ => exact h.client (by simp [Client.held, hpc])
  | deliverToClient => exact h.channel (by simp [Session.inTransit])
  | _ => exact h

end FlowInv

theorem flowInv {cfg : Config} {s : Session} (h : Reachable cfg s) : FlowInv cfg s :=
  h.invariant (fun _ hs => hs ▸ fun _ _ => rfl) fun _ _ _ _ hi hs => hi.step hs

/-! ## 4. The end marker -/

/-- No `val_gen_done` among the messages. -/
def NoDone (l : List ServerMsg) : Prop := ∀ m ∈ l, m.isDone = false

/-- The channel to a client, before and after the server sent `val_gen_done`
(first argument) and the client received it (second argument). -/
def Mark : Bool → Bool → Channel ServerMsg → Prop
  | false, false, c => NoDone c.contents
  | true, false, c => ∃ l, c.contents = l ++ [.valGenDone] ∧ NoDone l
  | true, true, c => c.transit = [] ∧ NoDone c.contents
  | false, true, _ => False

/-- `val_gen_done` closes the channel to a client. -/
theorem mark_iff {d f : Bool} {c : Channel ServerMsg} :
    Mark d f c ↔ c.Closing ServerMsg.isDone d f := by
  match d, f with
  | false, false | true, true | false, true => exact Iff.rfl
  | true, false =>
    constructor
    · rintro ⟨l, hl, hn⟩
      exact ⟨l, .valGenDone, hl, rfl, hn⟩
    · rintro ⟨l, m, hl, hm, hn⟩
      cases m with
      | serverSendVal k => cases hm
      | valGenDone => exact ⟨l, hl, hn⟩

namespace Mark

variable {c : Channel ServerMsg} {d f : Bool}

theorem deliver (h : Mark d f c) : Mark d f c.deliver :=
  mark_iff.mpr (mark_iff.mp h).deliver

/-- Values are sent before the marker only. -/
theorem sendVal (h : Mark false f c) (k : Nat) : Mark false f (c.send (.serverSendVal k)) :=
  mark_iff.mpr ((mark_iff.mp h).send rfl)

theorem sendDone (h : Mark false f c) : Mark true f (c.send .valGenDone) :=
  mark_iff.mpr ((mark_iff.mp h).send_last rfl)

theorem recvVal {k : Nat} (h : Mark d f c) (hk : c.iprobe ServerMsg.isVal = some (.serverSendVal k)) :
    Mark d f (c.recv ServerMsg.isVal) :=
  mark_iff.mpr ((mark_iff.mp h).recv_other (fun x hx => by simp [ServerMsg.isDone, hx]) hk)

/-- The marker is the last message, so nothing is in transit behind it. -/
theorem recvDone {m : ServerMsg} (h : Mark d f c) (hm : c.iprobe ServerMsg.isDone = some m) :
    d = true ∧ Mark true true (c.recv ServerMsg.isDone) :=
  (mark_iff.mp h).recv_last hm

/-- After the marker, a client that sees no value has no value left. -/
theorem no_value (h : Mark d true c) (hv : (c.iprobe ServerMsg.isVal).isSome = false) :
    c.contents.filterMap ServerMsg.val? = [] := by
  rw [List.filterMap_eq_nil_iff]
  have hnone : c.iprobe ServerMsg.isVal = none := by simpa using hv
  exact fun m hm => ServerMsg.val?_of_not_isVal m ((mark_iff.mp h).none_left hnone m hm)

end Mark

/-- `m_totally_finished` is set. -/
def ClientPc.stopped : ClientPc → Bool
  | sendFinished | finished | cancelling _ | destroyed => true
  | _ => false

/-- The places between the look at the end marker and the decision. -/
def ClientPc.sawMark : ClientPc → Bool
  | recheck => true
  | _ => false

theorem ClientMove.sawMark {cfg : Config} {s : Session} {i : Nat} {pc : ClientPc}
    (hm : ClientMove cfg s i pc) (h : pc.sawMark = true) :
    (s.client i).leaderGenFinished = true := by
  cases hm <;> first
    | assumption
    | cases h

theorem ClientMove.stopped {cfg : Config} {s : Session} {i : Nat} {pc : ClientPc}
    (hm : ClientMove cfg s i pc) : pc.stopped = (s.client i).pc.stopped := by
  cases hm <;> simp [ClientPc.stopped, *]

/-- What the end marker says about one client and its channel; `d` is
`ServerPc.doneSent`. -/
structure MarkOk (d : Bool) (c : Client) (ch : Channel ServerMsg) : Prop where
  mark : Mark d c.leaderGenFinished ch
  sawMark : c.pc.sawMark = true → c.leaderGenFinished = true
  stopped : c.pc.stopped = c.totallyFinished
  empty : c.totallyFinished = true →
    c.leaderGenFinished = true ∧ ch.contents.filterMap ServerMsg.val? = []

namespace MarkOk

variable {d d' : Bool} {c : Client} {ch ch' : Channel ServerMsg}

/-- A change of the channel while the client is not finished. -/
theorem channel (h : MarkOk d c ch) (hm : Mark d' c.leaderGenFinished ch')
    (hf : c.totallyFinished = true → ch'.contents = ch.contents) : MarkOk d' c ch' :=
  ⟨hm, h.sawMark, h.stopped, fun ht => by rw [hf ht]; exact h.empty ht⟩

/-- A change of the client that leaves its two flags alone. -/
theorem client {c' : Client} (h : MarkOk d c ch)
    (hl : c'.leaderGenFinished = c.leaderGenFinished)
    (ht : c'.totallyFinished = c.totallyFinished) (hs : c'.pc.stopped = c.pc.stopped)
    (hw : c'.pc.sawMark = true → c.leaderGenFinished = true) : MarkOk d c' ch :=
  ⟨hl ▸ h.mark, fun hc => hl ▸ hw hc, by rw [hs, ht, h.stopped], by rw [hl, ht]; exact h.empty⟩

/-- Before the marker is sent no client is finished. -/
theorem not_finished (h : MarkOk false c ch) : c.totallyFinished ≠ true := by
  intro ht
  have hm := h.mark
  rw [(h.empty ht).1] at hm
  exact hm

theorem running (h : MarkOk d c ch) (hs : c.pc.stopped = false) : c.totallyFinished ≠ true := by
  rw [← h.stopped, hs]
  nofun

end MarkOk

def MarkInv (cfg : Config) (s : Session) : Prop :=
  ∀ i, cfg.IsClient i → MarkOk (s.pc.doneSent i) (s.client i) (s.toClient i)

namespace MarkInv

variable {cfg : Config} {s t : Session} {i j : Nat} {a : Act}

theorem initial (cfg : Config) : MarkInv cfg (Session.initial cfg) := fun _ _ =>
  ⟨nofun, nofun, rfl, nofun⟩

/-- A step that sends no mark and moves no client. -/
theorem same (h : MarkInv cfg s) (hpc : ∀ i, cfg.IsClient i → t.pc.doneSent i = s.pc.doneSent i)
    (hclient : t.client = s.client) (hchannel : t.toClient = s.toClient) : MarkInv cfg t := by
  intro i hi
  rw [hpc i hi, hclient, hchannel]
  exact h i hi

/-- A step of client `j`, which may take from its channel. -/
theorem update_both {c : Client} {ch : Channel ServerMsg} (h : MarkInv cfg s)
    (hclient : t.client = Function.update s.client j c)
    (hchannel : t.toClient = Function.update s.toClient j ch) (hpc : t.pc = s.pc)
    (hc : cfg.IsClient j → MarkOk (s.pc.doneSent j) c ch) : MarkInv cfg t := by
  intro i hi
  rw [hpc, hclient, hchannel]
  by_cases hij : i = j
  · subst hij
    rw [Function.update_self, Function.update_self]
    exact hc hi
  · rw [Function.update_of_ne hij, Function.update_of_ne hij]
    exact h i hi

theorem update_client {c : Client} (h : MarkInv cfg s)
    (hc : cfg.IsClient j → MarkOk (s.pc.doneSent j) c (s.toClient j)) :
    MarkInv cfg { s with client := Function.update s.client j c } :=
  h.update_both rfl (Function.update_eq_self j s.toClient).symm rfl hc

/-- A step on the channel to client `j`. -/
theorem update_channel {ch : Channel ServerMsg} (h : MarkInv cfg s) (pc : ServerPc)
    (hpc : ∀ i, cfg.IsClient i → i ≠ j → pc.doneSent i = s.pc.doneSent i)
    (hc : cfg.IsClient j → MarkOk (pc.doneSent j) (s.client j) ch) :
    MarkInv cfg { s with pc := pc, toClient := Function.update s.toClient j ch } := by
  intro i hi
  by_cases hij : i = j
  · subst hij
    simpa using hc hi
  · simpa [Function.update_of_ne hij, hpc i hi hij] using h i hi

/-- The mark is sent to client `j`. -/
theorem isendDone (h : MarkInv cfg s) (hpc : s.pc = .sendDone j) :
    MarkInv cfg { s with
      pc := .sendDone (j + 1)
      toClient := Function.update s.toClient j ((s.toClient j).send .valGenDone) } := by
  refine h.update_channel (.sendDone (j + 1)) (fun i _ hij => ?_) fun hj => ?_
  · have hiff : i < j + 1 ↔ i < j := by omega
    simp [hpc, ServerPc.doneSent, hiff]
  · have hok := h j hj
    have hold : s.pc.doneSent j = false := by simp [hpc, ServerPc.doneSent]
    have hnew : (ServerPc.sendDone (j + 1)).doneSent j = true := by simp [ServerPc.doneSent]
    rw [hold] at hok
    rw [hnew]
    exact hok.channel hok.mark.sendDone fun ht => absurd ht hok.not_finished

theorem step (h : MarkInv cfg s) (hs : Step cfg s a t) : MarkInv cfg t := by
  cases hs with
  | server hm => exact h.same (fun _ hi => hm.doneSent hi) rfl rfl
  | advance hs => exact h.same (fun _ _ => hs.doneSent) rfl rfl
  | serverUse hs => exact h.same (fun _ _ => hs.doneSent) rfl rfl
  | recvRequest hpc _ | recvFinished hpc _ _ | drain hpc _ =>
    exact h.same (fun _ _ => by rw [hpc]; rfl) rfl rfl
  | @isendVal j pc hs =>
    refine h.update_channel pc (fun i _ _ => by rw [hs.doneSent.1, hs.doneSent.2]) fun hj => ?_
    have hok := h j hj
    rw [hs.doneSent.1] at hok
    rw [hs.doneSent.2]
    exact hok.channel (hok.mark.sendVal _) fun ht => absurd ht hok.not_finished
  | isendDone hpc _ => exact h.isendDone hpc
  | @client j _ _ hm =>
    exact h.update_client fun hj => (h j hj).client rfl rfl hm.stopped hm.sawMark
  | post _ hpc | rerequest _ hpc | clientUse _ hpc | sendFinished _ hpc | cancel _ hpc _ =>
    refine h.update_client fun hj => (h _ hj).client rfl rfl ?_ nofun
    simp [hpc, ClientPc.stopped]
  | @recvDone j _ hpc hm =>
    refine h.update_both rfl rfl rfl fun hj => ?_
    obtain ⟨hd, hmark⟩ := (h j hj).mark.recvDone hm
    have hrun := (h j hj).running (by rw [hpc]; rfl)
    rw [hd]
    exact ⟨hmark, fun _ => rfl, by simpa [ClientPc.stopped] using hrun, fun ht => absurd ht hrun⟩
  | @recvVal j k _ hpc hk =>
    refine h.update_both rfl rfl rfl fun hj => ?_
    have hrun := (h j hj).running (by rw [hpc]; rfl)
    have hok := (h j hj).channel ((h j hj).mark.recvVal hk) fun ht => absurd ht hrun
    exact hok.client rfl rfl (by rw [hpc]; rfl) nofun
  | @recheckNone j _ hpc hv =>
    refine h.update_client fun hj => ?_
    have hok := h j hj
    have hseen : (s.client j).leaderGenFinished = true := hok.sawMark (by rw [hpc]; rfl)
    have hmark := hok.mark
    rw [hseen] at hmark
    exact ⟨hok.mark, nofun, rfl, fun _ => ⟨hseen, hmark.no_value hv⟩⟩
  | @deliverToClient j =>
    exact h.update_channel s.pc (fun _ _ _ => rfl) fun hj =>
      (h j hj).channel (h j hj).mark.deliver fun _ => Channel.contents_deliver _
  | _ => exact h

end MarkInv

theorem markInv {cfg : Config} {s : Session} (h : Reachable cfg s) : MarkInv cfg s :=
  h.invariant (fun _ hs => hs ▸ MarkInv.initial cfg) fun _ _ _ _ hi hs => hi.step hs

/-! ## Every element in one place -/

/-- The elements that rank `r` has passed to its user. -/
def Session.yieldedBy (s : Session) (r : Nat) : List Nat :=
  if r = rootRank then s.serverYielded else (s.client r).yielded

/-- Where an element of the range can be. -/
inductive Place
  | notGenerated
  | current
  | inFlight (i : Nat)
  | yielded (r : Nat)

/-- Element `k` is at a place. It is in flight to a client from the `isend` of
the server until the client's user gets it, the time in `m_value` included. -/
def At (cfg : Config) (s : Session) (k : Nat) : Place → Prop
  | .notGenerated => s.iter < k
  | .current => k = s.iter ∧ s.pc.handedOver = false
  | .inFlight i => cfg.IsClient i ∧ k ∈ (s.client i).held ++ s.inTransit i
  | .yielded r => r < cfg.size ∧ k ∈ s.yieldedBy r

/-- How many times a step advances the underlying iterator. -/
def Act.advances : Act → Nat
  | advance _ => 1
  | _ => 0

/-- `iter` counts the calls of `m_iter++`. -/
theorem Step.iter_eq {cfg : Config} {s t : Session} {a : Act} (h : Step cfg s a t) :
    t.iter = s.iter + a.advances := by
  cases h <;> rfl

section Places

variable {cfg : Config} {s : Session} {own : Nat → Nat} {k r : Nat}

theorem Handed.yieldedBy_sublist (h : Handed cfg s own) (hf : FlowInv cfg s) (hr : r < cfg.size) :
    (s.yieldedBy r).Sublist (owned own s.given r) := by
  unfold Session.yieldedBy
  split
  · next hz =>
    rw [h.server, hz]
  · next hz =>
    rw [← h.client r ⟨hr, hz⟩, hf r ⟨hr, hz⟩, List.append_assoc]
    exact List.sublist_append_left _ _

/-- An element on its way to a client, or used, belongs to that rank. -/
theorem Handed.own_of_at (h : Handed cfg s own) (hf : FlowInv cfg s) :
    (∀ i, At cfg s k (.inFlight i) → k < s.given ∧ own k = i ∧ k ∉ (s.client i).yielded) ∧
    (∀ r, At cfg s k (.yielded r) → k < s.given ∧ own k = r) := by
  constructor
  · rintro i ⟨hi, hk⟩
    have hown := h.client i hi
    rw [hf i hi, List.append_assoc] at hown
    have hmem : k ∈ owned own s.given i := by
      rw [← hown]
      exact List.mem_append_right _ hk
    obtain ⟨hlt, ho⟩ := mem_owned.mp hmem
    refine ⟨hlt, ho, fun hy => ?_⟩
    have hnd := owned_sorted own s.given i
    rw [← hown, List.pairwise_append] at hnd
    exact Nat.lt_irrefl k (hnd.2.2 k hy k hk)
  · rintro r ⟨hr, hk⟩
    exact mem_owned.mp ((h.yieldedBy_sublist hf hr).subset hk)

/-- An element given away is in flight to its owner or used by it. -/
theorem Handed.at_of_given (h : Handed cfg s own) (hf : FlowInv cfg s) (hpos : 0 < cfg.size)
    (hk : k < s.given) : At cfg s k (.inFlight (own k)) ∨ At cfg s k (.yielded (own k)) := by
  have hmem : k ∈ owned own s.given (own k) := mem_owned.mpr ⟨hk, rfl⟩
  rcases h.ranks k hk with hz | hc
  · refine .inr ⟨by rw [hz]; exact hpos, ?_⟩
    rw [hz, ← h.server] at hmem
    simpa [Session.yieldedBy, hz] using hmem
  · rw [← h.client _ hc, hf _ hc, List.append_assoc] at hmem
    rcases List.mem_append.mp hmem with hy | hfl
    · exact .inr ⟨hc.1, by simpa [Session.yieldedBy, hc.2] using hy⟩
    · exact .inl ⟨hc, hfl⟩

theorem Session.given_bounds (s : Session) : s.iter ≤ s.given ∧ s.given ≤ s.iter + 1 ∧
    (s.pc.handedOver = false ↔ s.given = s.iter) := by
  unfold Session.given
  split <;> simp [*]

/-- An element given away is not ahead of the iterator nor current. -/
theorem at_given (hk : k < s.given) {p : Place} (h : At cfg s k p) :
    (∃ i, p = .inFlight i) ∨ ∃ r, p = .yielded r := by
  obtain ⟨-, hle, hcur⟩ := s.given_bounds
  cases p with
  | notGenerated =>
    have : s.iter < k := h
    omega
  | current =>
    have := hcur.mp h.2
    have := h.1
    omega
  | inFlight i => exact .inl ⟨i, rfl⟩
  | yielded r => exact .inr ⟨r, rfl⟩

theorem Handed.place_unique (h : Handed cfg s own) (hf : FlowInv cfg s) (hpos : 0 < cfg.size)
    (k : Nat) : ∃! p, At cfg s k p := by
  obtain ⟨hfl, hyi⟩ := h.own_of_at hf (k := k)
  obtain ⟨hge, hle, hcur⟩ := s.given_bounds
  by_cases hk : k < s.given
  · rcases h.at_of_given hf hpos hk with hat | hat
    · refine ⟨_, hat, fun p hp => ?_⟩
      rcases at_given hk hp with ⟨i, rfl⟩ | ⟨r, rfl⟩
      · rw [(hfl i hp).2.1]
      · -- used and in flight at once is not possible for a client's element
        have hr := (hyi r hp).2
        have hy : k ∈ s.yieldedBy r := hp.2
        rw [Session.yieldedBy, if_neg (hr ▸ hat.1.2), ← hr] at hy
        exact absurd hy (hfl _ hat).2.2
    · refine ⟨_, hat, fun p hp => ?_⟩
      rcases at_given hk hp with ⟨i, rfl⟩ | ⟨r, rfl⟩
      · have hi := (hfl i hp).2.1
        have hy : k ∈ s.yieldedBy (own k) := hat.2
        rw [Session.yieldedBy, if_neg (hi ▸ hp.1.2), hi] at hy
        exact absurd hy (hfl i hp).2.2
      · rw [(hyi r hp).2]
  · have hnot : ∀ p, At cfg s k p → p = .notGenerated ∨ p = .current := by
      intro p hp
      cases p with
      | notGenerated => exact .inl rfl
      | current => exact .inr rfl
      | inFlight i => exact absurd (hfl i hp).1 hk
      | yielded r => exact absurd (hyi r hp).1 hk
    by_cases hki : k = s.iter
    · have hcurrent : At cfg s k .current := ⟨hki, hcur.mpr (by omega)⟩
      refine ⟨_, hcurrent, fun p hp => (hnot p hp).resolve_left ?_⟩
      rintro rfl
      exact absurd hki (Nat.ne_of_gt hp)
    · have hahead : At cfg s k .notGenerated := Nat.lt_of_le_of_ne (by omega) (Ne.symm hki)
      refine ⟨_, hahead, fun p hp => (hnot p hp).resolve_right ?_⟩
      rintro rfl
      exact hki hp.1

/-- When all ranks are done, a rank has used all it was given. -/
theorem Handed.yieldedBy_eq (h : Handed cfg s own) (hf : FlowInv cfg s) (hm : MarkInv cfg s)
    (hd : AllDone cfg s) (hr : r < cfg.size) : s.yieldedBy r = owned own s.given r := by
  unfold Session.yieldedBy
  split
  · next hz => rw [h.server, hz]
  · next hz =>
    have hc : cfg.IsClient r := ⟨hr, hz⟩
    have hfin := hd.2 r hc
    have hok := hm r hc
    have hheld : (s.client r).held = [] := by
      have hst := hok.stopped
      rw [hfin] at hst
      unfold Client.held
      split <;> simp_all [ClientPc.stopped]
    have hempty : s.inTransit r = [] := (hok.empty hfin).2
    rw [← h.client r hc, hf r hc, hheld, hempty]
    simp

end Places

/-- No more was given away than there is. -/
theorem RangeInv.given_le {cfg : Config} {s : Session} (h : RangeInv cfg s) : s.given ≤ cfg.n := by
  unfold Session.given
  split
  · next hg =>
    refine h.current ?_
    revert hg
    cases s.pc <;> simp [ServerPc.handedOver, ServerPc.hasCurrent]
  · exact h.le

theorem Handed.own_lt {cfg : Config} {s : Session} {own : Nat → Nat} (h : Handed cfg s own) :
    ∀ k < s.given, own k < cfg.size := by
  intro k hk
  rcases h.ranks k hk with hz | hc
  · rw [hz]
    exact cfg.size_pos
  · exact hc.1

/-- The ranks together have used elements of the range, each at most once. -/
theorem yielded_subperm {cfg : Config} {s : Session} (h : Reachable cfg s) :
    ((List.range cfg.size).flatMap s.yieldedBy).Subperm (List.range cfg.n) := by
  obtain ⟨own, hown⟩ := handed h
  have hsub : ((List.range cfg.size).flatMap s.yieldedBy).Sublist
      ((List.range cfg.size).flatMap (owned own s.given)) :=
    List.Sublist.flatMap_right _ fun r hr =>
      hown.yieldedBy_sublist (flowInv h) (List.mem_range.mp hr)
  exact (hsub.subperm.trans (flatMap_owned_perm hown.own_lt).subperm).trans
    (List.range_sublist.mpr (rangeInv h).given_le).subperm

/-- When all ranks are done, all elements were used. -/
theorem yielded_perm {cfg : Config} {s : Session} (h : Reachable cfg s) (hd : AllDone cfg s) :
    ((List.range cfg.size).flatMap s.yieldedBy).Perm (List.range cfg.n) ∧ s.iter = cfg.n := by
  obtain ⟨own, hown⟩ := handed h
  have hflow := flowInv h
  have hiter : s.iter = cfg.n := by
    apply (rangeInv h).ended
    rcases hd.1 with hpc | hpc | hpc <;> rw [hpc] <;> rfl
  have hgiven : s.given = cfg.n := by
    rw [← hiter]
    refine s.given_bounds.2.2.mp ?_
    rcases hd.1 with hpc | hpc | hpc <;> rw [hpc] <;> rfl
  refine ⟨?_, hiter⟩
  have hall : (List.range cfg.size).flatMap s.yieldedBy =
      (List.range cfg.size).flatMap (owned own s.given) :=
    List.flatMap_congr fun r hr => hown.yieldedBy_eq hflow (markInv h) hd (List.mem_range.mp hr)
  rw [hall, ← hgiven]
  exact flatMap_owned_perm hown.own_lt

/-- Exactly-once scheduling. In every reachable session each element is in
exactly one place, each rank uses its elements in increasing order, and the
iterator is advanced by `m_iter++` only, never past its end; when all ranks are
done every element was used exactly once and the iterator advanced `n` times. -/
theorem exactly_once (cfg : Config) (s : Session) (h : Reachable cfg s) :
    (∀ k < cfg.n, ∃! p, At cfg s k p) ∧
    (∀ r < cfg.size, (s.yieldedBy r).Pairwise (· < ·)) ∧
    (∀ a t, Step cfg s a t → t.iter = s.iter + a.advances ∧ (a.advances ≠ 0 → ¬ s.done cfg)) ∧
    (AllDone cfg s →
      ((List.range cfg.size).flatMap s.yieldedBy).Perm (List.range cfg.n) ∧ s.iter = cfg.n) := by
  obtain ⟨own, hown⟩ := handed h
  have hrange := rangeInv h
  have hflow := flowInv h
  refine ⟨fun k _ => hown.place_unique hflow cfg.size_pos k, fun r hr => ?_, fun a t hs => ?_,
    yielded_perm h⟩
  · exact (owned_sorted own s.given r).sublist (hown.yieldedBy_sublist hflow hr)
  · refine ⟨hs.iter_eq, fun ha => ?_⟩
    cases hs with
    | advance hsite => exact Nat.ne_of_lt (hrange.advance hsite)
    | _ => exact absurd rfl ha

/-! ## A session of two ranks -/

/-- Of two ranks, one is a client. -/
theorem Config.IsClient.eq_one {cfg : Config} {i : Nat} (hi : cfg.IsClient i)
    (hsize : cfg.size = 2) : i = 1 := by
  have hlt : i < 2 := hsize ▸ hi.1
  have hne : i ≠ 0 := hi.2
  omega

section TwoRanks

variable {cfg : Config} {s : Session} (hsize : cfg.size = 2)

include hsize

theorem Session.AllGatherEntered.of_two (hs : s.pc ≠ .start) (hc : (s.client 1).pc ≠ .start) :
    s.AllGatherEntered cfg :=
  ⟨hs, fun _ hi => hi.eq_one hsize ▸ hc⟩

theorem Session.BarrierEntered.of_two (hs : s.pc ≠ .start) (hs' : s.pc ≠ .allGather)
    (hc : (s.client 1).pc = .barrier) : s.BarrierEntered cfg := by
  refine ⟨hs, hs', fun i hi => ?_⟩
  simp [hi.eq_one hsize, hc]

theorem Session.no_request_of_two (h : s.hasRequest 1 = false) :
    ∀ i, cfg.IsClient i → s.hasRequest i = false :=
  fun _ hi => hi.eq_one hsize ▸ h

end TwoRanks

/-- Two ranks, two elements, and a buffer of one request. -/
def smallSession : Config := ⟨2, fun _ => 1, 2, by decide⟩

/-- Both iterators are destroyed: the client has used element 0, the server
element 1, and of the two requests received the second is a surplus one. -/
structure SmallFinished (s : Session) : Prop where
  server : s.pc = .destroyed
  serverYielded : s.serverYielded = [1]
  client : (s.client 1).pc = .destroyed
  totallyFinished : (s.client 1).totallyFinished = true
  yielded : (s.client 1).yielded = [0]
  gotRequests : s.gotRequests 1 = 2

theorem smallSession_finished : ∃ s, Reachable smallSession s ∧ SmallFinished s := by
  have hc : smallSession.IsClient 1 := by decide
  have h0 : Reachable smallSession (Session.initial smallSession) := .init rfl
  -- both ranks gather, the client sends its request
  have h1 := h0.step (.client hc (.enterAllGather rfl (by decide)))
  have h2 := h1.step (.server (.enterAllGather rfl (by decide)))
  have h3 := h2.step (.client hc (.leaveAllGather rfl (.of_two rfl nofun nofun)))
  have h4 := h3.step (.post (k := 0) hc rfl)
  have h5 := h4.step (.client hc (.enterBarrier rfl))
  have h6 := h5.step (.server (.leaveAllGather rfl (.of_two rfl nofun nofun)))
  have h7 := h6.step (.server (.leaveBarrier rfl (.of_two rfl nofun nofun rfl)))
  have h8 := h7.step (.client hc (.leaveBarrier rfl (.of_two rfl nofun nofun rfl)))
  -- the first round answers the request, which has not arrived, with element 0
  have h9 := h8.step (.server (.firstLoop (i := 1) rfl (by decide) (by decide)))
  have h10 := h9.step (.server (.firstSkip rfl (by decide) (.inl rfl)))
  have h11 := h10.step (.isendVal (.first rfl hc (by decide) (by decide)))
  have h12 := h11.step (.advance (.first rfl))
  have h13 := h12.step (.server (.firstEnd rfl (Nat.lt_irrefl 2)))
  have h14 := h13.step (.server (.firstHandled rfl (by decide)))
  -- the server sees no request, uses element 1 and announces the end
  have h15 := h14.step (.server (.handleNone rfl (by decide) (Session.no_request_of_two rfl rfl)))
  have h16 := h15.step (.serverUse (.yield rfl))
  have h17 := h16.step (.advance (.next rfl))
  have h18 := h17.step (.server (.handleDone rfl rfl))
  have h19 := h18.step (.server (.sendDoneSkip rfl))
  have h20 := h19.step (.isendDone rfl hc)
  have h21 := h20.step (.server (.sendDoneEnd rfl (by decide)))
  -- the client uses element 0, asks again, and sees the end
  have h22 := h21.step (.deliverToClient (i := 1))
  have h23 := h22.step (.client hc (.pollSome rfl rfl))
  have h24 := h23.step (.recvVal (k := 0) hc rfl rfl)
  have h25 := h24.step (.rerequest hc rfl)
  have h26 := h25.step (.clientUse hc rfl)
  have h27 := h26.step (.client hc (.pollNone rfl rfl))
  have h28 := h27.step (.deliverToClient (i := 1))
  have h29 := h28.step (.client hc (.checkSome rfl rfl rfl))
  have h30 := h29.step (.recvDone hc rfl rfl)
  have h31 := h30.step (.recheckNone hc rfl rfl)
  have h32 := h31.step (.sendFinished hc rfl)
  -- the server waits for the client, then drains the two requests
  have h33 := h32.step (.server (.waitDone rfl (by decide) fun h => absurd rfl h))
  have h34 := h33.step (.server (.waitDone rfl (by decide) fun _ => rfl))
  have h35 := h34.step (.server (.waitDoneEnd rfl (by decide)))
  have h36 := h35.step (.server (.recvFinishedSkip rfl))
  have h37 := h36.step (.deliverToServer (i := 1))
  have h38 := h37.step (.deliverToServer (i := 1))
  have h39 := h38.step (.deliverToServer (i := 1))
  have h40 := h39.step (.recvFinished rfl hc rfl)
  have h41 := h40.step (.server (.recvFinishedEnd rfl (by decide)))
  have h42 := h41.step (.server (.drainSome rfl hc rfl))
  have h43 := h42.step (.drain (q := 0) rfl rfl)
  have h44 := h43.step (.server (.drainSome rfl hc rfl))
  have h45 := h44.step (.drain (q := 1) rfl rfl)
  have h46 := h45.step (.server (.drainNone rfl (Session.no_request_of_two rfl rfl)))
  -- both handlers are destroyed: element 0 was received, and so was the surplus request
  have h47 := h46.step (.server (.destroy rfl (by
    intro i k hk
    have hk0 : k = 0 := by
      by_cases hi : i = 1
      · subst hi
        exact List.mem_singleton.mp hk
      · simp only [Session.takeRequest, Session.isendVal, Session.sendRequest,
          Session.setClientPc, Session.recvVal, Session.recvDone] at hk
        rw [Function.update_of_ne hi] at hk
        cases hk
    rw [hk0]
    rfl)))
  have h48 := h47.step (.client hc (.destroy rfl))
  have h49 := h48.step (.client hc (@ClientMove.skipCancel _ _ _ 1 [] rfl))
  have h50 := h49.step (.client hc (.destroyed rfl))
  exact ⟨_, h50, ⟨rfl, rfl, rfl, rfl, rfl, rfl⟩⟩

theorem SmallFinished.allDone {s : Session} (h : SmallFinished s) : AllDone smallSession s :=
  ⟨.inr (.inl h.server), fun _ hi => hi.eq_one rfl ▸ h.totallyFinished⟩

/-- A whole session of two ranks, in which the client uses one element and the
server the other. -/
theorem exactly_once_smallSession :
    ∃ s, Reachable smallSession s ∧ AllDone smallSession s ∧
      s.yieldedBy 0 = [1] ∧ s.yieldedBy 1 = [0] ∧ (∀ k < 2, ∃! p, At smallSession s k p) ∧
      ((List.range 2).flatMap s.yieldedBy).Perm (List.range 2) ∧ s.iter = 2 := by
  obtain ⟨s, hs, hfin⟩ := smallSession_finished
  obtain ⟨hplace, -, -, hall⟩ := exactly_once smallSession s hs
  exact ⟨s, hs, hfin.allDone, hfin.serverYielded, hfin.yielded, hplace, hall hfin.allDone⟩

end SimpleParallel.Schedule
