import SimpleParallel.Lib.TaggedChannel
import SimpleParallel.Schedule.Discipline
import SimpleParallel.Schedule.Silence

/-!
# Sessions one after another

All sessions on a communicator use the same four tags, and a client leaves
requests behind. Here the ranks run session after session on the same channels,
each rank at its own pace: it constructs its iterator of a session when it has
destroyed the one before. A message carries the number of its session, which no
rank can see.

1. `World`: the sessions, the channels, and the steps.
2. `OwnInv`: the part of the channels that belongs to a session makes it a
   session of its own, and a rank inside a session shares the channels with no
   other (`allTagged_of_inside`).
3. Every run of a session alone is a run of it here, once the ranks have ended
   those before it (`exists_session`).

Results:
* `sessions_isolated`: what is received in a session was sent in it, and nothing
  of it is left once the root has cleaned up.
-/

namespace SimpleParallel.Schedule

/-! ## 1. Session after session -/

/-- The sessions on one communicator: its ranks, and the buffer sizes and the
number of elements of each session. -/
structure Sessions where
  size : Nat
  bufferSize : Nat → Nat → Nat
  n : Nat → Nat
  size_pos : 0 < size

def Sessions.config (p : Sessions) (k : Nat) : Config := ⟨p.size, p.bufferSize k, p.n k, p.size_pos⟩

/-- The ranks and their channels. `session k` is what the ranks hold of session
`k`; the messages are on the channels that all sessions share. -/
structure World where
  session : Nat → Session
  toClient : Nat → Channel (Nat × ServerMsg)
  toServer : Nat → Channel (Nat × ClientMsg)

inductive Label
  | session (k : Nat) (a : Act)
  | deliver

/-- What a step of session `k` does to the channels to the clients. -/
def Act.onToClient (k : Nat) (c : Nat → Channel (Nat × ServerMsg)) :
    Act → Nat → Channel (Nat × ServerMsg)
  | isendVal i v => Function.update c i ((c i).send (k, .serverSendVal v))
  | isendDone i => Function.update c i ((c i).send (k, .valGenDone))
  | recvVal i _ => Function.update c i ((c i).recv fun m => m.2.isVal)
  | recvDone i => Function.update c i ((c i).recv fun m => m.2.isDone)
  | _ => c

/-- What a step of session `k` does to the channels from the clients. A client
cancels a request of its own session. -/
def Act.onToServer (k : Nat) (c : Nat → Channel (Nat × ClientMsg)) :
    Act → Nat → Channel (Nat × ClientMsg)
  | post i q | rerequest i q => Function.update c i ((c i).send (k, .clientRequestVal q))
  | sendFinished i => Function.update c i ((c i).send (k, .clientFinished))
  | recvRequest i _ | drain i _ => Function.update c i ((c i).recv fun m => m.2.isRequest)
  | recvFinished i => Function.update c i ((c i).recv fun m => m.2.isFinished)
  | cancel i q => Function.update c i ((c i).cancel (k, .clientRequestVal q))
  | _ => c

namespace World

/-- Session `k` as its ranks see it: they cannot tell whose a message is. -/
def view (w : World) (k : Nat) : Session :=
  (w.session k).withChannels (fun i => (w.toClient i).strip) fun i => (w.toServer i).strip

/-- A rank that has begun session `k` has ended those before. -/
structure InTurn (w : World) (k : Nat) (t : Session) : Prop where
  server : t.pc ≠ .start → ∀ j < k, (w.session j).pc.closed = true
  client : ∀ i, (t.client i).pc ≠ .start → ∀ j < k, ((w.session j).client i).pc.closed = true

/-- The message that a step of the root takes off a channel. -/
def takenByServer (w : World) : Act → Option (Nat × ClientMsg)
  | .recvRequest i _ | .drain i _ => (w.toServer i).iprobe fun m => m.2.isRequest
  | .recvFinished i => (w.toServer i).iprobe fun m => m.2.isFinished
  | _ => none

/-- The message that a step of a client takes off its channel. -/
def takenByClient (w : World) : Act → Option (Nat × ServerMsg)
  | .recvVal i _ => (w.toClient i).iprobe fun m => m.2.isVal
  | .recvDone i => (w.toClient i).iprobe fun m => m.2.isDone
  | _ => none

def initial (p : Sessions) : World where
  session k := Session.initial (p.config k)
  toClient _ := Channel.empty
  toServer _ := Channel.empty

/-- A rank takes a step of a session, or a message becomes visible. -/
inductive Step (p : Sessions) : World → Label → World → Prop
  | session {w : World} {k : Nat} {a : Act} {t : Session} : a ≠ .deliver →
      Schedule.Step (p.config k) (w.view k) a t → w.InTurn k t →
      Step p w (.session k a)
        { session := Function.update w.session k t
          toClient := a.onToClient k w.toClient
          toServer := a.onToServer k w.toServer }
  | deliverToClient {w : World} {i : Nat} :
      Step p w .deliver { w with toClient := Function.update w.toClient i (w.toClient i).deliver }
  | deliverToServer {w : World} {i : Nat} :
      Step p w .deliver { w with toServer := Function.update w.toServer i (w.toServer i).deliver }

def sys (p : Sessions) : LTS.Sys World Label where
  init w := w = initial p
  step := Step p

abbrev Reachable (p : Sessions) (w : World) : Prop := LTS.Reachable (sys p) w

/-! ## 2. Each session on its own -/

/-- Session `k` with the part of the channels that belongs to it. -/
def own (w : World) (k : Nat) : Session :=
  (w.session k).withChannels (fun i => (w.toClient i).only k) fun i => (w.toServer i).only k

/-- The ranks take the sessions in order. -/
structure OrderInv (w : World) : Prop where
  server : ∀ j k, j < k → (w.session k).pc ≠ .start → (w.session j).pc.closed = true
  client : ∀ j k i, j < k → ((w.session k).client i).pc ≠ .start →
    ((w.session j).client i).pc.closed = true

variable {p : Sessions} {w w' : World} {l : Label} {k : Nat}

/-- An order over a sequence survives the update of one member. -/
theorem order_update {σ : Type} {P Q : σ → Prop} {f : Nat → σ} {k₀ : Nat} {t : σ}
    (h : ∀ j k, j < k → P (f k) → Q (f j)) (hnew : P t → ∀ j < k₀, Q (f j))
    (hkeep : Q (f k₀) → Q t) {j k : Nat} (hjk : j < k) (hp : P (Function.update f k₀ t k)) :
    Q (Function.update f k₀ t j) := by
  by_cases hk : k = k₀
  · subst hk
    rw [Function.update_self] at hp
    rw [Function.update_of_ne (Nat.ne_of_lt hjk)]
    exact hnew hp j hjk
  · rw [Function.update_of_ne hk] at hp
    by_cases hj : j = k₀
    · subst hj
      rw [Function.update_self]
      exact hkeep (h j k hjk hp)
    · rw [Function.update_of_ne hj]
      exact h j k hjk hp

theorem OrderInv.step (h : OrderInv w) (hs : Step p w l w') : OrderInv w' := by
  cases hs with
  | @session k₀ a t _ hstep hturn =>
    have server_closed : (w.session k₀).pc.closed = true → t.pc.closed = true := by
      intro hclosed
      rcases hstep.server_pc with heq | ⟨-, hno, -⟩
      · rw [heq]
        exact hclosed
      · exact absurd hclosed (Bool.eq_false_iff.mp hno)
    have client_closed : ∀ i, ((w.session k₀).client i).pc.closed = true →
        (t.client i).pc.closed = true := by
      intro i hclosed
      rcases hstep.client_pc i with heq | ⟨-, -, hno, -⟩
      · rw [heq]
        exact hclosed
      · exact absurd hclosed (Bool.eq_false_iff.mp hno)
    exact ⟨fun j k => order_update (P := fun s : Session => s.pc ≠ .start)
        (Q := fun s => s.pc.closed = true)
        h.server hturn.server server_closed,
      fun j k i => order_update (P := fun s : Session => (s.client i).pc ≠ .start)
        (Q := fun s => (s.client i).pc.closed = true) (fun j k => h.client j k i) (hturn.client i)
        (client_closed i)⟩
  | deliverToClient | deliverToServer => exact ⟨h.server, h.client⟩

/-! What a step of session `k` does to the part of a session. -/

variable {a : Act} {s t : Session}

theorem only_update {τ μ : Type} [DecidableEq τ] (k : τ) (c : Nat → Channel (τ × μ)) (i : Nat)
    (x : Channel (τ × μ)) : (fun j => (Function.update c i x j).only k) =
      Function.update (fun j => (c j).only k) i (x.only k) := by
  funext j
  by_cases hj : j = i
  · subst hj
    simp
  · simp [hj]

/-- With the channels all its own, a step does to them what it does in a session
alone. -/
theorem step_own {cfg : Config} (hs : Schedule.Step cfg s a t) (ha : a ≠ .deliver)
    {c : Nat → Channel (Nat × ServerMsg)} {c' : Nat → Channel (Nat × ClientMsg)}
    (hc : ∀ i, (c i).AllTagged k) (hc' : ∀ i, (c' i).AllTagged k)
    (hto : s.toClient = fun i => (c i).only k) (hfrom : s.toServer = fun i => (c' i).only k) :
    (fun i => (a.onToClient k c i).only k) = t.toClient ∧
      (fun i => (a.onToServer k c' i).only k) = t.toServer := by
  cases hs with
  | isendVal _ | isendDone _ _ =>
    refine ⟨?_, hfrom.symm⟩
    simp only [Act.onToClient, only_update, Channel.only_send, Session.isendVal, hto]
  | recvVal _ _ _ | recvDone _ _ _ =>
    refine ⟨?_, hfrom.symm⟩
    simp only [Act.onToClient, only_update, Channel.only_recv (hc _), Session.recvVal,
      Session.recvDone, hto]
  | post _ _ | rerequest _ _ | sendFinished _ _ =>
    refine ⟨hto.symm, ?_⟩
    simp only [Act.onToServer, only_update, Channel.only_send, Session.sendRequest, hfrom]
  | recvRequest _ _ | drain _ _ | recvFinished _ _ _ =>
    refine ⟨hto.symm, ?_⟩
    simp only [Act.onToServer, only_update, Channel.only_recv (hc' _), Session.takeRequest, hfrom]
  | cancel _ _ _ =>
    refine ⟨hto.symm, ?_⟩
    simp only [Act.onToServer, only_update, Channel.only_cancel, hfrom]
  | deliverToClient | deliverToServer => exact absurd rfl ha
  | _ => exact ⟨hto.symm, hfrom.symm⟩

theorem only_update_of_eq {τ μ : Type} [DecidableEq τ] {k : τ} {c : Nat → Channel (τ × μ)} {i : Nat}
    {x : Channel (τ × μ)} (h : x.only k = (c i).only k) (j : Nat) :
    (Function.update c i x j).only k = (c j).only k := by
  by_cases hj : j = i
  · subst hj
    rw [Function.update_self, h]
  · rw [Function.update_of_ne hj]

/-- The part of another session is left alone. -/
theorem step_other {k₀ : Nat} (hk : k₀ ≠ k) {c : Nat → Channel (Nat × ServerMsg)}
    {c' : Nat → Channel (Nat × ClientMsg)} (hc : ∀ i, (c i).AllTagged k₀)
    (hc' : ∀ i, (c' i).AllTagged k₀) (i : Nat) :
    (a.onToClient k₀ c i).only k = (c i).only k ∧ (a.onToServer k₀ c' i).only k = (c' i).only k := by
  have hrecv : ∀ {μ : Type} {x : Channel (Nat × μ)} {kind : Nat × μ → Bool}, x.AllTagged k₀ →
      (x.recv kind).only k = x.only k := fun hx => by
    rw [(hx.recv _).only_other hk, hx.only_other hk]
  constructor
  · cases a with
    | isendVal j v | isendDone j =>
      exact only_update_of_eq (Channel.only_send_other hk _ _) i
    | recvVal j v | recvDone j => exact only_update_of_eq (hrecv (hc j)) i
    | _ => rfl
  · cases a with
    | post j q | rerequest j q | sendFinished j =>
      exact only_update_of_eq (Channel.only_send_other hk _ _) i
    | recvRequest j q | drain j q | recvFinished j => exact only_update_of_eq (hrecv (hc' j)) i
    | cancel j q => exact only_update_of_eq (Channel.only_cancel_other hk _ _) i
    | _ => rfl

/-- A rank inside session `k` shares the channels with no other session. An
earlier one has been cleaned up, for every rank entered the `all_gather` of
session `k`; to a later one this rank has not come. -/
theorem allTagged_of_inside (ho : OrderInv w)
    (hr : ∀ j, Schedule.Reachable (p.config j) (w.own j))
    (hin : (w.view k).Inside (p.config k)) (i : Nat) :
    (w.toClient i).AllTagged k ∧ (w.toServer i).AllTagged k := by
  have hall : (w.own k).AllGatherEntered (p.config k) := (enteredInv (hr k)).of_inside hin
  have hsilent : ∀ j, j ≠ k → (w.own j).Silent := by
    intro j hj
    rcases Nat.lt_or_gt_of_ne hj with hlt | hgt
    · refine silent_of_cleaned (hr j) ?_
      have hclosed : (w.session j).pc.closed = true := ho.server j k hlt hall.1
      show (w.session j).pc.cleaned = true
      cases hpc : (w.session j).pc <;> rw [hpc] at hclosed <;> first
        | rfl
        | cases hclosed
    · by_contra hsound
      have hlater : (w.own j).AllGatherEntered (p.config j) := by
        by_contra hnot
        exact hsound ((enteredInv (hr j)).silent hnot)
      rcases hin with hs | ⟨i, hi, hs⟩
      · have hno := (ServerPc.inside_iff.mp hs).2
        exact absurd (ho.server k j hgt hlater.1) (Bool.eq_false_iff.mp hno)
      · have hno := (ClientPc.inside_iff.mp hs).2
        exact absurd (ho.client k j i hgt (hlater.2 i hi)) (Bool.eq_false_iff.mp hno)
  constructor
  · intro m hm
    by_contra hne
    exact Channel.no_message (hsilent m.1 hne i).1 m hm rfl
  · intro m hm
    by_contra hne
    exact Channel.no_message (hsilent m.1 hne i).2 m hm rfl

/-- The order of the sessions, and each of them reached as if it were alone. -/
structure OwnInv (p : Sessions) (w : World) : Prop where
  order : OrderInv w
  own_reachable : ∀ k, Schedule.Reachable (p.config k) (w.own k)

/-- The channels of a rank inside session `k` are what the session alone has. -/
theorem OwnInv.view_eq (h : OwnInv p w) (hin : (w.view k).Inside (p.config k)) :
    w.view k = w.own k := by
  have htag := allTagged_of_inside h.order h.own_reachable hin
  unfold view own
  rw [show (fun i => (w.toClient i).strip) = fun i => (w.toClient i).only k from
      funext fun i => Channel.strip_eq_only (htag i).1,
    show (fun i => (w.toServer i).strip) = fun i => (w.toServer i).only k from
      funext fun i => Channel.strip_eq_only (htag i).2]

/-- A step of session `k` is a step of it alone. -/
theorem OwnInv.session {k₀ : Nat} (h : OwnInv p w) (ha : a ≠ .deliver)
    (hs : Schedule.Step (p.config k₀) (w.view k₀) a t) (k : Nat) :
    Schedule.Reachable (p.config k) (own
      { session := Function.update w.session k₀ t
        toClient := a.onToClient k₀ w.toClient
        toServer := a.onToServer k₀ w.toServer } k) := by
  have hown := h.own_reachable k
  rcases hs.outside with hin | hdel | hblind
  · have htag := allTagged_of_inside h.order h.own_reachable hin
    by_cases hk : k = k₀
    · subst hk
      rw [h.view_eq hin] at hs
      obtain ⟨hto, hfrom⟩ := step_own hs ha (fun i => (htag i).1) (fun i => (htag i).2) rfl rfl
      have heq : t.withChannels (fun i => (a.onToClient k w.toClient i).only k)
          (fun i => (a.onToServer k w.toServer i).only k) = t := by
        rw [hto, hfrom]
        rfl
      simp only [own, Function.update_self, heq]
      exact hown.step hs
    · have hkeep := step_other (a := a) (Ne.symm hk) (fun i => (htag i).1) fun i => (htag i).2
      simp only [own, Function.update_of_ne hk, fun i => (hkeep i).1, fun i => (hkeep i).2]
      exact hown
  · exact absurd hdel ha
  · -- the step sees no channel, so it is taken with the session's own
    have hsame : a.onToClient k₀ w.toClient = w.toClient ∧ a.onToServer k₀ w.toServer = w.toServer := by
      rcases hblind.act with rfl | ⟨r, rfl⟩ <;> exact ⟨rfl, rfl⟩
    by_cases hk : k = k₀
    · subst hk
      simp only [own, Function.update_self, hsame]
      exact hown.step (hblind.step _ _)
    · simp only [own, Function.update_of_ne hk, hsame]
      exact hown

theorem OwnInv.step (h : OwnInv p w) (hs : Step p w l w') : OwnInv p w' := by
  refine ⟨h.order.step hs, fun k => ?_⟩
  cases hs with
  | session ha hstep _ => exact h.session ha hstep k
  | @deliverToClient i =>
    simp only [own, only_update]
    rcases Channel.only_deliver k (w.toClient i) with heq | heq
    · rw [heq]
      exact (h.own_reachable k).step (.deliverToClient (i := i))
    · rw [heq, Function.update_eq_self]
      exact h.own_reachable k
  | @deliverToServer i =>
    simp only [own, only_update]
    rcases Channel.only_deliver k (w.toServer i) with heq | heq
    · rw [heq]
      exact (h.own_reachable k).step (.deliverToServer (i := i))
    · rw [heq, Function.update_eq_self]
      exact h.own_reachable k

theorem ownInv (h : Reachable p w) : OwnInv p w := by
  refine h.invariant ?_ fun _ _ _ _ hi hs => hi.step hs
  rintro _ rfl
  exact ⟨⟨fun _ _ _ hpc => absurd rfl hpc, fun _ _ _ _ hpc => absurd rfl hpc⟩, fun _ => .init rfl⟩

/-- A step that receives is of a rank inside its session. -/
theorem inside_of_taken {cfg : Config} (hs : Schedule.Step cfg s a t)
    (ht : (∃ m, w.takenByServer a = some m) ∨ ∃ m, w.takenByClient a = some m) : s.Inside cfg := by
  rcases hs.outside with hin | rfl | hblind
  · exact hin
  · rcases ht with ⟨m, hm⟩ | ⟨m, hm⟩ <;> cases hm
  · rcases hblind.act with rfl | ⟨r, rfl⟩ <;> rcases ht with ⟨m, hm⟩ | ⟨m, hm⟩ <;> cases hm

theorem mem_of_takenByServer {m : Nat × ClientMsg} (h : w.takenByServer a = some m) :
    ∃ i, m ∈ (w.toServer i).contents := by
  cases a <;> first
    | exact ⟨_, Channel.mem_contents_of_iprobe h⟩
    | cases h

theorem mem_of_takenByClient {m : Nat × ServerMsg} (h : w.takenByClient a = some m) :
    ∃ i, m ∈ (w.toClient i).contents := by
  cases a <;> first
    | exact ⟨_, Channel.mem_contents_of_iprobe h⟩
    | cases h

/-- Sessions do not leak into each other. Between its `all_gather` and its
destructor a rank finds only messages of its session on the channels, so what a
step of a session receives was sent in it; and when the root has returned from
`finish_cleanup` no message of the session is left. -/
theorem sessions_isolated (p : Sessions) (w : World) (h : Reachable p w) :
    (∀ k, (w.view k).Inside (p.config k) →
      ∀ i, (w.toClient i).AllTagged k ∧ (w.toServer i).AllTagged k) ∧
    (∀ k a w', Step p w (.session k a) w' →
      (∀ m, w.takenByServer a = some m → m.1 = k) ∧
      ∀ m, w.takenByClient a = some m → m.1 = k) ∧
    (∀ k, (w.session k).pc.cleaned = true → ∀ i,
      (∀ m ∈ (w.toClient i).contents, m.1 ≠ k) ∧ ∀ m ∈ (w.toServer i).contents, m.1 ≠ k) := by
  have hinv := ownInv h
  have htag := fun k => allTagged_of_inside (k := k) hinv.order hinv.own_reachable
  refine ⟨htag, fun k a w' hs => ?_, fun k hpc i => ?_⟩
  · cases hs with
    | session _ hstep _ =>
      constructor
      · intro m hm
        obtain ⟨i, hmem⟩ := mem_of_takenByServer hm
        exact (htag k (inside_of_taken hstep (.inl ⟨m, hm⟩)) i).2 m hmem
      · intro m hm
        obtain ⟨i, hmem⟩ := mem_of_takenByClient hm
        exact (htag k (inside_of_taken hstep (.inr ⟨m, hm⟩)) i).1 m hmem
  · have hsilent := silent_of_cleaned (hinv.own_reachable k) hpc i
    exact ⟨Channel.no_message hsilent.1, Channel.no_message hsilent.2⟩

/-! ## 3. The runs of a session -/

theorem allTagged_update {μ : Type} {c : Nat → Channel (Nat × μ)} {x : Channel (Nat × μ)} (j : Nat)
    (hc : ∀ i, (c i).AllTagged k) (hx : x.AllTagged k) (i : Nat) :
    (Function.update c j x i).AllTagged k := by
  by_cases hij : i = j
  · subst hij
    rwa [Function.update_self]
  · rw [Function.update_of_ne hij]
    exact hc i

/-- What a step of session `k` does to channels that are all its own. -/
theorem allTagged_step {c : Nat → Channel (Nat × ServerMsg)} {c' : Nat → Channel (Nat × ClientMsg)}
    (hc : ∀ i, (c i).AllTagged k) (hc' : ∀ i, (c' i).AllTagged k) (a : Act) :
    (∀ i, (a.onToClient k c i).AllTagged k) ∧ ∀ i, (a.onToServer k c' i).AllTagged k := by
  constructor
  · cases a with
    | isendVal j v | isendDone j => exact allTagged_update j hc ((hc j).send _)
    | recvVal j v | recvDone j => exact allTagged_update j hc ((hc j).recv _)
    | _ => exact hc
  · cases a with
    | post j q | rerequest j q | sendFinished j => exact allTagged_update j hc' ((hc' j).send _)
    | recvRequest j q | drain j q | recvFinished j => exact allTagged_update j hc' ((hc' j).recv _)
    | cancel j q => exact allTagged_update j hc' ((hc' j).cancel _)
    | _ => exact hc'

/-- The world after a run of session `k` alone, from `w`. -/
structure AfterSession (w w' : World) (k : Nat) (s : Session) : Prop where
  own : w'.own k = s
  other : ∀ j, j ≠ k → w'.session j = w.session j
  toClient : ∀ i, (w'.toClient i).AllTagged k
  toServer : ∀ i, (w'.toServer i).AllTagged k

theorem AfterSession.view_eq (h : AfterSession w w' k s) : w'.view k = s := by
  rw [← h.own]
  unfold World.view World.own
  rw [show (fun i => (w'.toClient i).strip) = fun i => (w'.toClient i).only k from
      funext fun i => Channel.strip_eq_only (h.toClient i),
    show (fun i => (w'.toServer i).strip) = fun i => (w'.toServer i).only k from
      funext fun i => Channel.strip_eq_only (h.toServer i)]

theorem AfterSession.step (h : AfterSession w w' k s) (hw : Reachable p w')
    (hs : Schedule.Step (p.config k) s a t) (hturn : w.InTurn k t) :
    ∃ w'', Reachable p w'' ∧ AfterSession w w'' k t := by
  have hto : s.toClient = fun i => (w'.toClient i).only k := congrArg Session.toClient h.own.symm
  have hfrom : s.toServer = fun i => (w'.toServer i).only k := congrArg Session.toServer h.own.symm
  by_cases ha : a = .deliver
  · subst ha
    cases hs with
    | @deliverToClient i =>
      refine ⟨_, hw.step (.deliverToClient (i := i)), ?_, h.other, ?_, h.toServer⟩
      · simp only [World.own, only_update, (h.toClient i).only_deliver, ← h.own]
        rfl
      · exact allTagged_update i h.toClient (h.toClient i).deliver
    | @deliverToServer i =>
      refine ⟨_, hw.step (.deliverToServer (i := i)), ?_, h.other, h.toClient, ?_⟩
      · simp only [World.own, only_update, (h.toServer i).only_deliver, ← h.own]
        rfl
      · exact allTagged_update i h.toServer (h.toServer i).deliver
  · have hturn' : w'.InTurn k t := by
      refine ⟨fun hpc j hj => ?_, fun i hpc j hj => ?_⟩
      · rw [h.other j (Nat.ne_of_lt hj)]
        exact hturn.server hpc j hj
      · rw [h.other j (Nat.ne_of_lt hj)]
        exact hturn.client i hpc j hj
    obtain ⟨hto', hfrom'⟩ := step_own hs ha h.toClient h.toServer hto hfrom
    obtain ⟨htag, htag'⟩ := allTagged_step h.toClient h.toServer a
    refine ⟨_, hw.step (.session ha (h.view_eq ▸ hs) hturn'), ?_, fun j hj => ?_, htag, htag'⟩
    · simp only [World.own, Function.update_self]
      rw [hto', hfrom']
      rfl
    · exact (Function.update_of_ne hj _ _).trans (h.other j hj)

/-- A session that no rank has begun, with empty channels and the ranks free for
it, runs as if it were alone. -/
theorem exists_session (hw : Reachable p w) (hstart : w.session k = Session.initial (p.config k))
    (hempty : ∀ i, (w.toClient i).contents = [] ∧ (w.toServer i).contents = [])
    (hturn : ∀ t, Schedule.Reachable (p.config k) t → w.InTurn k t)
    (hs : Schedule.Reachable (p.config k) s) : ∃ w', Reachable p w' ∧ AfterSession w w' k s := by
  have hno : ∀ {μ : Type} {c : Channel (Nat × μ)} {P : Nat × μ → Prop}, c.contents = [] →
      ∀ m ∈ c.contents, P m := fun hc m hm => by
    rw [hc] at hm
    cases hm
  induction hs with
  | init h =>
    refine ⟨w, hw, ?_, fun _ _ => rfl, fun i => hno (hempty i).1, fun i => hno (hempty i).2⟩
    have hto : (fun i => (w.toClient i).only k) = fun _ => Channel.empty :=
      funext fun i => Channel.only_eq_empty (hno (hempty i).1)
    have hfrom : (fun i => (w.toServer i).only k) = fun _ => Channel.empty :=
      funext fun i => Channel.only_eq_empty (hno (hempty i).2)
    rw [h, World.own, hto, hfrom, hstart]
    rfl
  | step hr hstep ih =>
    obtain ⟨w', hw', hafter⟩ := ih
    exact hafter.step hw' hstep (hturn _ (hr.step hstep))

/-- After a session that was cleaned up the channels are empty. -/
theorem AfterSession.contents (h : AfterSession w w' k s) (hr : Schedule.Reachable (p.config k) s)
    (hpc : s.pc.cleaned = true) (i : Nat) :
    (w'.toClient i).contents = [] ∧ (w'.toServer i).contents = [] := by
  have hsilent := silent_of_cleaned hr hpc i
  rw [← h.own] at hsilent
  exact ⟨List.eq_nil_iff_forall_not_mem.mpr fun m hm =>
      Channel.no_message hsilent.1 m hm (h.toClient i m hm),
    List.eq_nil_iff_forall_not_mem.mpr fun m hm =>
      Channel.no_message hsilent.2 m hm (h.toServer i m hm)⟩

/-- A rank that has begun a session is the root or a client of it. -/
theorem isClient_of_begun {cfg : Config} {i : Nat} (h : Schedule.Reachable cfg s)
    (hpc : (s.client i).pc ≠ .start) : cfg.IsClient i := by
  by_contra hno
  refine hpc (h.invariant (P := fun s => (s.client i).pc = .start) ?_ ?_)
  · rintro _ rfl
    rfl
  · intro s a t _ hs hstep
    rcases hstep.client_pc i with heq | ⟨hi, -⟩
    · exact heq.trans hs
    · exact absurd hi hno

/-- Sessions of two ranks, each with two elements and a buffer of one request. -/
def smallSessions : Sessions := ⟨2, fun _ _ => 1, fun _ => 2, Nat.two_pos⟩

/-- The first session is over, its surplus request drained. In the second the
server has answered the first request, and both messages are on their way. -/
theorem sessions_isolated_smallSessions :
    ∃ w, Reachable smallSessions w ∧
      (w.session 0).pc.cleaned = true ∧ ((w.session 0).client 1).yielded = [0] ∧
      (w.session 0).gotRequests 1 = 2 ∧
      (w.view 1).toClient 1 = ⟨[], [.serverSendVal 0]⟩ ∧
      (w.view 1).toServer 1 = ⟨[], [.clientRequestVal 0]⟩ ∧
      (∀ i, (w.toClient i).AllTagged 1 ∧ (w.toServer i).AllTagged 1) ∧
      ∀ i, (∀ m ∈ (w.toClient i).contents, m.1 ≠ 0) ∧ ∀ m ∈ (w.toServer i).contents, m.1 ≠ 0 := by
  obtain ⟨s, hs, hfin⟩ := smallSession_finished
  obtain ⟨t, ht, hsent⟩ := smallSession_sent
  -- the first session, from the start
  obtain ⟨u, hu, hfirst⟩ := exists_session (p := smallSessions) (k := 0) (.init rfl) rfl
    (fun _ => ⟨rfl, rfl⟩)
    (fun _ _ => ⟨fun _ j hj => absurd hj (Nat.not_lt_zero j),
      fun _ _ j hj => absurd hj (Nat.not_lt_zero j)⟩) hs
  have hown := hfirst.own
  have hpc : (u.session 0).pc = s.pc := by rw [← hown]; rfl
  have hclient : (u.session 0).client = s.client := by rw [← hown]; rfl
  have hgot : (u.session 0).gotRequests = s.gotRequests := by rw [← hown]; rfl
  -- the second session, up to the first element sent
  obtain ⟨w, hw, hsecond⟩ := exists_session (p := smallSessions) (k := 1) hu
    (hfirst.other 1 Nat.one_ne_zero)
    (hfirst.contents (p := smallSessions) hs (by rw [hfin.server]; rfl))
    (fun v hv => by
      refine ⟨fun _ j hj => ?_, fun i hbegun j hj => ?_⟩
      · rw [Nat.lt_one_iff.mp hj, hpc, hfin.server]
        rfl
      · rw [Nat.lt_one_iff.mp hj, (isClient_of_begun hv hbegun).eq_one rfl, hclient, hfin.client]
        rfl) ht.reachable
  have hsame : w.session 0 = u.session 0 := hsecond.other 0 Nat.zero_ne_one
  have hcleaned : (w.session 0).pc.cleaned = true := by
    rw [hsame, hpc, hfin.server]
    rfl
  have hview := hsecond.view_eq
  have hinside : (w.view 1).Inside (smallSessions.config 1) := by
    obtain ⟨sizes, hat, -⟩ := hsent.server
    exact .inl (by rw [hview, hat]; rfl)
  obtain ⟨htag, -, hnone⟩ := sessions_isolated smallSessions w hw
  refine ⟨w, hw, hcleaned, ?_, ?_, ?_, ?_, htag 1 hinside, hnone 0 hcleaned⟩
  · rw [hsame, hclient, hfin.yielded]
  · rw [hsame, hgot, hfin.gotRequests]
  · rw [hview, hsent.toClient]
  · rw [hview, hsent.toServer]

end World

end SimpleParallel.Schedule
