import SimpleParallel.Schedule.Discipline

/-!
# Send buffers under the nonblocking-send rule

`MPI_Isend` may read the bytes of its buffer at any time until the completion
of the request is observed. A `Transfer` is a session together with the memory
the values are sent from and the bytes read from it so far.

The buffer of `isend` is `*m_iter`. Three kinds of iterators give it three
lifetimes (`IterKind`): storage that stays, one buffer that `m_iter++`
overwrites (`c_task_generator::iterator`, `fortran_task_generator::iterator`),
and a temporary, bound to `const val_t &val`, that ends with the enclosing
block right after `m_iter++`.

`faithful_iff`: every value arrives as it was when it was sent, in every run,
exactly if no value is sent at all, or the iterator has stable storage, or its
internal buffer holds the same bytes after each increment.
-/

namespace SimpleParallel.Schedule

abbrev Bytes (sz : Nat) := Fin sz → UInt8

/-- What `*m_iter` refers to. -/
inductive IterKind
  | stable
  | internalBuffer
  | temporary
  deriving DecidableEq

/-- A range whose elements are `sz` bytes long. `val k` is element `k`; `val n`
is what the last increment leaves in an internal buffer. -/
structure Generator (sz : Nat) where
  kind : IterKind
  val : Nat → Bytes sz
  size_pos : 0 < sz

/-- A session with its memory. `temp k` is the storage of the temporary made
for element `k`, `payload k` the bytes that were read for its send,
`delivered i` what client `i` found in `m_value` after each `recv`. -/
structure Transfer (sz : Nat) where
  session : Session
  temp : Nat → Bytes sz
  payload : Nat → Fin sz → Option UInt8
  delivered : Nat → List (Nat × Bytes sz)

def Transfer.initial {sz : Nat} (cfg : Config) : Transfer sz where
  session := Session.initial cfg
  temp _ _ := 0
  payload _ _ := none
  delivered _ := []

/-- The memory that the send of element `k` reads. -/
def Generator.sendMem {sz : Nat} (g : Generator sz) (e : Transfer sz) (k : Nat) : Bytes sz :=
  match g.kind with
  | .stable => g.val k
  | .internalBuffer => g.val e.session.iter
  | .temporary => e.temp k

/-- The steps of a session that concern no send buffer. -/
def Act.plain : Act → Bool
  | isendVal _ _ | recvVal _ _ | complete (.sendVal _) => false
  | _ => true

/-- Steps of a session with its memory. A message is received, and a send
completes, only when all bytes of the buffer were read. -/
inductive Transfer.Step {sz : Nat} (cfg : Config) (g : Generator sz) :
    Transfer sz → Act → Transfer sz → Prop
  /-- `const val_t &val = *m_iter` and the call of `isend`. -/
  | isendVal {e : Transfer sz} {t : Session} {i k : Nat} :
      Schedule.Step cfg e.session (.isendVal i k) t →
      Transfer.Step cfg g e (.isendVal i k)
        { e with session := t, temp := Function.update e.temp k (g.val k) }
  /-- MPI reads one byte of the buffer. -/
  | read {e : Transfer sz} {i k : Nat} {b : Fin sz} : k ∈ e.session.sentVals i →
      e.payload k b = none →
      Transfer.Step cfg g e .control
        { e with
          payload := Function.update e.payload k
            (Function.update (e.payload k) b (some (g.sendMem e k b))) }
  /-- After `m_iter++` the block of `val` ends; its storage is used again. -/
  | reuse {e : Transfer sz} {k : Nat} {v : Bytes sz} : k < e.session.iter →
      Transfer.Step cfg g e .control { e with temp := Function.update e.temp k v }
  | recvVal {e : Transfer sz} {t : Session} {i k : Nat} {v : Bytes sz} :
      Schedule.Step cfg e.session (.recvVal i k) t → (∀ b, e.payload k b = some (v b)) →
      Transfer.Step cfg g e (.recvVal i k)
        { e with
          session := t
          delivered := Function.update e.delivered i (e.delivered i ++ [(k, v)]) }
  | complete {e : Transfer sz} {t : Session} {k : Nat} :
      Schedule.Step cfg e.session (.complete (.sendVal k)) t → (∀ b, e.payload k b ≠ none) →
      Transfer.Step cfg g e (.complete (.sendVal k)) { e with session := t }
  | other {e : Transfer sz} {t : Session} {a : Act} : a.plain = true →
      Schedule.Step cfg e.session a t → Transfer.Step cfg g e a { e with session := t }

def transferSys {sz : Nat} (cfg : Config) (g : Generator sz) : LTS.Sys (Transfer sz) Act where
  init e := e = Transfer.initial cfg
  step := Transfer.Step cfg g

abbrev TransferReachable {sz : Nat} (cfg : Config) (g : Generator sz) (e : Transfer sz) : Prop :=
  LTS.Reachable (transferSys cfg g) e

/-- What was received is what was sent, and the buffer of an incomplete request
in `m_requests` still holds the value. -/
structure Faithful {sz : Nat} (g : Generator sz) (e : Transfer sz) : Prop where
  delivered : ∀ i k v, (k, v) ∈ e.delivered i → v = g.val k
  incomplete : ∀ i k, k ∈ (e.session.requests i).items →
    e.session.completed (.sendVal k) = false → g.sendMem e k = g.val k

/-! ## Sessions and requests -/

/-- A request in `m_requests` belongs to a value that was sent. -/
theorem sent_of_request {cfg : Config} {s : Session} {i k : Nat} (h : Reachable cfg s)
    (hk : k ∈ (s.requests i).items) : k ∈ s.sentVals i := by
  refine LTS.Reachable.invariant
    (P := fun s => ∀ k, k ∈ (s.requests i).items → k ∈ s.sentVals i) ?_ ?_ h k hk
  · rintro _ rfl k hk
    cases hk
  · intro s a t _ hsub hs k hk
    cases hs with
    | @isendVal j pc _ =>
      by_cases hij : i = j
      · subst hij
        simp only [Session.isendVal, Function.update_self] at hk ⊢
        rcases CircularBuffer.mem_items_pushBack hk with hk | hk
        · exact List.mem_append_left _ (hsub k hk)
        · exact List.mem_append_right _ (List.mem_singleton.mpr hk)
      · simp only [Session.isendVal, Function.update_of_ne hij] at hk ⊢
        exact hsub k hk
    | @testPop j _ _ =>
      by_cases hij : i = j
      · subst hij
        simp only [Function.update_self, CircularBuffer.items_popFront] at hk
        exact hsub k (List.mem_of_mem_tail hk)
      · simp only [Function.update_of_ne hij] at hk
        exact hsub k hk
    | _ => exact hsub k hk

theorem requests_capacity {cfg : Config} {s : Session} (h : Reachable cfg s) (i : Nat) :
    (s.requests i).capacity = cfg.allBufferSizes i := by
  refine LTS.Reachable.invariant
    (P := fun s => (s.requests i).capacity = cfg.allBufferSizes i) ?_ ?_ h
  · rintro _ rfl
    rfl
  · intro s a t _ hcap hs
    cases hs with
    | @isendVal j _ _ | @testPop j _ _ =>
      by_cases hij : i = j
      · subst hij
        simpa [Session.isendVal] using hcap
      · simpa [Session.isendVal, Function.update_of_ne hij] using hcap
    | _ => exact hcap

theorem sent_le_iter {cfg : Config} {s : Session} {i k : Nat} (h : Reachable cfg s)
    (hi : cfg.IsClient i) (hk : k ∈ s.sentVals i) : k ≤ s.iter := by
  obtain ⟨own, hown⟩ := handed h
  rw [hown.client i hi] at hk
  have := (Assignment.mem_owned.mp hk).1
  have := s.given_bounds.2.1
  omega

section Transfer

variable {sz : Nat} {cfg : Config} {g : Generator sz} {e e' : Transfer sz} {a : Act}

/-- The memory does not influence the session. -/
theorem TransferReachable.session (h : TransferReachable cfg g e) : Reachable cfg e.session := by
  induction h with
  | init h => exact h ▸ .init rfl
  | step _ hs ih =>
    cases hs with
    | isendVal hs => exact ih.step hs
    | read _ _ | reuse _ => exact ih
    | recvVal hs _ => exact ih.step hs
    | complete hs _ => exact ih.step hs
    | other _ hs => exact ih.step hs

/-! ## Where the buffers hold their values -/

/-- Only bytes of the values were read. -/
structure ReadOk (g : Generator sz) (e : Transfer sz) : Prop where
  payload : ∀ k b x, e.payload k b = some x → x = g.val k b
  delivered : ∀ i k v, (k, v) ∈ e.delivered i → v = g.val k

theorem ReadOk.step (h : ReadOk g e)
    (hmem : ∀ i k, k ∈ e.session.sentVals i → g.sendMem e k = g.val k)
    (hs : Transfer.Step cfg g e a e') : ReadOk g e' := by
  cases hs with
  | @read i k b hk _ =>
    refine ⟨fun k' b' x hx => ?_, h.delivered⟩
    by_cases hkk : k' = k
    · subst hkk
      by_cases hbb : b' = b
      · subst hbb
        simp only [Function.update_self, Option.some.injEq] at hx
        rw [← hx, hmem i k' hk]
      · simp only [Function.update_self, Function.update_of_ne hbb] at hx
        exact h.payload _ _ _ hx
    · simp only [Function.update_of_ne hkk] at hx
      exact h.payload _ _ _ hx
  | @recvVal _ i k v _ hv =>
    refine ⟨h.payload, fun j l w hw => ?_⟩
    by_cases hji : j = i
    · subst hji
      simp only [Function.update_self, List.mem_append, List.mem_singleton, Prod.mk.injEq] at hw
      rcases hw with hw | ⟨rfl, rfl⟩
      · exact h.delivered j l w hw
      · exact funext fun b => h.payload l b (w b) (hv b)
    · simp only [Function.update_of_ne hji] at hw
      exact h.delivered j l w hw
  | _ => exact ⟨h.payload, h.delivered⟩

/-- If the buffer of every value sent holds that value throughout, everything
arrives. -/
theorem faithful_of_mem
    (hmem : ∀ e, TransferReachable cfg g e → ∀ i k, k ∈ e.session.sentVals i →
      g.sendMem e k = g.val k)
    (h : TransferReachable cfg g e) : Faithful g e := by
  have hread : ReadOk g e := by
    refine LTS.Reachable.invariant ?_ (fun e _ _ he hi hs => hi.step (hmem e he) hs) h
    rintro _ rfl
    exact ⟨nofun, nofun⟩
  exact ⟨hread.delivered, fun i k hk _ => hmem e h i k (sent_of_request h.session hk)⟩

/-- An internal buffer that no increment changes holds every element. -/
theorem val_const (hval : ∀ k < cfg.n, g.val (k + 1) = g.val k) {k : Nat} (hk : k ≤ cfg.n) :
    g.val k = g.val 0 := by
  induction k with
  | zero => rfl
  | succ k ih => rw [hval k hk, ih (Nat.le_of_succ_le hk)]

theorem mem_of_const (hkind : g.kind = .internalBuffer)
    (hval : ∀ k < cfg.n, g.val (k + 1) = g.val k) (h : TransferReachable cfg g e) {i k : Nat}
    (hi : cfg.IsClient i) (hk : k ∈ e.session.sentVals i) : g.sendMem e k = g.val k := by
  have hle := (rangeInv h.session).le
  have hki := sent_le_iter h.session hi hk
  rw [Generator.sendMem, hkind]
  show g.val e.session.iter = g.val k
  rw [val_const hval hle, val_const hval (Nat.le_trans hki hle)]

theorem client_of_sent {s : Session} {i k : Nat} (h : Reachable cfg s) (hk : k ∈ s.sentVals i) :
    cfg.IsClient i := by
  by_contra hi
  have hnil := sentVals_of_no_send h fun s pc hs hsend => hi ((rangeInv hs).send hsend).2
  rw [hnil] at hk
  cases hk

/-! ## Where they do not -/

/-- A run that completes no send is a run of the session with its memory. -/
theorem QuietReachable.transfer {s : Session} (g : Generator sz) (h : QuietReachable cfg s) :
    ∃ e, TransferReachable cfg g e ∧ e.session = s ∧ e.payload = (fun _ _ => none) ∧
      e.delivered = fun _ => [] := by
  induction h with
  | init h => exact ⟨_, .init rfl, h.symm, rfl, rfl⟩
  | @step s t a _ hs ih =>
    obtain ⟨e, he, rfl, hp, hd⟩ := ih
    obtain ⟨hquiet, hs⟩ := hs
    by_cases ha : ∃ i k, a = .isendVal i k
    · obtain ⟨i, k, rfl⟩ := ha
      exact ⟨_, he.step (.isendVal hs), rfl, hp, hd⟩
    · have hplain : a.plain = true := by
        cases a <;> simp_all [Act.plain, Act.quiet]
      exact ⟨_, he.step (.other hplain hs), rfl, hp, hd⟩

/-- The element `k` was sent, its request is incomplete, and `m_iter` is past
it. -/
theorem reach_sent_past (g : Generator sz) {i k : Nat} (hi : cfg.IsClient i)
    (hb : cfg.bufferSize i ≠ 0) (hk : k < cfg.n) :
    ∃ e j, TransferReachable cfg g e ∧ k ∈ (e.session.requests j).items ∧
      e.session.completed (.sendVal k) = false ∧ e.session.iter = k + 1 := by
  obtain ⟨s, j, pc, hs, hsend, hiter⟩ := reach_send hi hb hk
  have h1 := hs.then rfl (.isendVal hsend)
  have hsite : ∃ pc', AdvanceSite (s.isendVal j pc) pc' := by
    cases hsend with
    | first _ _ _ _ => exact ⟨_, .first rfl⟩
    | answer _ _ => exact ⟨_, .answer rfl⟩
  obtain ⟨pc', hadv⟩ := hsite
  have h2 := h1.then rfl (.advance hadv)
  obtain ⟨e, he, hsess, -, -⟩ := h2.transfer g
  refine ⟨e, j, he, ?_, ?_, ?_⟩
  · -- the buffer of a client that is sent to has room for a request
    have hj := (rangeInv hs.reachable).send hsend
    have hcap : 0 < (s.requests j).capacity := by
      rw [requests_capacity hs.reachable, Config.allBufferSizes, if_neg hj.2.2]
      exact Nat.pos_of_ne_zero fun hz => no_send_without_buffer hs.reachable hz hsend
    have hmem := CircularBuffer.mem_pushBack_self hcap s.iter
    rw [hsess, ← hiter]
    simpa [Session.isendVal] using hmem
  · rw [hsess]
    exact h2.incomplete k
  · rw [hsess]
    exact congrArg (· + 1) hiter

/-- An increment that changes the internal buffer changes a value on its way. -/
theorem internalBuffer_broken {i k : Nat} (hkind : g.kind = .internalBuffer)
    (hi : cfg.IsClient i) (hb : cfg.bufferSize i ≠ 0) (hk : k < cfg.n)
    (hval : g.val (k + 1) ≠ g.val k) : ∃ e, TransferReachable cfg g e ∧ ¬ Faithful g e := by
  obtain ⟨e, j, he, hmem, hinc, hiter⟩ := reach_sent_past g hi hb hk
  refine ⟨e, he, fun hf => hval ?_⟩
  have := hf.incomplete j k hmem hinc
  rwa [Generator.sendMem, hkind, hiter] at this

/-- A temporary is gone before its send is complete. -/
theorem temporary_broken {i : Nat} (hkind : g.kind = .temporary)
    (hi : cfg.IsClient i) (hb : cfg.bufferSize i ≠ 0) (hn : cfg.n ≠ 0) :
    ∃ e, TransferReachable cfg g e ∧ ¬ Faithful g e := by
  obtain ⟨e, j, he, hmem, hinc, hiter⟩ := reach_sent_past g hi hb (Nat.pos_of_ne_zero hn)
  have hreuse := he.step (.reuse (k := 0) (v := fun b => g.val 0 b + 1) (by omega))
  refine ⟨_, hreuse, fun hf => ?_⟩
  have hval := hf.incomplete j 0 hmem hinc
  rw [Generator.sendMem, hkind] at hval
  simp only [Function.update_self] at hval
  have hbyte : g.val 0 ⟨0, g.size_pos⟩ + 1 = g.val 0 ⟨0, g.size_pos⟩ := congrFun hval _
  have hnat := congrArg UInt8.toNat hbyte
  rw [UInt8.toNat_add] at hnat
  have := (g.val 0 ⟨0, g.size_pos⟩).toNat_lt
  simp at hnat
  omega

end Transfer

/-- Every value a client receives is the value that was sent, and every
incomplete request still has its value in memory, in all runs, exactly if
nothing is ever sent to a client, or the iterator has stable storage, or no
increment changes the bytes of its internal buffer. -/
theorem faithful_iff {sz : Nat} (cfg : Config) (g : Generator sz) :
    (∀ e, TransferReachable cfg g e → Faithful g e) ↔
      (cfg.n = 0 ∨ ∀ i, cfg.IsClient i → cfg.bufferSize i = 0) ∨ g.kind = .stable ∨
        (g.kind = .internalBuffer ∧ ∀ k < cfg.n, g.val (k + 1) = g.val k) := by
  constructor
  · intro h
    by_contra hcon
    push Not at hcon
    obtain ⟨⟨hn, i, hi, hb⟩, hstable, hbuffer⟩ := hcon
    have hbroken : ∃ e, TransferReachable cfg g e ∧ ¬ Faithful g e := by
      cases hkind : g.kind with
      | stable => exact absurd hkind hstable
      | internalBuffer =>
        obtain ⟨k, hk, hval⟩ := hbuffer hkind
        exact internalBuffer_broken hkind hi hb hk hval
      | temporary => exact temporary_broken hkind hi hb hn
    obtain ⟨e, he, hnot⟩ := hbroken
    exact hnot (h e he)
  · intro hcond e he
    refine faithful_of_mem (fun e he i k hk => ?_) he
    have hi := client_of_sent he.session hk
    rcases hcond with hnone | hstable | ⟨hkind, hval⟩
    · have hnil : e.session.sentVals i = [] :=
        sentVals_of_no_send he.session fun _ _ hs => no_send hnone hs
      rw [hnil] at hk
      cases hk
    · rw [Generator.sendMem, hstable]
    · exact mem_of_const hkind hval he hi hk

/-! ## A wrong value received -/

/-- A generator like `c_task_generator` whose two elements differ. -/
def counting : Generator 1 := ⟨.internalBuffer, fun k _ => UInt8.ofNat k, by decide⟩

/-- Element 0 was sent and `m_iter++` has overwritten it; MPI reads the buffer
now, and the client receives element 1 in its place. -/
theorem wrong_value_received :
    ¬ (∀ e, TransferReachable smallSession counting e → Faithful counting e) := by
  intro h
  have hc : smallSession.IsClient 1 := by decide
  obtain ⟨s, hs, hsent⟩ := smallSession_sent
  obtain ⟨sizes, hpc, -⟩ := hsent.server
  -- the client goes on while the message arrives
  have h1 := hs.then rfl (.deliverToClient (i := 1))
  have hbar : Session.BarrierEntered smallSession
      { s with toClient := Function.update s.toClient 1 (s.toClient 1).deliver } :=
    .of_two rfl (by simp [hpc]) (by simp [hpc]) hsent.client
  have h2 := h1.then rfl (.client hc (.leaveBarrier hsent.client hbar))
  have hprobe : ((Function.update s.toClient 1 (s.toClient 1).deliver) 1).iprobe
      ServerMsg.isVal = some (.serverSendVal 0) := by
    rw [Function.update_self, hsent.toClient]
    rfl
  have h3 := h2.then rfl (.client hc (.pollSome (by simp [Session.setClientPc]) (by
    rw [Session.hasValInBuffer]
    exact congrArg Option.isSome hprobe)))
  obtain ⟨e, he, hsess, hpay, hdel⟩ := h3.transfer counting
  -- MPI reads the one byte of the buffer, then the client receives it
  have hmem : (0 : Nat) ∈ e.session.sentVals 1 := by
    rw [hsess]
    simp [Session.setClientPc, hsent.sent]
  have h4 := he.step (.read (b := 0) hmem (by rw [hpay]))
  have hread : counting.sendMem e 0 0 = 1 := by
    rw [Generator.sendMem, hsess]
    simp [counting, Session.setClientPc, hsent.iter]
  have hrecv : Step smallSession e.session (.recvVal 1 0) (e.session.recvVal 1 0) := by
    rw [hsess]
    exact .recvVal hc (by simp [Session.setClientPc]) hprobe
  have h5 := h4.step (.recvVal (v := fun _ => 1) hrecv fun b => by
    rw [Subsingleton.elim b 0]
    simp [hread])
  have hwrong := (h _ h5).delivered 1 0 (fun _ => 1) (by simp)
  exact absurd (congrFun hwrong 0) (by decide)

end SimpleParallel.Schedule
