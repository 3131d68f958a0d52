import SimpleParallel.Schedule.Blocking

/-!
# When the channels of a session are empty

No message is sent before every rank entered the `all_gather`, and none is left
when the root has returned from `finish_cleanup`. Both bounds are what keeps the
messages of one session away from the next, which uses the same tags.

* `Step.outside`: a step that uses the channels is of a rank that is between its
  `all_gather` and its destructor (`Inside`).
* `EnteredInv`: one rank past the `all_gather` says that all ranks entered it;
  before, the channels are empty.
* `silent_of_cleaned`: after `finish_cleanup` the channels are empty. The drain
  loop takes the requests that `client_finished` has made visible; no client
  sends any after it.
-/

namespace SimpleParallel.Schedule

/-! ## Inside a session -/

/-- No message is on its way. -/
def Session.Silent (s : Session) : Prop :=
  ∀ i, (s.toClient i).contents = [] ∧ (s.toServer i).contents = []

namespace ServerPc

/-- The `all_gather` has returned, or there is none. -/
def passed : ServerPc → Bool
  | start | allGather => false
  | _ => true

/-- The root has returned from `finish_cleanup`. -/
def cleaned : ServerPc → Bool
  | finished | destroyed | singleFinished => true
  | _ => false

/-- The handler is destroyed; that of a single rank has nothing to do there. -/
def closed : ServerPc → Bool
  | destroyed | singleFinished => true
  | _ => false

def inside (pc : ServerPc) : Bool := pc.passed && !pc.closed

end ServerPc

namespace ClientPc

def passed : ClientPc → Bool
  | start | allGather => false
  | _ => true

def closed : ClientPc → Bool
  | destroyed => true
  | _ => false

def inside (pc : ClientPc) : Bool := pc.passed && !pc.closed

end ClientPc

/-- Some rank is between its `all_gather` and its destructor. -/
def Session.Inside (cfg : Config) (s : Session) : Prop :=
  s.pc.inside = true ∨ ∃ i, cfg.IsClient i ∧ (s.client i).pc.inside = true

/-- The session with other channels. -/
def Session.withChannels (s : Session) (c : Nat → Channel ServerMsg)
    (c' : Nat → Channel ClientMsg) : Session :=
  { s with toClient := c, toServer := c' }

/-- A step that neither looks at the channels nor changes them. -/
structure Blind (cfg : Config) (s : Session) (a : Act) (t : Session) : Prop where
  act : a = .control ∨ ∃ r, a = .complete r
  same : t.toClient = s.toClient ∧ t.toServer = s.toServer
  step : ∀ c c', Step cfg (s.withChannels c c') a (t.withChannels c c')

theorem ServerMove.outside {cfg : Config} {s : Session} {pc : ServerPc}
    (hm : ServerMove cfg s pc) : s.pc.inside = true ∨
      ∀ c c', ServerMove cfg (s.withChannels c c') pc := by
  cases hm with
  | enterAllGather hpc hsz => exact .inr fun _ _ => .enterAllGather hpc hsz
  | leaveAllGather hpc he => exact .inr fun _ _ => .leaveAllGather hpc he
  | singleRank hpc hsz => exact .inr fun _ _ => .singleRank hpc hsz
  | _ => exact .inl (by simp [ServerPc.inside, ServerPc.passed, ServerPc.closed, *])

theorem ClientMove.outside {cfg : Config} {s : Session} {i : Nat} {pc : ClientPc}
    (hm : ClientMove cfg s i pc) : (s.client i).pc.inside = true ∨
      ∀ c c', ClientMove cfg (s.withChannels c c') i pc := by
  cases hm with
  | enterAllGather hpc hsz => exact .inr fun _ _ => .enterAllGather hpc hsz
  | leaveAllGather hpc he => exact .inr fun _ _ => .leaveAllGather hpc he
  | _ => exact .inl (by simp [ClientPc.inside, ClientPc.passed, ClientPc.closed, *])

theorem SendSite.inside {cfg : Config} {s : Session} {pc : ServerPc} {i : Nat}
    (hs : SendSite cfg s i pc) : s.pc.inside = true := by
  cases hs <;> simp [ServerPc.inside, ServerPc.passed, ServerPc.closed, *]

theorem AdvanceSite.inside {s : Session} {pc : ServerPc} (hs : AdvanceSite s pc) :
    s.pc.inside = true := by
  cases hs <;> simp [ServerPc.inside, ServerPc.passed, ServerPc.closed, *]

theorem UseSite.inside {cfg : Config} {s : Session} {pc : ServerPc} (hs : UseSite cfg s pc) :
    s.pc.inside = true := by
  cases hs <;> simp [ServerPc.inside, ServerPc.passed, ServerPc.closed, *]

/-- A step that uses the channels is of a rank inside the session, or a
delivery. -/
theorem Step.outside {cfg : Config} {s t : Session} {a : Act} (h : Step cfg s a t) :
    s.Inside cfg ∨ a = .deliver ∨ Blind cfg s a t := by
  cases h with
  | server hm =>
    rcases hm.outside with hin | hout
    · exact .inl (.inl hin)
    · exact .inr (.inr ⟨.inl rfl, ⟨rfl, rfl⟩, fun c c' => .server (hout c c')⟩)
  | @client i _ hi hm =>
    rcases hm.outside with hin | hout
    · exact .inl (.inr ⟨i, hi, hin⟩)
    · exact .inr (.inr ⟨.inl rfl, ⟨rfl, rfl⟩, fun c c' => .client hi (hout c c')⟩)
  | isendVal hs => exact .inl (.inl hs.inside)
  | advance hs => exact .inl (.inl hs.inside)
  | serverUse hs => exact .inl (.inl hs.inside)
  | recvRequest hpc _ | testPop hpc _ | isendDone hpc _ | recvFinished hpc _ _ | drain hpc _ =>
    exact .inl (.inl (by rw [hpc]; rfl))
  | post hi hpc | recvDone hi hpc _ | recheckNone hi hpc _ | sendFinished hi hpc | recvVal hi hpc _
  | rerequest hi hpc | clientUse hi hpc | cancel hi hpc _ =>
    exact .inl (.inr ⟨_, hi, by rw [hpc]; rfl⟩)
  | deliverToClient | deliverToServer => exact .inr (.inl rfl)
  | complete => exact .inr (.inr ⟨.inr ⟨_, rfl⟩, ⟨rfl, rfl⟩, fun _ _ => .complete⟩)

/-! ## Where the program counters go -/

theorem ServerMove.passed {cfg : Config} {s : Session} {pc : ServerPc} (hm : ServerMove cfg s pc) :
    pc ≠ .start ∧ s.pc.closed = false ∧
      (pc.passed = true → s.pc.passed = true ∨ s.AllGatherEntered cfg ∨ cfg.size = 1) := by
  cases hm <;> simp_all [ServerPc.passed, ServerPc.closed]

theorem ClientMove.passed {cfg : Config} {s : Session} {i : Nat} {pc : ClientPc}
    (hm : ClientMove cfg s i pc) : pc ≠ .start ∧ (s.client i).pc.closed = false ∧
      (pc.passed = true → (s.client i).pc.passed = true ∨ s.AllGatherEntered cfg) := by
  cases hm <;> simp_all [ClientPc.passed, ClientPc.closed]

theorem SendSite.ne_start {cfg : Config} {s : Session} {pc : ServerPc} {i : Nat}
    (hs : SendSite cfg s i pc) : pc ≠ .start := by
  cases hs <;> nofun

theorem AdvanceSite.ne_start {s : Session} {pc : ServerPc} (hs : AdvanceSite s pc) :
    pc ≠ .start := by
  cases hs <;> nofun

theorem UseSite.ne_start {cfg : Config} {s : Session} {pc : ServerPc} (hs : UseSite cfg s pc) :
    pc ≠ .start := by
  cases hs <;> nofun

theorem ServerPc.inside_iff {pc : ServerPc} :
    pc.inside = true ↔ pc.passed = true ∧ pc.closed = false := by
  simp [ServerPc.inside]

theorem ClientPc.inside_iff {pc : ClientPc} :
    pc.inside = true ↔ pc.passed = true ∧ pc.closed = false := by
  simp [ClientPc.inside]

/-- What a step does to the server's program counter. -/
theorem Step.server_pc {cfg : Config} {s t : Session} {a : Act} (h : Step cfg s a t) :
    t.pc = s.pc ∨ (t.pc ≠ .start ∧ s.pc.closed = false ∧
      (t.pc.passed = true → s.pc.passed = true ∨ s.AllGatherEntered cfg ∨ cfg.size = 1)) := by
  have from_inside : s.pc.inside = true → t.pc ≠ .start → t.pc ≠ .start ∧ s.pc.closed = false ∧
      (t.pc.passed = true → s.pc.passed = true ∨ s.AllGatherEntered cfg ∨ cfg.size = 1) :=
    fun hin hne => ⟨hne, (ServerPc.inside_iff.mp hin).2, fun _ => .inl (ServerPc.inside_iff.mp hin).1⟩
  cases h with
  | server hm => exact .inr hm.passed
  | isendVal hs => exact .inr (from_inside hs.inside hs.ne_start)
  | advance hs => exact .inr (from_inside hs.inside hs.ne_start)
  | serverUse hs => exact .inr (from_inside hs.inside hs.ne_start)
  | recvRequest hpc _ | isendDone hpc _ | recvFinished hpc _ _ | drain hpc _ =>
    exact .inr (from_inside (by rw [hpc]; rfl) nofun)
  | _ => exact .inl rfl

/-- What a step does to the program counter of client `i`. -/
theorem Step.client_pc {cfg : Config} {s t : Session} {a : Act} (h : Step cfg s a t) (i : Nat) :
    (t.client i).pc = (s.client i).pc ∨ (cfg.IsClient i ∧ (t.client i).pc ≠ .start ∧
      (s.client i).pc.closed = false ∧
      ((t.client i).pc.passed = true → (s.client i).pc.passed = true ∨ s.AllGatherEntered cfg)) := by
  have moved : ∀ {j : Nat} {c : Client}, t.client = Function.update s.client j c →
      cfg.IsClient j → (c.pc ≠ .start ∧ (s.client j).pc.closed = false ∧
        (c.pc.passed = true → (s.client j).pc.passed = true ∨ s.AllGatherEntered cfg)) →
      (t.client i).pc = (s.client i).pc ∨ (cfg.IsClient i ∧ (t.client i).pc ≠ .start ∧
        (s.client i).pc.closed = false ∧
        ((t.client i).pc.passed = true →
          (s.client i).pc.passed = true ∨ s.AllGatherEntered cfg)) := by
    intro j c ht hj hc
    by_cases hij : i = j
    · subst hij
      rw [ht, Function.update_self]
      exact .inr ⟨hj, hc⟩
    · rw [ht, Function.update_of_ne hij]
      exact .inl rfl
  cases h with
  | client hj hm => exact moved rfl hj hm.passed
  | post hj hpc | recvDone hj hpc _ | recheckNone hj hpc _ | sendFinished hj hpc | recvVal hj hpc _
  | rerequest hj hpc | clientUse hj hpc | cancel hj hpc _ =>
    refine moved rfl hj ⟨nofun, by rw [hpc]; rfl, fun _ => .inl (by rw [hpc]; rfl)⟩
  | _ => exact .inl rfl

/-! ## Before the `all_gather` -/

/-- A rank past the `all_gather` says that every rank entered it. -/
structure EnteredInv (cfg : Config) (s : Session) : Prop where
  server : s.pc.passed = true → s.AllGatherEntered cfg
  client : ∀ i, cfg.IsClient i → (s.client i).pc.passed = true → s.AllGatherEntered cfg
  silent : ¬ s.AllGatherEntered cfg → s.Silent

theorem Step.allGatherEntered {cfg : Config} {s t : Session} {a : Act} (h : Step cfg s a t)
    (hs : s.AllGatherEntered cfg) : t.AllGatherEntered cfg := by
  refine ⟨?_, fun i hi => ?_⟩
  · rcases h.server_pc with hpc | ⟨hne, -⟩
    · rw [hpc]
      exact hs.1
    · exact hne
  · rcases h.client_pc i with hpc | ⟨-, hne, -⟩
    · rw [hpc]
      exact hs.2 i hi
    · exact hne

theorem Session.Silent.deliver {cfg : Config} {s t : Session} (h : s.Silent)
    (hs : Step cfg s .deliver t) : t.Silent := by
  intro i
  cases hs with
  | @deliverToClient j =>
    by_cases hij : i = j
    · subst hij
      simpa using h i
    · simpa [Function.update_of_ne hij] using h i
  | @deliverToServer j =>
    by_cases hij : i = j
    · subst hij
      simpa using h i
    · simpa [Function.update_of_ne hij] using h i

namespace EnteredInv

variable {cfg : Config} {s t : Session} {a : Act}

theorem initial (cfg : Config) : EnteredInv cfg (Session.initial cfg) :=
  ⟨nofun, fun _ _ => nofun, fun _ _ => ⟨rfl, rfl⟩⟩

theorem of_inside (h : EnteredInv cfg s) (hin : s.Inside cfg) : s.AllGatherEntered cfg := by
  rcases hin with hin | ⟨i, hi, hin⟩
  · exact h.server (ServerPc.inside_iff.mp hin).1
  · exact h.client i hi (ClientPc.inside_iff.mp hin).1

theorem step (h : EnteredInv cfg s) (hs : Step cfg s a t) : EnteredInv cfg t := by
  constructor
  · intro hp
    rcases hs.server_pc with hpc | ⟨hne, -, hpass⟩
    · exact hs.allGatherEntered (h.server (hpc ▸ hp))
    · rcases hpass hp with hold | hall | hone
      · exact hs.allGatherEntered (h.server hold)
      · exact hs.allGatherEntered hall
      · exact ⟨hne, fun i hi => absurd (Nat.lt_one_iff.mp (hone ▸ hi.1)) hi.2⟩
  · intro i hi hp
    rcases hs.client_pc i with hpc | ⟨-, -, -, hpass⟩
    · exact hs.allGatherEntered (h.client i hi (hpc ▸ hp))
    · rcases hpass hp with hold | hall
      · exact hs.allGatherEntered (h.client i hi hold)
      · exact hs.allGatherEntered hall
  · intro hnot
    have hnot' : ¬ s.AllGatherEntered cfg := fun hall => hnot (hs.allGatherEntered hall)
    have hsilent := h.silent hnot'
    rcases hs.outside with hin | rfl | hblind
    · exact absurd (h.of_inside hin) hnot'
    · exact hsilent.deliver hs
    · intro i
      rw [hblind.same.1, hblind.same.2]
      exact hsilent i

end EnteredInv

theorem enteredInv {cfg : Config} {s : Session} (h : Reachable cfg s) : EnteredInv cfg s :=
  h.invariant (fun _ hs => hs ▸ EnteredInv.initial cfg) fun _ _ _ _ hi hs => hi.step hs

/-! ## After `finish_cleanup` -/

/-- The places of `single_rank_handler`. -/
def ServerPc.alone : ServerPc → Bool
  | single | singleNext | singleFinished => true
  | _ => false

/-- A single rank has no client, no other rank uses the channels, and what the
drain loop leaves of the requests is nothing. -/
structure CleanedInv (cfg : Config) (s : Session) : Prop where
  alone : s.pc.alone = true → cfg.size = 1
  others : ∀ i, ¬ cfg.IsClient i → (s.toClient i).contents = [] ∧ (s.toServer i).contents = []
  drained : s.pc = .finished ∨ s.pc = .destroyed → ∀ i, cfg.IsClient i → s.requestsInTransit i = []

namespace CleanedInv

variable {cfg : Config} {s t : Session} {i : Nat} {a : Act}

theorem initial (cfg : Config) : CleanedInv cfg (Session.initial cfg) :=
  ⟨nofun, fun _ _ => ⟨rfl, rfl⟩, by rintro (h | h) <;> cases h⟩

theorem step_alone (h : CleanedInv cfg s) (hs : Step cfg s a t) (ht : t.pc.alone = true) :
    cfg.size = 1 := by
  have hmove : ∀ {pc : ServerPc}, ServerMove cfg s pc → pc.alone = true →
      s.pc.alone = true ∨ cfg.size = 1 := by
    intro pc hm hpc
    cases hm <;> simp_all [ServerPc.alone]
  cases hs with
  | server hm => exact (hmove hm ht).elim h.alone id
  | isendVal hs => cases hs <;> cases ht
  | advance hs =>
    refine h.alone ?_
    cases hs with
    | single hpc =>
      rw [hpc]
      rfl
    | _ => cases ht
  | serverUse hs =>
    refine h.alone ?_
    cases hs with
    | single hpc _ =>
      rw [hpc]
      rfl
    | _ => cases ht
  | recvRequest _ _ | isendDone _ _ | recvFinished _ _ _ | drain _ _ => cases ht
  | _ => exact h.alone ht

/-- An update of the channel of one rank that is a client, or leaves the
contents alone. -/
theorem others_update {μ : Type} {c : Nat → Channel μ} {j : Nat} {x : Channel μ}
    (hi : ¬ cfg.IsClient i) (hc : (c i).contents = [])
    (hj : cfg.IsClient j ∨ ((c j).contents = [] → x.contents = [])) :
    (Function.update c j x i).contents = [] := by
  by_cases hij : i = j
  · subst hij
    rw [Function.update_self]
    exact (hj.resolve_left hi) hc
  · rwa [Function.update_of_ne hij]

theorem step_others (hr : RangeInv cfg s) (h : CleanedInv cfg s) (hs : Step cfg s a t)
    (hi : ¬ cfg.IsClient i) : (t.toClient i).contents = [] ∧ (t.toServer i).contents = [] := by
  obtain ⟨hto, hfrom⟩ := h.others i hi
  cases hs with
  | isendVal hs => exact ⟨others_update hi hto (.inl (hr.send hs).2), hfrom⟩
  | isendDone _ hj | recvDone hj _ _ | recvVal hj _ _ =>
    exact ⟨others_update hi hto (.inl hj), hfrom⟩
  | recvFinished _ hj _ | post hj _ | sendFinished hj _ | rerequest hj _ | cancel hj _ _ =>
    exact ⟨hto, others_update hi hfrom (.inl hj)⟩
  | recvRequest _ hq | drain _ hq =>
    refine ⟨hto, others_update hi hfrom (.inr fun hnil => ?_)⟩
    rw [Channel.contents_recv hq, hnil]
    rfl
  | deliverToClient => exact ⟨others_update hi hto (.inr fun hc => by simpa using hc), hfrom⟩
  | deliverToServer => exact ⟨hto, others_update hi hfrom (.inr fun hc => by simpa using hc)⟩
  | _ => exact ⟨hto, hfrom⟩

/-- A client whose `client_finished` was received sends nothing any more. -/
theorem gone_of_cleaned (hf : FinishInv cfg s) (hpc : s.pc = .finished ∨ s.pc = .destroyed)
    (hi : cfg.IsClient i) : (s.client i).pc.gone = true := by
  have hclose := hf i hi
  rw [show s.pc.finishedGot i = true by rcases hpc with hpc | hpc <;> rw [hpc] <;> rfl] at hclose
  cases hg : (s.client i).pc.gone with
  | true => rfl
  | false =>
    rw [hg] at hclose
    exact hclose.elim

/-- A step on the channel from client `j` that adds no request. -/
theorem drained_update {j : Nat} {x : Channel ClientMsg} (h : s.requestsInTransit i = [])
    (hx : j = i → x.contents.filterMap ClientMsg.request? = [])
    (ht : t.toServer = Function.update s.toServer j x) : t.requestsInTransit i = [] := by
  unfold Session.requestsInTransit
  rw [ht]
  by_cases hij : i = j
  · subst hij
    rw [Function.update_self]
    exact hx rfl
  · rw [Function.update_of_ne hij]
    exact h

theorem step_drained (hf : FinishInv cfg s) (h : CleanedInv cfg s) (hs : Step cfg s a t)
    (ht : t.pc = .finished ∨ t.pc = .destroyed) (hi : cfg.IsClient i) :
    t.requestsInTransit i = [] := by
  cases hs with
  | server hm =>
    cases hm with
    | drainNone hpc hnone =>
      have hclose := hf i hi
      rw [show s.pc.finishedGot i = true by rw [hpc]; rfl] at hclose
      have hprobe : (s.toServer i).iprobe ClientMsg.isRequest = none := by
        simpa [Session.hasRequest] using hnone i hi
      exact List.filterMap_eq_nil_iff.mpr fun m hm =>
        ClientMsg.request?_of_not_isRequest m (hclose.none_left hprobe m hm)
    | destroy hpc _ => exact h.drained (.inl hpc) i hi
    | _ => rcases ht with ht | ht <;> cases ht
  | isendVal hs => cases hs <;> rcases ht with ht | ht <;> cases ht
  | advance hs => cases hs <;> rcases ht with ht | ht <;> cases ht
  | serverUse hs => cases hs <;> rcases ht with ht | ht <;> cases ht
  | recvRequest _ _ | isendDone _ _ | recvFinished _ _ _ | drain _ _ =>
    rcases ht with ht | ht <;> cases ht
  | post hj hpc | sendFinished hj hpc | rerequest hj hpc =>
    have hgone := gone_of_cleaned hf ht hj
    rw [hpc] at hgone
    cases hgone
  | cancel hj hpc hmem =>
    refine drained_update (h.drained ht i hi) (fun hij => ?_) rfl
    subst hij
    have hold : (s.toServer _).contents.filterMap ClientMsg.request? = [] := h.drained ht _ hi
    rw [Channel.contents_cancel, filterMap_erase_request, hold]
    rfl
  | deliverToServer =>
    refine drained_update (h.drained ht i hi) (fun hij => ?_) rfl
    subst hij
    rw [Channel.contents_deliver]
    exact h.drained ht _ hi
  | _ => exact h.drained ht i hi

end CleanedInv

theorem cleanedInv {cfg : Config} {s : Session} (h : Reachable cfg s) : CleanedInv cfg s :=
  h.invariant (fun _ hs => hs ▸ CleanedInv.initial cfg) fun _ _ _ hr hi hs =>
    ⟨hi.step_alone hs, fun _ => hi.step_others (rangeInv hr) hs,
      fun ht _ => hi.step_drained (finishInv hr) hs ht⟩

/-! ## The end of a session -/

section

variable {cfg : Config} {s : Session} {i : Nat}

/-- With clients the root has returned from the whole of `finish_cleanup`. -/
theorem finished_of_cleaned (h : Reachable cfg s) (hi : cfg.IsClient i)
    (hpc : s.pc.cleaned = true) : s.pc = .finished ∨ s.pc = .destroyed := by
  cases hs : s.pc with
  | finished => exact .inl rfl
  | destroyed => exact .inr rfl
  | singleFinished =>
    have hone := (cleanedInv h).alone (by rw [hs]; rfl)
    exact absurd (Nat.lt_one_iff.mp (hone ▸ hi.1)) hi.2
  | _ =>
    rw [hs] at hpc
    cases hpc

/-- The client has taken all values and the mark behind them. -/
theorem toClient_empty (h : Reachable cfg s) (hi : cfg.IsClient i)
    (hfin : s.pc = .finished ∨ s.pc = .destroyed) : (s.toClient i).contents = [] := by
  have hgone := CleanedInv.gone_of_cleaned (finishInv h) hfin hi
  have hok := markInv h i hi
  have htot : (s.client i).totallyFinished = true := by
    rw [← hok.stopped]
    cases hc : (s.client i).pc <;> first
      | rfl
      | (rw [hc] at hgone; cases hgone)
  obtain ⟨hseen, hvals⟩ := hok.empty htot
  have hsent : s.pc.doneSent i = true := by rcases hfin with hs | hs <;> rw [hs] <;> rfl
  have hmark := hok.mark
  rw [hseen, hsent] at hmark
  refine List.eq_nil_iff_forall_not_mem.mpr fun m hm => ?_
  have hnv := List.filterMap_eq_nil_iff.mp hvals m hm
  have hnd := hmark.2 m hm
  cases m with
  | serverSendVal k => cases hnv
  | valGenDone => cases hnd

/-- The root has drained the requests, and taken the message that ends the client. -/
theorem toServer_empty (h : Reachable cfg s) (hi : cfg.IsClient i)
    (hfin : s.pc = .finished ∨ s.pc = .destroyed) : (s.toServer i).contents = [] := by
  have hgone := CleanedInv.gone_of_cleaned (finishInv h) hfin hi
  have hgot : s.pc.finishedGot i = true := by rcases hfin with hs | hs <;> rw [hs] <;> rfl
  have hclose := finishInv h i hi
  rw [hgone, hgot] at hclose
  refine List.eq_nil_iff_forall_not_mem.mpr fun m hm => ?_
  have hnr := List.filterMap_eq_nil_iff.mp ((cleanedInv h).drained hfin i hi) m hm
  have hnf := hclose.2 m hm
  cases m with
  | clientRequestVal q => cases hnr
  | clientFinished => cases hnf

/-- When the root has returned from `finish_cleanup` no message is left. -/
theorem silent_of_cleaned (h : Reachable cfg s) (hpc : s.pc.cleaned = true) : s.Silent := by
  intro i
  by_cases hi : cfg.IsClient i
  · have hfin := finished_of_cleaned h hi hpc
    exact ⟨toClient_empty h hi hfin, toServer_empty h hi hfin⟩
  · exact (cleanedInv h).others i hi

end

end SimpleParallel.Schedule
