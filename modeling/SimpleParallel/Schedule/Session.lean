import Mathlib.Logic.Function.Basic
import SimpleParallel.Lib.LTS
import SimpleParallel.Lib.Channel
import SimpleParallel.Lib.CircularBuffer

/-!
# A `dynamic_schedule` session

One session of `dynamic_schedule` (`cxx/dynamic_schedule.h`): the server on the
root rank, a client on every other rank, and the messages between them. The
program counters name the places between two calls into MPI or into the
underlying iterator, so the parties interleave at every such call.

* Messages between two ranks become visible in send order (`Channel`).
* An element of the range is named by its index `0 .. n-1`; `iter` is the
  position of `m_iter`, and `iter = n` is `m_iter == m_end`.
* A request is named by its message. It completes at the latest when that
  message is received; `Step.complete` lets it complete at any earlier time.
* `push_back` on a full buffer overwrites, as in a build without assertions.
* A rank keeps calling `next()` until `done()`: `yield` is the place where the
  user's loop body runs.
-/

namespace SimpleParallel.Schedule

open CircularBuffer

/-! ## Ranks, messages and program counters -/

/-- `m_root_rank`. -/
def rootRank : Nat := 0

/-- What a session starts from: the number of ranks (they are `0 .. size-1`),
the `buffer_size` each rank passes, and the number of elements of the range. -/
structure Config where
  size : Nat
  bufferSize : Nat → Nat
  n : Nat
  size_pos : 0 < size

namespace Config

/-- The ranks that run a `client_handler`. -/
def IsClient (cfg : Config) (i : Nat) : Prop := i < cfg.size ∧ i ≠ rootRank

instance (cfg : Config) (i : Nat) : Decidable (cfg.IsClient i) :=
  inferInstanceAs (Decidable (_ ∧ _))

/-- The result of the `all_gather`; the root passes zero. -/
def allBufferSizes (cfg : Config) (i : Nat) : Nat :=
  if i = rootRank then 0 else cfg.bufferSize i

end Config

/-- `server_send_val` with the index of the element it carries, and
`val_gen_done`. -/
inductive ServerMsg
  | serverSendVal (k : Nat)
  | valGenDone
  deriving DecidableEq

/-- The `q`-th `client_request_val` of a client, and `client_finished`. -/
inductive ClientMsg
  | clientRequestVal (q : Nat)
  | clientFinished
  deriving DecidableEq

/-- The index carried by a `server_send_val`. -/
def ServerMsg.val? : ServerMsg → Option Nat
  | serverSendVal k => some k
  | valGenDone => none

def ServerMsg.isVal : ServerMsg → Bool
  | serverSendVal _ => true
  | valGenDone => false

def ServerMsg.isDone (m : ServerMsg) : Bool := !m.isVal

/-- The sequence number of a `client_request_val`. -/
def ClientMsg.request? : ClientMsg → Option Nat
  | clientRequestVal q => some q
  | clientFinished => none

def ClientMsg.isRequest : ClientMsg → Bool
  | clientRequestVal _ => true
  | clientFinished => false

def ClientMsg.isFinished (m : ClientMsg) : Bool := !m.isRequest

/-- The nonblocking sends of a session. -/
inductive Request
  | sendVal (k : Nat)
  | genDone (i : Nat)
  | requestVal (i q : Nat)
  deriving DecidableEq

/-- Where the root rank is. `sizes` is the local `buffer_sizes` of
`first_time_handle_client_request`. -/
inductive ServerPc
  | start
  | allGather
  | barrier
  /-- `while (!all_of(buffer_sizes, handled))` -/
  | firstWhile (sizes : Nat → Nat)
  /-- `for (size_t i = 0; i < m_comm.size(); i++)` -/
  | firstFor (sizes : Nat → Nat) (i : Nat)
  /-- the value was sent to `i`, before `m_iter++` -/
  | firstSent (sizes : Nat → Nat) (i : Nat)
  /-- `while (!done())` of `handle_client_request` -/
  | handle
  /-- `iprobe` found a request of `source`, before its `recv` -/
  | recvRequest (source : Nat)
  /-- `while (!requests.empty() && requests.front().test())` -/
  | test (source : Nat)
  /-- the value was sent, before `m_iter++` -/
  | sent
  /-- the user's loop body is about to use `*m_iter` -/
  | yield
  /-- `next()`, before `m_iter++` -/
  | next
  /-- `finish_cleanup`: the loop that sends `val_gen_done` -/
  | sendDone (i : Nat)
  /-- `req.wait()` on the end requests -/
  | waitDone (i : Nat)
  /-- the loop that receives `client_finished` -/
  | recvFinished (i : Nat)
  /-- the loop that consumes additional requests -/
  | drain
  | drainRecv (source : Nat)
  | finished
  | destroyed
  /-- `single_rank_handler` -/
  | single
  | singleNext
  | singleFinished

/-- Where a client is. -/
inductive ClientPc
  | start
  | allGather
  /-- the loop of the constructor, with `k` requests still to send -/
  | post (k : Nat)
  | barrier
  /-- `while (!has_val_in_buffer())` -/
  | poll
  /-- `leader_gen_finished()` -/
  | checkDone
  /-- `iprobe` found `val_gen_done`, before its `recv` -/
  | recvDone
  /-- the second `has_val_in_buffer()` -/
  | recheck
  /-- a value is in the buffer, before its `recv` -/
  | recv
  /-- the value was received; the request it answers is to be replaced -/
  | rerequest
  /-- the user's loop body is about to use `m_value` -/
  | yield
  /-- `m_totally_finished` is set, before the `send` of `client_finished` -/
  | sendFinished
  | finished
  /-- `~client_handler`, with the requests it has still to look at -/
  | cancelling (reqs : List Nat)
  | destroyed

/-! ## State -/

/-- A client: its `client_handler`, and what it has done so far (`posted`
requests sent, indices `received`, indices `yielded` to the user). A request is
kept in `requests` under its sequence number, and `value` is the index of the
element held in `m_value`. -/
structure Client where
  pc : ClientPc
  value : Nat
  requests : CircularBuffer Nat
  leaderGenFinished : Bool
  totallyFinished : Bool
  posted : Nat
  received : List Nat
  yielded : List Nat

/-- A session. `requests i` is `m_requests[i]`, each request under the index it
carries; `sentVals i` and `gotRequests i` record what the server has sent to
and received from client `i`, `serverYielded` what it has used itself. -/
structure Session where
  pc : ServerPc
  iter : Nat
  requests : Nat → CircularBuffer Nat
  serverYielded : List Nat
  client : Nat → Client
  toClient : Nat → Channel ServerMsg
  toServer : Nat → Channel ClientMsg
  completed : Request → Bool
  sentVals : Nat → List Nat
  gotRequests : Nat → Nat

/-- The session before any rank constructed its iterator. -/
def Session.initial (cfg : Config) : Session where
  pc := .start
  iter := 0
  requests i := empty (cfg.allBufferSizes i)
  serverYielded := []
  client i :=
    { pc := .start, value := 0, requests := empty (cfg.bufferSize i), leaderGenFinished := false,
      totallyFinished := false, posted := 0, received := [], yielded := [] }
  toClient _ := Channel.empty
  toServer _ := Channel.empty
  completed _ := false
  sentVals _ := []
  gotRequests _ := 0

namespace Session

/-- Client `i` goes on at `pc`. -/
def setClientPc (s : Session) (i : Nat) (pc : ClientPc) : Session :=
  { s with client := Function.update s.client i { s.client i with pc := pc } }

/-- `iprobe` on the root finds a request of client `i`. -/
def hasRequest (s : Session) (i : Nat) : Bool :=
  ((s.toServer i).iprobe ClientMsg.isRequest).isSome

/-- `has_val_in_buffer()` on client `i`. -/
def hasValInBuffer (s : Session) (i : Nat) : Bool :=
  ((s.toClient i).iprobe ServerMsg.isVal).isSome

/-- `m_iter == m_end` on the root. -/
def done (cfg : Config) (s : Session) : Prop := s.iter = cfg.n

instance (cfg : Config) (s : Session) : Decidable (s.done cfg) :=
  inferInstanceAs (Decidable (_ = _))

/-- Every rank is past the call of `all_gather`. -/
def AllGatherEntered (cfg : Config) (s : Session) : Prop :=
  s.pc ≠ .start ∧ ∀ i, cfg.IsClient i → (s.client i).pc ≠ .start

/-- Every rank is past the call of `barrier`. The client's loop that sends its
requests comes before it. -/
def BarrierEntered (cfg : Config) (s : Session) : Prop :=
  s.pc ≠ .start ∧ s.pc ≠ .allGather ∧ ∀ i, cfg.IsClient i →
    (s.client i).pc ≠ .start ∧ (s.client i).pc ≠ .allGather ∧ ∀ k, (s.client i).pc ≠ .post k

/-- `!requests.empty() && requests.front().test()`. -/
def frontComplete (s : Session) (i : Nat) : Bool :=
  match (s.requests i).front with
  | some k => s.completed (.sendVal k)
  | none => false

end Session

/-! ## Control

Steps that read the state, decide, and change nothing but a program counter. -/

/-- The server's branches and loop heads. -/
inductive ServerMove (cfg : Config) (s : Session) : ServerPc → Prop
  | enterAllGather : s.pc = .start → cfg.size ≠ 1 → ServerMove cfg s .allGather
  | leaveAllGather : s.pc = .allGather → s.AllGatherEntered cfg → ServerMove cfg s .barrier
  | leaveBarrier : s.pc = .barrier → s.BarrierEntered cfg →
      ServerMove cfg s (.firstWhile cfg.allBufferSizes)
  | firstHandled {sizes : Nat → Nat} : s.pc = .firstWhile sizes →
      (∀ i < cfg.size, sizes i = 0) → ServerMove cfg s .handle
  | firstLoop {sizes : Nat → Nat} {i : Nat} : s.pc = .firstWhile sizes → i < cfg.size →
      sizes i ≠ 0 → ServerMove cfg s (.firstFor sizes 0)
  | firstEnd {sizes : Nat → Nat} {i : Nat} : s.pc = .firstFor sizes i → ¬ i < cfg.size →
      ServerMove cfg s (.firstWhile sizes)
  | firstSkip {sizes : Nat → Nat} {i : Nat} : s.pc = .firstFor sizes i → i < cfg.size →
      i = rootRank ∨ sizes i = 0 → ServerMove cfg s (.firstFor sizes (i + 1))
  | firstDone {sizes : Nat → Nat} {i : Nat} : s.pc = .firstFor sizes i → cfg.IsClient i →
      sizes i ≠ 0 → s.done cfg → ServerMove cfg s .handle
  | handleDone : s.pc = .handle → s.done cfg → ServerMove cfg s (.sendDone 0)
  | handleNone : s.pc = .handle → ¬ s.done cfg → (∀ i, cfg.IsClient i → s.hasRequest i = false) →
      ServerMove cfg s .yield
  | handleSome {i : Nat} : s.pc = .handle → ¬ s.done cfg → cfg.IsClient i → s.hasRequest i = true →
      ServerMove cfg s (.recvRequest i)
  | sendDoneSkip : s.pc = .sendDone rootRank → ServerMove cfg s (.sendDone (rootRank + 1))
  | sendDoneEnd {i : Nat} : s.pc = .sendDone i → ¬ i < cfg.size → ServerMove cfg s (.waitDone 0)
  | waitDone {i : Nat} : s.pc = .waitDone i → i < cfg.size →
      (i ≠ rootRank → s.completed (.genDone i) = true) → ServerMove cfg s (.waitDone (i + 1))
  | waitDoneEnd {i : Nat} : s.pc = .waitDone i → ¬ i < cfg.size →
      ServerMove cfg s (.recvFinished 0)
  | recvFinishedSkip : s.pc = .recvFinished rootRank →
      ServerMove cfg s (.recvFinished (rootRank + 1))
  | recvFinishedEnd {i : Nat} : s.pc = .recvFinished i → ¬ i < cfg.size → ServerMove cfg s .drain
  | drainSome {i : Nat} : s.pc = .drain → cfg.IsClient i → s.hasRequest i = true →
      ServerMove cfg s (.drainRecv i)
  | drainNone : s.pc = .drain → (∀ i, cfg.IsClient i → s.hasRequest i = false) →
      ServerMove cfg s .finished
  | destroy : s.pc = .finished →
      (∀ i, ∀ k ∈ (s.requests i).items, s.completed (.sendVal k) = true) →
      ServerMove cfg s .destroyed
  | singleRank : s.pc = .start → cfg.size = 1 → ServerMove cfg s .single
  | singleDone : s.pc = .single → s.done cfg → ServerMove cfg s .singleFinished

/-- The branches of client `i`. -/
inductive ClientMove (cfg : Config) (s : Session) (i : Nat) : ClientPc → Prop
  | enterAllGather : (s.client i).pc = .start → cfg.size ≠ 1 → ClientMove cfg s i .allGather
  | leaveAllGather : (s.client i).pc = .allGather → s.AllGatherEntered cfg →
      ClientMove cfg s i (.post (s.client i).requests.reserve)
  | enterBarrier : (s.client i).pc = .post 0 → ClientMove cfg s i .barrier
  | leaveBarrier : (s.client i).pc = .barrier → s.BarrierEntered cfg → ClientMove cfg s i .poll
  | pollSome : (s.client i).pc = .poll → s.hasValInBuffer i = true → ClientMove cfg s i .recv
  | pollNone : (s.client i).pc = .poll → s.hasValInBuffer i = false → ClientMove cfg s i .checkDone
  | checkFlag : (s.client i).pc = .checkDone → (s.client i).leaderGenFinished = true →
      ClientMove cfg s i .recheck
  | checkNone : (s.client i).pc = .checkDone → (s.client i).leaderGenFinished = false →
      (s.toClient i).iprobe ServerMsg.isDone = none → ClientMove cfg s i .poll
  | checkSome : (s.client i).pc = .checkDone → (s.client i).leaderGenFinished = false →
      ((s.toClient i).iprobe ServerMsg.isDone).isSome → ClientMove cfg s i .recvDone
  | recheckSome : (s.client i).pc = .recheck → s.hasValInBuffer i = true → ClientMove cfg s i .recv
  | destroy : (s.client i).pc = .finished →
      ClientMove cfg s i (.cancelling (s.client i).requests.items)
  | skipCancel {q : Nat} {qs : List Nat} : (s.client i).pc = .cancelling (q :: qs) →
      ClientMove cfg s i (.cancelling qs)
  | destroyed : (s.client i).pc = .cancelling [] → ClientMove cfg s i .destroyed

/-! ## Steps -/

/-- The two places that send an element to client `i`, with the program counter
after the `isend`. -/
inductive SendSite (cfg : Config) (s : Session) : Nat → ServerPc → Prop
  | first {sizes : Nat → Nat} {i : Nat} : s.pc = .firstFor sizes i → cfg.IsClient i →
      sizes i ≠ 0 → ¬ s.done cfg → SendSite cfg s i (.firstSent sizes i)
  | answer {i : Nat} : s.pc = .test i → s.frontComplete i = false → SendSite cfg s i .sent

/-- The places of `m_iter++`. -/
inductive AdvanceSite (s : Session) : ServerPc → Prop
  | first {sizes : Nat → Nat} {i : Nat} : s.pc = .firstSent sizes i →
      AdvanceSite s (.firstFor (Function.update sizes i (sizes i - 1)) (i + 1))
  | answer : s.pc = .sent → AdvanceSite s .handle
  | next : s.pc = .next → AdvanceSite s .handle
  | single : s.pc = .singleNext → AdvanceSite s .single

/-- The places where the root's user uses `*m_iter`. -/
inductive UseSite (cfg : Config) (s : Session) : ServerPc → Prop
  | yield : s.pc = .yield → UseSite cfg s .next
  | single : s.pc = .single → ¬ s.done cfg → UseSite cfg s .singleNext

/-- What a step does, as far as another rank or the user can tell. -/
inductive Act
  | control
  | isendVal (i k : Nat)
  | advance (k : Nat)
  | recvRequest (i q : Nat)
  | testPop (i : Nat)
  | serverUse (k : Nat)
  | isendDone (i : Nat)
  | recvFinished (i : Nat)
  | drain (i q : Nat)
  | post (i q : Nat)
  | recvDone (i : Nat)
  | sendFinished (i : Nat)
  | recvVal (i k : Nat)
  | rerequest (i q : Nat)
  | clientUse (i k : Nat)
  | cancel (i q : Nat)
  | deliver
  | complete (r : Request)

namespace Session

/-- `m_comm.isend(i, server_send_val, *m_iter)` and the `push_back` of its
request. -/
def isendVal (s : Session) (i : Nat) (pc : ServerPc) : Session :=
  { s with
    pc := pc
    toClient := Function.update s.toClient i ((s.toClient i).send (.serverSendVal s.iter))
    requests := Function.update s.requests i ((s.requests i).pushBack s.iter)
    sentVals := Function.update s.sentVals i (s.sentVals i ++ [s.iter]) }

/-- The root receives the request `q` of client `i`. -/
def takeRequest (s : Session) (i q : Nat) (pc : ServerPc) : Session :=
  { s with
    pc := pc
    toServer := Function.update s.toServer i ((s.toServer i).recv ClientMsg.isRequest)
    gotRequests := Function.update s.gotRequests i (s.gotRequests i + 1)
    completed := Function.update s.completed (.requestVal i q) true }

/-- Client `i` sends its next request and keeps it in `requests`. -/
def sendRequest (s : Session) (i : Nat) (requests : CircularBuffer Nat) (pc : ClientPc) :
    Session :=
  { s with
    toServer := Function.update s.toServer i
      ((s.toServer i).send (.clientRequestVal (s.client i).posted))
    client := Function.update s.client i
      { s.client i with
        pc := pc
        requests := requests.pushBack (s.client i).posted
        posted := (s.client i).posted + 1 } }

/-- Client `i` receives the element `k` into `m_value`. -/
def recvVal (s : Session) (i k : Nat) : Session :=
  { s with
    toClient := Function.update s.toClient i ((s.toClient i).recv ServerMsg.isVal)
    completed := Function.update s.completed (.sendVal k) true
    client := Function.update s.client i
      { s.client i with
        pc := .rerequest
        value := k
        received := (s.client i).received ++ [k] } }

/-- Client `i` receives `val_gen_done`. -/
def recvDone (s : Session) (i : Nat) : Session :=
  { s with
    toClient := Function.update s.toClient i ((s.toClient i).recv ServerMsg.isDone)
    completed := Function.update s.completed (.genDone i) true
    client := Function.update s.client i
      { s.client i with pc := .recheck, leaderGenFinished := true } }

end Session

/-- The steps of a session. A `recv` waits until its message is visible. -/
inductive Step (cfg : Config) : Session → Act → Session → Prop
  | server {s : Session} {pc : ServerPc} : ServerMove cfg s pc → Step cfg s .control { s with pc }
  | client {s : Session} {i : Nat} {pc : ClientPc} : cfg.IsClient i → ClientMove cfg s i pc →
      Step cfg s .control (s.setClientPc i pc)
  | isendVal {s : Session} {i : Nat} {pc : ServerPc} : SendSite cfg s i pc →
      Step cfg s (.isendVal i s.iter) (s.isendVal i pc)
  | advance {s : Session} {pc : ServerPc} : AdvanceSite s pc →
      Step cfg s (.advance s.iter) { s with pc := pc, iter := s.iter + 1 }
  | serverUse {s : Session} {pc : ServerPc} : UseSite cfg s pc →
      Step cfg s (.serverUse s.iter)
        { s with pc := pc, serverYielded := s.serverYielded ++ [s.iter] }
  | recvRequest {s : Session} {i : Nat} {q : Nat} : s.pc = .recvRequest i →
      (s.toServer i).iprobe ClientMsg.isRequest = some (.clientRequestVal q) →
      Step cfg s (.recvRequest i q) (s.takeRequest i q (.test i))
  | testPop {s : Session} {i : Nat} : s.pc = .test i → s.frontComplete i = true →
      Step cfg s (.testPop i)
        { s with requests := Function.update s.requests i (s.requests i).popFront }
  | isendDone {s : Session} {i : Nat} : s.pc = .sendDone i → cfg.IsClient i →
      Step cfg s (.isendDone i)
        { s with
          pc := .sendDone (i + 1)
          toClient := Function.update s.toClient i ((s.toClient i).send .valGenDone) }
  | recvFinished {s : Session} {i : Nat} : s.pc = .recvFinished i → cfg.IsClient i →
      (s.toServer i).iprobe ClientMsg.isFinished = some .clientFinished →
      Step cfg s (.recvFinished i)
        { s with
          pc := .recvFinished (i + 1)
          toServer := Function.update s.toServer i ((s.toServer i).recv ClientMsg.isFinished) }
  | drain {s : Session} {i : Nat} {q : Nat} : s.pc = .drainRecv i →
      (s.toServer i).iprobe ClientMsg.isRequest = some (.clientRequestVal q) →
      Step cfg s (.drain i q) (s.takeRequest i q .drain)
  | post {s : Session} {i : Nat} {k : Nat} : cfg.IsClient i → (s.client i).pc = .post (k + 1) →
      Step cfg s (.post i (s.client i).posted) (s.sendRequest i (s.client i).requests (.post k))
  | recvDone {s : Session} {i : Nat} : cfg.IsClient i → (s.client i).pc = .recvDone →
      (s.toClient i).iprobe ServerMsg.isDone = some .valGenDone →
      Step cfg s (.recvDone i) (s.recvDone i)
  | recheckNone {s : Session} {i : Nat} : cfg.IsClient i → (s.client i).pc = .recheck →
      s.hasValInBuffer i = false →
      Step cfg s .control
        { s with
          client := Function.update s.client i
            { s.client i with pc := .sendFinished, totallyFinished := true } }
  | sendFinished {s : Session} {i : Nat} : cfg.IsClient i → (s.client i).pc = .sendFinished →
      Step cfg s (.sendFinished i)
        { s.setClientPc i .finished with
          toServer := Function.update s.toServer i ((s.toServer i).send .clientFinished) }
  | recvVal {s : Session} {i : Nat} {k : Nat} : cfg.IsClient i → (s.client i).pc = .recv →
      (s.toClient i).iprobe ServerMsg.isVal = some (.serverSendVal k) →
      Step cfg s (.recvVal i k) (s.recvVal i k)
  | rerequest {s : Session} {i : Nat} : cfg.IsClient i → (s.client i).pc = .rerequest →
      Step cfg s (.rerequest i (s.client i).posted)
        (s.sendRequest i (s.client i).requests.popFront .yield)
  | clientUse {s : Session} {i : Nat} : cfg.IsClient i → (s.client i).pc = .yield →
      Step cfg s (.clientUse i (s.client i).value)
        { s with
          client := Function.update s.client i
            { s.client i with
              pc := .poll
              yielded := (s.client i).yielded ++ [(s.client i).value] } }
  | cancel {s : Session} {i : Nat} {q : Nat} {qs : List Nat} : cfg.IsClient i →
      (s.client i).pc = .cancelling (q :: qs) →
      .clientRequestVal q ∈ (s.toServer i).contents →
      Step cfg s (.cancel i q)
        { s.setClientPc i (.cancelling qs) with
          toServer := Function.update s.toServer i
            ((s.toServer i).cancel (.clientRequestVal q))
          completed := Function.update s.completed (.requestVal i q) true }
  | deliverToClient {s : Session} {i : Nat} :
      Step cfg s .deliver
        { s with toClient := Function.update s.toClient i (s.toClient i).deliver }
  | deliverToServer {s : Session} {i : Nat} :
      Step cfg s .deliver
        { s with toServer := Function.update s.toServer i (s.toServer i).deliver }
  | complete {s : Session} {r : Request} :
      Step cfg s (.complete r) { s with completed := Function.update s.completed r true }

/-- The sessions of a configuration. -/
def sys (cfg : Config) : LTS.Sys Session Act where
  init s := s = Session.initial cfg
  step := Step cfg

/-- `s` is reached by some interleaving. -/
abbrev Reachable (cfg : Config) (s : Session) : Prop := LTS.Reachable (sys cfg) s

/-- Every rank's `done()` holds: no rank calls `next()` again. -/
def AllDone (cfg : Config) (s : Session) : Prop :=
  (s.pc = .finished ∨ s.pc = .destroyed ∨ s.pc = .singleFinished) ∧
    ∀ i, cfg.IsClient i → (s.client i).totallyFinished = true

end SimpleParallel.Schedule
