import RedisProxy.Handlers
import RedisProxy.SessionRuns
import Mathlib.Logic.Relation
import Mathlib.Logic.Function.Basic

/-!
# The proxy

One thread runs the event loop: it accepts connections, decodes what arrives
on them and closes them. Each handler call of the decoder enqueues a
`processer_worker` in one pool, and each `send_reply` of such a worker enqueues
a `sender_worker` in another. The threads of the pools run what is enqueued in
any order and interleaving.

`Step` has one constructor for each thing that happens at once, and its label
says which, with what the environment contributed – the descriptor the kernel
hands out, the bytes read, what a call on the cluster or a `write` returned. A
`sender_worker` takes two steps: it looks the session up and tests
`is_eof_reach`, and then it inserts its reply in the context it has found,
whatever has become of the session meanwhile.

A connection is known by the position of its `SessionCtx`, which it never
shares, whereas descriptors are handed out again after they have been closed
and session ids are counted by a 32-bit counter. The kernel knows which
connection an open descriptor belongs to (`descriptors`) and what has been sent
on it (`sent`). Workers carry the connection they answer, which the code does
not look at.
-/

namespace LogcabinRedisProxy

open Bytes SimpleResp

/-! ## The state -/

/-- An accepted connection, as the event loop has it. -/
structure Connection where
  /-- Its descriptor. -/
  fd : ℤ
  /-- Whether the event loop is registered for reading from it. -/
  registered : Bool
  /-- `clientdata`: the decoder of the connection. -/
  decoder : DecodeContext

/-- `aeDeleteFileEvent`. -/
def Connection.deleteFileEvent (c : Connection) : Connection := { c with registered := false }

/-- The decoder has run. -/
def Connection.setDecoder (decoder : DecodeContext) (c : Connection) : Connection :=
  { c with decoder := decoder }

/-- A `processer_worker`, enqueued, running or done. -/
structure ProcesserJob where
  /-- The connection the request came from. -/
  owner : ℕ
  /-- The session id of that connection's decoder. -/
  sessionId : Int32
  /-- The handler call that enqueued it. -/
  call : HandlerCall
  /-- The calls it has made so far, with what they returned. -/
  made : List (Event WorkerResult)
  /-- What it has left to do. -/
  todo : Prog WorkerResult Unit

/-- A `processer_worker` as it is enqueued. -/
def ProcesserJob.enqueued (owner : ℕ) (sessionId : Int32) (call : HandlerCall) :
    ProcesserJob where
  owner := owner
  sessionId := sessionId
  call := call
  made := []
  todo := processerWorker call.commandId call.request sessionId

/-- A `sender_worker` that has been enqueued. -/
structure SenderJob where
  /-- The connection the reply was computed for. -/
  owner : ℕ
  /-- Its arguments. -/
  reply : SendReply
  deriving DecidableEq

/-- What the thread of the event loop is doing. -/
inductive EventLoop where
  /-- Waiting for the next event. -/
  | waiting
  /-- In `decode`, for a connection, with the handler calls it has yet to make
  and how it will end. -/
  | decoding (p : ℕ) (calls : List HandlerCall) (outcome : Except StdException DecodeContext)
  /-- Left by an exception, which ends the process. -/
  | terminated

/-- **The proxy and what the kernel knows of its connections.** -/
structure Proxy where
  /-- The session table and the contexts. -/
  manager : SessionManager
  /-- The connections accepted so far, in the order of their contexts. -/
  connections : List Connection
  /-- The event loop. -/
  loop : EventLoop
  /-- Every `processer_worker` enqueued so far, in order. -/
  jobs : List ProcesserJob
  /-- The `sender_worker`s that have not run yet. -/
  senders : List SenderJob
  /-- The `sender_worker`s between their two steps, with the context they
  hold. -/
  holding : List (ℕ × SenderJob)
  /-- The replies inserted so far, with the context each was inserted in. -/
  inserted : List (ℕ × SenderJob)
  /-- Which connection an open descriptor belongs to. -/
  descriptors : ℤ → Option ℕ
  /-- What has been sent on a connection. -/
  sent : ℕ → Bytes

/-- What happens in a step, and what the environment contributes to it. -/
inductive Label where
  /-- The kernel hands out a descriptor; `reading_str_size` has some value. -/
  | accept (fd : ℤ) (readingStrSize : UInt64)
  /-- Bytes are read from a connection. -/
  | read (p : ℕ) (command : Bytes)
  /-- The decoder makes its next handler call. -/
  | enqueue
  /-- The decoder is done. -/
  | decoded
  /-- A connection is closed, after a read of no bytes or a failed one. -/
  | disconnect (p : ℕ)
  /-- A `processer_worker` makes a call on the cluster, which returns. -/
  | callTree (c : TreeCall) (r : TreeResult c)
  /-- A `processer_worker` calls `send_reply`. -/
  | sendReply (reply : SendReply)
  /-- A `sender_worker` takes its first step. -/
  | check (job : SenderJob)
  /-- A `sender_worker` takes its second step, on the context it holds, with
  the results of its calls of `write`. -/
  | insert (p : ℕ) (job : SenderJob) (tr : List (Event WriteResult))

namespace Proxy

/-- The proxy before its first event. -/
def start (sessionCounter : Int32) : Proxy where
  manager := .new sessionCounter
  connections := []
  loop := .waiting
  jobs := []
  senders := []
  holding := []
  inserted := []
  descriptors := fun _ => none
  sent := fun _ => []

/-- `accept_tcp_handler`, with the descriptor `anetTcpAccept` returns. -/
def acceptTcpHandler (s : Proxy) (clientFd : ℤ) (readingStrSize : UInt64) : Proxy :=
  let (manager, newSessionId) := s.manager.insertNewStaus clientFd
  { s with
    manager := manager
    connections := s.connections ++ [⟨clientFd, true, .new newSessionId readingStrSize⟩]
    descriptors := Function.update s.descriptors clientFd (some s.manager.ctxs.length) }

/-- `read_from_client` with bytes read: the decoder runs on them. -/
def readFromClient (s : Proxy) (p : ℕ) (decoder : DecodeContext) (command : Bytes) : Proxy :=
  { s with
    loop := .decoding p (receive decoder command).events (receive decoder command).outcome }

/-- `read_from_client` without: `aeDeleteFileEvent`, and the session is
erased. -/
def disconnect (s : Proxy) (p : ℕ) (decoder : DecodeContext) : Proxy :=
  let (manager, closed) := s.manager.eraseSession decoder.sessionId
  { s with
    manager := manager
    connections := s.connections.modify p Connection.deleteFileEvent
    descriptors := closed.elim s.descriptors fun fd => Function.update s.descriptors fd none }

/-- The handler of a connection's decoder: `pThreadPool->enqueue`. -/
def enqueueProcesser (s : Proxy) (p : ℕ) (sessionId : Int32) (call : HandlerCall) : Proxy :=
  { s with jobs := s.jobs ++ [.enqueued p sessionId call] }

/-- The decoder of a connection after `decode`. -/
def setDecoder (s : Proxy) (p : ℕ) (decoder : DecodeContext) : Proxy :=
  { s with
    loop := .waiting
    connections := s.connections.modify p (Connection.setDecoder decoder) }

/-- `sender_worker` up to the test of `is_eof_reach`: the context it goes on
with. -/
def senderCheck (s : Proxy) (sessionId : Int32) : Option ℕ :=
  (s.manager.getCtx sessionId).filter fun p =>
    (s.manager.ctxs[p]?.map SessionCtx.isEofReach) = some false

/-- What has been sent after writes to a descriptor: the bytes go to the
connection that has it open. -/
def sentAfter (s : Proxy) (fd : ℤ) (bytes : Bytes) : ℕ → Bytes :=
  match s.descriptors fd with
  | some p => Function.update s.sent p (s.sent p ++ bytes)
  | none => s.sent

/-- The connection the event loop can be told about: registered, and its
descriptor open. -/
def Watches (s : Proxy) (p : ℕ) (c : Connection) : Prop :=
  s.connections[p]? = some c ∧ c.registered = true ∧ s.descriptors c.fd = some p

/-- **One step of the proxy.** -/
inductive Step : Proxy → Label → Proxy → Prop where
  /-- The kernel hands out a descriptor that is not open. -/
  | accept {s : Proxy} {fd : ℤ} {readingStrSize : UInt64} (hloop : s.loop = .waiting)
      (hfd : 0 ≤ fd) (hclosed : s.descriptors fd = none) :
      Step s (.accept fd readingStrSize) (s.acceptTcpHandler fd readingStrSize)
  /-- A read takes at most `buffer_size - 1` bytes. -/
  | read {s : Proxy} {p : ℕ} {c : Connection} {command : Bytes} (hloop : s.loop = .waiting)
      (hwatch : s.Watches p c) (hcommand : command ≠ [] ∧ command.length ≤ 1023) :
      Step s (.read p command) (s.readFromClient p c.decoder command)
  /-- The handler call carries the session id of the decoder. -/
  | enqueue {s : Proxy} {p : ℕ} {c : Connection} {call : HandlerCall} {calls : List HandlerCall}
      {outcome : Except StdException DecodeContext}
      (hloop : s.loop = .decoding p (call :: calls) outcome) (hc : s.connections[p]? = some c) :
      Step s .enqueue
        { s.enqueueProcesser p c.decoder.sessionId call with
          loop := .decoding p calls outcome }
  /-- `decode` has returned. -/
  | decoded {s : Proxy} {p : ℕ} {decoder : DecodeContext}
      (hloop : s.loop = .decoding p [] (.ok decoder)) : Step s .decoded (s.setDecoder p decoder)
  /-- `decode` has thrown, and nothing catches the exception. -/
  | terminate {s : Proxy} {p : ℕ} {e : StdException}
      (hloop : s.loop = .decoding p [] (.error e)) :
      Step s .decoded { s with loop := .terminated }
  /-- The client has gone, or the read has failed. -/
  | disconnect {s : Proxy} {p : ℕ} {c : Connection} (hloop : s.loop = .waiting)
      (hwatch : s.Watches p c) : Step s (.disconnect p) (s.disconnect p c.decoder)
  /-- Any call on the cluster returns or throws anything. -/
  | callTree {s : Proxy} {before after : List ProcesserJob} {job : ProcesserJob} {c : TreeCall}
      {k : TreeResult c → Prog WorkerResult Unit} (r : TreeResult c)
      (hjobs : s.jobs = before ++ job :: after) (htodo : job.todo = .call (Sum.inl c) k) :
      Step s (.callTree c r)
        { s with
          jobs := before ++
            { job with made := job.made ++ [⟨Sum.inl c, r⟩], todo := k r } :: after }
  /-- `send_reply` enqueues a `sender_worker`. -/
  | sendReply {s : Proxy} {before after : List ProcesserJob} {job : ProcesserJob}
      {reply : SendReply} {k : Unit → Prog WorkerResult Unit}
      (hjobs : s.jobs = before ++ job :: after) (htodo : job.todo = .call (Sum.inr reply) k) :
      Step s (.sendReply reply)
        { s with
          jobs := before ++
            { job with made := job.made ++ [⟨Sum.inr reply, ()⟩], todo := k () } :: after
          senders := s.senders ++ [⟨job.owner, reply⟩] }
  /-- A session that is gone, or has reached its end, is not replied to. -/
  | check {s : Proxy} {before after : List SenderJob} {job : SenderJob}
      (hsenders : s.senders = before ++ job :: after) :
      Step s (.check job)
        { s with
          senders := before ++ after
          holding := s.holding ++
            ((s.senderCheck job.reply.sessionId).map fun p => (p, job)).toList }
  /-- A write to a descriptor that is not open fails. -/
  | insert {s : Proxy} {before after : List (ℕ × SenderJob)} {p : ℕ} {job : SenderJob}
      {ctx ctx' : SessionCtx} {tr : List (Event WriteResult)}
      (hholding : s.holding = before ++ (p, job) :: after)
      (hctx : s.manager.ctxs[p]? = some ctx)
      (hrun : Prog.Exec (ctx.insertNewResponse job.reply.commandId job.reply.response) tr ctx')
      (hclosed : ∀ e ∈ tr, s.descriptors e.1.fd = none → e.2.1 = -1) :
      Step s (.insert p job tr)
        { s with
          manager := s.manager.setCtx p ctx'
          holding := before ++ after
          inserted := s.inserted ++ [(p, job)]
          sent := s.sentAfter ctx.fd (transferred tr) }

/-- **A run whose steps all meet a condition** on the state they are taken in
and on their label. -/
def Runs (condition : Proxy → Label → Prop) : Proxy → Proxy → Prop :=
  Relation.ReflTransGen fun s s' => ∃ l, condition s l ∧ Step s l s'

end Proxy

/-! ## What a worker has left to do -/

/-- **A worker that has yet to reply**: it makes calls on the cluster, then it
calls `send_reply` once, with its own command and session id, and is done. -/
inductive RepliesOnce (commandId sessionId : Int32) : Prog WorkerResult Unit → Prop where
  | callTree {c : TreeCall} {k : TreeResult c → Prog WorkerResult Unit}
      (h : ∀ r, RepliesOnce commandId sessionId (k r)) :
      RepliesOnce commandId sessionId (.call (Sum.inl c) k)
  | sendReply (response : Bytes) :
      RepliesOnce commandId sessionId
        (.call (Sum.inr ⟨commandId, sessionId, response⟩) .pure)

variable {commandId sessionId : Int32}

theorem RepliesOnce.of_callTree {c : TreeCall} {k : TreeResult c → Prog WorkerResult Unit}
    (h : RepliesOnce commandId sessionId (.call (Sum.inl c) k)) (r : TreeResult c) :
    RepliesOnce commandId sessionId (k r) := by
  cases h with
  | callTree h => exact h r

theorem RepliesOnce.of_sendReply {reply : SendReply} {k : Unit → Prog WorkerResult Unit}
    (h : RepliesOnce commandId sessionId (.call (Sum.inr reply) k)) :
    reply.commandId = commandId ∧ reply.sessionId = sessionId ∧ k () = .pure () := by
  cases h with
  | sendReply response => exact ⟨rfl, rfl, rfl⟩

theorem not_repliesOnce_pure : ¬ RepliesOnce commandId sessionId (.pure ()) := nofun

/-- **Every worker starts out so**, whatever the request. -/
theorem repliesOnce_processerWorker (request : List Bytes) :
    RepliesOnce commandId sessionId (processerWorker commandId request sessionId) := by
  unfold processerWorker
  induction handle (commandOf request) request with
  | pure res => exact RepliesOnce.sendReply res.response
  | call c k ih => exact RepliesOnce.callTree ih

end LogcabinRedisProxy
