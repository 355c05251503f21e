import RedisProxy.FreshStart
import RedisProxy.Accounting
import RedisProxy.Library.Paths

/-!
# A client's requests are its own

All connections share one event loop, one session table and two pools, and what
arrives on them is decoded in the order in which it comes. Still the requests of
a client are what the decoder makes of the bytes read from that client, in any
run: whatever other clients send, whoever connects or leaves, whichever
descriptors and session ids are handed out again, and whatever becomes of the
workers (`exists_decodes_of_trace`).

So two clients that have sent the same bytes have the same requests under the
same numbers, be it in two different runs, and one that has sent less has a
beginning of them (`calls_prefix_of_traces`). Nothing else that happens in a run
has a say in it, not even the value `reading_str_size` had to start with.

A `Trace` is a run with what has happened in it, so that it says what has been
read.
-/

namespace SimpleResp

/-- Two new contexts have the same before them, whatever session they are for and
whatever the memory held. -/
theorem sameAhead_new (sessionId sessionId' : Int32) (readingStrSize readingStrSize' : UInt64) :
    SameAhead 0 (.new sessionId readingStrSize) (.new sessionId' readingStrSize') where
  lastCommandId := (Int32.add_zero 0).symm
  state := rfl
  reqList := rfl
  readingListSize h := absurd rfl h
  readingStrSize := nofun

theorem HandlerCall.later_zero : HandlerCall.later 0 = id :=
  funext fun call => congrArg (HandlerCall.mk · call.request) (Int32.add_zero call.commandId)

/-- **The calls of a new context are decided by the bytes it reads**: they are a
beginning of those of another one that reads the same bytes and more, in whatever
chunks the two of them read, as long as the buffer of the other one stays short. -/
theorem prefix_events_receiveAll_new {sessionId sessionId' : Int32}
    {readingStrSize readingStrSize' : UInt64} {chunks chunks' : List Bytes}
    (hfit : BuffersFit (.new sessionId' readingStrSize') chunks')
    (h : chunks.flatten <+: chunks'.flatten) :
    (receiveAll (.new sessionId readingStrSize) chunks).events
      <+: (receiveAll (.new sessionId' readingStrSize') chunks').events := by
  have halike := (sameAhead_new sessionId' sessionId readingStrSize' readingStrSize).receiveAll
    rfl chunks
  rw [halike.events, HandlerCall.later_zero, List.map_id, receiveAll_eq_run (settled_new _ _) hfit,
    Traced.events_map]
  exact prefix_events_run sessionId' readingStrSize' h

end SimpleResp

namespace LogcabinRedisProxy

open Bytes SimpleResp

/-- What a step reads from a connection. -/
def Label.bytesFrom (p : ℕ) : Label → List Bytes
  | .read q command => if q = p then [command] else []
  | _ => []

namespace Proxy

/-! ## Runs with what has happened in them -/

/-- **A run whose steps all meet a condition**, with their labels. -/
def Trace (condition : Proxy → Label → Prop) : Proxy → List Label → Proxy → Prop :=
  LabelledPath fun s l s' => condition s l ∧ Step s l s'

theorem Trace.runs {condition : Proxy → Label → Prop} {s s' : Proxy} {labels : List Label}
    (h : Trace condition s labels s') : Runs condition s s' :=
  h.reflTransGen

theorem Trace.step {condition : Proxy → Label → Prop} {s s' s'' : Proxy} {labels : List Label}
    {l : Label} (h : Trace condition s labels s') (hc : condition s' l) (hs : Step s' l s'') :
    Trace condition s (labels ++ [l]) s'' :=
  LabelledPath.step h ⟨hc, hs⟩

/-- **The bytes read from a connection**, in the chunks of the reads. -/
def bytesFrom (p : ℕ) (labels : List Label) : List Bytes := labels.flatMap (Label.bytesFrom p)

/-- What is read from a connection does not make its buffer reach `2^31` bytes. -/
def ShortReads (p : ℕ) (labels : List Label) : Prop :=
  ∀ (sessionId : Int32) (readingStrSize : UInt64),
    BuffersFit (.new sessionId readingStrSize) (bytesFrom p labels)

theorem shortReads_of_lt {p : ℕ} {labels : List Label}
    (h : (bytesFrom p labels).flatten.length < 2 ^ 31) : ShortReads p labels :=
  fun _ _ => buffersFit_of_lt h

/-- All reads are short if there is one that is. -/
theorem shortReads_of_one {q : ℕ} {command : Bytes} (labels labels' : List Label)
    (h : ∀ p, bytesFrom p labels = [] ∧ bytesFrom p labels' = [])
    (hlt : command.length < 2 ^ 31) (p : ℕ) :
    ShortReads p (labels ++ .read q command :: labels') := by
  refine shortReads_of_lt ?_
  have hbytes : bytesFrom p (labels ++ .read q command :: labels')
      = if q = p then [command] else [] := by
    rw [bytesFrom, List.flatMap_append, List.flatMap_cons]
    show bytesFrom p labels ++ (_ ++ bytesFrom p labels') = _
    rw [(h p).1, (h p).2, List.nil_append, List.append_nil]
    rfl
  rw [hbytes]
  split
  · rwa [List.flatten_singleton]
  · exact Nat.two_pow_pos 31

/-- What the proxy does by itself: nothing is accepted, read or closed. -/
def ByItself (_ : Proxy) : Label → Prop
  | .accept _ _ => False
  | .read _ _ => False
  | .disconnect _ => False
  | _ => True

/-- The handler calls the decoder has yet to make for a connection. -/
def pending (s : Proxy) (p : ℕ) : List HandlerCall :=
  match s.loop with
  | .decoding q calls _ => if q = p then calls else []
  | _ => []

/-- **What a connection has come to is what its decoder makes of the bytes read
from it.** -/
structure Decodes (s : Proxy) (p : ℕ) (new : DecodeContext) (chunks : List Bytes) : Prop where
  /-- Its requests, and those about to be dispatched. -/
  calls : (s.jobsOf p).map ProcesserJob.call ++ s.pending p = (receiveAll new chunks).events
  /-- Its decoder, between two reads. -/
  connection : ∃ c, s.connections[p]? = some c ∧ c.decoder.sessionId = new.sessionId
    ∧ (s.BetweenReads p → (receiveAll new chunks).outcome = .ok c.decoder)
  /-- How decoding is going to end. -/
  outcome : ∀ calls outcome, s.loop = .decoding p calls outcome →
    (receiveAll new chunks).outcome = outcome
  /-- The session the workers reply to. -/
  sessions : ∀ job ∈ s.jobsOf p, job.sessionId = new.sessionId

/-! ## What a step does to a connection -/

variable {s s' : Proxy} {p : ℕ} {new : DecodeContext} {chunks : List Bytes} {l : Label}

theorem pending_of_decoding {calls : List HandlerCall}
    {outcome : Except StdException DecodeContext} (h : s.loop = .decoding p calls outcome) :
    s.pending p = calls := by
  unfold pending
  rw [h]
  exact if_pos rfl

theorem pending_of_ne (h : ∀ calls outcome, s.loop ≠ .decoding p calls outcome) :
    s.pending p = [] := by
  unfold pending
  cases hloop : s.loop with
  | waiting => rfl
  | decoding q calls outcome =>
    refine if_neg ?_
    rintro rfl
    exact h calls outcome hloop
  | terminated => rfl

/-- **Steps that leave the decoder of a connection alone.** -/
theorem Decodes.of_elsewhere (h : Decodes s p new chunks) (hloop : s'.loop = s.loop)
    (hconn : s'.connections[p]?.map Connection.decoder
      = s.connections[p]?.map Connection.decoder)
    (hjobs : (s'.jobsOf p).map (fun job => (job.call, job.sessionId))
      = (s.jobsOf p).map fun job => (job.call, job.sessionId)) :
    Decodes s' p new chunks := by
  obtain ⟨c, hc, hid, hdec⟩ := h.connection
  have hpending : s'.pending p = s.pending p := by
    unfold pending
    rw [hloop]
  have hcalls : (s'.jobsOf p).map ProcesserJob.call = (s.jobsOf p).map ProcesserJob.call := by
    have hmap := congrArg (List.map Prod.fst) hjobs
    rwa [List.map_map, List.map_map] at hmap
  rw [hc, Option.map_some] at hconn
  obtain ⟨c', hc', hdecoder⟩ := Option.map_eq_some_iff.mp hconn
  refine
    { calls := by rw [hcalls, hpending, h.calls]
      connection := ⟨c', hc', hdecoder ▸ hid, fun hb => ?_⟩
      outcome := fun calls outcome hl => h.outcome calls outcome (hloop ▸ hl)
      sessions := fun job hjob => ?_ }
  · rw [hdecoder]
    exact hdec ⟨hloop ▸ hb.decoding, hloop ▸ hb.alive⟩
  · have hmem : (job.call, job.sessionId)
        ∈ (s.jobsOf p).map fun job => (job.call, job.sessionId) :=
      hjobs ▸ List.mem_map_of_mem hjob
    obtain ⟨job', hjob', heq⟩ := List.mem_map.mp hmem
    exact (Prod.mk.inj heq).2 ▸ h.sessions job' hjob'

/-- A connection that has just been accepted has read nothing. -/
theorem decodes_acceptTcpHandler (s : Proxy) (fd : ℤ) (readingStrSize : UInt64)
    (hloop : s.loop = .waiting) (howners : ∀ job ∈ s.jobs, job.owner < s.connections.length) :
    Decodes (s.acceptTcpHandler fd readingStrSize) s.connections.length
      (.new s.manager.getNextSessionCounterNumber readingStrSize) [] := by
  have hjobs : (s.acceptTcpHandler fd readingStrSize).jobsOf s.connections.length = [] := by
    refine List.filter_eq_nil_iff.mpr fun job hjob => ?_
    rw [decide_eq_true_eq]
    exact Nat.ne_of_lt (howners job hjob)
  have hwaiting : (s.acceptTcpHandler fd readingStrSize).loop = .waiting := hloop
  refine
    { calls := ?_
      connection := ⟨_, by rw [connections_acceptTcpHandler, if_pos rfl], rfl, fun _ => rfl⟩
      outcome := fun calls outcome hl => nomatch hwaiting.symm.trans hl
      sessions := ?_ }
  · rw [hjobs, pending_of_ne (by rw [hwaiting]; exact nofun)]
    rfl
  · rw [hjobs]
    exact fun _ hmem => absurd hmem List.not_mem_nil

/-- Bytes are read from the connection. -/
theorem Decodes.read_self (h : Decodes s p new chunks) (hloop : s.loop = .waiting)
    {c : Connection} (hc : s.connections[p]? = some c) (command : Bytes) :
    Decodes (s.readFromClient p c.decoder command) p new (chunks ++ [command]) := by
  obtain ⟨c', hc', hid, hdec⟩ := h.connection
  obtain rfl := Option.some.inj (hc'.symm.trans hc)
  have hok := hdec ⟨by rw [hloop]; exact nofun, by rw [hloop]; exact nofun⟩
  have hnow : receiveAll new (chunks ++ [command])
      = ⟨(receiveAll new chunks).events ++ (receive c'.decoder command).events,
        (receive c'.decoder command).outcome⟩ := by
    rw [receiveAll_concat, Traced.bind_of_ok hok]
  have hcalls := h.calls
  rw [pending_of_ne (by rw [hloop]; exact nofun), List.append_nil] at hcalls
  refine
    { calls := ?_
      connection := ⟨c', hc', hid, fun hb => absurd rfl (hb.decoding _ _)⟩
      outcome := fun calls outcome hl => ?_
      sessions := h.sessions }
  · rw [hnow, pending_of_decoding rfl, ← hcalls]
    rfl
  · obtain ⟨-, -, rfl⟩ := EventLoop.decoding.inj hl
    rw [hnow]

/-- Bytes are read from another connection. -/
theorem Decodes.read_of_ne (h : Decodes s p new chunks) (hloop : s.loop = .waiting) {q : ℕ}
    (hq : q ≠ p) (decoder : DecodeContext) (command : Bytes) :
    Decodes (s.readFromClient q decoder command) p new chunks := by
  obtain ⟨c, hc, hid, hdec⟩ := h.connection
  have hother : ∀ calls outcome, (s.readFromClient q decoder command).loop
      ≠ .decoding p calls outcome := fun _ _ hl => hq (EventLoop.decoding.inj hl).1
  have hcalls := h.calls
  rw [pending_of_ne (by rw [hloop]; exact nofun)] at hcalls
  refine
    { calls := by rw [pending_of_ne hother]; exact hcalls
      connection := ⟨c, hc, hid, fun _ =>
        hdec ⟨by rw [hloop]; exact nofun, by rw [hloop]; exact nofun⟩⟩
      outcome := fun _ _ hl => absurd hl (hother _ _)
      sessions := h.sessions }

section Enqueue

variable {q : ℕ} {c : Connection} {call : HandlerCall} {calls : List HandlerCall}
  {outcome : Except StdException DecodeContext}

/-- The decoder of a connection makes its next handler call. -/
theorem Decodes.enqueue (h : Decodes s p new chunks)
    (hloop : s.loop = .decoding q (call :: calls) outcome) (hc : s.connections[q]? = some c) :
    Decodes { s.enqueueProcesser q c.decoder.sessionId call with
      loop := .decoding q calls outcome } p new chunks := by
  obtain ⟨c', hc', hid, hdec⟩ := h.connection
  by_cases hq : q = p
  · subst hq
    obtain rfl := Option.some.inj (hc'.symm.trans hc)
    have hjobs := jobsOf_enqueue_self s q c'.decoder.sessionId call
    refine
      { calls := ?_
        connection := ⟨c', hc', hid, fun hb => absurd rfl (hb.decoding calls outcome)⟩
        outcome := fun calls' outcome' hl => ?_
        sessions := ?_ }
    · have hcalls := h.calls
      rw [pending_of_decoding hloop] at hcalls
      rw [pending_of_decoding rfl, ← hcalls]
      show ((s.enqueueProcesser q _ call).jobsOf q).map _ ++ calls = _
      rw [hjobs, List.map_append, List.append_assoc]
      rfl
    · obtain ⟨-, -, rfl⟩ := EventLoop.decoding.inj hl
      exact h.outcome _ _ hloop
    · show ∀ job ∈ (s.enqueueProcesser q _ call).jobsOf q, _
      rw [hjobs]
      exact List.forall_mem_append.mpr ⟨h.sessions, List.forall_mem_singleton.mpr hid⟩
  · have hjobs : (s.enqueueProcesser q c.decoder.sessionId call).jobsOf p = s.jobsOf p :=
      jobsOf_enqueue_of_ne hq call
    have hbefore : s.pending p = [] :=
      pending_of_ne fun _ _ hl => hq (EventLoop.decoding.inj (hloop.symm.trans hl)).1
    refine
      { calls := ?_
        connection := ⟨c', hc', hid, fun _ => hdec (.of_decoding hloop hq)⟩
        outcome := fun _ _ hl => absurd (EventLoop.decoding.inj hl).1 hq
        sessions := ?_ }
    · have hcalls := h.calls
      rw [hbefore] at hcalls
      rw [pending_of_ne fun _ _ hl => hq (EventLoop.decoding.inj hl).1, ← hcalls]
      exact congrArg (fun jobs => jobs.map ProcesserJob.call ++ []) hjobs
    · show ∀ job ∈ (s.enqueueProcesser q _ call).jobsOf p, _
      rw [hjobs]
      exact h.sessions

end Enqueue

/-- The decoder of a connection is done. -/
theorem Decodes.decoded (h : Decodes s p new chunks) {q : ℕ} {decoder : DecodeContext}
    (hloop : s.loop = .decoding q [] (.ok decoder))
    (hid : ∀ c, s.connections[q]? = some c → decoder.sessionId = c.decoder.sessionId) :
    Decodes (s.setDecoder q decoder) p new chunks := by
  obtain ⟨c, hc, hsession, hdec⟩ := h.connection
  have hget : (s.setDecoder q decoder).connections[p]?
      = some (if q = p then c.setDecoder decoder else c) := by
    show (s.connections.modify q _)[p]? = _
    rw [List.getElem?_modify, hc]
    split <;> rfl
  have hpending : s.pending p = [] := by
    by_cases hq : q = p
    · exact pending_of_decoding (hq ▸ hloop)
    · exact pending_of_ne fun _ _ hl => hq (EventLoop.decoding.inj (hloop.symm.trans hl)).1
  have hdone : ∀ calls outcome, (s.setDecoder q decoder).loop ≠ .decoding p calls outcome := nofun
  have hcalls := h.calls
  rw [hpending] at hcalls
  refine
    { calls := by rw [pending_of_ne hdone]; exact hcalls
      connection := ⟨_, hget, ?_⟩
      outcome := fun _ _ hl => absurd hl (hdone _ _)
      sessions := h.sessions }
  split
  · rename_i hq
    subst hq
    exact ⟨(hid c hc).trans hsession, fun _ => h.outcome _ _ hloop⟩
  · rename_i hq
    exact ⟨hsession, fun _ => hdec (.of_decoding hloop hq)⟩

/-- The decoder of a connection has thrown. -/
theorem Decodes.terminate (h : Decodes s p new chunks) {q : ℕ} {e : StdException}
    (hloop : s.loop = .decoding q [] (.error e)) :
    Decodes { s with loop := .terminated } p new chunks := by
  obtain ⟨c, hc, hid, -⟩ := h.connection
  have hpending : s.pending p = [] := by
    by_cases hq : q = p
    · exact pending_of_decoding (hq ▸ hloop)
    · exact pending_of_ne fun _ _ hl => hq (EventLoop.decoding.inj (hloop.symm.trans hl)).1
  have hdone : ∀ calls outcome,
      ({ s with loop := .terminated } : Proxy).loop ≠ .decoding p calls outcome := nofun
  have hcalls := h.calls
  rw [hpending] at hcalls
  exact
    { calls := by rw [pending_of_ne hdone]; exact hcalls
      connection := ⟨c, hc, hid, fun hb => absurd rfl hb.alive⟩
      outcome := fun _ _ hl => absurd hl (hdone _ _)
      sessions := h.sessions }

/-! ## Every run -/

/-- **The invariant of all runs**, of what has been read from a connection and what
it has come to. -/
structure Heard (p : ℕ) (labels : List Label) (s : Proxy) : Prop where
  /-- Workers are those of connections. -/
  owners : ∀ job ∈ s.jobs, job.owner < s.connections.length
  /-- The decoder keeps the session id. -/
  loop : ∀ q calls decoder, s.loop = .decoding q calls (.ok decoder) →
    ∀ c, s.connections[q]? = some c → decoder.sessionId = c.decoder.sessionId
  /-- Nothing is read from a connection before it is accepted. -/
  absent : s.connections.length ≤ p → bytesFrom p labels = []
  /-- From then on its requests are what its decoder makes of what is read. -/
  present : p < s.connections.length → ∃ (sessionId : Int32) (readingStrSize : UInt64),
    Decodes s p (.new sessionId readingStrSize) (bytesFrom p labels)

theorem heard_start (sessionCounter : Int32) (p : ℕ) : Heard p [] (start sessionCounter) where
  owners _ h := absurd h List.not_mem_nil
  loop _ _ _ h := nomatch h
  absent _ := rfl
  present h := absurd h (Nat.not_lt_zero p)

variable {labels : List Label}

theorem bytesFrom_concat (p : ℕ) (labels : List Label) (l : Label) :
    bytesFrom p (labels ++ [l]) = bytesFrom p labels ++ l.bytesFrom p := by
  unfold bytesFrom
  rw [List.flatMap_append, List.flatMap_singleton]

/-- A step that reads nothing. -/
theorem bytesFrom_of_nil (h : l.bytesFrom p = []) :
    bytesFrom p (labels ++ [l]) = bytesFrom p labels := by
  rw [bytesFrom_concat, h, List.append_nil]

/-- **Nothing is read while the proxy is left alone.** -/
theorem bytesFrom_of_byItself {labels' : List Label}
    (h : Trace (fun s l => s.ByItself l) s labels' s') :
    bytesFrom p (labels ++ labels') = bytesFrom p labels := by
  have hnil : bytesFrom p labels' = [] := by
    refine h.invariant (I := fun labels' _ => bytesFrom p labels' = []) rfl
      fun labels' s₁ l s₂ hlabels hs => ?_
    rw [bytesFrom_of_nil, hlabels]
    cases l with
    | read q command => exact hs.1.elim
    | _ => rfl
  show (labels ++ labels').flatMap _ = _
  rw [List.flatMap_append]
  exact (congrArg _ hnil).trans (List.append_nil _)

/-- Bytes are read from the connection. -/
theorem bytesFrom_read_self (command : Bytes) :
    bytesFrom p (labels ++ [.read p command]) = bytesFrom p labels ++ [command] :=
  (bytesFrom_concat _ _ _).trans (congrArg _ (if_pos rfl))

/-- Bytes are read from another connection. -/
theorem bytesFrom_read_of_ne {q : ℕ} (hq : q ≠ p) (command : Bytes) :
    bytesFrom p (labels ++ [.read q command]) = bytesFrom p labels :=
  bytesFrom_of_nil (show (if q = p then [command] else []) = [] from if_neg hq)

/-- **Steps that leave the event loop and the decoders alone.** -/
theorem Heard.of_elsewhere (h : Heard p labels s) (hl : l.bytesFrom p = [])
    (hloop : s'.loop = s.loop) (hconn : s'.connections = s.connections)
    (howners : ∀ job ∈ s'.jobs, job.owner < s.connections.length)
    (hjobs : (s'.jobsOf p).map (fun job => (job.call, job.sessionId))
      = (s.jobsOf p).map fun job => (job.call, job.sessionId)) :
    Heard p (labels ++ [l]) s' where
  owners := hconn ▸ howners
  loop := by
    rw [hloop, hconn]
    exact h.loop
  absent hp := by
    rw [bytesFrom_of_nil hl]
    exact h.absent (hconn ▸ hp)
  present hp := by
    obtain ⟨sessionId, readingStrSize, hdec⟩ := h.present (hconn ▸ hp)
    rw [bytesFrom_of_nil hl]
    exact ⟨sessionId, readingStrSize, hdec.of_elsewhere hloop (by rw [hconn]) hjobs⟩

/-- A worker makes a call. -/
theorem Heard.progress (h : Heard p labels s) (hl : l.bytesFrom p = [])
    {before after : List ProcesserJob} {job job' : ProcesserJob}
    {senders : List SenderJob} (hjobs : s.jobs = before ++ job :: after)
    (howner : job'.owner = job.owner)
    (hsame : (job'.call, job'.sessionId) = (job.call, job.sessionId)) :
    Heard p (labels ++ [l]) { s with jobs := before ++ job' :: after, senders := senders } := by
  refine h.of_elsewhere hl rfl rfl ?_ ?_
  · refine forall_mem_replace (hjobs ▸ h.owners) ?_
    rw [howner]
    exact h.owners job (hjobs ▸ List.mem_append_cons_self)
  · unfold jobsOf
    rw [hjobs]
    exact map_jobsOf_progress _ howner hsame

/-- A connection is accepted. -/
theorem Heard.accept (h : Heard p labels s) (hloop : s.loop = .waiting) (fd : ℤ)
    (readingStrSize : UInt64) :
    Heard p (labels ++ [.accept fd readingStrSize]) (s.acceptTcpHandler fd readingStrSize) := by
  have hlen : (s.acceptTcpHandler fd readingStrSize).connections.length
      = s.connections.length + 1 := List.length_append
  have hbytes : bytesFrom p (labels ++ [.accept fd readingStrSize]) = bytesFrom p labels :=
    bytesFrom_of_nil rfl
  refine
    { owners := fun job hjob => hlen ▸ Nat.lt_succ_of_lt (h.owners job hjob)
      loop := fun q calls decoder hdec => nomatch hloop.symm.trans hdec
      absent := fun hp => ?_
      present := fun hp => ?_ }
  · rw [hbytes]
    exact h.absent (by omega)
  rw [hbytes]
  by_cases hlt : p < s.connections.length
  · obtain ⟨sessionId, size, hdec⟩ := h.present hlt
    refine ⟨sessionId, size, hdec.of_elsewhere rfl ?_ rfl⟩
    rw [connections_acceptTcpHandler, if_neg (Nat.ne_of_lt hlt)]
  · obtain rfl : p = s.connections.length := by omega
    rw [h.absent le_rfl]
    exact ⟨_, _, decodes_acceptTcpHandler s fd readingStrSize hloop h.owners⟩

/-- Bytes are read from a connection. -/
theorem Heard.read (h : Heard p labels s) (hloop : s.loop = .waiting) {q : ℕ} {c : Connection}
    (hc : s.connections[q]? = some c) (command : Bytes) :
    Heard p (labels ++ [.read q command]) (s.readFromClient q c.decoder command) := by
  refine
    { owners := h.owners
      loop := fun q' calls decoder hdec c' hc' => ?_
      absent := fun hp => ?_
      present := fun hp => ?_ }
  · obtain ⟨rfl, -, hok⟩ := EventLoop.decoding.inj hdec
    obtain rfl := Option.some.inj (hc.symm.trans hc')
    exact sessionId_receive hok
  · -- the connection read from has been accepted
    have hq : q ≠ p := Nat.ne_of_lt (lt_of_lt_of_le (List.getElem?_eq_some_iff.mp hc).1 hp)
    rw [bytesFrom_read_of_ne hq]
    exact h.absent hp
  · obtain ⟨sessionId, size, hdec⟩ := h.present hp
    refine ⟨sessionId, size, ?_⟩
    by_cases hq : q = p
    · subst hq
      rw [bytesFrom_read_self]
      exact hdec.read_self hloop hc command
    · rw [bytesFrom_read_of_ne hq]
      exact hdec.read_of_ne hloop hq c.decoder command

/-- The decoder makes a handler call. -/
theorem Heard.enqueue (h : Heard p labels s) {q : ℕ} {c : Connection} {call : HandlerCall}
    {calls : List HandlerCall} {outcome : Except StdException DecodeContext}
    (hloop : s.loop = .decoding q (call :: calls) outcome) (hc : s.connections[q]? = some c) :
    Heard p (labels ++ [.enqueue]) { s.enqueueProcesser q c.decoder.sessionId call with
      loop := .decoding q calls outcome } := by
  have hbytes : bytesFrom p (labels ++ [.enqueue]) = bytesFrom p labels := bytesFrom_of_nil rfl
  refine
    { owners := List.forall_mem_append.mpr
        ⟨h.owners, List.forall_mem_singleton.mpr (List.getElem?_eq_some_iff.mp hc).1⟩
      loop := fun q' calls' decoder hdec => ?_
      absent := fun hp => hbytes ▸ h.absent hp
      present := fun hp => ?_ }
  · obtain ⟨rfl, -, rfl⟩ := EventLoop.decoding.inj hdec
    exact h.loop _ _ _ hloop
  · obtain ⟨sessionId, size, hdec⟩ := h.present hp
    exact ⟨sessionId, size, hbytes ▸ hdec.enqueue hloop hc⟩

/-- A decoder has run, and its connection is told. -/
theorem Heard.decoded (h : Heard p labels s) {q : ℕ} {decoder : DecodeContext}
    (hloop : s.loop = .decoding q [] (.ok decoder)) :
    Heard p (labels ++ [.decoded]) (s.setDecoder q decoder) := by
  have hbytes : bytesFrom p (labels ++ [.decoded]) = bytesFrom p labels := bytesFrom_of_nil rfl
  have hlen : (s.setDecoder q decoder).connections.length = s.connections.length :=
    List.length_modify _ _ _
  refine
    { owners := fun job hjob => hlen ▸ h.owners job hjob
      loop := fun q' calls' decoder' hdec => nomatch hdec
      absent := fun hp => hbytes ▸ h.absent (hlen ▸ hp)
      present := fun hp => ?_ }
  obtain ⟨sessionId, size, hdec⟩ := h.present (hlen ▸ hp)
  exact ⟨sessionId, size, hbytes ▸ hdec.decoded hloop (h.loop _ _ _ hloop)⟩

/-- **Every step keeps it.** -/
theorem Heard.step (h : Heard p labels s) (hs : Step s l s') : Heard p (labels ++ [l]) s' := by
  cases hs with
  | accept hloop hfd hclosed => exact h.accept hloop _ _
  | read hloop hwatch hcommand => exact h.read hloop hwatch.1 _
  | enqueue hloop hc => exact h.enqueue hloop hc
  | decoded hloop => exact h.decoded hloop
  | terminate hloop =>
    have hbytes : bytesFrom p (labels ++ [.decoded]) = bytesFrom p labels := bytesFrom_of_nil rfl
    refine
      { owners := h.owners
        loop := fun q' calls' decoder' hdec => nomatch hdec
        absent := fun hp => hbytes ▸ h.absent hp
        present := fun hp => ?_ }
    obtain ⟨sessionId, size, hdec⟩ := h.present hp
    exact ⟨sessionId, size, hbytes ▸ hdec.terminate hloop⟩
  | disconnect hloop hwatch =>
    rename_i q c
    have hlen : (s.disconnect q c.decoder).connections.length = s.connections.length :=
      List.length_modify _ _ _
    have hbytes : bytesFrom p (labels ++ [.disconnect q]) = bytesFrom p labels :=
      bytesFrom_of_nil rfl
    refine
      { owners := fun job hjob => hlen ▸ h.owners job hjob
        loop := fun q' calls decoder hdec => nomatch hloop.symm.trans hdec
        absent := fun hp => hbytes ▸ h.absent (hlen ▸ hp)
        present := fun hp => ?_ }
    obtain ⟨sessionId, size, hdec⟩ := h.present (hlen ▸ hp)
    refine ⟨sessionId, size, hbytes ▸ hdec.of_elsewhere rfl ?_ rfl⟩
    rw [← List.getElem?_map, ← List.getElem?_map]
    exact congrArg (fun decoders : List DecodeContext => decoders[p]?)
      (map_modify_of_eq _ Connection.deleteFileEvent fun _ _ => rfl)
  | callTree r hjobs htodo => exact h.progress rfl hjobs rfl rfl
  | sendReply hjobs htodo => exact h.progress rfl hjobs rfl rfl
  | check hsenders => exact h.of_elsewhere rfl rfl rfl h.owners rfl
  | insert hholding hctx hrun hclosed => exact h.of_elsewhere rfl rfl rfl h.owners rfl

theorem Heard.trace {condition : Proxy → Label → Prop} {sessionCounter : Int32}
    (ht : Trace condition (start sessionCounter) labels s) (p : ℕ) : Heard p labels s :=
  ht.invariant (I := Heard p) (heard_start sessionCounter p) fun _ _ _ _ h hs => h.step hs.2

/-- **The requests of a connection are what its decoder makes of the bytes read from
it**, in every run. -/
theorem exists_decodes_of_trace {condition : Proxy → Label → Prop} {sessionCounter : Int32}
    (ht : Trace condition (start sessionCounter) labels s) (hp : p < s.connections.length) :
    ∃ (sessionId : Int32) (readingStrSize : UInt64),
      Decodes s p (.new sessionId readingStrSize) (bytesFrom p labels) :=
  (Heard.trace ht p).present hp

/-- **Isolation of the clients.** In any two runs, of which each may do to its other
clients, to the pools and to the cluster whatever can happen, the requests of a
connection are, with their numbers and in their order, a beginning of those of
another one that has sent the same bytes or more, in reads that keep its buffer
short. -/
theorem calls_prefix_of_traces {sessionCounter sessionCounter' : Int32}
    {labels' : List Label} {q : ℕ}
    (ht : Trace (fun _ _ => True) (start sessionCounter) labels s)
    (ht' : Trace (fun _ _ => True) (start sessionCounter') labels' s')
    (hp : p < s.connections.length) (hq : q < s'.connections.length)
    (hshort : ShortReads q labels')
    (hbytes : (bytesFrom p labels).flatten <+: (bytesFrom q labels').flatten) :
    (s.jobsOf p).map ProcesserJob.call ++ s.pending p
      <+: (s'.jobsOf q).map ProcesserJob.call ++ s'.pending q := by
  obtain ⟨sessionId, readingStrSize, hdec⟩ := exists_decodes_of_trace ht hp
  obtain ⟨sessionId', readingStrSize', hdec'⟩ := exists_decodes_of_trace ht' hq
  rw [hdec.calls, hdec'.calls]
  exact prefix_events_receiveAll_new (hshort _ _) hbytes

/-- A client has sent a request, and all of it has been read at once. -/
def readAtOnce : Proxy :=
  ((start 0).acceptTcpHandler 5 0).readFromClient 0 (.new 1 0) (ofString "*1\r\n$1\r\nX\r\n")

/-- A second client has sent the same, which is being read in two chunks. -/
def readInChunks : Proxy :=
  ((((start 0).acceptTcpHandler 7 0).acceptTcpHandler 5 99).setDecoder 1
    { DecodeContext.new 2 99 with state := .parseElements, readingListSize := 1 }).readFromClient 1
      { DecodeContext.new 2 99 with state := .parseElements, readingListSize := 1 }
      (ofString "$1\r\nX\r\n")

theorem trace_readAtOnce :
    Trace (Undisturbed 0) (start 0)
      [.accept 5 0, .read 0 (ofString "*1\r\n$1\r\nX\r\n")] readAtOnce := by
  have haccept : Trace (Undisturbed 0) (start 0) [.accept 5 0] _ :=
    Trace.step .refl (exclusive_start 0 5 0) (Step.accept rfl (by decide) rfl)
  exact haccept.step trivial
    (Step.read (c := ⟨5, true, .new 1 0⟩) rfl ⟨rfl, rfl, rfl⟩ (by decide +kernel))

theorem trace_readInChunks :
    Trace (fun _ _ => True) (start 0)
      [.accept 7 0, .accept 5 99, .read 1 (ofString "*1\r\n"), .decoded,
        .read 1 (ofString "$1\r\nX\r\n")] readInChunks := by
  have hreceive : receive (.new 2 99) (ofString "*1\r\n")
      = ⟨[], .ok { DecodeContext.new 2 99 with state := .parseElements, readingListSize := 1 }⟩ :=
    Traced.ext (by decide +kernel) (by decide +kernel)
  have hfirst : Trace (fun _ _ => True) (start 0) [.accept 7 0] _ :=
    Trace.step .refl trivial (Step.accept rfl (by decide) rfl)
  have haccept := hfirst.step (l := .accept 5 99) trivial (Step.accept rfl (by decide) rfl)
  have hread := haccept.step (l := .read 1 (ofString "*1\r\n")) trivial
    (Step.read (c := ⟨5, true, .new 2 99⟩) rfl ⟨rfl, rfl, rfl⟩ (by decide +kernel))
  unfold readFromClient at hread
  rw [hreceive] at hread
  have hdecoded := hread.step (l := .decoded) trivial (Step.decoded rfl)
  exact hdecoded.step trivial (Step.read (c := ⟨5, true,
    { DecodeContext.new 2 99 with state := .parseElements, readingListSize := 1 }⟩) rfl
    ⟨rfl, rfl, rfl⟩ (by decide +kernel))

/-- The same bytes on two connections in two runs. -/
theorem calls_prefix_of_traces_chunks :
    (readAtOnce.jobsOf 0).map ProcesserJob.call ++ readAtOnce.pending 0
      <+: (readInChunks.jobsOf 1).map ProcesserJob.call ++ readInChunks.pending 1 :=
  calls_prefix_of_traces (trace_readAtOnce.mono fun _ _ _ h => ⟨trivial, h.2⟩)
    trace_readInChunks (by decide) (by decide) (shortReads_of_lt (by decide +kernel))
    (by decide +kernel)

end Proxy

end LogcabinRedisProxy
