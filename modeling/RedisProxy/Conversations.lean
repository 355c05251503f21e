import RedisProxy.Delivery
import RedisProxy.Isolation
import RedisProxy.Replies
import RedisProxy.RoundTrip

/-!
# A conversation from end to end

A client encodes its requests and sends them one behind the other, without waiting
for replies. The kernel cuts the stream where it likes, the decoder takes it apart
again, one pool computes the replies in any order and the other hands them to the
session, which puts them back in order, all of this among other clients. What
the client has been sent at any moment reads as one value for each of its first
`k` requests, in their order, and each is the reply to its own request
(`answered_of_trace`); when all its jobs have run, `k` is the number of requests it
has sent.

Nothing new happens here: the decoder undoes the encoding, the requests of a client
are its own, replies come back in order, and each of them reads as one value that
answers the calls of its worker. The conditions are those under which these are
so. No request ends in an empty string, of which the decoder makes a header; no
value read for `MGET` holds a CR or an LF, which would break its line; and no descriptor
or session id is handed out again too early.
-/

namespace SimpleResp

open Bytes

/-- The calls for a pipeline are for its requests. -/
theorem map_request_mapIdx (requests : List (List Bytes)) :
    (requests.mapIdx fun i r => HandlerCall.mk (Int32.ofNat i) r).map HandlerCall.request
      = requests := by
  refine List.ext_getElem? fun i => ?_
  rw [List.getElem?_map, List.getElem?_mapIdx, Option.map_map]
  exact Option.map_id'

/-- **Part of a pipeline** makes the calls for its first requests. -/
theorem requests_prefix_of_pipeline {sessionId : Int32} {readingStrSize : UInt64}
    {requests : List (List Bytes)} (hr : ∀ r ∈ requests, Encodable r)
    (hlast : ∀ r ∈ requests, r.getLast? ≠ some []) {chunks : List Bytes}
    (hbytes : chunks.flatten <+: encodeAll requests) :
    (receiveAll (.new sessionId readingStrSize) chunks).events.map HandlerCall.request
      <+: requests := by
  obtain ⟨ctx, -, hrun⟩ := exists_run_encodeAll sessionId readingStrSize hr hlast
  have hpre := prefix_events_run sessionId readingStrSize hbytes
  rw [hrun] at hpre
  exact map_request_mapIdx requests ▸ hpre.map HandlerCall.request

/-- All of it makes the calls for all of them, if the buffer stays short. -/
theorem length_le_of_pipeline {sessionId : Int32} {readingStrSize : UInt64}
    {requests : List (List Bytes)} (hr : ∀ r ∈ requests, Encodable r)
    (hlast : ∀ r ∈ requests, r.getLast? ≠ some []) {chunks : List Bytes}
    (hfit : BuffersFit (.new sessionId readingStrSize) chunks)
    (hbytes : chunks.flatten = encodeAll requests) :
    requests.length ≤ (receiveAll (.new sessionId readingStrSize) chunks).events.length := by
  obtain ⟨ctx, -, hrun⟩ := exists_run_encodeAll sessionId readingStrSize hr hlast
  rw [receiveAll_eq_run (settled_new _ _) hfit, Traced.events_map, hbytes,
    show (DecodeContext.new sessionId readingStrSize).bufferedInput ++ encodeAll requests
      = encodeAll requests from rfl, hrun, List.length_mapIdx]

end SimpleResp

namespace LogcabinRedisProxy

open Bytes SimpleResp Prog

/-! ## What a client is told -/

/-- **The value is the reply to a request**: the worker has run the handler of the
command, `send_reply` was called with what that returned, it reads as this value, and
the value says what the calls of the handler found. -/
def Tells (job : ProcesserJob) (v : RespValue) : Prop :=
  ∃ calls res, Exec (handle (commandOf job.call.request) job.call.request) calls res
    ∧ job.made = calls.map Event.inl
      ++ [⟨Sum.inr ⟨job.call.commandId, job.sessionId, res.response⟩, ()⟩]
    ∧ Encodes res.response v ∧ Answers job.call.request calls v

namespace Proxy

/-- No value that a worker of the connection has read for `MGET` holds a CR or an
LF. -/
def LinesOnly (s : Proxy) (p : ℕ) : Prop :=
  ∀ job ∈ s.jobsOf p, ∀ calls : List (Event TreeResult), calls.map Event.inl <+: job.made →
    ¬ LineBreakInMget job.call.request calls

/-- **The client has been answered its first `k` requests**, and nothing else. -/
structure Answered (s : Proxy) (p : ℕ) (requests : List (List Bytes)) (k : ℕ) : Prop where
  /-- What has been dispatched for it are its first requests. -/
  dispatched : (s.jobsOf p).map (fun job => job.call.request)
    ++ (s.pending p).map HandlerCall.request <+: requests
  /-- What it has been sent reads as the replies to the first `k`, one value each. -/
  told : ∃ values : List RespValue, values.length = k
    ∧ readMany readReply k (s.sent p) = some (values, [])
    ∧ ∀ (i : ℕ) (v : RespValue), values[i]? = some v →
      ∃ job, (s.jobsOf p)[i]? = some job ∧ requests[i]? = some job.call.request ∧ Tells job v

variable {s : Proxy} {p : ℕ} {response : Bytes} {job : ProcesserJob}

/-- **A reply that is delivered tells its client the right thing.** -/
theorem Replied.exists_tells (h : Replied job response)
    (hlines : ∀ calls : List (Event TreeResult), calls.map Event.inl <+: job.made →
      ¬ LineBreakInMget job.call.request calls) :
    ∃ v, Encodes response v ∧ Tells job v := by
  obtain ⟨calls, res, hexec, hmade⟩ := exec_processerWorker_iff.mp h.executed
  have hres : response = res.response := by
    have hmem := hmade ▸ h.replied
    rcases List.mem_append.mp hmem with hcall | hreply
    · obtain ⟨e, -, he⟩ := List.mem_map.mp hcall
      cases congrArg Sigma.fst he
    · have hop := congrArg Sigma.fst (List.mem_singleton.mp hreply)
      exact (SendReply.mk.inj (Sum.inr.inj hop)).2.2
  have hbreak := hlines calls (hmade ▸ List.prefix_append _ _)
  obtain ⟨v, hv, hans⟩ : ∃ v, Encodes res.response v ∧ Answers job.call.request calls v := by
    by_cases hc : commandOf job.call.request = ofString "MGET"
    · rw [hc] at hexec
      exact (exists_answers_mget_iff hc hexec).mpr hbreak
    · exact exists_answers_of_ne_mget hc hexec
  exact ⟨v, hres ▸ hv, calls, res, hexec, hmade, hv, hans⟩

/-- The requests of a client that sends a pipeline are the first ones of it. -/
theorem dispatched_of_trace {sessionCounter : Int32} {labels : List Label}
    {requests : List (List Bytes)} {condition : Proxy → Label → Prop}
    (ht : Trace condition (start sessionCounter) labels s) (hp : p < s.connections.length)
    (hr : ∀ r ∈ requests, Encodable r) (hlast : ∀ r ∈ requests, r.getLast? ≠ some [])
    (hbytes : (bytesFrom p labels).flatten <+: encodeAll requests) :
    (s.jobsOf p).map (fun job => job.call.request)
      ++ (s.pending p).map HandlerCall.request <+: requests := by
  obtain ⟨sessionId, readingStrSize, hdec⟩ := exists_decodes_of_trace ht hp
  have hrequests := @requests_prefix_of_pipeline sessionId readingStrSize _ hr hlast _ hbytes
  rwa [← hdec.calls, List.map_append, List.map_map] at hrequests

/-- When all of the pipeline has been read and dispatched, they are all of it. -/
theorem length_jobsOf_of_trace {sessionCounter : Int32} {labels : List Label}
    {requests : List (List Bytes)} {condition : Proxy → Label → Prop}
    (ht : Trace condition (start sessionCounter) labels s) (hp : p < s.connections.length)
    (hr : ∀ r ∈ requests, Encodable r) (hlast : ∀ r ∈ requests, r.getLast? ≠ some [])
    (hwhole : (bytesFrom p labels).flatten = encodeAll requests) (hshort : ShortReads p labels)
    (hpending : s.pending p = []) : (s.jobsOf p).length = requests.length := by
  obtain ⟨sessionId, readingStrSize, hdec⟩ := exists_decodes_of_trace ht hp
  have hge := length_le_of_pipeline hr hlast (hshort sessionId readingStrSize) hwhole
  rw [← hdec.calls, hpending, List.append_nil, List.length_map] at hge
  have hle := (dispatched_of_trace ht hp hr hlast (hwhole ▸ List.prefix_rfl)).length_le
  rw [hpending, List.map_nil, List.append_nil, List.length_map] at hle
  exact le_antisymm hle hge

/-- **What the client has been sent** are the replies to its first `k` requests, and to
all that have been dispatched when these have run. -/
theorem exists_answered {sessionCounter : Int32} {labels : List Label}
    {requests : List (List Bytes)}
    (ht : Trace (Undisturbed p) (start sessionCounter) labels s) (hp : p < s.connections.length)
    (hr : ∀ r ∈ requests, Encodable r) (hlast : ∀ r ∈ requests, r.getLast? ≠ some [])
    (hn : requests.length < 2 ^ 31) (hbytes : (bytesFrom p labels).flatten <+: encodeAll requests)
    (hlines : s.LinesOnly p) :
    ∃ k, Answered s p requests k ∧ (s.AllRun p → k = (s.jobsOf p).length) := by
  have h := (inOrder_start sessionCounter p).runs ht.runs
  have hrequests := dispatched_of_trace ht hp hr hlast hbytes
  have hlen := hrequests.length_le
  rw [List.length_append, List.length_map] at hlen
  have hjobs : (s.jobsOf p).length < 2 ^ 31 := by omega
  obtain ⟨session, hdisp, hrest⟩ := h.connected hp
  obtain ⟨hacc, ctx, m, hdel⟩ := hrest hjobs
  have hmissing := hdel.holds.firstMissing hdel.missing
  obtain ⟨hcount, hget⟩ := getElem?_inSequence hmissing.below
  -- each reply that has been sent reads as one value
  have htold : ∀ (i : ℕ) (text : Bytes), (inSequence (s.received p) m)[i]? = some text →
      ∃ v, (∀ t, readReply (text ++ t) = some (v, t)) ∧ ∃ job, (s.jobsOf p)[i]? = some job
        ∧ requests[i]? = some job.call.request ∧ Tells job v := by
    intro i text htext
    have hi : i < m := hcount ▸ (List.getElem?_eq_some_iff.mp htext).1
    rw [hget i hi] at htext
    obtain ⟨job, hjob, hreplied⟩ := h.traceable.exists_replied h.consistent hdisp hjobs htext
    obtain ⟨v, hv, htells⟩ :=
      hreplied.exists_tells (hlines job (List.mem_of_getElem? hjob))
    refine ⟨v, hv, job, hjob, ?_, htells⟩
    have hmap : ((s.jobsOf p).map fun job => job.call.request)[i]? = some job.call.request := by
      rw [List.getElem?_map, hjob]
      rfl
    obtain ⟨hlt, heq⟩ := List.getElem?_eq_some_iff.mp hmap
    have hfirst := (List.prefix_append _ _).trans hrequests
    rw [← heq]
    exact List.prefix_iff_getElem?.mp hfirst i hlt
  obtain ⟨values, hvalues, hread, htells⟩ := exists_readMany_flatten htold
  rw [hcount] at hvalues hread
  refine ⟨m, ⟨hrequests, values, hvalues, ?_, htells⟩, fun hall => ?_⟩
  · rw [hdel.sent]
    exact hread
  · exact hmissing.eq_of_complete
      (hacc.received_isSome_iff h.consistent h.traceable hdisp hjobs hall)

/-- **Every client is answered in order, one value for each request.** -/
theorem answered_of_trace {sessionCounter : Int32} {labels : List Label}
    {requests : List (List Bytes)}
    (ht : Trace (Undisturbed p) (start sessionCounter) labels s) (hp : p < s.connections.length)
    (hr : ∀ r ∈ requests, Encodable r) (hlast : ∀ r ∈ requests, r.getLast? ≠ some [])
    (hn : requests.length < 2 ^ 31) (hbytes : (bytesFrom p labels).flatten <+: encodeAll requests)
    (hlines : s.LinesOnly p) :
    ∃ k, Answered s p requests k
      ∧ (s.AllRun p → s.pending p = [] → (bytesFrom p labels).flatten = encodeAll requests →
        ShortReads p labels → k = requests.length) := by
  obtain ⟨k, hk, hall⟩ := exists_answered ht hp hr hlast hn hbytes hlines
  exact ⟨k, hk, fun hrun hpending hwhole hshort =>
    (hall hrun).trans (length_jobsOf_of_trace ht hp hr hlast hwhole hshort hpending)⟩

/-! ## Two writes -/

theorem trace_overtaking (m : ℕ) {n : ℕ} (hn : m + n ≤ 13) :
    Trace (Undisturbed 0) (overtaking m) ((List.range' m n).map overtakingLabel)
      (overtaking (m + n)) :=
  LabelledPath.of_sequence m fun k _ hk =>
    ⟨undisturbed_overtaking (by omega), step_overtaking (hk.trans_le hn)⟩

/-- When they have been read, the proxy goes on by itself. -/
theorem trace_byItself_overtaking :
    Trace (fun s l => s.ByItself l ∧ s.Undisturbed 0 l) (overtaking 2)
      ((List.range' 2 11).map overtakingLabel) insertedLate := by
  refine LabelledPath.of_sequence 2 fun k hk hlt =>
    ⟨⟨?_, undisturbed_overtaking (by omega)⟩, step_overtaking hlt⟩
  match k, hk with
  | 2, _ | 3, _ | 4, _ | 5, _ | 6, _ | 7, _ | 8, _ | 9, _ | 10, _ | 11, _ => trivial
  | k + 12, _ => trivial

/-- The requests can be encoded. -/
theorem encodable_twoWrites : ∀ r ∈ twoWrites.map HandlerCall.request, SimpleResp.Encodable r := by
  unfold SimpleResp.Encodable
  decide +kernel

theorem bytesFrom_overtaking :
    (bytesFrom 0 ((List.range' 0 13).map overtakingLabel)).flatten
      = encodeAll (twoWrites.map HandlerCall.request) := by decide +kernel

/-- Neither of them is an `MGET`. -/
theorem linesOnly_insertedLate : insertedLate.LinesOnly 0 := by
  intro job hjob calls _ hbreak
  rcases List.mem_pair.mp hjob with rfl | rfl
  · exact absurd hbreak.1 (by decide +kernel)
  · exact absurd hbreak.1 (by decide +kernel)

/-- Two requests, answered in their order although the replies came in the other one. -/
theorem answered_of_trace_overtaking :
    Answered insertedLate 0 (twoWrites.map HandlerCall.request) 2 := by
  obtain ⟨k, hk, hall⟩ := answered_of_trace (trace_overtaking 0 (n := 13) (by decide)) (by decide)
    encodable_twoWrites (by decide +kernel) (by decide) (bytesFrom_overtaking ▸ List.prefix_rfl)
    linesOnly_insertedLate
  have hshort : ShortReads 0 ((List.range' 0 13).map overtakingLabel) :=
    shortReads_of_lt (by rw [bytesFrom_overtaking]; decide +kernel)
  obtain rfl : k = 2 := hall allRun_insertedLate rfl bytesFrom_overtaking hshort
  exact hk

end Proxy

end LogcabinRedisProxy
