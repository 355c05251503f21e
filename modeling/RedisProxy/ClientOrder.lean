import RedisProxy.Linearizability
import RedisProxy.Quiescence

/-!
# The order the clients see

A client knows of the requests only what it is sent, and what it reads at its end of a
connection as the reply to a request was handed over when the worker had made its calls.
So the order in which the requests take effect is one that no client can find fault with:
a request whose reply has reached its client has taken effect, and comes before all those
that arrive from then on, on whatever connection (`exists_linearizes_told`). A client that
has read a reply and then sends a request, or has another client send it, finds the
effect there.
-/

namespace LogcabinRedisProxy

open Bytes SimpleResp Interleaving Prog

namespace Proxy

/-- **A worker that has called `send_reply` is done.** -/
theorem Working.todo_eq {job : ProcesserJob} (h : Working job) {calls : List (Event TreeResult)}
    {reply : SendReply} (hmade : job.made = calls.map Event.inl ++ [⟨Sum.inr reply, ()⟩]) :
    job.todo = .pure () := by
  refine h.replies.resolve_right fun hreplies => ?_
  obtain ⟨e, tr, htr⟩ := hreplies.exists_exec
  obtain ⟨calls', res, -, heq⟩ := exec_processerWorker_iff.mp (h.progress _ htr)
  -- the call of `send_reply` would not be the last one
  obtain ⟨init, last, hlast⟩ := (List.eq_nil_or_concat' (e :: tr)).resolve_left
    (List.cons_ne_nil e tr)
  rw [hmade, hlast, ← List.append_assoc] at heq
  obtain ⟨hinit, -⟩ := List.append_inj' heq rfl
  have hmem : (⟨Sum.inr reply, ()⟩ : Event WorkerResult) ∈ calls'.map Event.inl :=
    hinit ▸ List.mem_append_left _ (List.mem_append_right _ (List.mem_singleton_self _))
  obtain ⟨c, -, hc⟩ := List.mem_map.mp hmem
  cases congrArg Sigma.fst hc

variable {s : Proxy} {p i : ℕ} {job : ProcesserJob}

/-- How many requests came on a connection before a job. -/
def turnOf (s : Proxy) (p i : ℕ) : ℕ := ((s.jobs.take i).filter fun job => job.owner = p).length

/-- A job of a connection is the one whose turn it is. -/
theorem getElem?_turnOf (hjob : s.jobs[i]? = some job) (howner : job.owner = p) :
    (s.jobsOf p)[s.turnOf p i]? = some job := by
  obtain ⟨hi, hget⟩ := List.getElem?_eq_some_iff.mp hjob
  have hsplit : s.jobs = s.jobs.take i ++ job :: s.jobs.drop (i + 1) := by
    rw [← hget, List.getElem_cons_drop, List.take_append_drop]
  have hfilter : s.jobsOf p = (s.jobs.take i).filter (fun job => job.owner = p)
      ++ job :: (s.jobs.drop (i + 1)).filter fun job => job.owner = p := by
    unfold jobsOf
    conv_lhs => rw [hsplit]
    rw [List.filter_append, List.filter_cons_of_pos (by exact decide_eq_true howner)]
  rw [hfilter]
  exact getElem?_middle _ _ _

/-- **The client has read the reply to a request**: it sends a pipeline of requests and
stays, and what it has been sent reads as more values than requests came before this
one. -/
structure Told (sessionCounter : Int32) (s : Proxy) (i p : ℕ) : Prop where
  /-- The request is one of the client. -/
  owner : ∃ job, s.jobs[i]? = some job ∧ job.owner = p
  /-- The pipeline, of which some has been read. -/
  sends : ∃ labels requests, Trace (Undisturbed p) (start sessionCounter) labels s
    ∧ (∀ r ∈ requests, SimpleResp.Encodable r) ∧ (∀ r ∈ requests, r.getLast? ≠ some [])
    ∧ requests.length < 2 ^ 31 ∧ (bytesFrom p labels).flatten <+: encodeAll requests
  lines : s.LinesOnly p
  /-- What the client has read. -/
  values : ∃ values : List RespValue,
    readMany readReply values.length (s.sent p) = some (values, []) ∧ s.turnOf p i < values.length

/-- **What a client has been told is done.** -/
theorem Told.exists_done {sessionCounter : Int32} (h : Told sessionCounter s i p) :
    ∃ job, s.jobs[i]? = some job ∧ job.todo = .pure () := by
  obtain ⟨job, hjob, howner⟩ := h.owner
  obtain ⟨labels, requests, ht, hr, hlast, hn, hbytes⟩ := h.sends
  obtain ⟨values, hread, hturn⟩ := h.values
  have hsound := (sound_start sessionCounter).runs ht.runs
  have htrace := (inOrder_start sessionCounter p).runs ht.runs
  have hp : p < s.connections.length :=
    howner ▸ htrace.traceable.owners job (List.mem_of_getElem? hjob)
  obtain ⟨k, ⟨-, values', hlen, hread', htells⟩, -⟩ :=
    exists_answered ht hp hr hlast hn hbytes h.lines
  obtain rfl := readMany_length_unique rfl hread hread'
  obtain ⟨v, hv⟩ : ∃ v, values'[s.turnOf p i]? = some v :=
    ⟨_, List.getElem?_eq_getElem (hlen.symm ▸ hturn)⟩
  obtain ⟨job', hjob', -, calls, res, -, hmade, -, -⟩ := htells _ v hv
  obtain rfl := Option.some.inj ((getElem?_turnOf hjob howner).symm.trans hjob')
  exact ⟨job, hjob, (hsound.jobs job (List.mem_of_getElem? hjob)).todo_eq hmade⟩

variable {S : Type} {cluster : Cluster S} {sessionCounter : Int32} {shared : Shared S}
  {run : ℕ → Proxy × Shared S}

/-- **Requests of one call each take effect before their replies are read**, and in an
order that no client can find fault with. -/
theorem exists_linearizes_told (hrun : RunOn cluster sessionCounter shared run)
    (hsingle : ∀ n, ∀ job ∈ (run n).1.jobs, SingleCall job.call.request) :
    ∃ order : ℕ → List ℕ, Linearizes cluster shared run order
      ∧ ∀ m i p, Told sessionCounter (run m).1 i p → i ∈ order m
        ∧ ∀ n j, m ≤ n → (run m).1.jobs.length ≤ j → j ∈ order n → [i, j].Sublist (order n) := by
  obtain ⟨order, horder, hgrows⟩ := hrun.exists_linearized hsingle
  have hlin := linearizes_of_linearized horder hgrows
  refine ⟨order, hlin, fun m i p htold => ?_⟩
  obtain ⟨job, hjob, hdone⟩ := htold.exists_done
  refine ⟨?_, fun n j hmn hj hmem => hlin.realTime m n i j job hmn hjob hdone hj hmem⟩
  obtain ⟨before, after, heq, -⟩ := hlin.done m i job hjob hdone
  exact heq ▸ List.mem_append_cons_self

/-- The client has read the replies to both of its writes. -/
theorem told_insertedLate {i : ℕ} (hi : i < 2) : Told 0 insertedLate i 0 := by
  have ht : Trace (Undisturbed 0) (start 0) ((List.range' 0 13).map overtakingLabel)
      insertedLate := trace_overtaking 0 (by decide)
  obtain ⟨k, ⟨-, values, rfl, hread, -⟩, hall⟩ := exists_answered ht (by decide)
    encodable_twoWrites (by decide +kernel) (by decide)
    (bytesFrom_overtaking ▸ List.prefix_rfl) linesOnly_insertedLate
  have howner : ∃ job, insertedLate.jobs[i]? = some job ∧ job.owner = 0 := by
    match i, hi with
    | 0, _ | 1, _ => exact ⟨_, rfl, rfl⟩
  refine ⟨howner, ⟨_, _, ht, encodable_twoWrites, by decide +kernel, by decide,
    bytesFrom_overtaking ▸ List.prefix_rfl⟩, linesOnly_insertedLate, values, hread, ?_⟩
  rw [hall allRun_insertedLate]
  match i, hi with
  | 0, _ | 1, _ => decide +kernel

/-- Of two writes the second takes effect first, and both have when they have been
answered. -/
theorem exists_linearizes_told_overtakingRun :
    ∃ order : ℕ → List ℕ, Linearizes cells emptyCells overtakingRun order
      ∧ 0 ∈ order 13 ∧ 1 ∈ order 13 := by
  obtain ⟨order, hlin, htold⟩ :=
    exists_linearizes_told runOn_overtakingRun singleCall_overtakingRun
  exact ⟨order, hlin, (htold 13 0 0 (told_insertedLate (by decide))).1,
    (htold 13 1 0 (told_insertedLate (by decide))).1⟩

end Proxy

end LogcabinRedisProxy
