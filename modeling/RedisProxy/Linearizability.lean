import RedisProxy.Delivery
import RedisProxy.Library.Linearization
import RedisProxy.Isolation
import RedisProxy.Serializability

/-!
# The proxy on a cluster

The proxy runs as it does, with clients that come, send and go, on one cluster, which
answers each call of a worker in one step. Requests that make one call each are
linearizable: there is an order of the requests such that running them one at a time
in this order leaves the store there is and gives every request the results it had,
and a request whose reply has been handed over before another request has arrived
comes before it (`exists_linearizes`).

A client that waits for a reply before it sends its next request therefore has its
requests take effect in its own order, whatever the other clients do. One that does not
wait has no such promise, nor is a request that makes several calls run without
interruption.
-/

namespace LogcabinRedisProxy

open Bytes SimpleResp Interleaving Prog

variable {S : Type} {cluster : Cluster S}

/-! ## What a worker calls -/

/-- `send_reply` is a quiet call. -/
theorem quiet_sendReply (cluster : Cluster S) (reply : SendReply) :
    Quiet (serve cluster) (Sum.inr reply) :=
  ⟨fun _ => rfl, fun _ _ => rfl⟩

/-- A program that makes one call at most has returned after it. -/
theorem eq_pure_of_length_le_one {Op α : Type} {Res : Op → Type} {op : Op}
    {k : Res op → Prog Res α} (answer : (op : Op) → Res op)
    (hone : ∀ calls res, Exec (.call op k) calls res → calls.length ≤ 1) (r : Res op) :
    ∃ a, k r = .pure a := by
  cases hk : k r with
  | pure a => exact ⟨a, rfl⟩
  | call op' k' =>
    obtain ⟨tr, a, htr, -⟩ := exists_exec answer (k r)
    have hlen := hone _ _ (Exec.call htr)
    rw [hk] at htr
    obtain ⟨r', tr', rfl, -⟩ := exec_call_iff.mp htr
    exact absurd hlen (by simp)

/-- **The worker of a request that makes one call makes one call that counts.** -/
theorem atMostOnce_worker (cluster : Cluster S) (sessionId : Int32) {call : HandlerCall}
    (h : SingleCall call.request) : AtMostOnce (serve cluster) (worker sessionId call) := by
  have hone := fun calls res => @length_calls_le_one call.request calls res h
  have hreply : ∀ res : EncodeResult, AllQuiet (serve cluster)
      (sendReply call.commandId sessionId res.response) := fun res =>
    AllQuiet.call (quiet_sendReply cluster _) fun _ => AllQuiet.pure ()
  unfold worker processerWorker
  generalize handle (commandOf call.request) call.request = handler at hone
  cases handler with
  | pure res => exact AtMostOnce.none (hreply res)
  | call c k =>
    refine AtMostOnce.now fun r => ?_
    obtain ⟨res, hres⟩ := eq_pure_of_length_le_one (fun _ => .error .other) hone r
    show AllQuiet (serve cluster) ((k r).inl.bind _)
    rw [hres]
    exact hreply res

namespace Proxy

/-! ## Runs on a cluster -/

/-- **What a step asks of the cluster**: the calls of the workers are answered, one
at a time, and nothing else concerns it. -/
def Label.Served (cluster : Cluster S) (shared : Shared S) : Label → Shared S → Prop
  | .callTree c r, shared' => (r, shared') = serve cluster (Sum.inl c) shared
  | .sendReply reply, shared' => ((), shared') = serve cluster (Sum.inr reply) shared
  | _, shared' => shared' = shared

/-- **A run of the proxy on a cluster**, from its start; it may pause, or come to
rest. -/
structure RunOn (cluster : Cluster S) (sessionCounter : Int32) (shared : Shared S)
    (run : ℕ → Proxy × Shared S) : Prop where
  start : run 0 = (start sessionCounter, shared)
  step : ∀ n, run (n + 1) = run n
    ∨ ∃ l, Step (run n).1 l (run (n + 1)).1 ∧ Label.Served cluster (run n).2 l (run (n + 1)).2

/-- The worker of a job. -/
def workerOf (s : Proxy) (i : ℕ) : Prog WorkerResult Unit :=
  s.jobs[i]?.elim (.pure ()) fun job => worker job.sessionId job.call

/-- **The requests of a run take effect one after another**, in an order that grows
as they do. -/
structure Linearizes (cluster : Cluster S) (shared : Shared S) (run : ℕ → Proxy × Shared S)
    (order : ℕ → List ℕ) : Prop where
  /-- No request takes effect twice. -/
  nodup : ∀ n, (order n).Nodup
  /-- A request takes effect after it has arrived. -/
  arrived : ∀ n, ∀ i ∈ order n, i < (run n).1.jobs.length
  /-- What has taken effect stays in its place. -/
  grows : ∀ m n, m ≤ n → order m <+: order n
  /-- The store is that of running the requests one at a time. -/
  state : ∀ n, (run n).2 = serialState (serve cluster) (workerOf (run n).1) (order n) shared
  /-- A request that is done has taken effect, with the calls, results and reply that
  it has in its turn. -/
  done : ∀ (n i : ℕ) (job : ProcesserJob), (run n).1.jobs[i]? = some job → job.todo = .pure () →
    ∃ before after, order n = before ++ i :: after ∧ job.made
      = (worker job.sessionId job.call).trace (serve cluster)
        (serialState (serve cluster) (workerOf (run n).1) before shared)
  /-- A request that is done before another one arrives takes effect before it. -/
  realTime : ∀ (m n i j : ℕ) (job : ProcesserJob), m ≤ n → (run m).1.jobs[i]? = some job →
    job.todo = .pure () → (run m).1.jobs.length ≤ j → j ∈ order n → [i, j].Sublist (order n)

/-- A job as a thread. -/
def threadOf (job : ProcesserJob) : Thread WorkerResult Unit where
  program := worker job.sessionId job.call
  made := job.made
  todo := job.todo

theorem programOf_map_threadOf (s : Proxy) : programOf (s.jobs.map threadOf) = workerOf s := by
  funext i
  unfold programOf workerOf
  rw [List.getElem?_map]
  cases s.jobs[i]? <;> rfl

variable {s s' : Proxy} {l : Label} {shared shared' : Shared S}

theorem getElem?_map_threadOf {i : ℕ} {job : ProcesserJob} (h : s.jobs[i]? = some job) :
    (s.jobs.map threadOf)[i]? = some (threadOf job) := by
  rw [List.getElem?_map, h]
  rfl

/-- **A step of the proxy is one of its threads**, or does not concern them. -/
theorem Step.threadStep (hs : Step s l s') (hserved : Label.Served cluster shared l shared') :
    (s'.jobs.map threadOf, shared') = (s.jobs.map threadOf, shared)
      ∨ ThreadStep (serve cluster) (s.jobs.map threadOf, shared)
        (s'.jobs.map threadOf, shared') := by
  cases hs with
  | @enqueue _ c call calls outcome _ _ =>
    obtain rfl : shared' = shared := hserved
    have hstart := @ThreadStep.start _ _ _ _ (serve cluster) (s.jobs.map threadOf) shared'
      (worker c.decoder.sessionId call)
    refine Or.inr ?_
    show ThreadStep _ _ (((s.jobs ++ [_]).map threadOf), _)
    rw [List.map_append]
    exact hstart
  | @callTree before after job c k r hjobs htodo =>
    obtain ⟨rfl, rfl⟩ := Prod.mk.inj hserved
    refine Or.inr ?_
    rw [hjobs, List.map_append, List.map_cons, List.map_append, List.map_cons]
    exact ThreadStep.call (t := threadOf job) htodo
  | @sendReply before after job reply k hjobs htodo =>
    obtain ⟨-, rfl⟩ := Prod.mk.inj hserved
    refine Or.inr ?_
    rw [hjobs, List.map_append, List.map_cons, List.map_append, List.map_cons]
    exact ThreadStep.call (t := threadOf job) htodo
  | _ => exact Or.inl (congrArg (Prod.mk _) hserved)

variable {sessionCounter : Int32} {run : ℕ → Proxy × Shared S}

/-- Requests stay, and come in at the end. -/
theorem Step.prefix_calls (hs : Step s l s') :
    s.jobs.map ProcesserJob.call <+: s'.jobs.map ProcesserJob.call := by
  cases hs with
  | enqueue _ _ =>
    show _ <+: List.map ProcesserJob.call (s.jobs ++ [_])
    rw [List.map_append]
    exact List.prefix_append _ _
  | callTree r hjobs _ =>
    rw [hjobs, List.map_append, List.map_append, List.map_cons, List.map_cons]
  | sendReply hjobs _ =>
    rw [hjobs, List.map_append, List.map_append, List.map_cons, List.map_cons]
  | _ => exact List.prefix_rfl

theorem RunOn.prefix_calls (hrun : RunOn cluster sessionCounter shared run) {m n : ℕ}
    (hmn : m ≤ n) :
    (run m).1.jobs.map ProcesserJob.call <+: (run n).1.jobs.map ProcesserJob.call := by
  induction n, hmn using Nat.le_induction with
  | base => exact List.prefix_rfl
  | succ n _ ih =>
    rcases hrun.step n with hsame | ⟨l, hs, -⟩
    · rw [hsame]
      exact ih
    · exact ih.trans hs.prefix_calls

/-- The threads of the jobs are linearized, in an order that grows. -/
theorem RunOn.exists_linearized (hrun : RunOn cluster sessionCounter shared run)
    (hsingle : ∀ n, ∀ job ∈ (run n).1.jobs, SingleCall job.call.request) :
    ∃ order : ℕ → List ℕ,
      (∀ n, Linearized (serve cluster) shared ((run n).1.jobs.map threadOf) (run n).2 (order n))
        ∧ ∀ m n, m ≤ n → order m <+: order n := by
  refine @exists_linearization _ _ _ _ (serve cluster) _ shared
    (fun n => ((run n).1.jobs.map threadOf, (run n).2)) ?_ (fun n => ?_) fun n t ht => ?_
  · rw [hrun.start]
    rfl
  · rcases hrun.step n with hsame | ⟨l, hs, hserved⟩
    · rw [hsame]
      exact Or.inl rfl
    · exact hs.threadStep hserved
  · obtain ⟨job, hjob, rfl⟩ := List.mem_map.mp ht
    exact atMostOnce_worker cluster job.sessionId (hsingle n job hjob)

/-- **An order of the threads is one of the requests.** -/
theorem linearizes_of_linearized {order : ℕ → List ℕ}
    (horder : ∀ n, Linearized (serve cluster) shared ((run n).1.jobs.map threadOf) (run n).2
      (order n)) (hgrows : ∀ m n, m ≤ n → order m <+: order n) :
    Linearizes cluster shared run order where
  nodup n := (horder n).nodup
  arrived n i hi := by
    have hlt := (horder n).lt_length hi
    rwa [List.length_map] at hlt
  grows := hgrows
  state n := by
    rw [← programOf_map_threadOf]
    exact (horder n).state
  done n i job hjob hdone := by
    obtain ⟨before, after, heq, hmade, -⟩ :=
      (horder n).exists_of_done (getElem?_map_threadOf hjob) hdone
    rw [programOf_map_threadOf] at hmade
    exact ⟨before, after, heq, hmade⟩
  realTime m n i j job hmn hjob hdone hj hmem :=
    (horder m).sublist_of_done (getElem?_map_threadOf hjob) hdone (hgrows m n hmn)
      (by rwa [List.length_map]) hmem

/-- **Requests of one call each are linearizable.** -/
theorem exists_linearizes (hrun : RunOn cluster sessionCounter shared run)
    (hsingle : ∀ n, ∀ job ∈ (run n).1.jobs, SingleCall job.call.request) :
    ∃ order : ℕ → List ℕ, Linearizes cluster shared run order := by
  obtain ⟨order, horder, hgrows⟩ := hrun.exists_linearized hsingle
  exact ⟨order, linearizes_of_linearized horder hgrows⟩

/-! ## A write that overtakes another -/

/-- The store after a write to the key. -/
def afterWrite (value : String) (shared : Shared Cells) : Shared Cells :=
  (serve cells (Sum.inl (.writeEx (ofString "k") (ofString value))) shared).2

/-- The store meanwhile. -/
def overtakenStore : ℕ → Shared Cells
  | 0 | 1 | 2 | 3 | 4 | 5 => emptyCells
  | 6 => afterWrite "2" emptyCells
  | _ => afterWrite "1" (afterWrite "2" emptyCells)

/-- **The second of two writes overtakes the first.** -/
def overtakingRun (n : ℕ) : Proxy × Shared Cells := (overtaking n, overtakenStore n)

theorem runOn_overtakingRun : RunOn cells 0 emptyCells overtakingRun := by
  refine ⟨rfl, fun n => ?_⟩
  by_cases hn : n < 13
  · refine Or.inr ⟨overtakingLabel n, step_overtaking hn, ?_⟩
    match n, hn with
    | 0, _ | 1, _ | 2, _ | 3, _ | 4, _ | 5, _ | 6, _ | 7, _ | 8, _ | 9, _ | 10, _ | 11, _
    | 12, _ => rfl
  · obtain ⟨m, rfl⟩ := Nat.exists_eq_add_of_le' (Nat.le_of_not_lt hn)
    exact Or.inl rfl

theorem singleCall_setCall (commandId : Int32) (key value : String) :
    SingleCall (setCall commandId key value).request where
  rpush _ := Nat.le_refl 3
  lpush _ := Nat.le_refl 3
  mget h := absurd h (show toUppercase (ofString "SET") ≠ ofString "MGET" by decide +kernel)

theorem calls_overtakingRun (n : ℕ) :
    (overtakingRun n).1.jobs.map ProcesserJob.call <+: twoWrites :=
  runOn_overtakingRun.prefix_calls (Nat.le_add_right n 13)

theorem singleCall_overtakingRun (n : ℕ) :
    ∀ job ∈ (overtakingRun n).1.jobs, SingleCall job.call.request := by
  intro job hjob
  have hcall := (calls_overtakingRun n).subset (List.mem_map_of_mem hjob)
  rcases List.mem_pair.mp hcall with heq | heq
  · rw [heq]
    exact singleCall_setCall 0 "k" "1"
  · rw [heq]
    exact singleCall_setCall 1 "k" "2"

/-- Two writes, the second of which takes effect first. -/
theorem exists_linearizes_overtakingRun :
    ∃ order : ℕ → List ℕ, Linearizes cells emptyCells overtakingRun order :=
  exists_linearizes runOn_overtakingRun singleCall_overtakingRun

end Proxy

end LogcabinRedisProxy
