import RedisProxy.Library.ThreadRuns
import RedisProxy.Linearizability

/-!
# Whole runs as serial ones

What a cluster sees of a run of the proxy is an interleaving of the workers of all the
requests that have arrived, in which each makes its own calls, each of them once
(`exists_interleaves_of_runOn`). On which connections the requests came, when, and in how
many reads, which of them the pool started first and what became of their replies is
nothing to it.

So the requests of a whole run are serializable under the condition under which requests
that are served at once are: every one of them makes one call, or shares nothing with the
others. Once they are done, there is an order in which running them one at a time leaves
the same store and gives each its results and its reply (`exists_serial_of_runOn`).
-/

namespace LogcabinRedisProxy

open Bytes SimpleResp Interleaving Prog

variable {S : Type} {cluster : Cluster S}

namespace Proxy

/-- The requests that have arrived so far, in their order. -/
def arrivals (s : Proxy) : List (Int32 × HandlerCall) :=
  s.jobs.map fun job => (job.sessionId, job.call)

/-- The threads run the workers of the requests. -/
theorem map_program_threadOf (s : Proxy) :
    (s.jobs.map threadOf).map Thread.program = List.ofFn (workers s.arrivals) := by
  have hworkers : List.ofFn (workers s.arrivals)
      = s.arrivals.map fun request => worker request.1 request.2 :=
    List.ofFn_getElem_eq_map s.arrivals fun request => worker request.1 request.2
  rw [hworkers, arrivals, List.map_map, List.map_map]
  rfl

variable {sessionCounter : Int32} {shared : Shared S} {run : ℕ → Proxy × Shared S} {n : ℕ}

theorem RunOn.exists_interleaved (hrun : RunOn cluster sessionCounter shared run) (n : ℕ) :
    ∃ tr, Interleaved (serve cluster) (workers (run n).1.arrivals) shared
      ((run n).1.jobs.map threadOf) (run n).2 tr := by
  refine @Interleaving.exists_interleaved _ _ _ _ (serve cluster) shared _
    (workers (run n).1.arrivals) (fun m => ((run m).1.jobs.map threadOf, (run m).2)) ?_
    (fun m => ?_) n ?_
  · rw [hrun.start]
    rfl
  · rcases hrun.step m with hsame | ⟨l, hs, hserved⟩
    · rw [hsame]
      exact Or.inl rfl
    · exact hs.threadStep hserved
  · exact (map_program_threadOf (run n).1) ▸ List.prefix_rfl

/-- A request that has arrived has a job. -/
theorem exists_job_of_arrivals (s : Proxy) (i : Fin s.arrivals.length) :
    ∃ job, s.jobs[i.val]? = some job ∧ s.arrivals[i] = (job.sessionId, job.call) := by
  have hi : i.val < s.jobs.length := i.isLt.trans_eq (List.length_map _)
  exact ⟨s.jobs[i.val], List.getElem?_eq_getElem hi, List.getElem_map ..⟩

/-- What a thread has come to is what its job has. -/
theorem madeOf_threadOf {s : Proxy} {i : Fin s.arrivals.length} {job : ProcesserJob}
    (hjob : s.jobs[i.val]? = some job) :
    madeOf (s.jobs.map threadOf) i = job.made
      ∧ todoOf (workers s.arrivals) (s.jobs.map threadOf) i = job.todo := by
  unfold madeOf todoOf
  rw [getElem?_map_threadOf hjob]
  exact ⟨rfl, rfl⟩

/-- **For the cluster, a run of the proxy is an interleaving** of the workers of all
requests. -/
theorem exists_interleaves_of_runOn (hrun : RunOn cluster sessionCounter shared run) (n : ℕ) :
    ∃ tr todo, Interleaves (serve cluster) (workers (run n).1.arrivals) shared tr todo (run n).2
      ∧ ∀ (i : Fin (run n).1.arrivals.length) (job : ProcesserJob),
        (run n).1.jobs[i.val]? = some job → callsOf i tr = job.made ∧ todo i = job.todo := by
  obtain ⟨tr, h⟩ := hrun.exists_interleaved n
  refine ⟨tr, _, h.interleaves, fun i job hjob => ?_⟩
  obtain ⟨hmade, htodo⟩ := madeOf_threadOf hjob
  exact ⟨(h.made i).trans hmade, htodo⟩

/-- Two writes, both of which have taken effect and not replied yet. -/
theorem exists_interleaves_of_runOn_overtakingRun :
    ∃ tr todo, Interleaves (serve cells) (workers (overtakingRun 7).1.arrivals) emptyCells tr todo
        (overtakingRun 7).2
      ∧ ∀ (i : Fin (overtakingRun 7).1.arrivals.length) (job : ProcesserJob),
        (overtakingRun 7).1.jobs[i.val]? = some job → callsOf i tr = job.made
          ∧ todo i = job.todo :=
  exists_interleaves_of_runOn runOn_overtakingRun 7

/-- **The requests of a run are serializable**, if every one of them makes one call or
shares nothing with the others. -/
theorem exists_serial_of_runOn (hrun : RunOn cluster sessionCounter shared run)
    (hdone : ∀ job ∈ (run n).1.jobs, job.todo = .pure ())
    (hin : ∀ i : Fin (run n).1.arrivals.length, SingleCall (run n).1.arrivals[i].2.request
      ∨ SharesNothing cluster (run n).1.arrivals i) :
    ∃ order : List (Fin (run n).1.arrivals.length), order.Nodup ∧ (∀ i, i ∈ order)
      ∧ (run n).2 = serialState (serve cluster) (workers (run n).1.arrivals) order shared
      ∧ ∀ (i : Fin (run n).1.arrivals.length) (job : ProcesserJob),
        (run n).1.jobs[i.val]? = some job → ∃ before after, order = before ++ i :: after
          ∧ job.made = (workers (run n).1.arrivals i).trace (serve cluster)
            (serialState (serve cluster) (workers (run n).1.arrivals) before shared) := by
  obtain ⟨tr, h⟩ := hrun.exists_interleaved n
  have hreturned : ∀ i, todoOf (workers (run n).1.arrivals) ((run n).1.jobs.map threadOf) i
      = .pure () := fun i => by
    obtain ⟨job, hjob, -⟩ := exists_job_of_arrivals (run n).1 i
    exact (madeOf_threadOf hjob).2.trans (hdone job (List.mem_of_getElem? hjob))
  have hacyclic : Acyclic (serve cluster) tr := by
    have hfree : ∀ a b : TreeCall ⊕ SendReply, a.isLeft = false →
        Independent (serve cluster) a b := fun _ b ha => independent_of_isLeft b ha
    refine acyclic_of_length_le_one hfree fun i => ?_
    rcases hin i with hsingle | hnothing
    · exact Or.inr (length_filter_isLeft_le_one h.interleaves hreturned hsingle)
    · exact Or.inl (not_conflicts_of_sharesNothing h.interleaves hreturned hnothing)
  obtain ⟨order, hnodup, hall, hsame⟩ := h.interleaves.exists_sameAsSerial hreturned hacyclic
  refine ⟨order, hnodup, hall, hsame.1, fun i job hjob => ?_⟩
  obtain ⟨before, after, horder, hcalls⟩ := hsame.exists_between hnodup (hall i)
  exact ⟨before, after, horder, (madeOf_threadOf hjob).1.symm.trans
    ((h.made i).symm.trans hcalls)⟩

/-! ## Workers that take turns -/

/-- The worker of a job makes its next call on a cluster, if it has one left. -/
def advance (cluster : Cluster S) (i : ℕ) (x : Proxy × Shared S) : Proxy × Shared S :=
  match x.1.jobs[i]? with
  | none => x
  | some job =>
    match job.todo with
    | .pure () => x
    | .call (Sum.inl c) k =>
      let (r, shared) := serve cluster (Sum.inl c) x.2
      ({ x.1 with
          jobs := x.1.jobs.set i
            { job with made := job.made ++ [⟨Sum.inl c, r⟩], todo := k r } }, shared)
    | .call (Sum.inr reply) k =>
      ({ x.1 with
          jobs := x.1.jobs.set i
            { job with made := job.made ++ [⟨Sum.inr reply, ()⟩], todo := k () }
          senders := x.1.senders ++ [⟨job.owner, reply⟩] }, x.2)

/-- **Any worker may be the next one.** -/
theorem step_advance (i : ℕ) (x : Proxy × Shared S) :
    advance cluster i x = x
      ∨ ∃ l, Step x.1 l (advance cluster i x).1
        ∧ Label.Served cluster x.2 l (advance cluster i x).2 := by
  obtain ⟨s, shared⟩ := x
  unfold advance
  cases hjob : s.jobs[i]? with
  | none => exact Or.inl rfl
  | some job =>
    obtain ⟨hi, hget⟩ := List.getElem?_eq_some_iff.mp hjob
    have hsplit : s.jobs = s.jobs.take i ++ job :: s.jobs.drop (i + 1) := by
      rw [← hget, List.getElem_cons_drop, List.take_append_drop]
    simp only [List.set_eq_take_append_cons_drop, if_pos hi]
    cases htodo : job.todo with
    | pure _ => exact Or.inl rfl
    | call op k =>
      cases op with
      | inl c => exact Or.inr ⟨_, Step.callTree _ hsplit htodo, rfl⟩
      | inr reply => exact Or.inr ⟨_, Step.sendReply hsplit htodo, rfl⟩

/-- Two pushes on different keys, as a client sends them. -/
def pushesText : Bytes :=
  ofString ("*4\r\n$5\r\nRPUSH\r\n$1\r\na\r\n$1\r\n1\r\n$1\r\n2\r\n"
    ++ "*4\r\n$5\r\nRPUSH\r\n$1\r\nb\r\n$1\r\n3\r\n$1\r\n4\r\n")

/-- The same as requests. -/
def twoPushes : List HandlerCall := [rpushCall 0 "a" ["1", "2"], rpushCall 1 "b" ["3", "4"]]

theorem receive_twoPushes : receive (.new 1 0) pushesText = ⟨twoPushes, .ok afterTwo⟩ :=
  Traced.ext (by decide +kernel) (by decide +kernel)

/-- **Two pushes at once**, whose workers take turns. -/
def takingTurns : ℕ → Proxy × Shared Cells
  | n + 6 => advance cells (n % 2) (takingTurns (n + 5))
  | n =>
    (sending pushesText (rpushCall 0 "a" ["1", "2"]) (rpushCall 1 "b" ["3", "4"]) n, emptyCells)

theorem runOn_takingTurns : RunOn cells 0 emptyCells takingTurns := by
  have hsending := @step_sending pushesText (rpushCall 0 "a" ["1", "2"])
    (rpushCall 1 "b" ["3", "4"]) (by decide +kernel) receive_twoPushes
  refine ⟨rfl, fun n => ?_⟩
  match n with
  | 0 => exact Or.inr ⟨_, hsending (n := 0) (by decide), rfl⟩
  | 1 => exact Or.inr ⟨_, hsending (n := 1) (by decide), rfl⟩
  | 2 => exact Or.inr ⟨_, hsending (n := 2) (by decide), rfl⟩
  | 3 => exact Or.inr ⟨_, hsending (n := 3) (by decide), rfl⟩
  | 4 => exact Or.inr ⟨_, hsending (n := 4) (by decide), rfl⟩
  | n + 5 => exact step_advance (n % 2) (takingTurns (n + 5))

theorem arrivals_takingTurns : (takingTurns 11).1.arrivals
    = [(1, rpushCall 0 "a" ["1", "2"]), (1, rpushCall 1 "b" ["3", "4"])] := by decide +kernel

theorem done_takingTurns : ∀ job ∈ (takingTurns 11).1.jobs, job.todo = .pure () := by
  have hall : ∀ job ∈ (takingTurns 11).1.jobs, job.todo.finished = true := by decide +kernel
  exact fun job hjob => (Prog.finished_iff.mp (hall job hjob)).choose_spec

/-- Two pushes of two elements each, which do not stand in each other's way. -/
theorem exists_serial_of_runOn_takingTurns :
    ∃ order : List (Fin (takingTurns 11).1.arrivals.length), order.Nodup ∧ (∀ i, i ∈ order)
      ∧ (takingTurns 11).2
        = serialState (serve cells) (workers (takingTurns 11).1.arrivals) order emptyCells := by
  have hnothing : ∀ i, SharesNothing cells (takingTurns 11).1.arrivals i := by
    rw [arrivals_takingTurns]
    exact sharesNothing_of_pushes (by decide +kernel) (by decide +kernel)
  obtain ⟨order, hnodup, hall, hstate, -⟩ := exists_serial_of_runOn runOn_takingTurns
    done_takingTurns fun i => Or.inr (hnothing i)
  exact ⟨order, hnodup, hall, hstate⟩

end Proxy

end LogcabinRedisProxy
