import RedisProxy.Handlers
import RedisProxy.Library.Interleaving

/-!
# Workers on one store

The workers of the pool make their calls on one cluster. Each call takes the
next of the ten trees (`getTree`) and is one atomic step on the cluster's store,
whatever the store is and however it answers (`Cluster`).

The pool is queued the requests of a connection in the order of their arrival.
It starts them in that order, up to a number of threads at a time, and goes on
with any of those it has started (`Pool.step`). With one thread the requests take
effect in order. With more, a later request can overtake an earlier one
(`not_takesEffectInOrder`), which goes unnoticed exactly where the calls that
overtake each other are independent (`sameAsSerial_of_overtakes`).
-/

namespace LogcabinRedisProxy

open Bytes SimpleResp Interleaving

variable {S : Type}

/-! ## The cluster -/

/-- **A cluster**: each call on a tree is one step on a store. -/
abbrev Cluster (S : Type) : Type := (c : TreeCall) → S → TreeResult c × S

/-- What the workers share: the counter of the handler, and the store. -/
structure Shared (S : Type) where
  /-- `ptree_counter`. -/
  ptreeCounter : ℕ
  /-- The store of the cluster. -/
  store : S

/-- `handler::getTree`: which tree is next, and the counter after it. -/
def getTree (ptreeCounter : ℕ) : ℕ × ℕ := (ptreeCounter % 10, (ptreeCounter + 1) % 10)

/-- **A call of a worker.** A call on the cluster goes over the next tree, and
all trees lead to the same store; `send_reply` does not touch it. -/
def serve (cluster : Cluster S) : (op : TreeCall ⊕ SendReply) → Shared S →
    WorkerResult op × Shared S
  | .inl c, shared =>
    let (_tree, ptreeCounter) := getTree shared.ptreeCounter
    let (result, store) := cluster c shared.store
    (result, ⟨ptreeCounter, store⟩)
  | .inr _, shared => ((), shared)

/-- Calls on the cluster are independent as they are on its store. -/
theorem independent_serve_iff {cluster : Cluster S} {c d : TreeCall} :
    Independent (serve cluster) (Sum.inl c) (Sum.inl d) ↔ Independent cluster c d := by
  constructor
  · rintro ⟨hl, hr, hs⟩
    exact ⟨fun s => hl ⟨0, s⟩, fun s => hr ⟨0, s⟩,
      fun s => congrArg Shared.store (hs ⟨0, s⟩)⟩
  · rintro ⟨hl, hr, hs⟩
    refine ⟨fun shared => hl shared.store, fun shared => hr shared.store, fun shared => ?_⟩
    exact congrArg (Shared.mk _) (hs shared.store)

/-- `send_reply` is independent of every call. -/
theorem independent_sendReply (cluster : Cluster S) (reply : SendReply)
    (op : TreeCall ⊕ SendReply) : Independent (serve cluster) (Sum.inr reply) op :=
  ⟨fun _ => rfl, fun _ => rfl, fun _ => rfl⟩

/-- The worker of a request. -/
def worker (sessionId : Int32) (call : HandlerCall) : Prog WorkerResult Unit :=
  processerWorker call.commandId call.request sessionId

/-! ## The pool -/

variable {n : ℕ}

/-- **The pool with `n` workers**, in the order in which they were enqueued. -/
structure Pool (S : Type) (n : ℕ) where
  /-- What each worker has left to do. -/
  todo : Fin n → Prog WorkerResult Unit
  /-- How many have been started. -/
  started : ℕ
  /-- The calls they have made. -/
  made : List (Fin n × Event WorkerResult)
  /-- What they share. -/
  shared : Shared S

/-- What the pool does next. -/
inductive PoolAction (n : ℕ) where
  /-- A free thread takes the next worker. -/
  | start
  /-- A worker that has been started makes its next call. -/
  | call (i : Fin n)

namespace Pool

/-- The pool when the workers have been enqueued. -/
def new (workers : Fin n → Prog WorkerResult Unit) (shared : Shared S) : Pool S n where
  todo := workers
  started := 0
  made := []
  shared := shared

/-- The workers that keep a thread busy. -/
def running (pool : Pool S n) : List (Fin n) :=
  (List.finRange n).filter fun i => i.val < pool.started ∧ (pool.todo i).finished = false

/-- Every worker is done. -/
def Done (pool : Pool S n) : Prop := ∀ i, (pool.todo i).finished = true

instance (pool : Pool S n) : Decidable pool.Done :=
  inferInstanceAs (Decidable (∀ i, (pool.todo i).finished = true))

/-- One action of a pool of `threads` threads. -/
def step (cluster : Cluster S) (threads : ℕ) (pool : Pool S n) :
    PoolAction n → Option (Pool S n)
  | .start =>
    if pool.started < n ∧ pool.running.length < threads then
      some { pool with started := pool.started + 1 }
    else none
  | .call i =>
    match pool.todo i with
    | .pure _ => none
    | .call op k =>
      if i.val < pool.started then
        let (result, shared) := serve cluster op pool.shared
        some { pool with
          todo := Function.update pool.todo i (k result)
          made := pool.made ++ [(i, ⟨op, result⟩)]
          shared := shared }
      else none

/-- A sequence of actions. -/
def run (cluster : Cluster S) (threads : ℕ) (pool : Pool S n) :
    List (PoolAction n) → Option (Pool S n)
  | [] => some pool
  | action :: actions => pool.step cluster threads action >>= fun pool =>
    run cluster threads pool actions

variable {cluster : Cluster S} {threads : ℕ} {pool pool' : Pool S n}

/-- The pool after a worker has made a call. -/
def afterCall (pool : Pool S n) (cluster : Cluster S) (i : Fin n) (op : TreeCall ⊕ SendReply)
    (k : WorkerResult op → Prog WorkerResult Unit) : Pool S n :=
  { pool with
    todo := Function.update pool.todo i (k (serve cluster op pool.shared).1)
    made := pool.made ++ [(i, ⟨op, (serve cluster op pool.shared).1⟩)]
    shared := (serve cluster op pool.shared).2 }

/-- **What an action does**: it starts the next worker where a thread is free,
or makes a call of one that has been started. -/
theorem step_cases {action : PoolAction n} (h : pool.step cluster threads action = some pool') :
    (pool.running.length < threads ∧ pool' = { pool with started := pool.started + 1 })
      ∨ ∃ i op k, i.val < pool.started ∧ pool.todo i = .call op k
        ∧ pool' = pool.afterCall cluster i op k := by
  cases action with
  | start =>
    rw [step] at h
    split at h
    · rename_i hfree
      exact Or.inl ⟨hfree.2, (Option.some.inj h).symm⟩
    · cases h
  | call i =>
    rw [step] at h
    split at h
    · cases h
    · rename_i op k htodo
      split at h
      · rename_i hstarted
        exact Or.inr ⟨i, op, k, hstarted, htodo, (Option.some.inj h).symm⟩
      · cases h

/-- The invariant rule of the pool. -/
theorem run_invariant {I : Pool S n → Prop}
    (hstep : ∀ pool pool' action, I pool → pool.step cluster threads action = some pool' →
      I pool')
    {actions : List (PoolAction n)} (h : pool.run cluster threads actions = some pool')
    (hI : I pool) : I pool' := by
  induction actions generalizing pool with
  | nil =>
    obtain rfl := Option.some.inj h
    exact hI
  | cons action actions ih =>
    obtain ⟨next, hnext, hrest⟩ := Option.bind_eq_some_iff.mp h
    exact ih hrest (hstep pool next action hI hnext)

/-- **A run of the pool is an interleaving of its workers.** -/
theorem exists_interleaves_of_run {actions : List (PoolAction n)}
    (h : pool.run cluster threads actions = some pool') :
    ∃ tr, pool'.made = pool.made ++ tr
      ∧ Interleaves (serve cluster) pool.todo pool.shared tr pool'.todo pool'.shared := by
  induction actions generalizing pool with
  | nil =>
    obtain rfl := Option.some.inj h
    exact ⟨[], (List.append_nil _).symm, Interleaves.refl _ _⟩
  | cons action actions ih =>
    obtain ⟨next, hnext, hrest⟩ := Option.bind_eq_some_iff.mp h
    obtain ⟨tr, hmade, htr⟩ := ih hrest
    rcases step_cases hnext with ⟨-, rfl⟩ | ⟨i, op, k, -, htodo, rfl⟩
    · exact ⟨tr, hmade, htr⟩
    · exact ⟨_, hmade.trans (List.append_assoc _ _ _), Interleaves.call htodo htr⟩

/-- With one thread, the workers before the last one started are done, and the
calls have been made in order. -/
structure InTurn (pool : Pool S n) : Prop where
  done : ∀ i, i.val + 1 < pool.started → (pool.todo i).finished = true
  started : ∀ e ∈ pool.made, e.1.val < pool.started
  sorted : pool.made.Pairwise fun x y => x.1 ≤ y.1

theorem InTurn.step (h : InTurn pool) {action : PoolAction n}
    (hstep : pool.step cluster 1 action = some pool') : InTurn pool' := by
  rcases step_cases hstep with ⟨hfree, rfl⟩ | ⟨i, op, k, hstarted, htodo, rfl⟩
  · have hnone : pool.running = [] :=
      List.length_eq_zero_iff.mp (Nat.lt_one_iff.mp hfree)
    refine ⟨fun i hi => ?_, fun e he => Nat.lt_succ_of_lt (h.started e he), h.sorted⟩
    have hrun := List.filter_eq_nil_iff.mp hnone i (List.mem_finRange i)
    rw [decide_eq_true_eq, not_and, Bool.not_eq_false] at hrun
    exact hrun (Nat.lt_of_succ_lt_succ hi)
  · -- the worker is the last one started
    have hlast : i.val + 1 = pool.started := by
      by_contra hne
      have hdone := h.done i (by omega)
      rw [htodo] at hdone
      cases hdone
    refine ⟨fun j hj => ?_, ?_, ?_⟩
    · have hji : j ≠ i := by
        rintro rfl
        exact absurd hj (by show ¬ _ < pool.started; omega)
      show (Function.update pool.todo i _ j).finished = true
      rw [Function.update_of_ne hji]
      exact h.done j hj
    · exact List.forall_mem_append.mpr ⟨h.started, List.forall_mem_singleton.mpr hstarted⟩
    · refine List.pairwise_append.mpr ⟨h.sorted, List.pairwise_singleton _ _, ?_⟩
      intro x hx y hy
      obtain rfl := List.mem_singleton.mp hy
      have hlt := h.started x hx
      exact Fin.le_def.mpr (by show x.1.val ≤ i.val; omega)

end Pool

/-! ## Pipelined requests -/

/-- The workers of the requests of one connection, in the order of their
arrival. -/
def connectionWorkers (sessionId : Int32) (calls : List HandlerCall) :
    Fin calls.length → Prog WorkerResult Unit :=
  fun i => worker sessionId calls[i]

/-- **The requests of a connection take effect in the order of their arrival**,
whatever a pool with so many threads does: once every worker is done, the store
is that of running them one at a time, and each has made the calls with the
results, and sent the reply, that it would have then. -/
def TakesEffectInOrder (cluster : Cluster S) (threads : ℕ) (sessionId : Int32)
    (calls : List HandlerCall) : Prop :=
  ∀ (shared : Shared S) (actions : List (PoolAction calls.length))
    (pool : Pool S calls.length),
    (Pool.new (connectionWorkers sessionId calls) shared).run cluster threads actions
        = some pool → pool.Done →
      SameAsSerial (serve cluster) (connectionWorkers sessionId calls) shared pool.made
        pool.shared (List.finRange calls.length)

/-- Calls that overtake one of an earlier request are independent of it. -/
def OvertakesIndependent (cluster : Cluster S) (made : List (Fin n × Event WorkerResult)) :
    Prop :=
  made.Pairwise fun x y => y.1 < x.1 → Independent (serve cluster) x.2.1 y.2.1

/-- Only which calls were made matters, not what they returned. -/
theorem overtakesIndependent_iff {cluster : Cluster S}
    {made : List (Fin n × Event WorkerResult)} :
    OvertakesIndependent cluster made
      ↔ (made.map fun e => (e.1, e.2.1)).Pairwise fun x y =>
          y.1 < x.1 → Independent (serve cluster) x.2 y.2 := by
  unfold OvertakesIndependent
  rw [List.pairwise_map]

/-- **Requests take effect in order** with one thread, and with any number of
threads where no call overtakes one it depends on. -/
theorem sameAsSerial_of_overtakes {cluster : Cluster S} {threads : ℕ} {sessionId : Int32}
    {calls : List HandlerCall} {shared : Shared S}
    {actions : List (PoolAction calls.length)} {pool : Pool S calls.length}
    (hrun : (Pool.new (connectionWorkers sessionId calls) shared).run cluster threads actions
      = some pool) (hdone : pool.Done)
    (hin : threads = 1 ∨ OvertakesIndependent cluster pool.made) :
    SameAsSerial (serve cluster) (connectionWorkers sessionId calls) shared pool.made
      pool.shared (List.finRange calls.length) := by
  have hover : OvertakesIndependent cluster pool.made := by
    refine hin.elim (fun hone => ?_) id
    subst hone
    have hturn : pool.InTurn :=
      Pool.run_invariant (fun _ _ _ h hs => h.step hs) hrun
        ⟨fun i hi => absurd hi (Nat.not_lt_zero _), fun e he => absurd he List.not_mem_nil,
          List.Pairwise.nil⟩
    exact hturn.sorted.imp fun hle hlt => absurd hlt (not_lt.mpr hle)
  obtain ⟨tr, hmade, htr⟩ := Pool.exists_interleaves_of_run hrun
  obtain rfl : pool.made = tr := hmade
  refine htr.sameAsSerial (a := fun _ => ()) (fun i => ?_) (List.nodup_finRange _)
    List.mem_finRange fun i j hij => ?_
  · obtain ⟨u, hu⟩ := Prog.finished_iff.mp (hdone i)
    exact hu
  · have hlt : i < j :=
      List.pairwise_iff_forall_sublist.mp (List.pairwise_lt_finRange _) hij
    refine hover.imp fun hind hx hy => hind ?_
    rw [hx, hy]
    exact hlt

/-! ## A request that is overtaken -/

/-- A small store: a key has the elements of a list, or one string. Calls that
are not needed here fail. -/
abbrev Cells : Type := Bytes → List Bytes

/-- The calls on it. -/
def cells : Cluster Cells
  | .writeEx key value, store => (.ok (), Function.update store key [value])
  | .rpushEx key element, store =>
    (.ok (), Function.update store key (store key ++ [element]))
  | .lpushEx key element, store => (.ok (), Function.update store key (element :: store key))
  | _, store => (.error .other, store)

/-- Nothing has been stored yet. -/
def emptyCells : Shared Cells := ⟨0, fun _ => []⟩

/-- `SET key value`, as the request with a number. -/
def setCall (commandId : Int32) (key value : String) : HandlerCall :=
  ⟨commandId, [ofString "SET", ofString key, ofString value]⟩

/-- Two workers are started and make their calls in some order. -/
def bothStarted (order : List (Fin 2)) : List (PoolAction 2) :=
  .start :: .start :: order.map .call

/-- The pool after two requests of one connection, the second of which has
overtaken the first. -/
def overtaken (key key' : String) : Option (Pool Cells 2) :=
  (Pool.new (connectionWorkers 1 [setCall 0 key "1", setCall 1 key' "2"]) emptyCells).run
    cells 2 (bothStarted [1, 0, 0, 1])

theorem overtaken_isSome : (overtaken "k" "k").isSome = true := by decide +kernel

theorem overtaken_isSome' : (overtaken "a" "b").isSome = true := by decide +kernel

/-- Writes to different keys do not notice that one has overtaken the other. -/
theorem sameAsSerial_of_overtakes_twoKeys :
    SameAsSerial (serve cells)
      (connectionWorkers 1 [setCall 0 "a" "1", setCall 1 "b" "2"]) emptyCells
      ((overtaken "a" "b").get overtaken_isSome').made
      ((overtaken "a" "b").get overtaken_isSome').shared (List.finRange 2) := by
  have hmade : ((overtaken "a" "b").get overtaken_isSome').made.map (fun e => (e.1, e.2.1))
      = [(1, Sum.inl (.writeEx (ofString "b") (ofString "2"))),
          (0, Sum.inl (.writeEx (ofString "a") (ofString "1"))),
          (0, Sum.inr ⟨0, 1, ofString "+OK\r\n"⟩), (1, Sum.inr ⟨1, 1, ofString "+OK\r\n"⟩)] := by
    decide +kernel
  have hind : Independent (serve cells) (Sum.inl (.writeEx (ofString "b") (ofString "2")))
      (Sum.inl (.writeEx (ofString "a") (ofString "1"))) :=
    independent_serve_iff.mpr ⟨fun _ => rfl, fun _ => rfl, fun store =>
      Function.update_comm (by decide +kernel) _ _ store⟩
  have hover : OvertakesIndependent cells
      ((overtaken "a" "b").get overtaken_isSome').made := by
    rw [overtakesIndependent_iff, hmade]
    simp [hind, fun reply op => (independent_sendReply cells reply op).symm]
  exact sameAsSerial_of_overtakes (Option.some_get overtaken_isSome').symm
    (by decide +kernel) (Or.inr hover)

/-- **Two threads can let the second of two pipelined writes be overwritten by
the first.** -/
theorem not_takesEffectInOrder :
    ¬ TakesEffectInOrder cells 2 1 [setCall 0 "k" "1", setCall 1 "k" "2"] := by
  intro h
  have hsame := (h emptyCells (bothStarted [1, 0, 0, 1]) _
    (Option.some_get overtaken_isSome).symm
    (by decide +kernel)).1
  have hk := congrArg (fun shared => shared.store (ofString "k")) hsame
  exact absurd hk (by decide +kernel)

end LogcabinRedisProxy
