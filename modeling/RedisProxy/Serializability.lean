import RedisProxy.Replies
import RedisProxy.WorkerPool
import Mathlib.Data.List.Permutation

/-!
# Requests that are served at once

Requests of any clients, each with its worker, and the workers make their calls
in any order. `RPUSH`, `LPUSH` and `MGET` are loops that make a call for each
element or key, and nothing keeps the calls of another worker from coming
between two of them: the elements of one push need not stand together
(`not_serializable`).

What a request does is otherwise one call on the cluster
(`length_calls_le_one`), and a call is one step. So if every request makes one
call at most, or shares nothing with the others, there is a serial order of the
requests, and there is one for every interleaving in which the calls that depend
on each other form no cycle (`exists_serial_of_interleaves`).
-/

namespace LogcabinRedisProxy

open Bytes SimpleResp Interleaving Prog

variable {S : Type} {request : List Bytes} {calls : List (Event TreeResult)}
  {res : EncodeResult}

/-! ## How many calls a request makes -/

/-- **A request that makes one call at most**: it is not a push of several
elements and does not get several keys. -/
structure SingleCall (request : List Bytes) : Prop where
  rpush : commandOf request = ofString "RPUSH" → request.length ≤ 3
  lpush : commandOf request = ofString "LPUSH" → request.length ≤ 3
  mget : commandOf request = ofString "MGET" → request.length ≤ 2

theorem length_le_one_of_guarded {P : Prop} [Decidable P] {err : EncodeResult}
    {c : ¬ P → TreeCall} {f : (h : ¬ P) → (c h).Value → EncodeResult}
    (hrun : Exec (catchException (if h : P then pure err
      else callTree (c h) >>= fun v => pure (f h v))) calls res) : calls.length ≤ 1 := by
  rcases exec_guarded_iff.mp hrun with ⟨-, rfl, -⟩ | ⟨_, _, rfl, -⟩
  · exact Nat.zero_le 1
  · exact Nat.le_refl 1

theorem length_le_one_of_guardedLookup {P : Prop} [Decidable P] {err nil : EncodeResult}
    {c : ¬ P → TreeCall} {f : (h : ¬ P) → (c h).Value → EncodeResult}
    (hrun : Exec (catchException (catchLookupException nil (if h : P then pure err
      else callTree (c h) >>= fun v => pure (f h v)))) calls res) : calls.length ≤ 1 := by
  rcases exec_guardedLookup_iff.mp hrun with ⟨-, rfl, -⟩ | ⟨_, _, rfl, -⟩
  · exact Nat.zero_le 1
  · exact Nat.le_refl 1

/-- A push makes no more calls than there are elements. -/
theorem length_le_of_push {command : String} {push : Bytes → Bytes → Handling Unit}
    {pushed : Bytes → Bytes → Except TreeException Unit → Event TreeResult}
    (hpush : ∀ key x tr out, Exec (push key x).run tr out ↔ tr = [pushed key x out])
    (hrun : Exec (handlePushRequest command push request) calls res) :
    calls.length ≤ request.length - 2 := by
  rcases push_cases hpush hrun with ⟨-, rfl, -⟩
    | ⟨name, key, elements, rfl, -, ⟨rfl, -⟩ | ⟨done, x, rest, e, rfl, rfl, -⟩⟩
  · exact Nat.zero_le _
  · exact le_of_eq (List.length_map _)
  · simp

/-- `MGET` makes no more calls than there are keys. -/
theorem length_le_of_mget (hrun : Exec (handleMgetRequest request) calls res) :
    calls.length ≤ request.length - 1 := by
  rcases mget_cases hrun with ⟨-, rfl, -⟩ | ⟨name, keys, rfl, -, ⟨found, hlen, rfl, -⟩
    | ⟨done, key, rest, found, rfl, hlen, rfl, -⟩⟩
  · exact Nat.zero_le _
  · rw [List.length_zipWith, hlen, Nat.min_self]
    exact Nat.le_refl _
  · simp [hlen]

/-- **What is not a loop over several elements or keys is one call at most.** -/
theorem length_calls_le_one (hsingle : SingleCall request)
    (hrun : Exec (handle (commandOf request) request) calls res) : calls.length ≤ 1 := by
  have hd := dispatch_handle (commandOf request)
  have hrpush := hsingle.rpush
  have hlpush := hsingle.lpush
  have hmget := hsingle.mget
  generalize commandOf request = name at hd hrpush hlpush hmget hrun
  generalize handle name = handler at hd hrun
  cases hd with
  | rpush =>
    have hlen := length_le_of_push (fun _ _ _ _ => exec_callTree_iff) hrun
    have hargs := hrpush rfl
    omega
  | lpush =>
    have hlen := length_le_of_push (fun _ _ _ _ => exec_callTree_iff) hrun
    have hargs := hlpush rfl
    omega
  | mget =>
    have hlen := length_le_of_mget hrun
    have hargs := hmget rfl
    omega
  | sadd => exact length_le_one_of_guarded hrun
  | srem => exact length_le_one_of_guarded hrun
  | smembers => exact length_le_one_of_guarded hrun
  | scard => exact length_le_one_of_guardedLookup hrun
  | lrange => exact length_le_one_of_guardedLookup hrun
  | ltrim => exact length_le_one_of_guarded hrun
  | expire => exact length_le_one_of_guarded hrun
  | set => exact length_le_one_of_guarded hrun
  | get => exact length_le_one_of_guardedLookup hrun
  | unknown _ _ _ _ =>
    obtain ⟨rfl, -⟩ := exec_pure_iff.mp hrun
    exact Nat.zero_le 1

/-! ## Requests of any clients -/

/-- The workers of requests, each with the connection it came on. -/
def workers (requests : List (Int32 × HandlerCall)) :
    Fin requests.length → Prog WorkerResult Unit :=
  fun i => worker requests[i].1 requests[i].2

/-- A call the handler of a request makes, depending on what the cluster
answers. -/
def MayCall (request : List Bytes) (c : TreeCall) : Prop :=
  ∃ calls res, Exec (handle (commandOf request) request) calls res ∧ ∃ e ∈ calls, e.1 = c

/-- **A request shares nothing with the others**: its calls are independent of
theirs. -/
def SharesNothing (cluster : Cluster S) (requests : List (Int32 × HandlerCall))
    (i : Fin requests.length) : Prop :=
  ∀ j ≠ i, ∀ c d, MayCall requests[i].2.request c → MayCall requests[j].2.request d →
    Independent cluster c d

/-- **The requests are serializable**: whenever their workers have run in
any order to their end, there is an order of the requests in which running them
one after another leaves the same store, and has every request make the calls
with the results, and send the reply, that it did. -/
def Serializable (cluster : Cluster S) (requests : List (Int32 × HandlerCall)) : Prop :=
  ∀ (shared shared' : Shared S) (tr : List (Fin requests.length × Event WorkerResult))
    (todo : Fin requests.length → Prog WorkerResult Unit),
    Interleaves (serve cluster) (workers requests) shared tr todo shared' →
      (∀ i, todo i = .pure ()) →
        ∃ order : List (Fin requests.length), order.Nodup ∧ (∀ i, i ∈ order)
          ∧ SameAsSerial (serve cluster) (workers requests) shared tr shared' order

variable {cluster : Cluster S} {requests : List (Int32 × HandlerCall)}
  {shared shared' : Shared S} {tr : List (Fin requests.length × Event WorkerResult)}
  {todo : Fin requests.length → Prog WorkerResult Unit}

/-- What a worker calls: what its handler does, and `send_reply`. -/
theorem exists_handler_calls
    (h : Interleaves (serve cluster) (workers requests) shared tr todo shared')
    (hdone : ∀ i, todo i = .pure ()) (i : Fin requests.length) :
    ∃ calls res reply,
      Exec (handle (commandOf requests[i].2.request) requests[i].2.request) calls res
        ∧ callsOf i tr = calls.map Event.inl ++ [⟨Sum.inr reply, ()⟩] := by
  have hexec : Exec (processerWorker requests[i].2.commandId requests[i].2.request
      requests[i].1) (callsOf i tr) () := h.exec hdone i
  obtain ⟨calls, res, hcalls, heq⟩ := exec_processerWorker_iff.mp hexec
  exact ⟨calls, res, _, hcalls, heq⟩

/-- Only calls on the cluster can depend on each other. -/
theorem independent_of_isLeft {a : TreeCall ⊕ SendReply} (b : TreeCall ⊕ SendReply)
    (h : a.isLeft = false) : Independent (serve cluster) a b := by
  cases a with
  | inl c => cases h
  | inr reply => exact independent_sendReply cluster reply b

/-- A request with one call makes one on the cluster. -/
theorem length_filter_isLeft_le_one
    (h : Interleaves (serve cluster) (workers requests) shared tr todo shared')
    (hdone : ∀ i, todo i = .pure ()) {i : Fin requests.length}
    (hsingle : SingleCall requests[i].2.request) :
    ((callsOf i tr).filter fun e => e.1.isLeft).length ≤ 1 := by
  obtain ⟨calls, res, reply, hcalls, heq⟩ := exists_handler_calls h hdone i
  rw [heq, List.filter_append, List.filter_cons_of_neg (by exact Bool.false_ne_true),
    List.filter_nil, List.append_nil]
  refine (List.length_filter_le _ _).trans ?_
  rw [List.length_map]
  exact length_calls_le_one hsingle hcalls

/-- A call on the cluster is one of its request's handler. -/
theorem mayCall_of_mem
    (h : Interleaves (serve cluster) (workers requests) shared tr todo shared')
    (hdone : ∀ i, todo i = .pure ()) {x : Fin requests.length × Event WorkerResult}
    (hx : x ∈ tr) {c : TreeCall} (hc : x.2.1 = Sum.inl c) :
    MayCall requests[x.1].2.request c := by
  obtain ⟨calls, res, reply, hcalls, heq⟩ := exists_handler_calls h hdone x.1
  have hown : x.2 ∈ callsOf x.1 tr :=
    List.mem_map.mpr ⟨x, List.mem_filter.mpr ⟨hx, decide_eq_true rfl⟩, rfl⟩
  rw [heq] at hown
  rcases List.mem_append.mp hown with hin | hlast
  · obtain ⟨e, he, hex⟩ := List.mem_map.mp hin
    exact ⟨calls, res, hcalls, e, he, Sum.inl.inj ((congrArg Sigma.fst hex).trans hc)⟩
  · rw [List.mem_singleton.mp hlast] at hc
    exact nomatch hc

/-- What shares nothing has no conflicts. -/
theorem not_conflicts_of_sharesNothing
    (h : Interleaves (serve cluster) (workers requests) shared tr todo shared')
    (hdone : ∀ i, todo i = .pure ()) {i : Fin requests.length}
    (hi : SharesNothing cluster requests i) (j : Fin requests.length) :
    ¬ Conflicts (serve cluster) tr i j ∧ ¬ Conflicts (serve cluster) tr j i := by
  have hind : ∀ x ∈ tr, ∀ y ∈ tr, x.1 = i → y.1 ≠ i →
      Independent (serve cluster) x.2.1 y.2.1 := by
    intro x hx y hy hxi hyi
    subst hxi
    cases hc : x.2.1 with
    | inr reply => exact independent_sendReply cluster reply _
    | inl c =>
      cases hd : y.2.1 with
      | inr reply => exact (independent_sendReply cluster reply _).symm
      | inl d =>
        exact independent_serve_iff.mpr
          (hi y.1 hyi c d (mayCall_of_mem h hdone hx hc) (mayCall_of_mem h hdone hy hd))
  constructor
  · rintro ⟨hne, x, y, hxy, rfl, rfl, hdep⟩
    have hx := hxy.subset List.mem_cons_self
    have hy := hxy.subset (List.mem_cons_of_mem _ List.mem_cons_self)
    exact hdep (hind x hx y hy rfl hne.symm)
  · rintro ⟨hne, x, y, hxy, rfl, rfl, hdep⟩
    have hx := hxy.subset List.mem_cons_self
    have hy := hxy.subset (List.mem_cons_of_mem _ List.mem_cons_self)
    exact hdep (hind y hy x hx rfl hne).symm

/-- **Requests that are served at once have the results of a serial order**, in
which each runs on a state between two others, if the calls that depend on each
other form no cycle: always, if every request makes one call or shares nothing
with the others. -/
theorem exists_serial_of_interleaves
    (h : Interleaves (serve cluster) (workers requests) shared tr todo shared')
    (hdone : ∀ i, todo i = .pure ())
    (hin : Acyclic (serve cluster) tr
      ∨ ∀ i : Fin requests.length,
          SingleCall requests[i].2.request ∨ SharesNothing cluster requests i) :
    ∃ order : List (Fin requests.length), order.Nodup ∧ (∀ i, i ∈ order)
      ∧ SameAsSerial (serve cluster) (workers requests) shared tr shared' order
      ∧ ∀ i, ∃ before after, order = before ++ i :: after
        ∧ callsOf i tr = (workers requests i).trace (serve cluster)
            (serialState (serve cluster) (workers requests) before shared) := by
  have hacyclic : Acyclic (serve cluster) tr := by
    refine hin.elim id fun hreq => ?_
    have hfree : ∀ a b : TreeCall ⊕ SendReply, a.isLeft = false →
        Independent (serve cluster) a b := fun _ b ha => independent_of_isLeft b ha
    refine acyclic_of_length_le_one hfree fun i => ?_
    rcases hreq i with hsingle | hnothing
    · exact Or.inr (length_filter_isLeft_le_one h hdone hsingle)
    · exact Or.inl (not_conflicts_of_sharesNothing h hdone hnothing)
  obtain ⟨order, hnodup, hall, hsame⟩ := h.exists_sameAsSerial hdone hacyclic
  exact ⟨order, hnodup, hall, hsame, fun i => hsame.exists_between hnodup (hall i)⟩

/-! ## Pushes -/

/-- A push calls nothing but its push, on its key. -/
theorem MayCall.eq_rpushEx {c : TreeCall} (h : MayCall request c)
    (hcommand : commandOf request = ofString "RPUSH") :
    ∃ x, c = .rpushEx (request.getD 1 []) x := by
  obtain ⟨calls, res, hrun, e, he, rfl⟩ := h
  rw [hcommand, show handle (ofString "RPUSH") = handleRpushRequest from if_pos rfl] at hrun
  rcases push_cases (fun _ _ _ _ => exec_callTree_iff) hrun with ⟨-, rfl, -⟩
    | ⟨name, key, _, rfl, -, ⟨rfl, -⟩ | ⟨done, y, rest, err, -, rfl, -⟩⟩
  · exact absurd he List.not_mem_nil
  · obtain ⟨x, -, rfl⟩ := List.mem_map.mp he
    exact ⟨x, rfl⟩
  · rcases List.mem_append.mp he with hdone | hlast
    · obtain ⟨x, -, rfl⟩ := List.mem_map.mp hdone
      exact ⟨x, rfl⟩
    · rw [List.mem_singleton.mp hlast]
      exact ⟨y, rfl⟩

/-- Pushes on different keys are independent. -/
theorem independent_rpushEx {key key' : Bytes} (hkey : key ≠ key') (x y : Bytes) :
    Independent cells (.rpushEx key x) (.rpushEx key' y) := by
  refine ⟨fun _ => rfl, fun _ => rfl, fun store => ?_⟩
  show Function.update (Function.update store key _) key' (Function.update store key _ key' ++ [y])
    = Function.update (Function.update store key' _) key (Function.update store key' _ key ++ [x])
  rw [Function.update_of_ne hkey.symm, Function.update_of_ne hkey]
  exact Function.update_comm hkey _ _ store

/-- Pushes each on a key of its own share nothing. -/
theorem sharesNothing_of_pushes {requests : List (Int32 × HandlerCall)}
    (hpush : ∀ i : Fin requests.length, commandOf requests[i].2.request = ofString "RPUSH")
    (hkey : ∀ i j : Fin requests.length, i ≠ j →
      requests[i].2.request.getD 1 [] ≠ requests[j].2.request.getD 1 [])
    (i : Fin requests.length) : SharesNothing cells requests i := by
  intro j hij c d hc hd
  obtain ⟨x, rfl⟩ := hc.eq_rpushEx (hpush i)
  obtain ⟨y, rfl⟩ := hd.eq_rpushEx (hpush j)
  exact independent_rpushEx (hkey i j hij.symm) x y

/-! ## Two pushes at once -/

/-- `RPUSH key …`, as the request with a number. -/
def rpushCall (commandId : Int32) (key : String) (elements : List String) : HandlerCall :=
  ⟨commandId, ofString "RPUSH" :: ofString key :: elements.map ofString⟩

/-- Two clients push to one list. -/
abbrev pushes (elements elements' : List String) : List (Int32 × HandlerCall) :=
  [(1, rpushCall 0 "k" elements), (2, rpushCall 0 "k" elements')]

/-- The pool after their workers have made their calls in some order. -/
def pushed (elements elements' : List String) (order : List (Fin 2)) : Option (Pool Cells 2) :=
  (Pool.new (workers (pushes elements elements')) emptyCells).run cells 2 (bothStarted order)

theorem pushed_isSome : (pushed ["a"] ["c"] [1, 0, 0, 1]).isSome = true := by decide +kernel

theorem pushed_isSome' : (pushed ["a", "b"] ["c", "d"] [0, 1, 0, 1, 0, 1]).isSome = true := by
  decide +kernel

/-- Two clients that push one element each. -/
theorem exists_serial_of_interleaves_oneElement :
    ∃ order : List (Fin 2), order.Nodup ∧ (∀ i, i ∈ order)
      ∧ SameAsSerial (serve cells) (workers (pushes ["a"] ["c"])) emptyCells
          ((pushed ["a"] ["c"] [1, 0, 0, 1]).get pushed_isSome).made
          ((pushed ["a"] ["c"] [1, 0, 0, 1]).get pushed_isSome).shared order
      ∧ ∀ i, ∃ before after : List (Fin 2), order = before ++ i :: after
        ∧ callsOf i ((pushed ["a"] ["c"] [1, 0, 0, 1]).get pushed_isSome).made
          = (workers (pushes ["a"] ["c"]) i).trace (serve cells)
            (serialState (serve cells) (workers (pushes ["a"] ["c"])) before emptyCells) := by
  obtain ⟨tr, hmade, htr⟩ :=
    Pool.exists_interleaves_of_run (Option.some_get pushed_isSome).symm
  obtain rfl : _ = tr := hmade
  have hdone : ((pushed ["a"] ["c"] [1, 0, 0, 1]).get pushed_isSome).Done := by
    decide +kernel
  have hreturned : ∀ i, ((pushed ["a"] ["c"] [1, 0, 0, 1]).get
      pushed_isSome).todo i = .pure () := fun i =>
    (Prog.finished_iff.mp (hdone i)).choose_spec
  refine @exists_serial_of_interleaves _ _ (pushes ["a"] ["c"]) _ _ _ _ htr hreturned
    (Or.inr fun i => Or.inl ?_)
  have hlen : (pushes ["a"] ["c"])[i].2.request.length = 3 := by revert i; decide
  exact ⟨fun _ => le_of_eq hlen, fun _ => le_of_eq hlen, fun h => absurd h (by revert i; decide)⟩

/-- **Two pushes of two elements can leave their elements mixed up**, which no
order of the two does. -/
theorem not_serializable : ¬ Serializable cells (pushes ["a", "b"] ["c", "d"]) := by
  intro hser
  obtain ⟨tr, -, htr⟩ :=
    Pool.exists_interleaves_of_run (Option.some_get pushed_isSome').symm
  have hdone : ((pushed ["a", "b"] ["c", "d"] [0, 1, 0, 1, 0, 1]).get
      pushed_isSome').Done := by decide +kernel
  obtain ⟨order, hnodup, hall, hstate, -⟩ := hser _ _ _ _ htr fun i =>
    (Prog.finished_iff.mp (hdone i)).choose_spec
  have hperm : order.Perm [0, 1] :=
    (List.perm_ext_iff_of_nodup hnodup (by decide)).mpr fun i =>
      iff_of_true (hall i) (by revert i; decide)
  have hk := congrArg (fun shared => shared.store (ofString "k")) hstate
  rcases List.mem_cons.mp (List.mem_permutations'.mpr hperm) with rfl | hmem
  · exact absurd hk (by decide +kernel)
  · obtain rfl := List.mem_singleton.mp hmem
    exact absurd hk (by decide +kernel)

end LogcabinRedisProxy
