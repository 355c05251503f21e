import RedisProxy.Commands

/-!
# The vector of a request, element by element

The handlers take elements out of `redis_args` by `operator[]` and by
iterators, neither of which checks anything: an index past the end, or an
iterator past the end, reads whatever memory is there. In `RedisProxy.Handlers`
a request is a list, and taking an element that is not there cannot be
written. Here the handlers are told one level below. They get the size of the
vector alone and ask for each element (`Indexed.element`), so that asking for
one that is not there is something they could do.

Run on a vector (`fromVector`), a request for an element in bounds is the
element; any other one stays what it is, a call that the memory answers as it
likes. The handlers never make one: run on a vector, they are the handlers of
`RedisProxy.Handlers`, as programs (`Indexed.handle_processerWorker`).
-/

namespace LogcabinRedisProxy

open Bytes SimpleResp

/-! ## Programs that ask for elements -/

namespace Indexed

/-- What the code asks for: a call of the worker, or the element at an index. -/
abbrev Op : Type := (TreeCall ⊕ SendReply) ⊕ ℕ

/-- What it gets. -/
abbrev Result : Op → Type := Sum.elim WorkerResult (fun _ => Bytes)

/-- The body of a handler's `try` block. -/
abbrev Handling (α : Type) : Type := ExceptT TreeException (Prog Result) α

/-- A handler, which knows the size of the vector. -/
abbrev Handler : Type := ℕ → Prog Result EncodeResult

/-- `request[i]`. -/
def load (i : ℕ) : Prog Result Bytes := Prog.lift (Sum.inr i)

/-- `redis_args[i]`, and `*it` where `it` is `i` steps behind `begin()`. -/
def element (i : ℕ) : Handling Bytes := ExceptT.lift (load i)

/-- The call `getTree()->…` of a handler. -/
def callTree (c : TreeCall) : Handling c.Value := ExceptT.mk (Prog.lift (Sum.inl (Sum.inl c)))

/-- `catch (const LogCabin::Client::Exception& e)`. -/
def catchException (body : Handling EncodeResult) : Prog Result EncodeResult :=
  body.run >>= fun
    | .ok result => pure result
    | .error _ => pure internalError

/-- `catch (const LogCabin::Client::LookupException& e)`. -/
def catchLookupException {α : Type} (value : α) (body : Handling α) : Handling α :=
  ExceptT.mk (body.run >>= fun
    | .error .lookup => pure (.ok value)
    | out => pure out)

/-- A loop of the iterator `it` up to `end()`. The test is `it != end()`, so an
iterator that is past the end is dereferenced. -/
def iterate {β : Type} (size : ℕ) (body : Bytes → Handling β) (it : ℕ) : Handling (List β) :=
  if it = size then pure []
  else do
    let x ← element it
    let y ← body x
    if _h : it < size then
      let ys ← iterate size body (it + 1)
      return y :: ys
    else
      return [y]
termination_by size - it

/-- A loop of the index `i` up to the size. The test is `i < size`. (The `int` of
the source counts as far: a header announces `INT_MAX` elements at most, and a
negative number in it more than any memory holds.) -/
def loop {β : Type} (size : ℕ) (body : Bytes → Handling β) (i : ℕ) : Handling (List β) :=
  if _h : i < size then do
    let x ← element i
    let y ← body x
    let ys ← loop size body (i + 1)
    return y :: ys
  else pure []
termination_by size - i

/-! ## The handlers -/

/-- `handler::handle_sadd_request`: `it` is `begin()`, moved on twice. -/
def handleSaddRequest : Handler := fun size =>
  catchException do
    if size < 3 then
      return wrongNumberOfArguments "sadd"
    else
      let key ← element 1
      let args ← iterate size pure 2
      callTree (.saddEx key args)
      return encode .integers [ofString "1"]

/-- `handler::handle_srem_request`. -/
def handleSremRequest : Handler := fun size =>
  catchException do
    if size ≠ 3 then
      return wrongNumberOfArguments "srem"
    else
      let key ← element 1
      let arg ← element 2
      callTree (.sremEx key arg)
      return encode .integers [ofString "1"]

/-- The push handlers: `it` starts at `begin() + 2`. -/
def handlePushRequest (command : String) (push : Bytes → Bytes → Handling Unit) : Handler :=
  fun size =>
    catchException do
      if size < 3 then
        return wrongNumberOfArguments command
      else
        let key ← element 1
        let _ ← iterate size (push key) 2
        return encode .integers [ofString "1"]

/-- `handler::handle_lpush_request`. -/
def handleLpushRequest : Handler :=
  handlePushRequest "lpush" (fun key it => callTree (.lpushEx key it))

/-- `handler::handle_rpush_request`. -/
def handleRpushRequest : Handler :=
  handlePushRequest "rpush" (fun key it => callTree (.rpushEx key it))

/-- `handler::handle_set_request`. -/
def handleSetRequest : Handler := fun size =>
  catchException do
    if size < 3 then
      return wrongNumberOfArguments "set"
    else
      let key ← element 1
      let value ← element 2
      callTree (.writeEx key value)
      return encode .simpleStrings [ofString "OK"]

/-- `handler::handle_scard_request`. -/
def handleScardRequest : Handler := fun size =>
  catchException <| catchLookupException nilReply do
    if size ≠ 2 then
      return wrongNumberOfArguments "read"
    else
      let key ← element 1
      let result ← callTree (.scard key)
      return encode .integers [result]

/-- `handler::handle_get_request`. -/
def handleGetRequest : Handler := fun size =>
  catchException <| catchLookupException nilReply do
    if size ≠ 2 then
      return wrongNumberOfArguments "read"
    else
      let key ← element 1
      let result ← callTree (.readEx key)
      return encode .bulkStrings [result]

/-- What `handle_mget_request` collects for one key. -/
def mgetPair (key : Bytes) : Handling RedisTypeValuePair :=
  catchLookupException ⟨.bulkNil, []⟩ do
    let oneResult ← callTree (.readEx key)
    return ⟨.simpleStrings, oneResult⟩

/-- `handler::handle_mget_request`. -/
def handleMgetRequest : Handler := fun size =>
  catchException do
    if size < 2 then
      return wrongNumberOfArguments "smembers"
    else
      let result ← loop size mgetPair 1
      return encodeList result

/-- `handler::handle_smembers_request`. -/
def handleSmembersRequest : Handler := fun size =>
  catchException do
    if size ≠ 2 then
      return wrongNumberOfArguments "smembers"
    else
      let key ← element 1
      let result ← callTree (.smembers key)
      return encode .arrays result

/-- `handler::handle_lrange_request`. -/
def handleLrangeRequest : Handler := fun size =>
  catchException <| catchLookupException nilReply do
    if size ≠ 4 then
      return wrongNumberOfArguments "lrange"
    else
      let key ← element 1
      let start ← element 2
      let stop ← element 3
      let result ← callTree (.lrange key (start ++ ofString " " ++ stop))
      return encode .arrays result

/-- `handler::handle_ltrim_request`. -/
def handleLtrimRequest : Handler := fun size =>
  catchException do
    if size ≠ 4 then
      return wrongNumberOfArguments "ltrim"
    else
      let key ← element 1
      let start ← element 2
      let stop ← element 3
      let result ← callTree (.ltrim key (start ++ ofString " " ++ stop))
      return statusReply "ltrim" result

/-- `handler::handle_expire_request`. -/
def handleExpireRequest : Handler := fun size =>
  catchException do
    if size ≠ 3 then
      return wrongNumberOfArguments "expire"
    else
      let key ← element 1
      let seconds ← element 2
      let result ← callTree (.expire key (atoi seconds))
      return statusReply "expire" result

/-- The `if` chain of `processer_worker`. -/
def handle (command : Bytes) : Handler :=
  if command = ofString "RPUSH" then handleRpushRequest
  else if command = ofString "SADD" then handleSaddRequest
  else if command = ofString "SREM" then handleSremRequest
  else if command = ofString "MGET" then handleMgetRequest
  else if command = ofString "SMEMBERS" then handleSmembersRequest
  else if command = ofString "SCARD" then handleScardRequest
  else if command = ofString "LPUSH" then handleLpushRequest
  else if command = ofString "LRANGE" then handleLrangeRequest
  else if command = ofString "LTRIM" then handleLtrimRequest
  else if command = ofString "EXPIRE" then handleExpireRequest
  else if command = ofString "SET" then handleSetRequest
  else if command = ofString "GET" then handleGetRequest
  else fun _ => pure (encode .errors [ofString "ERR unknown command"])

/-- `send_reply`. -/
def sendReply (commandId sessionId : Int32) (response : Bytes) : Prog Result Unit :=
  Prog.lift (Sum.inl (Sum.inr ⟨commandId, sessionId, response⟩))

/-- `processer_worker`, which begins with `request[0]`. -/
def processerWorker (commandId : Int32) (size : ℕ) (sessionId : Int32) : Prog Result Unit := do
  let name ← load 0
  let encodeResult ← handle (toUppercase name) size
  sendReply commandId sessionId encodeResult.response

/-! ## Run on a vector -/

/-- **The vector in memory.** What is in bounds is the element there; any other
index is asked of the memory. Calls of the worker are made. -/
def fromVector (xs : List Bytes) : (op : Op) → Prog Result (Result op)
  | .inl op => Prog.lift (Sum.inl op)
  | .inr i => if h : i < xs.length then pure (xs.get ⟨i, h⟩) else Prog.lift (Sum.inr i)

/-- **Run on the vector `xs`, the code `p` is the code `q`**, and so asks the memory
for nothing. -/
def Reads {α : Type} (xs : List Bytes) (p : Handling α) (q : LogcabinRedisProxy.Handling α) :
    Prop := p.run.handle (fromVector xs) = q.run.inl.inl

variable {α β : Type} {xs : List Bytes}

theorem reads_pure (a : α) : Reads xs (pure a) (pure a) := rfl

theorem reads_callTree (c : TreeCall) :
    Reads xs (callTree c) (LogcabinRedisProxy.callTree c) := rfl

theorem reads_bind {p : Handling α} {q : LogcabinRedisProxy.Handling α} {f : α → Handling β}
    {g : α → LogcabinRedisProxy.Handling β} (h : Reads xs p q) (hf : ∀ a, Reads xs (f a) (g a)) :
    Reads xs (p >>= f) (q >>= g) := by
  unfold Reads at *
  rw [ExceptT.run_bind, ExceptT.run_bind, Prog.handle_bind, Prog.inl_bind, Prog.inl_bind, h]
  refine congrArg _ (funext fun out => ?_)
  cases out with
  | ok a => exact hf a
  | error e => rfl

/-- **An element in bounds is the element.** -/
theorem reads_element {i : ℕ} (hi : i < xs.length) {f : Bytes → Handling β}
    {q : LogcabinRedisProxy.Handling β} (h : Reads xs (f xs[i]) q) :
    Reads xs (element i >>= f) q := by
  have hload : fromVector xs (Sum.inr i) = pure (xs.get ⟨i, hi⟩) := dif_pos hi
  show (fromVector xs (Sum.inr i)).bind (fun x => (f x).run.handle (fromVector xs)) = _
  rw [hload]
  exact h

/-- What has turned out to be a value is that value. -/
theorem reads_pureBind {p : Handling α} {a : α} {f : α → Handling β}
    {q : LogcabinRedisProxy.Handling β} (hp : Reads xs p (pure a)) (h : Reads xs (f a) q) :
    Reads xs (p >>= f) q := by
  unfold Reads at *
  rw [ExceptT.run_bind, Prog.handle_bind, hp]
  exact h

/-- Test of the size. -/
theorem reads_guard {P : Prop} [Decidable P] {err : α} {p : Handling α}
    {q : ¬ P → LogcabinRedisProxy.Handling α} (h : ∀ hP, Reads xs p (q hP)) :
    Reads xs (if P then pure err else p) (if hP : P then pure err else q hP) := by
  by_cases hP : P
  · rw [if_pos hP, dif_pos hP]
    exact reads_pure err
  · rw [if_neg hP, dif_neg hP]
    exact h hP

/-- **A loop from an iterator that is not past the end** goes through the elements
from there on. -/
theorem reads_iterate {body : Bytes → Handling β} {body' : Bytes → LogcabinRedisProxy.Handling β}
    (hbody : ∀ x, Reads xs (body x) (body' x)) {it : ℕ} (hit : it ≤ xs.length) :
    Reads xs (iterate xs.length body it) ((xs.drop it).mapM body') := by
  induction hit using Nat.decreasingInduction with
  | self =>
    rw [iterate, if_pos rfl, List.drop_length, List.mapM_nil]
    exact reads_pure []
  | of_succ k hk ih =>
    rw [iterate, if_neg hk.ne, List.drop_eq_getElem_cons hk, List.mapM_cons]
    refine reads_element hk (reads_bind (hbody xs[k]) fun y => ?_)
    rw [dif_pos hk]
    exact reads_bind ih fun ys => reads_pure (y :: ys)

/-- **A loop of an index** goes through the elements from there on. -/
theorem reads_loop {body : Bytes → Handling β} {body' : Bytes → LogcabinRedisProxy.Handling β}
    (hbody : ∀ x, Reads xs (body x) (body' x)) {i : ℕ} (hi : i ≤ xs.length) :
    Reads xs (loop xs.length body i) ((xs.drop i).mapM body') := by
  induction hi using Nat.decreasingInduction with
  | self =>
    rw [loop, dif_neg (lt_irrefl _), List.drop_length, List.mapM_nil]
    exact reads_pure []
  | of_succ k hk ih =>
    rw [loop, dif_pos hk, List.drop_eq_getElem_cons hk, List.mapM_cons]
    exact reads_element hk (reads_bind (hbody xs[k]) fun y => reads_bind ih fun ys =>
      reads_pure (y :: ys))

/-- The range from an iterator to the end. -/
theorem reads_range {it : ℕ} (hit : it ≤ xs.length) :
    Reads xs (iterate xs.length pure it) (pure (xs.drop it)) := by
  have h : Reads xs (iterate xs.length pure it) ((xs.drop it).mapM pure) :=
    reads_iterate reads_pure hit
  rwa [List.mapM_pure, List.map_id'] at h

theorem reads_catchLookupException {value : α} {p : Handling α}
    {q : LogcabinRedisProxy.Handling α} (h : Reads xs p q) :
    Reads xs (catchLookupException value p) (LogcabinRedisProxy.catchLookupException value q) := by
  show Prog.handle (fromVector xs) (p.run >>= _) = ((q.run >>= _).inl).inl
  rw [Prog.handle_bind, Prog.inl_bind, Prog.inl_bind, h]
  refine congrArg _ (funext fun out => ?_)
  rcases out with (_ | _) | a <;> rfl

theorem handle_catchException {p : Handling EncodeResult}
    {q : LogcabinRedisProxy.Handling EncodeResult} (h : Reads xs p q) :
    (catchException p).handle (fromVector xs) = (LogcabinRedisProxy.catchException q).inl.inl := by
  unfold catchException LogcabinRedisProxy.catchException
  rw [Prog.handle_bind, Prog.inl_bind, Prog.inl_bind, h]
  refine congrArg _ (funext fun out => ?_)
  cases out <;> rfl

/-! ## The handlers, run on a vector -/

theorem handle_handleSaddRequest (xs : List Bytes) :
    (handleSaddRequest xs.length).handle (fromVector xs)
      = (LogcabinRedisProxy.handleSaddRequest xs).inl.inl := by
  refine handle_catchException (reads_guard fun h => ?_)
  refine reads_element (by omega) (reads_pureBind (reads_range (by omega)) ?_)
  exact reads_bind (reads_callTree _) fun _ => reads_pure _

theorem handle_handleSremRequest (xs : List Bytes) :
    (handleSremRequest xs.length).handle (fromVector xs)
      = (LogcabinRedisProxy.handleSremRequest xs).inl.inl := by
  refine handle_catchException (reads_guard fun h => ?_)
  refine reads_element (by omega) (reads_element (by omega) ?_)
  exact reads_bind (reads_callTree _) fun _ => reads_pure _

/-- The loop of the push handlers, as one over the elements. -/
theorem pushElements_eq_mapM (push : Bytes → LogcabinRedisProxy.Handling Unit) (l : List Bytes) :
    pushElements push l = l.mapM push >>= fun _ => pure () := by
  induction l with
  | nil => rfl
  | cons x l ih =>
    rw [pushElements, List.mapM_cons, ih, bind_assoc]
    simp only [bind_assoc, pure_bind]

theorem handle_handlePushRequest (command : String) {push : Bytes → Bytes → Handling Unit}
    {push' : Bytes → Bytes → LogcabinRedisProxy.Handling Unit}
    (hpush : ∀ key x, Reads xs (push key x) (push' key x)) :
    (handlePushRequest command push xs.length).handle (fromVector xs)
      = (LogcabinRedisProxy.handlePushRequest command push' xs).inl.inl := by
  refine handle_catchException (reads_guard fun h => reads_element (by omega) ?_)
  show Reads xs _ (pushElements (push' xs[1]) (xs.drop 2) >>= fun _ => _)
  rw [pushElements_eq_mapM, bind_assoc]
  exact reads_bind (reads_iterate (hpush _) (by omega)) fun _ => reads_pure _

theorem handle_handleSetRequest (xs : List Bytes) :
    (handleSetRequest xs.length).handle (fromVector xs)
      = (LogcabinRedisProxy.handleSetRequest xs).inl.inl := by
  refine handle_catchException (reads_guard fun h => ?_)
  refine reads_element (by omega) (reads_element (by omega) ?_)
  exact reads_bind (reads_callTree _) fun _ => reads_pure _

theorem handle_handleScardRequest (xs : List Bytes) :
    (handleScardRequest xs.length).handle (fromVector xs)
      = (LogcabinRedisProxy.handleScardRequest xs).inl.inl := by
  refine handle_catchException (reads_catchLookupException (reads_guard fun h => ?_))
  exact reads_element (by omega) (reads_bind (reads_callTree _) fun _ => reads_pure _)

theorem handle_handleGetRequest (xs : List Bytes) :
    (handleGetRequest xs.length).handle (fromVector xs)
      = (LogcabinRedisProxy.handleGetRequest xs).inl.inl := by
  refine handle_catchException (reads_catchLookupException (reads_guard fun h => ?_))
  exact reads_element (by omega) (reads_bind (reads_callTree _) fun _ => reads_pure _)

/-- The loop of `handle_mget_request`, as one over the keys. -/
theorem mgetPairs_eq_mapM (keys : List Bytes) :
    mgetPairs keys = keys.mapM LogcabinRedisProxy.mgetPair := by
  induction keys with
  | nil => rfl
  | cons key keys ih =>
    rw [mgetPairs, List.mapM_cons, ih]
    simp only [map_eq_pure_bind]

theorem reads_mgetPair (key : Bytes) :
    Reads xs (mgetPair key) (LogcabinRedisProxy.mgetPair key) :=
  reads_catchLookupException (reads_bind (reads_callTree _) fun _ => reads_pure _)

theorem handle_handleMgetRequest (xs : List Bytes) :
    (handleMgetRequest xs.length).handle (fromVector xs)
      = (LogcabinRedisProxy.handleMgetRequest xs).inl.inl := by
  refine handle_catchException (reads_guard fun h => ?_)
  rw [mgetPairs_eq_mapM]
  exact reads_bind (reads_loop reads_mgetPair (by omega)) fun _ => reads_pure _

theorem handle_handleSmembersRequest (xs : List Bytes) :
    (handleSmembersRequest xs.length).handle (fromVector xs)
      = (LogcabinRedisProxy.handleSmembersRequest xs).inl.inl := by
  refine handle_catchException (reads_guard fun h => ?_)
  exact reads_element (by omega) (reads_bind (reads_callTree _) fun _ => reads_pure _)

theorem handle_handleLrangeRequest (xs : List Bytes) :
    (handleLrangeRequest xs.length).handle (fromVector xs)
      = (LogcabinRedisProxy.handleLrangeRequest xs).inl.inl := by
  refine handle_catchException (reads_catchLookupException (reads_guard fun h => ?_))
  refine reads_element (by omega) (reads_element (by omega) (reads_element (by omega) ?_))
  exact reads_bind (reads_callTree _) fun _ => reads_pure _

theorem handle_handleLtrimRequest (xs : List Bytes) :
    (handleLtrimRequest xs.length).handle (fromVector xs)
      = (LogcabinRedisProxy.handleLtrimRequest xs).inl.inl := by
  refine handle_catchException (reads_guard fun h => ?_)
  refine reads_element (by omega) (reads_element (by omega) (reads_element (by omega) ?_))
  exact reads_bind (reads_callTree _) fun _ => reads_pure _

theorem handle_handleExpireRequest (xs : List Bytes) :
    (handleExpireRequest xs.length).handle (fromVector xs)
      = (LogcabinRedisProxy.handleExpireRequest xs).inl.inl := by
  refine handle_catchException (reads_guard fun h => ?_)
  refine reads_element (by omega) (reads_element (by omega) ?_)
  exact reads_bind (reads_callTree _) fun _ => reads_pure _

/-- One test of the chain. -/
theorem handle_ite {P : Prop} [Decidable P] {p p' : Handler}
    {q q' : LogcabinRedisProxy.Handler}
    (hthen : (p xs.length).handle (fromVector xs) = (q xs).inl.inl)
    (helse : (p' xs.length).handle (fromVector xs) = (q' xs).inl.inl) :
    ((if P then p else p') xs.length).handle (fromVector xs)
      = ((if P then q else q') xs).inl.inl := by
  by_cases hP : P
  · rw [if_pos hP, if_pos hP, hthen]
  · rw [if_neg hP, if_neg hP, helse]

/-- **Whatever the command, the handler run on a vector is the handler.** -/
theorem handle_handle (command : Bytes) (xs : List Bytes) :
    (handle command xs.length).handle (fromVector xs)
      = (LogcabinRedisProxy.handle command xs).inl.inl := by
  unfold handle LogcabinRedisProxy.handle
  refine handle_ite (handle_handlePushRequest "rpush" fun _ _ => reads_callTree _) ?_
  refine handle_ite (handle_handleSaddRequest xs) ?_
  refine handle_ite (handle_handleSremRequest xs) ?_
  refine handle_ite (handle_handleMgetRequest xs) ?_
  refine handle_ite (handle_handleSmembersRequest xs) ?_
  refine handle_ite (handle_handleScardRequest xs) ?_
  refine handle_ite (handle_handlePushRequest "lpush" fun _ _ => reads_callTree _) ?_
  refine handle_ite (handle_handleLrangeRequest xs) ?_
  refine handle_ite (handle_handleLtrimRequest xs) ?_
  refine handle_ite (handle_handleExpireRequest xs) ?_
  refine handle_ite (handle_handleSetRequest xs) ?_
  exact handle_ite (handle_handleGetRequest xs) rfl

/-- **The worker run on a vector that is not empty is the worker**: nothing is
asked of the memory. -/
theorem handle_processerWorker (commandId sessionId : Int32) {request : List Bytes}
    (hne : request ≠ []) :
    (processerWorker commandId request.length sessionId).handle (fromVector request)
      = (LogcabinRedisProxy.processerWorker commandId request sessionId).inl := by
  obtain ⟨name, args, rfl⟩ := List.exists_cons_of_ne_nil hne
  show ((handle (toUppercase name) (name :: args).length
    >>= fun result => sendReply commandId sessionId result.response).handle _) = _
  rw [Prog.handle_bind, handle_handle]
  unfold LogcabinRedisProxy.processerWorker
  rw [Prog.inl_bind]
  rfl

end Indexed

end LogcabinRedisProxy
