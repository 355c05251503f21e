import RedisProxy.Replies
import RedisProxy.VectorAccess

/-!
# Every request is answered, once

The replies of a session leave in the order of the requests, so a request
without a reply blocks the session for good. `processer_worker` calls
`send_reply` once at the end, and everything before it returns: the handlers
catch what the cluster throws, at whichever call of theirs it throws.

A handler begins by testing the number of elements (`Guards`). Where it refuses
them it answers with an error and has called nothing; where it goes on it has an
element for every index it takes, which is what `RedisProxy.VectorAccess` is
about. `processerWorker_answers` is the two together, against every
environment: whatever the cluster answers, and whatever would stand behind the
end of the vector.
-/

namespace LogcabinRedisProxy

open Bytes SimpleResp Prog

variable {request : List Bytes} {calls : List (Event TreeResult)} {res : EncodeResult}

/-! ## Replies are not empty -/

theorem response_encode_ne_nil (type : RespType) (args : List Bytes) :
    (encode type args).response ≠ [] := by
  cases type <;> exact List.cons_ne_nil _ _

theorem response_encodeList_ne_nil (list : List RedisTypeValuePair) :
    (encodeList list).response ≠ [] := List.cons_ne_nil _ _

theorem response_statusReply_ne_nil (command : String) (status : TreeStatus) :
    (statusReply command status).response ≠ [] := by
  cases status <;> exact response_encode_ne_nil _ _

/-! ## The test of the size -/

/-- **What a handler does with the number of elements**: it answers in any case,
refuses a wrong number with an error and no call, and calls the cluster
otherwise. -/
structure Guards (arity : Arity) (request : List Bytes) (calls : List (Event TreeResult))
    (res : EncodeResult) : Prop where
  /-- There is a reply. -/
  answers : res.response ≠ []
  /-- A wrong number is refused. -/
  refuses : ¬ arity.Allows request.length →
    calls = [] ∧ ∃ text, Encodes res.response (.error text)
  /-- A right one is not. -/
  goesOn : arity.Allows request.length → calls ≠ []

theorem Guards.refused {arity : Arity} {command : String} (hc : OneLine (ofString command))
    (h : ¬ arity.Allows request.length) :
    Guards arity request [] (wrongNumberOfArguments command) :=
  ⟨response_encode_ne_nil _ _, fun _ => ⟨rfl, encodes_wrongNumberOfArguments command hc⟩,
    fun ha => absurd ha h⟩

theorem Guards.accepted {arity : Arity} (h : arity.Allows request.length)
    (hres : res.response ≠ []) (hcalls : calls ≠ []) : Guards arity request calls res :=
  ⟨hres, fun hn => absurd h hn, fun _ => hcalls⟩

section OneCall

variable {arity : Arity} {command : String} {P : Prop} [Decidable P] {c : ¬ P → TreeCall}
  {f : (h : ¬ P) → (c h).Value → EncodeResult}

/-- A handler with one call. -/
theorem guards_of_guarded
    (hrun : Exec (catchException (if h : P then pure (wrongNumberOfArguments command)
      else callTree (c h) >>= fun v => pure (f h v))) calls res)
    (hP : P ↔ ¬ arity.Allows request.length) (hc : OneLine (ofString command))
    (hf : ∀ h v, (f h v).response ≠ []) : Guards arity request calls res := by
  rcases exec_guarded_iff.mp hrun with ⟨h, rfl, rfl⟩ | ⟨h, r, rfl, rfl⟩
  · exact Guards.refused hc (hP.mp h)
  · refine Guards.accepted (not_not.mp (mt hP.mpr h)) ?_ (List.cons_ne_nil _ _)
    cases r with
    | ok v => exact hf h v
    | error x => exact response_encode_ne_nil _ _

/-- The same for a handler that answers a failed lookup with nil. -/
theorem guards_of_guardedLookup
    (hrun : Exec (catchException (catchLookupException nilReply
      (if h : P then pure (wrongNumberOfArguments command)
        else callTree (c h) >>= fun v => pure (f h v)))) calls res)
    (hP : P ↔ ¬ arity.Allows request.length) (hc : OneLine (ofString command))
    (hf : ∀ h v, (f h v).response ≠ []) : Guards arity request calls res := by
  rcases exec_guardedLookup_iff.mp hrun with ⟨h, rfl, rfl⟩ | ⟨h, r, rfl, rfl⟩
  · exact Guards.refused hc (hP.mp h)
  · refine Guards.accepted (not_not.mp (mt hP.mpr h)) ?_ (List.cons_ne_nil _ _)
    rcases r with (_ | _) | v
    · exact response_encode_ne_nil _ _
    · exact response_encode_ne_nil _ _
    · exact hf h v

end OneCall

/-- A push makes a call for its first element at least. -/
theorem guards_of_push {command : String} {push : Bytes → Bytes → Handling Unit}
    (pushed : Bytes → Bytes → Except TreeException Unit → Event TreeResult)
    (hpush : ∀ key x tr out, Exec (push key x).run tr out ↔ tr = [pushed key x out])
    (hc : OneLine (ofString command))
    (hrun : Exec (handlePushRequest command push request) calls res) :
    Guards (.atLeast 3) request calls res := by
  rcases push_cases hpush hrun with ⟨hlen, rfl, rfl⟩ | ⟨name, key, elements, rfl, hne, h⟩
  · exact Guards.refused hc (Nat.not_le.mpr hlen)
  · have hlen : 3 ≤ (name :: key :: elements).length :=
      Nat.add_le_add_right (List.length_pos_iff.mpr hne) 2
    rcases h with ⟨rfl, rfl⟩ | ⟨done, x, rest, e, -, rfl, rfl⟩
    · exact Guards.accepted hlen (response_encode_ne_nil _ _) (mt List.map_eq_nil_iff.mp hne)
    · exact Guards.accepted hlen (response_encode_ne_nil _ _)
        (List.append_ne_nil_of_right_ne_nil _ (List.cons_ne_nil _ _))

theorem guards_rpush (hrun : Exec (handleRpushRequest request) calls res) :
    Guards (.atLeast 3) request calls res :=
  guards_of_push (fun key x out => ⟨.rpushEx key x, out⟩) (fun _ _ _ _ => exec_callTree_iff)
    (show OneLine (ofString "rpush") by decide) hrun

theorem guards_lpush (hrun : Exec (handleLpushRequest request) calls res) :
    Guards (.atLeast 3) request calls res :=
  guards_of_push (fun key x out => ⟨.lpushEx key x, out⟩) (fun _ _ _ _ => exec_callTree_iff)
    (show OneLine (ofString "lpush") by decide) hrun

/-- `MGET` reads its first key at least. -/
theorem guards_mget (hrun : Exec (handleMgetRequest request) calls res) :
    Guards (.atLeast 2) request calls res := by
  rcases mget_cases hrun with ⟨hlen, rfl, rfl⟩ | ⟨name, keys, rfl, hne, h⟩
  · exact Guards.refused (by decide) (Nat.not_le.mpr hlen)
  · have hlen : 2 ≤ (name :: keys).length :=
      Nat.add_le_add_right (List.length_pos_iff.mpr hne) 1
    rcases h with ⟨found, hflen, rfl, rfl⟩ | ⟨done, key, rest, found, -, -, rfl, rfl⟩
    · refine Guards.accepted hlen (response_encodeList_ne_nil _) ?_
      rwa [Ne, ← List.length_eq_zero_iff, List.length_zipWith, hflen, Nat.min_self,
        List.length_eq_zero_iff]
    · exact Guards.accepted hlen (response_encode_ne_nil _ _)
        (List.append_ne_nil_of_right_ne_nil _ (List.cons_ne_nil _ _))

/-! ## The worker -/

/-- **Every handler tests the number of elements.** -/
theorem guards_handler (c : Command) (hrun : Exec (c.handler request) calls res) :
    Guards c.arity request calls res := by
  cases c with
  | rpush => exact guards_rpush hrun
  | sadd =>
    exact guards_of_guarded hrun Nat.not_le.symm (by decide) fun _ _ => response_encode_ne_nil _ _
  | srem =>
    exact guards_of_guarded hrun Iff.rfl (by decide) fun _ _ => response_encode_ne_nil _ _
  | mget => exact guards_mget hrun
  | smembers =>
    exact guards_of_guarded hrun Iff.rfl (by decide) fun _ _ => response_encode_ne_nil _ _
  | scard =>
    exact guards_of_guardedLookup hrun Iff.rfl (by decide) fun _ _ => response_encode_ne_nil _ _
  | lpush => exact guards_lpush hrun
  | lrange =>
    exact guards_of_guardedLookup hrun Iff.rfl (by decide) fun _ _ => response_encode_ne_nil _ _
  | ltrim =>
    exact guards_of_guarded hrun Iff.rfl (by decide) fun _ _ => response_statusReply_ne_nil _ _
  | expire =>
    exact guards_of_guarded hrun Iff.rfl (by decide) fun _ _ => response_statusReply_ne_nil _ _
  | set =>
    exact guards_of_guarded hrun Nat.not_le.symm (by decide) fun _ _ => response_encode_ne_nil _ _
  | get =>
    exact guards_of_guardedLookup hrun Iff.rfl (by decide) fun _ _ => response_encode_ne_nil _ _

/-- The same for the `if` chain: a request is refused exactly if it is not
accepted. -/
theorem answers_handle (hrun : Exec (handle (commandOf request) request) calls res) :
    res.response ≠ []
      ∧ (¬ Accepts request → calls = [] ∧ ∃ text, Encodes res.response (.error text))
      ∧ (Accepts request → calls ≠ []) := by
  by_cases hc : ∃ c : Command, commandOf request = c.name
  · obtain ⟨c, hc⟩ := hc
    rw [hc, c.handle_name] at hrun
    have h := guards_handler c hrun
    rw [accepts_iff hc]
    exact ⟨h.answers, h.refuses, h.goesOn⟩
  · rw [handle_of_ne_name fun c h => hc ⟨c, h⟩] at hrun
    obtain ⟨rfl, rfl⟩ := exec_pure_iff.mp hrun
    refine ⟨response_encode_ne_nil _ _, fun _ => ⟨rfl, _, encodes_errors ?_⟩, ?_⟩
    · decide
    · rintro ⟨c, h, -⟩
      exact absurd ⟨c, h⟩ hc

/-- **Every dispatched request is answered exactly once, and wrong arity touches
nothing.** Whatever the cluster returns or throws, at any call, the worker of a
request that is not empty makes calls on the cluster and then one call of
`send_reply`, with the ids it was given and a reply that is not empty; it asks
for no element that is not there; and for a request that is not accepted the
reply is an error, and there are no calls on the cluster. -/
theorem processerWorker_answers {S : Type}
    (answer : (op : Indexed.Op) → S → Indexed.Result op × S) (s : S)
    (commandId sessionId : Int32) (hne : request ≠ []) :
    ∃ (calls : List (Event TreeResult)) (response : Bytes),
      ((Indexed.processerWorker commandId request.length sessionId).handle
          (Indexed.fromVector request)).trace answer s
        = (calls.map Event.inl).map Event.inl
          ++ [⟨.inl (.inr ⟨commandId, sessionId, response⟩), ()⟩]
      ∧ response ≠ []
      ∧ (¬ Accepts request → calls = [] ∧ ∃ text, Encodes response (.error text))
      ∧ (Accepts request → calls ≠ []) := by
  rw [Indexed.handle_processerWorker commandId sessionId hne]
  obtain ⟨tr, hrun, htr⟩ := exec_inl_iff.mp
    (exec_trace answer (processerWorker commandId request sessionId).inl s)
  obtain ⟨calls, res, h, rfl⟩ := exec_processerWorker_iff.mp hrun
  refine ⟨calls, res.response, ?_, answers_handle h⟩
  rw [htr, List.map_append]
  rfl

/-- `mget` of two keys, the first of which is missing while the second cannot be
read: the state counts the calls. -/
theorem processerWorker_answers_mget :
    ∃ (calls : List (Event TreeResult)) (response : Bytes),
      ((Indexed.processerWorker 4 3 9).handle
          (Indexed.fromVector [ofString "mget", ofString "a", ofString "b"])).trace
          (S := ℕ) (fun
            | .inl (.inl (.readEx _)), n => (.error (if n = 0 then .lookup else .other), n + 1)
            | .inl (.inl _), n => (.error .other, n + 1)
            | .inl (.inr _), n => ((), n)
            | .inr _, n => ([], n)) 0
        = (calls.map Event.inl).map Event.inl
          ++ [⟨.inl (.inr ⟨4, 9, response⟩), ()⟩]
      ∧ response ≠ []
      ∧ (¬ Accepts [ofString "mget", ofString "a", ofString "b"] →
        calls = [] ∧ ∃ text, Encodes response (.error text))
      ∧ (Accepts [ofString "mget", ofString "a", ofString "b"] → calls ≠ []) :=
  processerWorker_answers _ 0 4 9 (List.cons_ne_nil _ _)

end LogcabinRedisProxy
