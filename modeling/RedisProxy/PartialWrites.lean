import RedisProxy.HandlerRuns
import RedisProxy.WorkerPool

/-!
# What an error reply leaves behind

A write is one call on the cluster, which has an effect or throws. So what is
answered with an error has changed nothing – but for a push of several elements,
which makes a call for each of them in one `try` block. Where one of these
throws, the elements before it have been pushed, and nothing takes them back
(`eq_or_pushedInPart_of_error`): an error reply to a push may leave a part of it
(`not_errorChangesNothing_rpush`).
-/

namespace LogcabinRedisProxy

open Bytes SimpleResp Prog

variable {S : Type} {cluster : Cluster S} {request : List Bytes}
  {calls : List (Event TreeResult)} {res : EncodeResult} {s s' : S}

/-! ## Calls that fail -/

/-- **A call on a cluster that can be out of reach**: it is carried out, or
throws without having taken effect. -/
def serveOrThrow (cluster : Cluster S) (c : TreeCall) (s : S) (r : TreeResult c) (s' : S) :
    Prop :=
  cluster c s = (r, s') ∨ (∃ x, r = .error x) ∧ s' = s

/-- **What fails has no effect**: a call that throws, or that answers with a
status other than `OK`, leaves the store as it is. -/
structure FailsCleanly (cluster : Cluster S) : Prop where
  throws : ∀ c s x, (cluster c s).1 = .error x → (cluster c s).2 = s
  ltrim : ∀ key range s status, (cluster (.ltrim key range) s).1 = .ok status →
    status ≠ TreeStatus.ok → (cluster (.ltrim key range) s).2 = s
  expire : ∀ key seconds s status, (cluster (.expire key seconds) s).1 = .ok status →
    status ≠ TreeStatus.ok → (cluster (.expire key seconds) s).2 = s

theorem eq_of_snd_eq {c : TreeCall} {r : TreeResult c} (h : cluster c s = (r, s'))
    (hs : (cluster c s).2 = s) : s' = s := by
  rw [h] at hs
  exact hs

theorem eq_of_serveOrThrow_error (hfail : FailsCleanly cluster) {c : TreeCall}
    {x : TreeException} (h : serveOrThrow cluster c s (.error x) s') : s' = s := by
  rcases h with h | ⟨-, rfl⟩
  · exact eq_of_snd_eq h (hfail.throws c s x (congrArg Prod.fst h))
  · rfl

theorem eq_of_serveOrThrow_ok {c : TreeCall} {v : c.Value}
    (h : serveOrThrow cluster c s (.ok v) s') : cluster c s = (.ok v, s') := by
  rcases h with h | ⟨⟨x, hx⟩, -⟩
  · exact h
  · cases hx

/-! ## Writes -/

/-- The commands that write. -/
def writeCommands : List Bytes :=
  ["SADD", "SREM", "LPUSH", "RPUSH", "SET", "LTRIM", "EXPIRE"].map ofString

/-- The reply is an error. -/
def IsErrorReply (res : EncodeResult) : Prop := ofString "-ERR" <+: res.response

instance : Decidable (IsErrorReply res) :=
  inferInstanceAs (Decidable (ofString "-ERR" <+: res.response))

/-- **An error reply means that nothing was changed.** -/
def ErrorChangesNothing (cluster : Cluster S) (request : List Bytes) : Prop :=
  ∀ s s' calls res, Exec (handle (commandOf request) request) calls res →
    Steps (serveOrThrow cluster) calls s s' → IsErrorReply res → s' = s

/-- What the writes that return nothing are answered with is not an error. -/
theorem not_isErrorReply_one : ¬ IsErrorReply (encode .integers [ofString "1"]) := by decide

theorem not_isErrorReply_ok : ¬ IsErrorReply (encode .simpleStrings [ofString "OK"]) := by
  decide

/-- A status that is answered with an error is not `OK`. -/
theorem ne_ok_of_isErrorReply {command : String} {status : TreeStatus}
    (h : IsErrorReply (statusReply command status)) : status ≠ .ok := by
  rintro rfl
  exact not_isErrorReply_ok h

/-- A handler that makes one call changes nothing where it answers with an
error, if the call does not where it returns what is answered so. -/
theorem eq_of_guarded {P : Prop} [Decidable P] {err : EncodeResult} {c : ¬ P → TreeCall}
    {f : (h : ¬ P) → (c h).Value → EncodeResult} (hfail : FailsCleanly cluster)
    (hrun : Exec (catchException (if h : P then pure err
      else callTree (c h) >>= fun v => pure (f h v))) calls res)
    (hsteps : Steps (serveOrThrow cluster) calls s s') (herr : IsErrorReply res)
    (hok : ∀ h v, IsErrorReply (f h v) → cluster (c h) s = (.ok v, s') → s' = s) : s' = s := by
  rcases exec_guarded_iff.mp hrun with ⟨-, rfl, -⟩ | ⟨hP, r, rfl, rfl⟩
  · exact hsteps
  have hstep := steps_singleton_iff.mp hsteps
  cases r with
  | error x => exact eq_of_serveOrThrow_error hfail hstep
  | ok v => exact hok hP v herr (eq_of_serveOrThrow_ok hstep)

/-! ## Pushes -/

/-- A call of `RPUSH`, and how it ends. -/
def rpushed (key x : Bytes) (out : Except TreeException Unit) : Event TreeResult :=
  ⟨.rpushEx key x, out⟩

/-- A call of `LPUSH`, and how it ends. -/
def lpushed (key x : Bytes) (out : Except TreeException Unit) : Event TreeResult :=
  ⟨.lpushEx key x, out⟩

/-- The store after elements have been pushed, one after the other. -/
def pushAll (cluster : Cluster S)
    (pushed : Bytes → Bytes → Except TreeException Unit → Event TreeResult) (key : Bytes)
    (elements : List Bytes) (s : S) : S :=
  elements.foldl (fun s x => (cluster (pushed key x (.ok ())).1 s).2) s

/-- **A part of a push**: the call for an element that is not the first has
thrown; what comes before it has been pushed, and nothing else. -/
def PushedInPart (cluster : Cluster S)
    (pushed : Bytes → Bytes → Except TreeException Unit → Event TreeResult)
    (request : List Bytes) (calls : List (Event TreeResult)) (s s' : S) : Prop :=
  ∃ key done x rest e, request.tail = key :: (done ++ x :: rest) ∧ done ≠ []
    ∧ calls = done.map (pushed key · (.ok ())) ++ [pushed key x (.error e)]
    ∧ s' = pushAll cluster pushed key done s

section Pushes

variable (pushed : Bytes → Bytes → Except TreeException Unit → Event TreeResult)
  (hok : ∀ key x s s', serveOrThrow cluster (pushed key x (.ok ())).1 s
    (pushed key x (.ok ())).2 s' → s' = (cluster (pushed key x (.ok ())).1 s).2)

include hok

theorem eq_pushAll_of_steps {key : Bytes} {done : List Bytes}
    (hsteps : Steps (serveOrThrow cluster) (done.map (pushed key · (.ok ()))) s s') :
    s' = pushAll cluster pushed key done s := by
  induction done generalizing s with
  | nil => exact hsteps
  | cons x done ih =>
    obtain ⟨s₁, h₁, h⟩ := hsteps
    obtain rfl := hok key x s s₁ h₁
    exact ih h

/-- **What a push leaves where it is answered with an error.** -/
theorem eq_or_pushedInPart_of_push {command : String} {handling : Bytes → Bytes → Handling Unit}
    (hcall : ∀ key x tr out, Exec (handling key x).run tr out ↔ tr = [pushed key x out])
    (herror : ∀ key x e s s', serveOrThrow cluster (pushed key x (.error e)).1 s
      (pushed key x (.error e)).2 s' → s' = s)
    (hrun : Exec (handlePushRequest command handling request) calls res)
    (hsteps : Steps (serveOrThrow cluster) calls s s') (herr : IsErrorReply res) :
    s' = s ∨ PushedInPart cluster pushed request calls s s' := by
  rcases push_cases hcall hrun with ⟨-, rfl, -⟩
    | ⟨name, key, elements, rfl, -, ⟨-, rfl⟩ | ⟨done, x, rest, e, rfl, rfl, -⟩⟩
  · exact Or.inl hsteps
  · -- a push of all elements is not answered with an error
    exact absurd herr not_isErrorReply_one
  · obtain ⟨s₁, hdone, hlast⟩ := steps_append_iff.mp hsteps
    obtain rfl := eq_pushAll_of_steps pushed hok hdone
    obtain rfl := herror key x e _ s' (steps_singleton_iff.mp hlast)
    by_cases hnil : done = []
    · subst hnil
      exact Or.inl rfl
    · exact Or.inr ⟨key, done, x, rest, e, rfl, hnil, rfl, rfl⟩

end Pushes

/-! ## Error replies -/

/-- **What an error reply to a write leaves behind**: the store as it was, or, for
a push whose call for a later element has thrown, exactly the elements before
it. -/
theorem eq_or_pushedInPart_of_error (hfail : FailsCleanly cluster)
    (hwrite : commandOf request ∈ writeCommands)
    (hrun : Exec (handle (commandOf request) request) calls res)
    (hsteps : Steps (serveOrThrow cluster) calls s s') (herr : IsErrorReply res) :
    s' = s ∨ (commandOf request = ofString "RPUSH"
        ∧ PushedInPart cluster rpushed request calls s s')
      ∨ (commandOf request = ofString "LPUSH"
        ∧ PushedInPart cluster lpushed request calls s s') := by
  have hd := dispatch_handle (commandOf request)
  generalize commandOf request = name at hd hwrite hrun ⊢
  generalize handle name = handler at hd hrun
  cases hd with
  | rpush =>
    refine (eq_or_pushedInPart_of_push rpushed ?_ (fun _ _ _ _ => exec_callTree_iff)
      (fun _ _ _ _ _ => eq_of_serveOrThrow_error hfail) hrun hsteps herr).imp_right
        fun h => Or.inl ⟨rfl, h⟩
    intro key x s s' h
    rw [eq_of_serveOrThrow_ok h]
  | lpush =>
    refine (eq_or_pushedInPart_of_push lpushed ?_ (fun _ _ _ _ => exec_callTree_iff)
      (fun _ _ _ _ _ => eq_of_serveOrThrow_error hfail) hrun hsteps herr).imp_right
        fun h => Or.inr ⟨rfl, h⟩
    intro key x s s' h
    rw [eq_of_serveOrThrow_ok h]
  | sadd =>
    exact Or.inl (eq_of_guarded hfail hrun hsteps herr
      fun _ _ h => absurd h not_isErrorReply_one)
  | srem =>
    exact Or.inl (eq_of_guarded hfail hrun hsteps herr
      fun _ _ h => absurd h not_isErrorReply_one)
  | set =>
    exact Or.inl (eq_of_guarded hfail hrun hsteps herr
      fun _ _ h => absurd h not_isErrorReply_ok)
  | ltrim =>
    refine Or.inl (eq_of_guarded hfail hrun hsteps herr fun _ status h hcall => ?_)
    exact eq_of_snd_eq hcall
      (hfail.ltrim _ _ s status (congrArg Prod.fst hcall) (ne_ok_of_isErrorReply h))
  | expire =>
    refine Or.inl (eq_of_guarded hfail hrun hsteps herr fun _ status h hcall => ?_)
    exact eq_of_snd_eq hcall
      (hfail.expire _ _ s status (congrArg Prod.fst hcall) (ne_ok_of_isErrorReply h))
  | mget => exact absurd hwrite (by decide)
  | smembers => exact absurd hwrite (by decide)
  | scard => exact absurd hwrite (by decide)
  | lrange => exact absurd hwrite (by decide)
  | get => exact absurd hwrite (by decide)
  | unknown _ _ _ _ =>
    obtain ⟨rfl, -⟩ := exec_pure_iff.mp hrun
    exact Or.inl hsteps

/-! ## A push that fails half way -/

/-- `RPUSH k a b`. -/
def rpushTwo : List Bytes := ["RPUSH", "k", "a", "b"].map ofString

/-- The call for `b` throws. -/
def thrownAtSecond : List (Event TreeResult) :=
  [⟨.rpushEx (ofString "k") (ofString "a"), .ok ()⟩,
    ⟨.rpushEx (ofString "k") (ofString "b"), .error .other⟩]

/-- The list then has `a`. -/
def onlyFirst : Cells := Function.update emptyCells.store (ofString "k") [ofString "a"]

theorem exec_thrownAtSecond :
    Exec (handle (commandOf rpushTwo) rpushTwo) thrownAtSecond internalError :=
  Exec.call (Exec.call (Exec.pure _))

theorem steps_thrownAtSecond :
    Steps (serveOrThrow cells) thrownAtSecond emptyCells.store onlyFirst :=
  ⟨onlyFirst, Or.inl rfl, onlyFirst, Or.inr ⟨⟨.other, rfl⟩, rfl⟩, rfl⟩

theorem failsCleanly_cells : FailsCleanly cells where
  throws c s x h := by
    cases c with
    | writeEx => cases h
    | rpushEx => cases h
    | lpushEx => cases h
    | _ => rfl
  ltrim _ _ _ _ _ _ := rfl
  expire _ _ _ _ _ _ := rfl

/-- The call for `b` throws, and `a` has been pushed. -/
theorem eq_or_pushedInPart_of_error_rpush :
    onlyFirst = emptyCells.store ∨ (commandOf rpushTwo = ofString "RPUSH"
        ∧ PushedInPart cells rpushed rpushTwo thrownAtSecond emptyCells.store onlyFirst)
      ∨ (commandOf rpushTwo = ofString "LPUSH"
        ∧ PushedInPart cells lpushed rpushTwo thrownAtSecond emptyCells.store onlyFirst) :=
  eq_or_pushedInPart_of_error failsCleanly_cells (by decide) exec_thrownAtSecond
    steps_thrownAtSecond (by decide)

/-- **An error reply to a push does not mean that nothing was pushed.** -/
theorem not_errorChangesNothing_rpush : ¬ ErrorChangesNothing cells rpushTwo := by
  intro h
  have hsame := h _ _ _ _ exec_thrownAtSecond steps_thrownAtSecond (by decide)
  exact absurd (congrFun hsame (ofString "k")) (by decide)

end LogcabinRedisProxy
