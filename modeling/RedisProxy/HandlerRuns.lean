import RedisProxy.Handlers

/-!
# What a handler calls and answers

The runs of the handlers, against every behaviour of the cluster: which calls
are made, in which order, and which reply follows from what they returned.
Most handlers make one call and differ in it and in the reply to what it
returns; `exec_guarded_iff` is their common run. The push handlers and
`handle_mget_request` make a call for each element or key, and stop at the
first exception that is not caught in the loop (`push_cases`, `mget_cases`).
-/

namespace LogcabinRedisProxy

open Bytes SimpleResp Prog

variable {tr : List (Event TreeResult)} {res : EncodeResult}

/-! ## `try` blocks -/

theorem exec_callTree_iff {c : TreeCall} {out : TreeResult c} :
    Exec (callTree c).run tr out ↔ tr = [⟨c, out⟩] := exec_lift_iff

/-- What a handler without a `catch` for lookups answers. -/
def answer (out : Except TreeException EncodeResult) : EncodeResult :=
  match out with
  | .ok result => result
  | .error _ => internalError

/-- What a handler that catches a failed lookup goes on with. -/
def orElse {α : Type} (value : α) (out : Except TreeException α) : Except TreeException α :=
  match out with
  | .error .lookup => .ok value
  | out => out

theorem exec_catchException_iff {body : Handling EncodeResult} :
    Exec (catchException body) tr res ↔ ∃ out, Exec body.run tr out ∧ res = answer out := by
  unfold catchException
  rw [exec_bind_iff]
  constructor
  · rintro ⟨tr₁, out, tr₂, h₁, h₂, rfl⟩
    refine ⟨out, ?_⟩
    cases out with
    | ok r =>
      obtain ⟨rfl, rfl⟩ := exec_pure_iff.mp h₂
      exact ⟨(List.append_nil tr₁).symm ▸ h₁, rfl⟩
    | error x =>
      obtain ⟨rfl, rfl⟩ := exec_pure_iff.mp h₂
      exact ⟨(List.append_nil tr₁).symm ▸ h₁, rfl⟩
  · rintro ⟨out, h, rfl⟩
    refine ⟨tr, out, [], h, ?_, (List.append_nil tr).symm⟩
    cases out <;> exact Exec.pure _

theorem exec_catchLookupException_iff {α : Type} {value : α} {body : Handling α}
    {out : Except TreeException α} :
    Exec (catchLookupException value body).run tr out
      ↔ ∃ out', Exec body.run tr out' ∧ out = orElse value out' := by
  show Exec (body.run >>= _) tr out ↔ _
  rw [exec_bind_iff]
  constructor
  · rintro ⟨tr₁, out', tr₂, h₁, h₂, rfl⟩
    refine ⟨out', ?_⟩
    rcases out' with (_ | _) | r
    all_goals
      obtain ⟨rfl, rfl⟩ := exec_pure_iff.mp h₂
      exact ⟨(List.append_nil tr₁).symm ▸ h₁, rfl⟩
  · rintro ⟨out', h, rfl⟩
    refine ⟨tr, out', [], h, ?_, (List.append_nil tr).symm⟩
    rcases out' with (_ | _) | r <;> exact Exec.pure _

/-- Calls, and a value made of what comes of them. -/
theorem exec_then_iff {α β : Type} {p : Handling α} {f : α → β} {out : Except TreeException β} :
    Exec (p >>= fun a => pure (f a) : Handling β).run tr out
      ↔ ∃ r : Except TreeException α, Exec p.run tr r ∧ out = r.map f := by
  rw [exec_bindE_iff]
  constructor
  · rintro (⟨x, h, rfl⟩ | ⟨tr₁, a, tr₂, h₁, h₂, rfl⟩)
    · exact ⟨.error x, h, rfl⟩
    · obtain ⟨rfl, rfl⟩ := exec_pureE_iff.mp h₂
      exact ⟨.ok a, (List.append_nil tr₁).symm ▸ h₁, rfl⟩
  · rintro ⟨r, h, rfl⟩
    cases r with
    | ok a =>
      exact Or.inr ⟨tr, a, [], h, exec_pureE_iff.mpr ⟨rfl, rfl⟩, (List.append_nil tr).symm⟩
    | error x => exact Or.inl ⟨x, h, rfl⟩

/-- One call, and a value made of what it returns. -/
theorem exec_callThen_iff {α : Type} {c : TreeCall} {f : c.Value → α}
    {out : Except TreeException α} :
    Exec (callTree c >>= fun v => pure (f v) : Handling α).run tr out
      ↔ ∃ r : TreeResult c, tr = [⟨c, r⟩] ∧ out = r.map f := by
  rw [exec_then_iff]
  exact exists_congr fun r => and_congr_left' exec_callTree_iff

/-- A guard in front of a `try` block. -/
theorem exec_guard_iff {α : Type} {P : Prop} [Decidable P] {err : α}
    {body : ¬ P → Handling α} {out : Except TreeException α} :
    Exec (if h : P then (pure err : Handling α) else body h).run tr out
      ↔ (P ∧ tr = [] ∧ out = .ok err) ∨ ∃ h : ¬ P, Exec (body h).run tr out := by
  by_cases hP : P
  · rw [dif_pos hP, exec_pureE_iff]
    exact ⟨fun h => Or.inl ⟨hP, h⟩, fun h => h.elim (·.2) (fun ⟨hn, _⟩ => absurd hP hn)⟩
  · rw [dif_neg hP]
    exact ⟨fun h => Or.inr ⟨hP, h⟩, fun h => h.elim (fun hp => absurd hp.1 hP) (fun ⟨_, h⟩ => h)⟩

/-- **The run of a handler that checks the arguments and makes its calls.** -/
theorem exec_guardedThen_iff {P : Prop} [Decidable P] {err : EncodeResult} {α : ¬ P → Type}
    {body : (h : ¬ P) → Handling (α h)} {f : (h : ¬ P) → α h → EncodeResult} :
    Exec (catchException (if h : P then pure err else body h >>= fun a => pure (f h a))) tr res
      ↔ (P ∧ tr = [] ∧ res = err)
        ∨ ∃ (h : ¬ P) (out : Except TreeException (α h)), Exec (body h).run tr out
          ∧ res = answer (out.map (f h)) := by
  rw [exec_catchException_iff]
  constructor
  · rintro ⟨out, h, rfl⟩
    rcases exec_guard_iff.mp h with ⟨hP, rfl, rfl⟩ | ⟨hP, h⟩
    · exact Or.inl ⟨hP, rfl, rfl⟩
    · obtain ⟨r, hr, rfl⟩ := exec_then_iff.mp h
      exact Or.inr ⟨hP, r, hr, rfl⟩
  · rintro (⟨hP, rfl, rfl⟩ | ⟨hP, r, hr, rfl⟩)
    · exact ⟨.ok res, exec_guard_iff.mpr (Or.inl ⟨hP, rfl, rfl⟩), rfl⟩
    · exact ⟨_, exec_guard_iff.mpr (Or.inr ⟨hP, exec_then_iff.mpr ⟨r, hr, rfl⟩⟩), rfl⟩

/-- The same with one call. -/
theorem exec_guarded_iff {P : Prop} [Decidable P] {err : EncodeResult} {c : ¬ P → TreeCall}
    {f : (h : ¬ P) → (c h).Value → EncodeResult} :
    Exec (catchException (if h : P then pure err else callTree (c h) >>= fun v => pure (f h v)))
        tr res
      ↔ (P ∧ tr = [] ∧ res = err)
        ∨ ∃ (h : ¬ P) (r : TreeResult (c h)), tr = [⟨c h, r⟩] ∧ res = answer (r.map (f h)) := by
  rw [exec_guardedThen_iff]
  exact or_congr_right (exists_congr fun h => exists_congr fun r =>
    and_congr_left' exec_callTree_iff)

/-- **The run of such a handler that catches a failed lookup.** -/
theorem exec_guardedLookup_iff {P : Prop} [Decidable P] {err nil : EncodeResult}
    {c : ¬ P → TreeCall} {f : (h : ¬ P) → (c h).Value → EncodeResult} :
    Exec (catchException (catchLookupException nil
        (if h : P then pure err else callTree (c h) >>= fun v => pure (f h v)))) tr res
      ↔ (P ∧ tr = [] ∧ res = err)
        ∨ ∃ (h : ¬ P) (r : TreeResult (c h)), tr = [⟨c h, r⟩]
          ∧ res = answer (orElse nil (r.map (f h))) := by
  rw [exec_catchException_iff]
  constructor
  · rintro ⟨out, h, rfl⟩
    obtain ⟨out', h', rfl⟩ := exec_catchLookupException_iff.mp h
    rcases exec_guard_iff.mp h' with ⟨hP, rfl, rfl⟩ | ⟨hP, h⟩
    · exact Or.inl ⟨hP, rfl, rfl⟩
    · obtain ⟨r, rfl, rfl⟩ := exec_callThen_iff.mp h
      exact Or.inr ⟨hP, r, rfl, rfl⟩
  · rintro (⟨hP, rfl, rfl⟩ | ⟨hP, r, rfl, rfl⟩)
    · exact ⟨.ok res, exec_catchLookupException_iff.mpr
        ⟨.ok res, exec_guard_iff.mpr (Or.inl ⟨hP, rfl, rfl⟩), rfl⟩, rfl⟩
    · exact ⟨_, exec_catchLookupException_iff.mpr
        ⟨_, exec_guard_iff.mpr (Or.inr ⟨hP, exec_callThen_iff.mpr ⟨r, rfl, rfl⟩⟩), rfl⟩, rfl⟩

/-! ## Dispatch -/

/-- **Which handler takes which command.** -/
inductive Dispatch : Bytes → Handler → Prop where
  | rpush : Dispatch (ofString "RPUSH") handleRpushRequest
  | sadd : Dispatch (ofString "SADD") handleSaddRequest
  | srem : Dispatch (ofString "SREM") handleSremRequest
  | mget : Dispatch (ofString "MGET") handleMgetRequest
  | smembers : Dispatch (ofString "SMEMBERS") handleSmembersRequest
  | scard : Dispatch (ofString "SCARD") handleScardRequest
  | lpush : Dispatch (ofString "LPUSH") handleLpushRequest
  | lrange : Dispatch (ofString "LRANGE") handleLrangeRequest
  | ltrim : Dispatch (ofString "LTRIM") handleLtrimRequest
  | expire : Dispatch (ofString "EXPIRE") handleExpireRequest
  | set : Dispatch (ofString "SET") handleSetRequest
  | get : Dispatch (ofString "GET") handleGetRequest
  /-- Any other command. -/
  | unknown {command : Bytes} (hget : command ≠ ofString "GET")
      (hmget : command ≠ ofString "MGET") (hsmembers : command ≠ ofString "SMEMBERS")
      (hlrange : command ≠ ofString "LRANGE") :
      Dispatch command (fun _ => Pure.pure (encode .errors [ofString "ERR unknown command"]))

/-- One test of the chain. -/
theorem Dispatch.ite {command name : Bytes} {handler rest : Handler}
    (hname : Dispatch name handler) (hrest : command ≠ name → Dispatch command rest) :
    Dispatch command (if command = name then handler else rest) := by
  by_cases h : command = name
  · rw [if_pos h, h]
    exact hname
  · rw [if_neg h]
    exact hrest h

theorem dispatch_handle (command : Bytes) : Dispatch command (handle command) := by
  unfold handle
  refine Dispatch.rpush.ite fun _ => ?_
  refine Dispatch.sadd.ite fun _ => ?_
  refine Dispatch.srem.ite fun _ => ?_
  refine Dispatch.mget.ite fun hmget => ?_
  refine Dispatch.smembers.ite fun hsmembers => ?_
  refine Dispatch.scard.ite fun _ => ?_
  refine Dispatch.lpush.ite fun _ => ?_
  refine Dispatch.lrange.ite fun hlrange => ?_
  refine Dispatch.ltrim.ite fun _ => ?_
  refine Dispatch.expire.ite fun _ => ?_
  refine Dispatch.set.ite fun _ => ?_
  exact Dispatch.get.ite fun hget => Dispatch.unknown hget hmget hsmembers hlrange

/-! ## Loops -/

/-- **The run of a push loop**: a call for each element, up to the first one
that throws. -/
theorem exec_pushElements_iff {push : Bytes → Handling Unit}
    {pushed : Bytes → Except TreeException Unit → Event TreeResult}
    (hpush : ∀ x tr out, Exec (push x).run tr out ↔ tr = [pushed x out]) {xs : List Bytes}
    {tr : List (Event TreeResult)} {out : Except TreeException Unit} :
    Exec (pushElements push xs).run tr out
      ↔ (out = .ok () ∧ tr = xs.map (pushed · (.ok ())))
        ∨ ∃ done x rest e, xs = done ++ x :: rest ∧ out = .error e
          ∧ tr = done.map (pushed · (.ok ())) ++ [pushed x (.error e)] := by
  induction xs generalizing tr with
  | nil =>
    rw [pushElements, exec_pureE_iff]
    constructor
    · rintro ⟨rfl, rfl⟩
      exact Or.inl ⟨rfl, rfl⟩
    · rintro (⟨rfl, rfl⟩ | ⟨done, x, rest, e, h, -⟩)
      · exact ⟨rfl, rfl⟩
      · simp at h
  | cons x xs ih =>
    rw [pushElements, exec_bindE_iff]
    constructor
    · rintro (⟨e, h, rfl⟩ | ⟨tr₁, a, tr₂, h₁, h₂, rfl⟩)
      · exact Or.inr ⟨[], x, xs, e, rfl, rfl, (hpush x tr _).mp h⟩
      · obtain rfl := (hpush x tr₁ _).mp h₁
        rcases ih.mp h₂ with ⟨rfl, rfl⟩ | ⟨done, y, rest, e, rfl, rfl, rfl⟩
        · exact Or.inl ⟨rfl, rfl⟩
        · exact Or.inr ⟨x :: done, y, rest, e, rfl, rfl, rfl⟩
    · rintro (⟨rfl, rfl⟩ | ⟨done, y, rest, e, h, rfl, rfl⟩)
      · exact Or.inr ⟨_, (), _, (hpush x _ _).mpr rfl, ih.mpr (Or.inl ⟨rfl, rfl⟩), rfl⟩
      · cases done with
        | nil =>
          obtain ⟨rfl, rfl⟩ := List.cons_eq_cons.mp h
          exact Or.inl ⟨e, (hpush x _ _).mpr rfl, rfl⟩
        | cons z done =>
          obtain ⟨rfl, rfl⟩ := List.cons_eq_cons.mp h
          exact Or.inr ⟨_, (), _, (hpush x _ _).mpr rfl,
            ih.mpr (Or.inr ⟨done, y, rest, e, rfl, rfl, rfl⟩), rfl⟩

/-- **What a push handler can do**: refuse, push all elements, or push those before
the first one that throws. -/
theorem push_cases {command : String} {push : Bytes → Bytes → Handling Unit}
    {pushed : Bytes → Bytes → Except TreeException Unit → Event TreeResult}
    (hpush : ∀ key x tr out, Exec (push key x).run tr out ↔ tr = [pushed key x out])
    {request : List Bytes} (hrun : Exec (handlePushRequest command push request) tr res) :
    (request.length < 3 ∧ tr = [] ∧ res = wrongNumberOfArguments command)
      ∨ ∃ name key elements, request = name :: key :: elements ∧ elements ≠ []
        ∧ ((tr = elements.map (pushed key · (.ok ())) ∧ res = encode .integers [ofString "1"])
          ∨ ∃ done x rest e, elements = done ++ x :: rest
            ∧ tr = done.map (pushed key · (.ok ())) ++ [pushed key x (.error e)]
            ∧ res = internalError) := by
  refine (exec_guardedThen_iff.mp hrun).imp_right ?_
  rintro ⟨hlen, out, h, rfl⟩
  match request, hlen, h with
  | [], hlen, _ | [_], hlen, _ | [_, _], hlen, _ => exact absurd (by simp) hlen
  | name :: key :: x :: elements, _, h =>
    refine ⟨name, key, x :: elements, rfl, List.cons_ne_nil _ _, ?_⟩
    rcases (exec_pushElements_iff (hpush key)).mp h with ⟨rfl, rfl⟩
      | ⟨done, y, rest, e, hargs, rfl, rfl⟩
    · exact Or.inl ⟨rfl, rfl⟩
    · exact Or.inr ⟨done, y, rest, e, hargs, rfl, rfl⟩

/-- A read that has found a value, or found none. -/
def readEvent (key : Bytes) : Option Bytes → Event TreeResult
  | some value => ⟨.readEx key, .ok value⟩
  | none => ⟨.readEx key, .error .lookup⟩

/-- A read that has failed. -/
def failedRead (key : Bytes) : Event TreeResult := ⟨.readEx key, .error .other⟩

/-- What `handle_mget_request` makes of a read. -/
def pairOf : Option Bytes → RedisTypeValuePair
  | some value => ⟨.simpleStrings, value⟩
  | none => ⟨.bulkNil, []⟩

theorem exec_mgetPair_iff {key : Bytes} {out : Except TreeException RedisTypeValuePair} :
    Exec (mgetPair key).run tr out
      ↔ (∃ found, tr = [readEvent key found] ∧ out = .ok (pairOf found))
        ∨ (tr = [failedRead key] ∧ out = .error .other) := by
  unfold mgetPair
  rw [exec_catchLookupException_iff]
  constructor
  · rintro ⟨out', h, rfl⟩
    obtain ⟨r, rfl, rfl⟩ := exec_callThen_iff.mp h
    rcases r with (_ | _) | value
    · exact Or.inl ⟨none, rfl, rfl⟩
    · exact Or.inr ⟨rfl, rfl⟩
    · exact Or.inl ⟨some value, rfl, rfl⟩
  · rintro (⟨_ | value, rfl, rfl⟩ | ⟨rfl, rfl⟩)
    · exact ⟨_, exec_callThen_iff.mpr ⟨.error .lookup, rfl, rfl⟩, rfl⟩
    · exact ⟨_, exec_callThen_iff.mpr ⟨.ok value, rfl, rfl⟩, rfl⟩
    · exact ⟨_, exec_callThen_iff.mpr ⟨.error .other, rfl, rfl⟩, rfl⟩

/-- **The run of the `MGET` loop**: a read for each key, in order, up to the
first one that fails. -/
theorem exec_mgetPairs_iff {keys : List Bytes} {tr : List (Event TreeResult)}
    {out : Except TreeException (List RedisTypeValuePair)} :
    Exec (mgetPairs keys).run tr out
      ↔ (∃ found : List (Option Bytes), found.length = keys.length
          ∧ tr = List.zipWith readEvent keys found ∧ out = .ok (found.map pairOf))
        ∨ ∃ (done : List Bytes) (key : Bytes) (rest : List Bytes) (found : List (Option Bytes)),
          keys = done ++ key :: rest ∧ found.length = done.length
          ∧ tr = List.zipWith readEvent done found ++ [failedRead key]
          ∧ out = .error .other := by
  induction keys generalizing tr out with
  | nil =>
    rw [mgetPairs, exec_pureE_iff]
    constructor
    · rintro ⟨rfl, rfl⟩
      exact Or.inl ⟨[], rfl, rfl, rfl⟩
    · rintro (⟨found, hlen, rfl, rfl⟩ | ⟨done, key, rest, found, h, -⟩)
      · obtain rfl := List.length_eq_zero_iff.mp hlen
        exact ⟨rfl, rfl⟩
      · simp at h
  | cons key keys ih =>
    rw [mgetPairs, exec_bindE_iff]
    constructor
    · rintro (⟨e, h, rfl⟩ | ⟨tr₁, pair, tr₂, h₁, h₂, rfl⟩)
      · rcases exec_mgetPair_iff.mp h with ⟨_, -, he⟩ | ⟨rfl, he⟩
        · cases he
        · obtain rfl := Except.error.inj he
          exact Or.inr ⟨[], key, keys, [], rfl, rfl, rfl, rfl⟩
      · rcases exec_mgetPair_iff.mp h₁ with ⟨one, rfl, hp⟩ | ⟨-, h⟩
        · obtain rfl := Except.ok.inj hp
          rw [ExceptT.run_map, exec_map_iff] at h₂
          obtain ⟨out', h₂, rfl⟩ := h₂
          rcases ih.mp h₂ with ⟨found, hlen, rfl, rfl⟩ | ⟨done, k, rest, found, rfl, hlen, rfl, rfl⟩
          · exact Or.inl ⟨one :: found, congrArg Nat.succ hlen, rfl, rfl⟩
          · exact Or.inr ⟨key :: done, k, rest, one :: found, rfl, congrArg Nat.succ hlen, rfl, rfl⟩
        · cases h
    · rintro (⟨found, hlen, rfl, rfl⟩ | ⟨done, k, rest, found, h, hlen, rfl, rfl⟩)
      · obtain ⟨one, found, rfl⟩ := List.exists_cons_of_length_eq_add_one hlen
        refine Or.inr ⟨_, pairOf one, _, exec_mgetPair_iff.mpr (Or.inl ⟨one, rfl, rfl⟩), ?_, rfl⟩
        rw [ExceptT.run_map, exec_map_iff]
        exact ⟨_, ih.mpr (Or.inl ⟨found, Nat.succ.inj hlen, rfl, rfl⟩), rfl⟩
      · cases done with
        | nil =>
          obtain ⟨rfl, rfl⟩ := List.cons_eq_cons.mp h
          obtain rfl := List.length_eq_zero_iff.mp hlen
          exact Or.inl ⟨_, exec_mgetPair_iff.mpr (Or.inr ⟨rfl, rfl⟩), rfl⟩
        | cons k' done =>
          obtain ⟨rfl, rfl⟩ := List.cons_eq_cons.mp h
          obtain ⟨one, found, rfl⟩ := List.exists_cons_of_length_eq_add_one hlen
          refine Or.inr ⟨_, pairOf one, _, exec_mgetPair_iff.mpr (Or.inl ⟨one, rfl, rfl⟩), ?_, rfl⟩
          rw [ExceptT.run_map, exec_map_iff]
          exact ⟨_, ih.mpr (Or.inr ⟨done, k, rest, found, rfl, Nat.succ.inj hlen, rfl, rfl⟩), rfl⟩

/-- **What `handle_mget_request` can do**: refuse, read all keys, or read those
before the first one that fails. -/
theorem mget_cases {request : List Bytes} (hrun : Exec (handleMgetRequest request) tr res) :
    (request.length < 2 ∧ tr = [] ∧ res = wrongNumberOfArguments "smembers")
      ∨ ∃ name keys, request = name :: keys ∧ keys ≠ []
        ∧ ((∃ found : List (Option Bytes), found.length = keys.length
            ∧ tr = List.zipWith readEvent keys found ∧ res = encodeList (found.map pairOf))
          ∨ ∃ (done : List Bytes) (key : Bytes) (rest : List Bytes) (found : List (Option Bytes)),
            keys = done ++ key :: rest ∧ found.length = done.length
            ∧ tr = List.zipWith readEvent done found ++ [failedRead key]
            ∧ res = internalError) := by
  refine (exec_guardedThen_iff.mp hrun).imp_right ?_
  rintro ⟨hlen, out, h, rfl⟩
  match request, hlen, h with
  | [], hlen, _ | [_], hlen, _ => exact absurd (by simp) hlen
  | name :: key :: keys, _, h =>
    refine ⟨name, key :: keys, rfl, List.cons_ne_nil _ _, ?_⟩
    rcases exec_mgetPairs_iff.mp h with ⟨found, hflen, rfl, rfl⟩
      | ⟨done, k, rest, found, hkeys, hflen, rfl, rfl⟩
    · exact Or.inl ⟨found, hflen, rfl, rfl⟩
    · exact Or.inr ⟨done, k, rest, found, hkeys, hflen, rfl, rfl⟩

end LogcabinRedisProxy
