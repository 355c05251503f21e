import RedisProxy.Commands
import RedisProxy.Library.SelfDelimiting

/-!
# What arrives of a request

A handler turns the elements of a request into calls on the cluster. If the
calls succeed the client is told so, and what it asked for is what the calls
say: an argument that is in none of them has been dropped, and two requests
with the same calls have been made one.

Most commands forward every argument as it is. `SET` takes any number of
arguments from two on and forwards two, so no request of it can be told from
what it sends. `LRANGE` and `LTRIM` send their two indices with a space between
them, which tells them apart unless one of them has a space itself. These are
all the exceptions (`unblurred_iff`), `EXPIRE` apart, which forwards a number.
-/

namespace LogcabinRedisProxy

open Bytes SimpleResp Prog

variable {calls : List (Event TreeResult)} {res : EncodeResult}

/-- The call has returned. -/
def Succeeds (e : Event TreeResult) : Prop := ∃ v, e.2 = .ok v

/-- **The calls an accepted request asks for**, by its arguments. -/
def Command.forwarded : Command → List Bytes → List TreeCall
  | rpush, key :: elements => elements.map (.rpushEx key)
  | sadd, key :: args => [.saddEx key args]
  | srem, [key, arg] => [.sremEx key arg]
  | mget, keys => keys.map .readEx
  | smembers, [key] => [.smembers key]
  | scard, [key] => [.scard key]
  | lpush, key :: elements => elements.map (.lpushEx key)
  | lrange, [key, start, stop] => [.lrange key (start ++ ofString " " ++ stop)]
  | ltrim, [key, start, stop] => [.ltrim key (start ++ ofString " " ++ stop)]
  | expire, [key, seconds] => [.expire key (atoi seconds)]
  | set, key :: value :: _ => [.writeEx key value]
  | get, [key] => [.readEx key]
  | _, _ => []

/-! ## The calls of a run -/

/-- A handler with one call makes it, once past its guard. -/
theorem map_fst_of_guarded {P : Prop} [Decidable P] {err : EncodeResult} {c : ¬ P → TreeCall}
    {f : (h : ¬ P) → (c h).Value → EncodeResult}
    (hrun : Exec (catchException (if h : P then pure err
      else callTree (c h) >>= fun v => pure (f h v))) calls res) (hP : ¬ P) :
    calls.map Sigma.fst = [c hP] := by
  rcases exec_guarded_iff.mp hrun with ⟨h, -, -⟩ | ⟨-, r, rfl, -⟩
  · exact absurd h hP
  · rfl

theorem map_fst_of_guardedLookup {P : Prop} [Decidable P] {err nil : EncodeResult}
    {c : ¬ P → TreeCall} {f : (h : ¬ P) → (c h).Value → EncodeResult}
    (hrun : Exec (catchException (catchLookupException nil (if h : P then pure err
      else callTree (c h) >>= fun v => pure (f h v)))) calls res) (hP : ¬ P) :
    calls.map Sigma.fst = [c hP] := by
  rcases exec_guardedLookup_iff.mp hrun with ⟨h, -, -⟩ | ⟨-, r, rfl, -⟩
  · exact absurd h hP
  · rfl

theorem not_succeeds_error {c : TreeCall} (x : TreeException) :
    ¬ Succeeds (⟨c, .error x⟩ : Event TreeResult) := fun ⟨_, h⟩ => nomatch h

/-- A push whose calls succeed makes one for each element. -/
theorem calls_of_push {name key x : Bytes} {elements : List Bytes} {command : String}
    {body : Bytes → Bytes → Handling Unit}
    (pushed : Bytes → Bytes → Except TreeException Unit → Event TreeResult)
    (hbody : ∀ key x tr out, Exec (body key x).run tr out ↔ tr = [pushed key x out])
    (hfail : ∀ key x e, ¬ Succeeds (pushed key x (.error e)))
    (hrun : Exec (handlePushRequest command body (name :: key :: x :: elements)) calls res)
    (hok : ∀ e ∈ calls, Succeeds e) : calls = (x :: elements).map (pushed key · (.ok ())) := by
  rcases push_cases hbody hrun with ⟨hlt, -⟩ | ⟨_, _, _, heq, -, ⟨rfl, -⟩ | ⟨_, y, _, e, -, rfl, -⟩⟩
  · exact absurd hlt (by simp)
  · obtain ⟨-, rfl, rfl⟩ : _ ∧ key = _ ∧ x :: elements = _ := by simpa using heq
    rfl
  · exact absurd (hok _ (List.mem_append_right _ (List.mem_singleton_self _))) (hfail _ y e)

theorem map_fst_of_rpush {name key x : Bytes} {elements : List Bytes}
    (hrun : Exec (handleRpushRequest (name :: key :: x :: elements)) calls res)
    (hok : ∀ e ∈ calls, Succeeds e) :
    calls.map Sigma.fst = (x :: elements).map (.rpushEx key) := by
  rw [calls_of_push (fun key x out => ⟨.rpushEx key x, out⟩) (fun _ _ _ _ => exec_callTree_iff)
    (fun _ _ => not_succeeds_error) hrun hok, List.map_map]
  rfl

theorem map_fst_of_lpush {name key x : Bytes} {elements : List Bytes}
    (hrun : Exec (handleLpushRequest (name :: key :: x :: elements)) calls res)
    (hok : ∀ e ∈ calls, Succeeds e) :
    calls.map Sigma.fst = (x :: elements).map (.lpushEx key) := by
  rw [calls_of_push (fun key x out => ⟨.lpushEx key x, out⟩) (fun _ _ _ _ => exec_callTree_iff)
    (fun _ _ => not_succeeds_error) hrun hok, List.map_map]
  rfl

/-- Reads of keys, whatever they find. -/
theorem map_fst_readEvents {keys : List Bytes} {found : List (Option Bytes)}
    (hlen : found.length = keys.length) :
    (List.zipWith readEvent keys found).map Sigma.fst = keys.map TreeCall.readEx := by
  induction keys generalizing found with
  | nil => rfl
  | cons key keys ih =>
    obtain ⟨one, found, rfl⟩ := List.exists_cons_of_length_eq_add_one hlen
    have hone : (readEvent key one).1 = .readEx key := by cases one <;> rfl
    rw [List.zipWith_cons_cons, List.map_cons, List.map_cons, hone, ih (Nat.succ.inj hlen)]

/-- `MGET` whose calls succeed reads its keys in order. -/
theorem map_fst_of_mget {name key : Bytes} {keys : List Bytes}
    (hrun : Exec (handleMgetRequest (name :: key :: keys)) calls res)
    (hok : ∀ e ∈ calls, Succeeds e) : calls.map Sigma.fst = (key :: keys).map .readEx := by
  rcases mget_cases hrun with ⟨hlt, -⟩ | ⟨_, _, heq, -, ⟨found, hlen, rfl, -⟩
    | ⟨_, k, _, _, -, -, rfl, -⟩⟩
  · exact absurd hlt (by simp)
  · obtain ⟨-, rfl⟩ := List.cons.inj heq
    exact map_fst_readEvents hlen
  · exact absurd (hok _ (List.mem_append_right _ (List.mem_singleton_self _)))
      (not_succeeds_error .other)

/-- **An accepted request whose calls succeed makes the calls it asks for.** -/
theorem calls_eq_forwarded {c : Command} {name : Bytes} {args : List Bytes}
    (hsize : c.arity.Allows (args.length + 1)) (hrun : Exec (c.handler (name :: args)) calls res)
    (hok : ∀ e ∈ calls, Succeeds e) : calls.map Sigma.fst = c.forwarded args := by
  cases c with
  | rpush =>
    match args, hsize with
    | key :: x :: elements, _ => exact map_fst_of_rpush hrun hok
  | sadd =>
    match args, hsize with
    | key :: x :: elements, _ => exact map_fst_of_guarded hrun (by simp)
  | srem =>
    match args, hsize with
    | [key, arg], _ => exact map_fst_of_guarded hrun (by simp)
  | mget =>
    match args, hsize with
    | key :: keys, _ => exact map_fst_of_mget hrun hok
  | smembers =>
    match args, hsize with
    | [key], _ => exact map_fst_of_guarded hrun (by simp)
  | scard =>
    match args, hsize with
    | [key], _ => exact map_fst_of_guardedLookup hrun (by simp)
  | lpush =>
    match args, hsize with
    | key :: x :: elements, _ => exact map_fst_of_lpush hrun hok
  | lrange =>
    match args, hsize with
    | [key, start, stop], _ => exact map_fst_of_guardedLookup hrun (by simp)
  | ltrim =>
    match args, hsize with
    | [key, start, stop], _ => exact map_fst_of_guarded hrun (by simp)
  | expire =>
    match args, hsize with
    | [key, seconds], _ => exact map_fst_of_guarded hrun (by simp)
  | set =>
    match args, hsize with
    | key :: value :: rest, _ => exact map_fst_of_guarded hrun (by simp)
  | get =>
    match args, hsize with
    | [key], _ => exact map_fst_of_guardedLookup hrun (by simp)

/-- A call has something to return. -/
theorem nonempty_value : (c : TreeCall) → Nonempty c.Value
  | .saddEx _ _ => ⟨()⟩
  | .sremEx _ _ => ⟨()⟩
  | .lpushEx _ _ => ⟨()⟩
  | .rpushEx _ _ => ⟨()⟩
  | .writeEx _ _ => ⟨()⟩
  | .readEx _ => ⟨([] : Bytes)⟩
  | .scard _ => ⟨([] : Bytes)⟩
  | .smembers _ => ⟨([] : List Bytes)⟩
  | .lrange _ _ => ⟨([] : List Bytes)⟩
  | .ltrim _ _ => ⟨TreeStatus.ok⟩
  | .expire _ _ => ⟨TreeStatus.ok⟩

/-- Every program has a run whose calls succeed. -/
theorem exists_succeeds {α : Type} (p : Prog TreeResult α) :
    ∃ calls a, Exec p calls a ∧ ∀ e ∈ calls, Succeeds e := by
  induction p with
  | pure a => exact ⟨[], a, Exec.pure a, fun e he => absurd he List.not_mem_nil⟩
  | call c k ih =>
    obtain ⟨v⟩ := nonempty_value c
    obtain ⟨calls, a, h, hok⟩ := ih (.ok v)
    exact ⟨_, a, Exec.call h, List.forall_mem_cons.mpr ⟨⟨v, rfl⟩, hok⟩⟩

/-! ## What the calls say of the arguments -/

/-- **The same range, split at another space**: what stands between two spaces is
the front of the one index or the end of the other. -/
def SplitElsewhere (args args' : List Bytes) : Prop :=
  ∃ key start middle stop, args = [key, start, middle ++ ofString " " ++ stop]
    ∧ args' = [key, start ++ ofString " " ++ middle, stop]

/-- **Arguments that differ and make the same calls.** -/
def Command.Blurs : Command → List Bytes → List Bytes → Prop
  | set, args, args' => args.take 2 = args'.take 2 ∧ args ≠ args'
  | lrange, args, args' => SplitElsewhere args args' ∨ SplitElsewhere args' args
  | ltrim, args, args' => SplitElsewhere args args' ∨ SplitElsewhere args' args
  | _, _, _ => False

theorem SplitElsewhere.ne {args args' : List Bytes} (h : SplitElsewhere args args') :
    args ≠ args' := by
  obtain ⟨key, start, middle, stop, rfl, rfl⟩ := h
  intro heq
  have hstart : start = start ++ ofString " " ++ middle := (List.cons.inj (List.cons.inj heq).2).1
  have hlen := congrArg List.length hstart
  rw [List.length_append, List.length_append] at hlen
  have hspace : (ofString " ").length = 1 := rfl
  omega

/-- Arguments that are confused are not the same. -/
theorem Command.Blurs.ne {c : Command} {args args' : List Bytes} (h : c.Blurs args args') :
    args ≠ args' := by
  cases c with
  | set => exact h.2
  | lrange => exact h.elim SplitElsewhere.ne fun h => h.ne.symm
  | ltrim => exact h.elim SplitElsewhere.ne fun h => h.ne.symm
  | _ => exact absurd h id

/-- **What is sent of a range** comes of two splits at most. -/
theorem range_eq_iff {key start stop key' start' stop' : Bytes} :
    (key = key' ∧ start ++ ofString " " ++ stop = start' ++ ofString " " ++ stop')
      ↔ [key, start, stop] = [key', start', stop']
        ∨ SplitElsewhere [key, start, stop] [key', start', stop']
        ∨ SplitElsewhere [key', start', stop'] [key, start, stop] := by
  have hjoin : ∀ s t : Bytes, s ++ ofString " " ++ t = s ++ 32 :: t :=
    fun s t => List.append_assoc s _ t
  unfold SplitElsewhere
  simp only [hjoin, append_cons_eq_append_cons_iff, List.cons.injEq, and_true]
  constructor
  · rintro ⟨rfl, ⟨rfl, rfl⟩ | ⟨m, rfl, rfl⟩ | ⟨m, rfl, rfl⟩⟩
    · exact Or.inl ⟨rfl, rfl, rfl⟩
    · exact Or.inr (Or.inl ⟨key, start, m, stop', ⟨rfl, rfl, rfl⟩, rfl, rfl, rfl⟩)
    · exact Or.inr (Or.inr ⟨key, start', m, stop, ⟨rfl, rfl, rfl⟩, rfl, rfl, rfl⟩)
  · rintro (⟨rfl, rfl, rfl⟩ | ⟨_, _, m, _, ⟨rfl, rfl, rfl⟩, rfl, rfl, rfl⟩
      | ⟨_, _, m, _, ⟨rfl, rfl, rfl⟩, rfl, rfl, rfl⟩)
    · exact ⟨rfl, Or.inl ⟨rfl, rfl⟩⟩
    · exact ⟨rfl, Or.inr (Or.inl ⟨m, rfl, rfl⟩)⟩
    · exact ⟨rfl, Or.inr (Or.inr ⟨m, rfl, rfl⟩)⟩

/-- One call with the key and the range says as much as the range. -/
theorem forwarded_range_iff {call : Bytes → Bytes → TreeCall}
    (hcall : ∀ {k r k' r'}, call k r = call k' r' → k = k' ∧ r = r')
    {key start stop key' start' stop' : Bytes} :
    [call key (start ++ ofString " " ++ stop)] = [call key' (start' ++ ofString " " ++ stop')]
      ↔ [key, start, stop] = [key', start', stop']
        ∨ SplitElsewhere [key, start, stop] [key', start', stop']
        ∨ SplitElsewhere [key', start', stop'] [key, start, stop] := by
  refine Iff.trans ⟨fun heq => hcall (List.cons.inj heq).1, ?_⟩ range_eq_iff
  rintro ⟨rfl, heq⟩
  exact congrArg (fun range => [call key range]) heq

/-- One call for each element gives the key and the elements back. -/
theorem eq_of_map_eq {call : Bytes → Bytes → TreeCall}
    (hcall : ∀ {k x k' x'}, call k x = call k' x' → k = k' ∧ x = x') {key x key' x' : Bytes}
    {elements elements' : List Bytes}
    (h : (x :: elements).map (call key) = (x' :: elements').map (call key')) :
    key :: x :: elements = key' :: x' :: elements' := by
  obtain ⟨hhead, -⟩ := List.cons.inj h
  obtain ⟨rfl, -⟩ := hcall hhead
  have hinj : Function.Injective (call key) := fun _ _ h => (hcall h).2
  exact congrArg (key :: ·) (hinj.list_map h)

/-- Where nothing is confused, calls that give the arguments back are all there is
to show. -/
theorem forwarded_eq_iff_of_imp {c : Command} {args args' : List Bytes}
    (hno : ¬ c.Blurs args args') (h : c.forwarded args = c.forwarded args' → args = args') :
    c.forwarded args = c.forwarded args' ↔ args = args' ∨ c.Blurs args args' :=
  ⟨fun heq => Or.inl (h heq), fun heq => congrArg c.forwarded (heq.resolve_right hno)⟩

/-- **What the calls of an accepted request say**: its arguments, unless they are
confused. -/
theorem forwarded_eq_iff {c : Command} (hc : c ≠ .expire) {args args' : List Bytes}
    (h : c.arity.Allows (args.length + 1)) (h' : c.arity.Allows (args'.length + 1)) :
    c.forwarded args = c.forwarded args' ↔ args = args' ∨ c.Blurs args args' := by
  cases c with
  | expire => exact absurd rfl hc
  | rpush =>
    match args, args', h, h' with
    | key :: x :: elements, key' :: x' :: elements', _, _ =>
      exact forwarded_eq_iff_of_imp id fun heq => eq_of_map_eq TreeCall.rpushEx.inj heq
  | sadd =>
    match args, args', h, h' with
    | key :: args, key' :: args', _, _ =>
      refine forwarded_eq_iff_of_imp id fun heq => ?_
      obtain ⟨rfl, rfl⟩ := TreeCall.saddEx.inj (List.cons.inj heq).1
      rfl
  | srem =>
    match args, args', h, h' with
    | [key, arg], [key', arg'], _, _ =>
      refine forwarded_eq_iff_of_imp id fun heq => ?_
      obtain ⟨rfl, rfl⟩ := TreeCall.sremEx.inj (List.cons.inj heq).1
      rfl
  | mget =>
    have hinj : Function.Injective TreeCall.readEx := fun _ _ => TreeCall.readEx.inj
    exact forwarded_eq_iff_of_imp id fun heq => hinj.list_map heq
  | smembers =>
    match args, args', h, h' with
    | [key], [key'], _, _ =>
      refine forwarded_eq_iff_of_imp id fun heq => ?_
      rw [TreeCall.smembers.inj (List.cons.inj heq).1]
  | scard =>
    match args, args', h, h' with
    | [key], [key'], _, _ =>
      refine forwarded_eq_iff_of_imp id fun heq => ?_
      rw [TreeCall.scard.inj (List.cons.inj heq).1]
  | lpush =>
    match args, args', h, h' with
    | key :: x :: elements, key' :: x' :: elements', _, _ =>
      exact forwarded_eq_iff_of_imp id fun heq => eq_of_map_eq TreeCall.lpushEx.inj heq
  | lrange =>
    match args, args', h, h' with
    | [_, _, _], [_, _, _], _, _ => exact forwarded_range_iff TreeCall.lrange.inj
  | ltrim =>
    match args, args', h, h' with
    | [_, _, _], [_, _, _], _, _ => exact forwarded_range_iff TreeCall.ltrim.inj
  | set =>
    match args, args', h, h' with
    | key :: value :: rest, key' :: value' :: rest', _, _ =>
      constructor
      · intro heq
        obtain ⟨rfl, rfl⟩ := TreeCall.writeEx.inj (List.cons.inj heq).1
        exact (em _).imp_right fun hne => ⟨rfl, hne⟩
      · rintro (heq | ⟨htake, -⟩)
        · rw [heq]
        · obtain ⟨rfl, hvalue⟩ := List.cons.inj htake
          obtain ⟨rfl, -⟩ := List.cons.inj hvalue
          rfl
  | get =>
    match args, args', h, h' with
    | [key], [key'], _, _ =>
      refine forwarded_eq_iff_of_imp id fun heq => ?_
      rw [TreeCall.readEx.inj (List.cons.inj heq).1]

/-! ## Requests -/

/-- **Two requests that are told apart by what they send**: if all calls of both
succeed, and they are the same calls, the arguments are the same. -/
def Unblurred (request request' : List Bytes) : Prop :=
  ∀ calls calls' res res', Exec (handle (commandOf request) request) calls res →
    Exec (handle (commandOf request') request') calls' res' → (∀ e ∈ calls, Succeeds e) →
      (∀ e ∈ calls', Succeeds e) → calls.map Sigma.fst = calls'.map Sigma.fst →
        request.tail = request'.tail

/-- An accepted request has a name, and arguments the handler goes on with. -/
theorem exists_cons_of_accepts {c : Command} {request : List Bytes}
    (hc : commandOf request = c.name) (h : Accepts request) :
    ∃ name args, request = name :: args ∧ c.arity.Allows (args.length + 1) := by
  have hsize := (accepts_iff hc).mp h
  cases request with
  | nil => cases c <;> exact absurd hsize (by decide)
  | cons name args => exact ⟨name, args, rfl, hsize⟩

/-- **Two accepted requests are told apart unless their arguments are confused.** -/
theorem unblurred_iff_not_blurs {c : Command} (hc : c ≠ .expire) {request request' : List Bytes}
    (hname : commandOf request = c.name) (hname' : commandOf request' = c.name)
    (h : Accepts request) (h' : Accepts request') :
    Unblurred request request' ↔ ¬ c.Blurs request.tail request'.tail := by
  obtain ⟨name, args, rfl, hsize⟩ := exists_cons_of_accepts hname h
  obtain ⟨name', args', rfl, hsize'⟩ := exists_cons_of_accepts hname' h'
  unfold Unblurred
  rw [hname, hname', c.handle_name]
  constructor
  · intro hun hblurs
    obtain ⟨calls, res, hrun, hok⟩ := exists_succeeds (c.handler (name :: args))
    obtain ⟨calls', res', hrun', hok'⟩ := exists_succeeds (c.handler (name' :: args'))
    refine hblurs.ne (hun calls calls' res res' hrun hrun' hok hok' ?_)
    rw [calls_eq_forwarded hsize hrun hok, calls_eq_forwarded hsize' hrun' hok']
    exact (forwarded_eq_iff hc hsize hsize').mpr (Or.inr hblurs)
  · intro hno calls calls' res res' hrun hrun' hok hok' heq
    rw [calls_eq_forwarded hsize hrun hok, calls_eq_forwarded hsize' hrun' hok'] at heq
    exact ((forwarded_eq_iff hc hsize hsize').mp heq).resolve_right hno

/-- A range is split elsewhere by a space in one of its indices. -/
theorem exists_splitElsewhere_iff {key start stop : Bytes} :
    (∃ args', SplitElsewhere [key, start, stop] args' ∨ SplitElsewhere args' [key, start, stop])
      ↔ 32 ∈ start ∨ 32 ∈ stop := by
  have hspace : ∀ u v : Bytes, 32 ∈ u ++ ofString " " ++ v := fun u v =>
    List.mem_append_left v (List.mem_append_right u (by decide))
  constructor
  · rintro ⟨args', ⟨_, _, _, _, h, -⟩ | ⟨_, _, _, _, -, h⟩⟩
    · obtain ⟨-, -, rfl⟩ : _ ∧ _ ∧ stop = _ := by simpa only [List.cons.injEq, and_true] using h
      exact Or.inr (hspace _ _)
    · obtain ⟨-, rfl, -⟩ : _ ∧ start = _ ∧ _ := by simpa only [List.cons.injEq, and_true] using h
      exact Or.inl (hspace _ _)
  · have hsplit : ∀ u v : Bytes, u ++ 32 :: v = u ++ ofString " " ++ v := fun u v =>
      (List.append_assoc u (ofString " ") v).symm
    rintro (h | h)
    · obtain ⟨u, v, rfl⟩ := List.append_of_mem h
      rw [hsplit]
      exact ⟨[key, u, v ++ ofString " " ++ stop], Or.inr ⟨key, u, v, stop, rfl, rfl⟩⟩
    · obtain ⟨u, v, rfl⟩ := List.append_of_mem h
      rw [hsplit]
      exact ⟨[key, start ++ ofString " " ++ u, v], Or.inl ⟨key, start, u, v, rfl, rfl⟩⟩

/-- Both sides of a split are the three arguments of a range. -/
theorem length_eq_of_splitElsewhere {args args' : List Bytes}
    (h : SplitElsewhere args args' ∨ SplitElsewhere args' args) : args'.length = 3 := by
  rcases h with ⟨_, _, _, _, -, rfl⟩ | ⟨_, _, _, _, rfl, -⟩ <;> rfl

/-- A range has another split if one of its indices has a space. -/
theorem exists_split_of_length {args : List Bytes} (hlen : args.length + 1 = 4) :
    (∃ args', args'.length + 1 = 4 ∧ (SplitElsewhere args args' ∨ SplitElsewhere args' args))
      ↔ ∃ x ∈ args.drop 1, 32 ∈ x := by
  match args, hlen with
  | [key, start, stop], _ =>
    have hmem : (∃ x ∈ [start, stop], (32 : UInt8) ∈ x) ↔ 32 ∈ start ∨ 32 ∈ stop := by simp
    refine Iff.trans ⟨fun ⟨args', _, h⟩ => ⟨args', h⟩, fun ⟨args', h⟩ => ?_⟩
      (exists_splitElsewhere_iff.trans hmem.symm)
    exact ⟨args', congrArg Nat.succ (length_eq_of_splitElsewhere h), h⟩

/-- **Which arguments can be confused** with those of another accepted request. -/
theorem exists_blurs_iff {c : Command} {args : List Bytes}
    (hsize : c.arity.Allows (args.length + 1)) :
    (∃ args', c.arity.Allows (args'.length + 1) ∧ c.Blurs args args')
      ↔ c = .set ∨ (c = .lrange ∨ c = .ltrim) ∧ ∃ x ∈ args.drop 1, 32 ∈ x := by
  cases c with
  | set =>
    -- one argument more is dropped as well
    refine iff_of_true ⟨args ++ [[]], ?_, ?_, ?_⟩ (Or.inl rfl)
    · exact hsize.trans (by rw [List.length_append]; omega)
    · rw [List.take_append_of_le_length (Nat.le_of_succ_le_succ hsize)]
    · exact fun h => absurd (congrArg List.length h) (by simp)
  | lrange =>
    refine (exists_split_of_length hsize).trans ⟨fun h => Or.inr ⟨Or.inl rfl, h⟩, fun h => ?_⟩
    exact (h.resolve_left nofun).2
  | ltrim =>
    refine (exists_split_of_length hsize).trans ⟨fun h => Or.inr ⟨Or.inr rfl, h⟩, fun h => ?_⟩
    exact (h.resolve_left nofun).2
  | _ =>
    refine iff_of_false (fun ⟨_, _, h⟩ => h) ?_
    rintro (h | ⟨h | h, -⟩) <;> cases h

/-- **What an accepted request asks for can be told from what it sends**, exactly
if it is no `SET` and, as an `LRANGE` or `LTRIM`, has no space in an index. Of two
requests: exactly if they are not two `SET`s with one key and value and further
arguments that differ, nor two ranges that split one text at different
spaces. -/
theorem unblurred_iff {c : Command} (hc : c ≠ .expire) {request : List Bytes}
    (hname : commandOf request = c.name) (h : Accepts request) :
    (∀ request', commandOf request' = c.name → Accepts request' →
        (Unblurred request request' ↔ ¬ c.Blurs request.tail request'.tail))
      ∧ ((∀ request', commandOf request' = c.name → Accepts request' →
          Unblurred request request')
        ↔ c ≠ .set ∧ (c = .lrange ∨ c = .ltrim → ∀ x ∈ request.drop 2, 32 ∉ x)) := by
  have hpair : ∀ request', commandOf request' = c.name → Accepts request' →
      (Unblurred request request' ↔ ¬ c.Blurs request.tail request'.tail) :=
    fun request' hname' h' => unblurred_iff_not_blurs hc hname hname' h h'
  refine ⟨hpair, ?_⟩
  obtain ⟨name, args, rfl, hsize⟩ := exists_cons_of_accepts hname h
  have hall : (∀ request', commandOf request' = c.name → Accepts request' →
      Unblurred (name :: args) request')
      ↔ ¬ ∃ args', c.arity.Allows (args'.length + 1) ∧ c.Blurs args args' := by
    constructor
    · rintro hun ⟨args', hsize', hblurs⟩
      have hname' : commandOf (name :: args') = c.name := hname
      have h' : Accepts (name :: args') := (accepts_iff hname').mpr hsize'
      exact (hpair _ hname' h').mp (hun _ hname' h') hblurs
    · intro hno request' hname' h'
      refine (hpair request' hname' h').mpr fun hblurs => hno ?_
      obtain ⟨name', args', rfl, hsize'⟩ := exists_cons_of_accepts hname' h'
      exact ⟨args', hsize', hblurs⟩
  rw [hall, exists_blurs_iff hsize, not_or, not_and, not_exists]
  simp only [not_and]
  rfl

/-- `LRANGE k 0 -1` can be told from what it sends. -/
theorem unblurred_iff_lrange :
    (∀ request', commandOf request' = Command.lrange.name → Accepts request' →
        Unblurred [ofString "lrange", ofString "k", ofString "0", ofString "-1"] request')
      ↔ Command.lrange ≠ .set ∧ (Command.lrange = .lrange ∨ Command.lrange = .ltrim →
        ∀ x ∈ [ofString "lrange", ofString "k", ofString "0", ofString "-1"].drop 2, 32 ∉ x) :=
  (unblurred_iff (by decide : Command.lrange ≠ .expire) (by decide) ⟨.lrange, by decide⟩).2

/-- `SET k v` and `SET k v NX` are both accepted, and send the same. -/
theorem not_unblurred_set :
    Accepts [ofString "SET", ofString "k", ofString "v"]
      ∧ Accepts [ofString "SET", ofString "k", ofString "v", ofString "NX"]
      ∧ ¬ Unblurred [ofString "SET", ofString "k", ofString "v"]
        [ofString "SET", ofString "k", ofString "v", ofString "NX"] := by
  refine ⟨⟨.set, by decide⟩, ⟨.set, by decide⟩, fun h => ?_⟩
  have hrun : ∀ rest : List Bytes, Exec (handle (ofString "SET")
      (ofString "SET" :: ofString "k" :: ofString "v" :: rest))
      [⟨.writeEx (ofString "k") (ofString "v"), .ok ()⟩] (encode .simpleStrings [ofString "OK"]) :=
    fun rest => exec_guarded_iff.mpr (Or.inr ⟨by simp, .ok (), rfl, rfl⟩)
  have hok : ∀ e ∈ ([⟨.writeEx (ofString "k") (ofString "v"), .ok ()⟩] : List (Event TreeResult)),
      Succeeds e := List.forall_mem_singleton.mpr ⟨(), rfl⟩
  have htail := h _ _ _ _ (hrun []) (hrun [ofString "NX"]) hok hok rfl
  exact absurd htail (by decide)

end LogcabinRedisProxy
