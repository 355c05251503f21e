import RedisProxy.DecoderScanner

/-!
# Where the dispatched vectors come from

Whatever a client sends, the tokens a connection has read fall into spans: one
for each request handed to the handler, in order, and one for the request that
is still open (`Accounted`). A span begins with the line that was taken for an
array header, and the vector of its request is what the tokens behind that
line have contributed (`accepted`), as many elements as the header announced.

Three things the rest of the proxy relies on follow for every byte stream,
well formed or not. The calls carry the ids `0`, `1`, `2`, … that the reply
buffer of the session counts; no vector is empty, so `processer_worker` may
look at its first element; and between two requests nothing is left of the one
before.
-/

namespace SimpleResp

open Bytes

/-- What a token contributes to the open request: an integer element or a
payload itself, a length line of zero the empty string, anything else
nothing. -/
def accepted (read : DecodeContext × Bytes) : Option Bytes :=
  match read.1.state with
  | .init => none
  | .parseElements =>
    if read.2.headD 0 = RespType.integers.code then some read.2
    else if read.2.headD 0 = RespType.bulkStrings.code ∧ stoiTail read.2 = .ok 0 then some []
    else none
  | .parseBlukStrings =>
    if read.2.length = read.1.readingStrSize.toNat then some read.2 else none

/-- **The span of a request**: a line read between requests that announces `n`
elements, and tokens read inside the request, which have contributed the
elements `as`. -/
def Span (tokens : List (DecodeContext × Bytes)) (n : ℤ) (as : List Bytes) : Prop :=
  ∃ ctx header body, tokens = (ctx, header) :: body ∧ ctx.state = .init
    ∧ stoiTail header = .ok n ∧ (∀ read ∈ body, read.1.state ≠ .init)
    ∧ as = body.filterMap accepted

/-- The request of a call is the one of the span: not empty, and of the
announced length. That length has gone through `size_t`, which is the number
itself for every vector there is room for. -/
def DispatchedFrom (tokens : List (DecodeContext × Bytes)) (call : HandlerCall) : Prop :=
  ∃ n, Span tokens n call.request ∧ call.request ≠ []
    ∧ call.request.length = (UInt64.ofInt n).toNat
    ∧ (call.request.length < 2 ^ 63 → (call.request.length : ℤ) = n)

/-- The tokens read since the last dispatch: none between requests, else the
span of the open one. -/
def Pending (tokens : List (DecodeContext × Bytes)) (ctx : DecodeContext) : Prop :=
  if ctx.state = .init then tokens = []
  else ∃ n, Span tokens n ctx.reqList ∧ ctx.readingListSize = UInt64.ofInt n

/-- **What a connection has read, called and kept, told together.** -/
structure Accounted (hist : List (DecodeContext × Bytes)) (calls : List HandlerCall)
    (ctx : DecodeContext) : Prop where
  /-- The calls carry the numbers from zero on. -/
  numbered : Numbered 0 calls
  /-- The counter is the number of calls made. -/
  counted : ctx.lastCommandId = Int32.ofNat calls.length
  /-- Between requests nothing is left of the one before. -/
  idle : ctx.state = .init → ctx.reqList = [] ∧ ctx.readingListSize = 0
  /-- The tokens fall into the spans of the requests. -/
  spans : ∃ done pending, hist = done.flatten ++ pending ∧ List.Forall₂ DispatchedFrom done calls
    ∧ Pending pending ctx

theorem pending_nil {ctx : DecodeContext} (hs : ctx.state = .init) : Pending [] ctx := by
  rw [Pending, if_pos hs]

theorem accounted_new (sessionId : Int32) (readingStrSize : UInt64) :
    Accounted [] [] (.new sessionId readingStrSize) where
  numbered := numbered_nil 0
  counted := rfl
  idle _ := ⟨rfl, rfl⟩
  spans := ⟨[], [], rfl, List.Forall₂.nil, pending_nil rfl⟩

/-- A token more inside a request. -/
theorem Span.append {tokens : List (DecodeContext × Bytes)} {n : ℤ} {as : List Bytes}
    (h : Span tokens n as) {ctx : DecodeContext} {t : Bytes} (hs : ctx.state ≠ .init) :
    Span (tokens ++ [(ctx, t)]) n (as ++ (accepted (ctx, t)).toList) := by
  obtain ⟨c, header, body, rfl, hc, hn, hbody, rfl⟩ := h
  refine ⟨c, header, body ++ [(ctx, t)], rfl, hc, hn, ?_, ?_⟩
  · exact List.forall_mem_append.mpr ⟨hbody, List.forall_mem_singleton.mpr hs⟩
  · rw [List.filterMap_append, List.filterMap_cons, List.filterMap_nil]
    cases accepted (ctx, t) with
    | none => rfl
    | some a => rfl

theorem Pending.span {tokens : List (DecodeContext × Bytes)} {ctx : DecodeContext}
    (h : Pending tokens ctx) (hs : ctx.state ≠ .init) :
    ∃ n, Span tokens n ctx.reqList ∧ ctx.readingListSize = UInt64.ofInt n := by
  rwa [Pending, if_neg hs] at h

/-- **A token that leaves the request open.** -/
theorem Accounted.keep {hist : List (DecodeContext × Bytes)} {calls : List HandlerCall}
    {ctx ctx' : DecodeContext} {t : Bytes} (h : Accounted hist calls ctx)
    (hs : ctx.state ≠ .init) (hs' : ctx'.state ≠ .init)
    (hid : ctx'.lastCommandId = ctx.lastCommandId)
    (hsize : ctx'.readingListSize = ctx.readingListSize)
    (hlist : ctx'.reqList = ctx.reqList ++ (accepted (ctx, t)).toList) :
    Accounted (hist ++ [(ctx, t)]) calls ctx' where
  numbered := h.numbered
  counted := hid.trans h.counted
  idle hi := absurd hi hs'
  spans := by
    obtain ⟨done, pending, rfl, hdone, hpending⟩ := h.spans
    obtain ⟨n, hspan, hn⟩ := hpending.span hs
    refine ⟨done, pending ++ [(ctx, t)], List.append_assoc _ _ _, hdone, ?_⟩
    rw [Pending, if_neg hs']
    exact ⟨n, hlist ▸ hspan.append hs, hsize.trans hn⟩

/-- A size that an `int` has become, if it is one of a vector there is room
for, is the `int`. -/
theorem eq_of_toNat_ofInt {n : ℤ} {k : ℕ} (hn : -2 ^ 31 ≤ n ∧ n < 2 ^ 31)
    (h : k = (UInt64.ofInt n).toNat) (hk : k < 2 ^ 63) : (k : ℤ) = n := by
  rw [toNat_ofInt] at h
  omega

/-- **A token that completes an element**, and with it the request or not. -/
theorem Accounted.push {hist : List (DecodeContext × Bytes)} {calls : List HandlerCall}
    {ctx : DecodeContext} {t a : Bytes} (h : Accounted hist calls ctx)
    (hs : ctx.state ≠ .init) (ha : accepted (ctx, t) = some a) :
    Accounted (hist ++ [(ctx, t)]) (calls ++ ctx.pushCalls a) (ctx.pushed a) := by
  by_cases hlast : ctx.reqList.length + 1 = ctx.readingListSize.toNat
  · obtain ⟨hcalls, hcount, -⟩ := numbered_pushCalls h.counted a
    have hcalls' := h.numbered.append ((Nat.zero_add calls.length).symm ▸ hcalls)
    rw [← List.length_append] at hcount
    rw [ctx.pushCalls_of_eq a hlast, ctx.pushed_of_eq a hlast] at *
    refine ⟨hcalls', hcount, fun _ => ⟨rfl, rfl⟩, ?_⟩
    obtain ⟨done, pending, rfl, hdone, hpending⟩ := h.spans
    obtain ⟨n, hspan, hn⟩ := hpending.span hs
    have hspan' := hspan.append (t := t) hs
    rw [ha, Option.toList_some] at hspan'
    have hlen : (ctx.reqList ++ [a]).length = (UInt64.ofInt n).toNat := by
      rw [List.length_append, List.length_singleton, hlast, hn]
    have hrange : -2 ^ 31 ≤ n ∧ n < 2 ^ 31 := by
      obtain ⟨_, _, _, _, _, hheader, _⟩ := hspan
      exact stoiTail_range hheader
    refine ⟨done ++ [pending ++ [(ctx, t)]], [], ?_, ?_, pending_nil rfl⟩
    · rw [List.flatten_append, List.flatten_singleton, List.append_nil, List.append_assoc]
    · exact List.rel_append hdone (List.Forall₂.cons ⟨n, hspan', by simp, hlen,
        eq_of_toNat_ofInt hrange hlen⟩ List.Forall₂.nil)
  · rw [ctx.pushCalls_of_ne a hlast, ctx.pushed_of_ne a hlast, List.append_nil]
    exact h.keep hs (by simp) rfl rfl (by rw [ha]; rfl)

/-- **One token more.** -/
theorem Accounted.step {hist : List (DecodeContext × Bytes)} {calls calls' : List HandlerCall}
    {ctx ctx' : DecodeContext} {t : Bytes} (h : Accounted hist calls ctx)
    (hd : Handles ctx t calls' ctx') :
    Accounted (hist ++ [(ctx, t)]) (calls ++ calls') ctx' := by
  cases hd with
  | @header n hs hn =>
    rw [List.append_nil]
    have hopen : (ctx.opened n).state ≠ .init := by exact nofun
    refine ⟨h.numbered, h.counted, fun hi => absurd hi hopen, ?_⟩
    obtain ⟨done, pending, rfl, hdone, hpending⟩ := h.spans
    rw [Pending, if_pos hs] at hpending
    refine ⟨done, [(ctx, t)], by rw [hpending, List.append_nil], hdone, ?_⟩
    rw [Pending, if_neg hopen]
    have hnone : ∀ read ∈ ([] : List (DecodeContext × Bytes)), read.1.state ≠ .init :=
      fun _ hr => absurd hr List.not_mem_nil
    exact ⟨n, ⟨ctx, t, [], rfl, hs, hn, hnone, (h.idle hs).1⟩, rfl⟩
  | integer hs ht =>
    have hne : ctx.state ≠ .init := by rw [hs]; decide
    rw [List.append_nil]
    refine h.keep hne hne rfl rfl ?_
    rw [accepted, hs]
    simp only [if_pos ht]
    rfl
  | emptyBulk hs ht hn =>
    refine h.push (by rw [hs]; decide) ?_
    have hint : RespType.bulkStrings.code ≠ RespType.integers.code := by decide
    rw [accepted, hs]
    simp only [ht, if_neg hint, hn, and_self, if_true]
  | @bulk n hs ht hn hne =>
    rw [List.append_nil]
    refine h.keep (by rw [hs]; decide) (by exact nofun) rfl rfl ?_
    have hint : RespType.bulkStrings.code ≠ RespType.integers.code := by decide
    have hzero : ¬ (Except.ok n : Except StdException ℤ) = .ok 0 :=
      fun heq => hne (Except.ok.inj heq)
    rw [accepted, hs]
    simp only [ht, if_neg hint, hn, hzero, and_false, if_false]
    exact (List.append_nil _).symm
  | unknown hs hint hbulk =>
    have hne : ctx.state ≠ .init := by rw [hs]; decide
    rw [List.append_nil]
    refine h.keep hne hne rfl rfl ?_
    rw [accepted, hs]
    simp only [if_neg hint, hbulk, false_and, if_false]
    exact (List.append_nil _).symm
  | payload hs hlen =>
    refine h.push (by rw [hs]; decide) ?_
    rw [accepted, hs]
    exact if_pos hlen
  | overlong hs hlen =>
    have hne : ctx.state ≠ .init := by rw [hs]; decide
    rw [List.append_nil]
    refine h.keep hne hne rfl rfl ?_
    rw [accepted, hs]
    simp only [if_neg hlen]
    exact (List.append_nil _).symm

/-- **Every reading of a fresh connection is accounted for.** -/
theorem accounted_of_reads {sessionId : Int32} {readingStrSize : UInt64} {b b' : Bytes}
    {hist : List (DecodeContext × Bytes)} {calls : List HandlerCall} {ctx : DecodeContext}
    (h : scanner.Reads (.new sessionId readingStrSize) b hist calls ctx b') :
    Accounted hist calls ctx :=
  h.accumulate (fun _ _ _ _ _ _ hacc hstep => hacc.step (step_eq_ok_iff.mp hstep))
    (accounted_new sessionId readingStrSize)

/-- The shape of the calls of a connection that has made fewer than `2^31` of
them: the ids as numbers, the vectors and the tokens they come from, and the
context between requests. -/
structure WellShaped (hist : List (DecodeContext × Bytes)) (calls : List HandlerCall)
    (ctx : DecodeContext) : Prop where
  /-- The call number `k` carries the id `k`. -/
  commandId : ∀ (k : ℕ) (call : HandlerCall), calls[k]? = some call → call.commandId.toInt = k
  /-- The counter is the number of calls made. -/
  lastCommandId : ctx.lastCommandId.toInt = calls.length
  /-- The vectors come from tokens of their own, in the order of the
  stream. -/
  request : ∃ done pending, hist = done.flatten ++ pending
    ∧ List.Forall₂ DispatchedFrom done calls
  /-- Between requests nothing is left of the one before. -/
  idle : ctx.state = .init → ctx.reqList = [] ∧ ctx.readingListSize = 0

/-- The ids of numbered calls, as numbers. -/
theorem Numbered.toInt_commandId {calls : List HandlerCall} (h : Numbered 0 calls)
    (hlen : calls.length < 2 ^ 31) {k : ℕ} {call : HandlerCall}
    (hk : calls[k]? = some call) : call.commandId.toInt = k := by
  have hlt : k < calls.length := (List.getElem?_eq_some_iff.mp hk).1
  have hid := congrArg (·[k]?) h
  simp only [List.getElem?_map, hk, Option.map_some, List.getElem?_range' hlt,
    Option.some.injEq] at hid
  rw [hid, Int32.toInt_ofNat_of_lt (by omega)]
  omega

theorem Accounted.wellShaped {hist : List (DecodeContext × Bytes)} {calls : List HandlerCall}
    {ctx : DecodeContext} (h : Accounted hist calls ctx) (hlen : calls.length < 2 ^ 31) :
    WellShaped hist calls ctx where
  commandId _ _ hk := h.numbered.toInt_commandId hlen hk
  lastCommandId := by rw [h.counted, Int32.toInt_ofNat_of_lt hlen]
  request := by
    obtain ⟨done, pending, hhist, hdone, -⟩ := h.spans
    exact ⟨done, pending, hhist, hdone⟩
  idle := h.idle

/-- **The calls of a connection are numbered from zero and shaped as announced,
whatever is read.** What a fresh connection does with a byte stream in any
chunks, up to an exception if there is one, is a reading of tokens; and behind
every reading of the front of the stream, fewer than `2^31` requests in, the
calls made are well shaped. -/
theorem receiveAll_wellShaped (sessionId : Int32) (readingStrSize : UInt64)
    (chunks : List Bytes) :
    (∃ hist ctx rest,
      scanner.Reads (.new sessionId readingStrSize) chunks.flatten hist
        (receiveAll (.new sessionId readingStrSize) chunks).events ctx rest
      ∧ ∀ c, (receiveAll (.new sessionId readingStrSize) chunks).outcome = .ok c →
        c = ctx.withBuffer rest)
    ∧ ∀ hist calls ctx rest,
      scanner.Reads (.new sessionId readingStrSize) chunks.flatten hist calls ctx rest →
        calls.length < 2 ^ 31 → WellShaped hist calls ctx := by
  exact ⟨exists_reads_of_receiveAll (.new sessionId readingStrSize) [] chunks,
    fun hist calls ctx rest hr hlen => (accounted_of_reads hr).wellShaped hlen⟩

end SimpleResp
