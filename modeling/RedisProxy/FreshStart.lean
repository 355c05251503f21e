import RedisProxy.DispatchShape

/-!
# Nothing of a request is left for the next one

A context serves every request of its connection, and not all of its fields are
told apart when a request ends: `reading_str_size` starts with whatever value
the memory had, which the constructor does not replace, and `last_command_id`
counts on. Neither matters. Between requests the list of elements is empty, the
two sizes are written by the header and the length line before anything
compares with them, and the counter only labels the calls.

So a context that has come back to `INIT` with nothing buffered does with
everything it reads what a fresh one does, the labels apart
(`receiveAll_fresh`): a simulation between two runs of the decoder, whose
relation (`SameAhead`) says which fields are looked at in which state.
-/

namespace SimpleResp

open Bytes

/-- The same call, `k` requests later. -/
def HandlerCall.later (k : ℕ) (call : HandlerCall) : HandlerCall :=
  { call with commandId := call.commandId + Int32.ofNat k }

/-- **Two contexts with the same before them**: they agree in what the decoder
looks at before it writes it, and the second one counts `k` requests more. -/
structure SameAhead (k : ℕ) (ctx ctx' : DecodeContext) : Prop where
  /-- The counters differ by the requests made before. -/
  lastCommandId : ctx'.lastCommandId = ctx.lastCommandId + Int32.ofNat k
  /-- The same tokens are expected. -/
  state : ctx'.state = ctx.state
  /-- The same elements are collected. -/
  reqList : ctx'.reqList = ctx.reqList
  /-- Inside a request, the same number of elements is announced. -/
  readingListSize : ctx.state ≠ .init → ctx'.readingListSize = ctx.readingListSize
  /-- Inside a payload, the same length is announced. -/
  readingStrSize : ctx.state = .parseBlukStrings → ctx'.readingStrSize = ctx.readingStrSize

namespace SameAhead

variable {k : ℕ} {ctx ctx' : DecodeContext}

/-- The next token ends at the same place. -/
theorem threshold_eq (h : SameAhead k ctx ctx') : threshold ctx' = threshold ctx := by
  unfold threshold
  rw [h.state]
  cases hs : ctx.state with
  | init => rfl
  | parseElements => rfl
  | parseBlukStrings => exact congrArg UInt64.toNat (h.readingStrSize hs)

/-- An array header is read alike. -/
theorem opened (h : SameAhead k ctx ctx') (n : ℤ) :
    SameAhead k (ctx.opened n) (ctx'.opened n) where
  lastCommandId := h.lastCommandId
  state := rfl
  reqList := h.reqList
  readingListSize _ := rfl
  readingStrSize hs := by cases hs

/-- An integer element is collected alike. -/
theorem collected (h : SameAhead k ctx ctx') (token : Bytes) :
    SameAhead k (ctx.collected token) (ctx'.collected token) where
  lastCommandId := h.lastCommandId
  state := h.state
  reqList := congrArg (· ++ [token]) h.reqList
  readingListSize := h.readingListSize
  readingStrSize := h.readingStrSize

/-- A length line is read alike. -/
theorem awaiting (h : SameAhead k ctx ctx') (hs : ctx.state ≠ .init) (n : ℤ) :
    SameAhead k (ctx.awaiting n) (ctx'.awaiting n) where
  lastCommandId := h.lastCommandId
  state := rfl
  reqList := h.reqList
  readingListSize _ := h.readingListSize hs
  readingStrSize _ := rfl

/-- **An element is pushed alike**, and completes both requests or neither. -/
theorem pushed (h : SameAhead k ctx ctx') (hs : ctx.state ≠ .init) (element : Bytes) :
    ctx'.pushCalls element = (ctx.pushCalls element).map (HandlerCall.later k)
      ∧ SameAhead k (ctx.pushed element) (ctx'.pushed element) := by
  have hsize := h.readingListSize hs
  have hiff : ctx'.reqList.length + 1 = ctx'.readingListSize.toNat
      ↔ ctx.reqList.length + 1 = ctx.readingListSize.toNat := by rw [h.reqList, hsize]
  by_cases hlast : ctx.reqList.length + 1 = ctx.readingListSize.toNat
  · rw [ctx.pushCalls_of_eq element hlast, ctx'.pushCalls_of_eq element (hiff.mpr hlast),
      ctx.pushed_of_eq element hlast, ctx'.pushed_of_eq element (hiff.mpr hlast)]
    refine ⟨?_, ⟨?_, rfl, rfl, fun _ => rfl, fun _ => rfl⟩⟩
    · rw [h.lastCommandId, h.reqList]
      rfl
    · show ctx'.lastCommandId + 1 = ctx.lastCommandId + 1 + Int32.ofNat k
      rw [h.lastCommandId, Int32.add_assoc, Int32.add_assoc, Int32.add_comm 1]
  · rw [ctx.pushCalls_of_ne element hlast, ctx'.pushCalls_of_ne element (hlast ∘ hiff.mp),
      ctx.pushed_of_ne element hlast, ctx'.pushed_of_ne element (hlast ∘ hiff.mp)]
    refine ⟨rfl, ⟨h.lastCommandId, rfl, ?_, fun _ => hsize, fun _ => rfl⟩⟩
    exact congrArg (· ++ [element]) h.reqList

/-- **One token does the same to both.** -/
theorem step (h : SameAhead k ctx ctx') (token : Bytes) :
    Traced.Alike (HandlerCall.later k) (SameAhead k) (step ctx token) (step ctx' token) := by
  rw [step_eq, step_eq, h.state]
  cases hs : ctx.state with
  | init =>
    cases stoiTail token with
    | error e => exact Traced.Alike.error [] e
    | ok n => exact Traced.Alike.ok (h.opened n)
  | parseElements =>
    have hne : ctx.state ≠ .init := by rw [hs]; decide
    simp only
    split
    · exact Traced.Alike.ok (h.collected token)
    · split
      · cases stoiTail token with
        | error e => exact Traced.Alike.error [] e
        | ok n =>
          simp only
          split
          · obtain ⟨hcalls, hpushed⟩ := h.pushed hne []
            rw [hcalls]
            exact Traced.Alike.ok hpushed
          · exact Traced.Alike.ok (h.awaiting hne n)
      · exact Traced.Alike.ok h
  | parseBlukStrings =>
    have hne : ctx.state ≠ .init := by rw [hs]; decide
    simp only [h.readingStrSize hs]
    split
    · obtain ⟨hcalls, hpushed⟩ := h.pushed hne token
      rw [hcalls]
      exact Traced.Alike.ok hpushed
    · exact Traced.Alike.ok h

theorem withBuffer (h : SameAhead k ctx ctx') (b b' : Bytes) :
    SameAhead k (ctx.withBuffer b) (ctx'.withBuffer b') :=
  ⟨h.lastCommandId, h.state, h.reqList, h.readingListSize, h.readingStrSize⟩

/-- **`decode` does the same to both**, if they have the same buffered, whatever the size. -/
theorem decode (h : SameAhead k ctx ctx') (hb : ctx'.bufferedInput = ctx.bufferedInput) :
    Traced.Alike (HandlerCall.later k)
      (fun c c' => SameAhead k c c' ∧ c'.bufferedInput = c.bufferedInput)
      (decode ctx) (decode ctx') := by
  have hrun := scanner.run_alike (R := SameAhead k) (g := HandlerCall.later k)
    (fun _ _ b hr => congrArg (cutCrlf · b) hr.threshold_eq) (fun _ _ t hr => hr.step t) h
    (ctx.bufferedInput.take (2 ^ 31))
  rw [decode_eq_run_take, decode_eq_run_take, hb]
  refine hrun.bind fun ⟨c, r⟩ ⟨c', r'⟩ ⟨hctx, hrest⟩ => ?_
  obtain rfl : r' = r := hrest
  unfold keep
  split
  · exact Traced.Alike.error [] _
  · exact Traced.Alike.ok ⟨hctx.withBuffer _ _, rfl⟩

/-- **So do reads.** -/
theorem receiveAll (h : SameAhead k ctx ctx') (hb : ctx'.bufferedInput = ctx.bufferedInput)
    (chunks : List Bytes) :
    Traced.Alike (HandlerCall.later k)
      (fun c c' => SameAhead k c c' ∧ c'.bufferedInput = c.bufferedInput)
      (receiveAll ctx chunks) (receiveAll ctx' chunks) := by
  induction chunks generalizing ctx ctx' with
  | nil => exact Traced.Alike.ok ⟨h, hb⟩
  | cons chunk chunks ih =>
    have hread := (h.withBuffer _ _).decode (congrArg (· ++ chunk) hb)
    exact hread.bind fun c c' ⟨hc, hrest⟩ => ih hc hrest

end SameAhead

/-- **A context that is back between requests is as good as new.** -/
theorem sameAhead_of_init {sessionId : Int32} {readingStrSize : UInt64} {past : List Bytes}
    {calls : List HandlerCall} {ctx : DecodeContext}
    (h : receiveAll (.new sessionId readingStrSize) past = ⟨calls, .ok ctx⟩)
    (hs : ctx.state = .init) (sessionId' : Int32) (readingStrSize' : UInt64) :
    SameAhead calls.length (.new sessionId' readingStrSize') ctx := by
  obtain ⟨hist, c, r, hr, rfl⟩ := exists_reads_of_receiveAll_new h
  have hacc : Accounted hist calls c := accounted_of_reads hr
  refine ⟨?_, hs, (hacc.idle hs).1, fun hne => absurd rfl hne, fun hp => by cases hp⟩
  show c.lastCommandId = 0 + Int32.ofNat calls.length
  rw [hacc.counted, Int32.zero_add]

/-- The exception `e` is thrown by the read number `n`, and by none before. -/
def ThrowsAt (ctx : DecodeContext) (chunks : List Bytes) (n : ℕ) (e : StdException) : Prop :=
  (∃ ctx', (receiveAll ctx (chunks.take n)).outcome = .ok ctx')
    ∧ (receiveAll ctx (chunks.take (n + 1))).outcome = .error e

/-- **No leakage from earlier requests or uninitialised fields.** A context that
has read its way back to `INIT` with nothing buffered, whatever it read and
whatever `reading_str_size` was at first, makes on every further stream, in any
chunks, the calls a fresh context makes on it, later by the requests made
before; and where the one throws the other throws the same, at the same read,
and at the same byte if the stream comes byte by byte. -/
theorem receiveAll_fresh {sessionId : Int32} {readingStrSize : UInt64} {past : List Bytes}
    {calls : List HandlerCall} {ctx : DecodeContext}
    (h : receiveAll (.new sessionId readingStrSize) past = ⟨calls, .ok ctx⟩)
    (hs : ctx.state = .init) (hb : ctx.bufferedInput = []) (sessionId' : Int32)
    (readingStrSize' : UInt64) (chunks : List Bytes) :
    (receiveAll ctx chunks).events
        = (receiveAll (.new sessionId' readingStrSize') chunks).events.map
          (HandlerCall.later calls.length)
      ∧ (∀ e, (receiveAll ctx chunks).outcome = .error e
        ↔ (receiveAll (.new sessionId' readingStrSize') chunks).outcome = .error e)
      ∧ (∀ n e, ThrowsAt ctx chunks n e
        ↔ ThrowsAt (.new sessionId' readingStrSize') chunks n e)
      ∧ ∀ n e, ThrowsAt ctx (chunks.flatten.map ([·])) n e
        ↔ ThrowsAt (.new sessionId' readingStrSize') (chunks.flatten.map ([·])) n e := by
  have halike := (sameAhead_of_init h hs sessionId' readingStrSize').receiveAll hb
  have hthrows : ∀ chunks n e, ThrowsAt ctx chunks n e
      ↔ ThrowsAt (.new sessionId' readingStrSize') chunks n e := fun chunks n _ =>
    and_congr (halike (chunks.take n)).outcome_eq_ok_iff
      (halike (chunks.take (n + 1))).outcome_eq_error_iff
  exact ⟨(halike chunks).events, fun _ => (halike chunks).outcome_eq_error_iff, hthrows chunks,
    hthrows _⟩

/-- A request that has ended with an empty element, and the rest of that element,
which is taken for a header. -/
theorem receiveAll_fresh_emptyElement :
    (receiveAll ⟨5, 1, .init, 0, 0, [], []⟩
          [ofString "*1\r\n$1\r\nx\r\n", ofString "\r\n"]).events
        = (receiveAll (.new 5 99) [ofString "*1\r\n$1\r\nx\r\n", ofString "\r\n"]).events.map
          (HandlerCall.later 1)
      ∧ ∀ n e, ThrowsAt ⟨5, 1, .init, 0, 0, [], []⟩
          [ofString "*1\r\n$1\r\nx\r\n", ofString "\r\n"] n e
        ↔ ThrowsAt (.new 5 99) [ofString "*1\r\n$1\r\nx\r\n", ofString "\r\n"] n e := by
  have hpast : receiveAll (.new 5 7) [ofString "*1\r\n$0\r\n"]
      = ⟨[⟨0, [[]]⟩], .ok ⟨5, 1, .init, 0, 0, [], []⟩⟩ :=
    Traced.ext (by decide +kernel) (by decide +kernel)
  obtain ⟨hevents, -, hthrows, -⟩ := receiveAll_fresh hpast rfl rfl 5 99
    [ofString "*1\r\n$1\r\nx\r\n", ofString "\r\n"]
  exact ⟨hevents, hthrows⟩

end SimpleResp
