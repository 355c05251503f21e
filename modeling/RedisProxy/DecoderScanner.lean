import RedisProxy.SimpleResp
import RedisProxy.Library.TokenScanner

/-!
# The scan loop is a token scanner

`decoder::parse` finds the tokens of its buffer by comparing characters at an
index, starts over at the front of what it kept at every read, and decides
after the fact whether a CRLF inside a bulk payload ended the payload. None of
this is visible in what it does: `parse` is the scanner that cuts the buffer
at the first CRLF at offset `threshold` or later – the announced length inside
a bulk string, zero elsewhere – and handles what stands before it, in as much
of the buffer as its `int` positions get to (`decode_eq_run_take`). The
invariant of the index loop is that every CRLF between the open token's start
and the index stands below the threshold (`parseLoop_eq_run`).

Chunking independence is then a property every token scanner has
(`TokenScanner.feed_eq_run`), as long as the buffer stays that short:
`receiveAll_eq_receive`. The handler calls of a read carry the numbers that
follow those of the reads before (`receive_numbered`).
-/

namespace SimpleResp

open Bytes

/-! ## One token -/

/-- Where the terminator of the open token may stand: not before the end of
the announced payload inside a bulk string, anywhere elsewhere. -/
def threshold (ctx : DecodeContext) : ℕ :=
  match ctx.state with
  | .init => 0
  | .parseElements => 0
  | .parseBlukStrings => ctx.readingStrSize.toNat

/-- The context after one complete token. -/
def step (ctx : DecodeContext) (token : Bytes) : Decoding DecodeContext :=
  Prod.fst <$> handleToken ctx token

/-- A CRLF below the threshold is part of the payload and changes nothing. -/
theorem handleToken_of_lt {ctx : DecodeContext} {token : Bytes}
    (h : token.length < threshold ctx) : handleToken ctx token = pure (ctx, false) := by
  unfold threshold at h
  unfold handleToken
  cases hs : ctx.state with
  | init => simp [hs] at h
  | parseElements => simp [hs] at h
  | parseBlukStrings =>
    simp only [hs] at h
    exact if_pos h

/-- A CRLF at the threshold or beyond it ends the token. -/
theorem handleToken_of_le {ctx : DecodeContext} {token : Bytes}
    (h : threshold ctx ≤ token.length) :
    handleToken ctx token = (fun ctx => (ctx, true)) <$> step ctx token := by
  unfold step
  rw [← comp_map]
  unfold threshold at h
  unfold handleToken
  cases hs : ctx.state with
  | init => simp only [map_bind]; rfl
  | parseElements =>
    simp only
    split
    · rfl
    · split
      · simp only [map_bind]
        refine congrArg _ (funext fun n => ?_)
        split
        · simp only [map_bind]; rfl
        · rfl
      · rfl
  | parseBlukStrings =>
    simp only [hs] at h
    simp only [if_neg (show ¬ token.length < ctx.readingStrSize.toNat by omega)]
    split
    · rfl
    · simp only [map_bind]; rfl

/-- **The decoder as a token scanner.** -/
def scanner : TokenScanner DecodeContext UInt8 HandlerCall StdException where
  cut ctx b := cutCrlf (threshold ctx) b
  step := step
  cut_suffix := suffix_of_cutCrlf
  cut_length h := by
    have := length_of_cutCrlf h
    omega
  cut_append := cutCrlf_append

/-- Replacing the buffered input, which no token looks at. -/
def DecodeContext.withBuffer (b : Bytes) (ctx : DecodeContext) : DecodeContext :=
  { ctx with bufferedInput := b }

@[simp] theorem DecodeContext.withBuffer_bufferedInput (ctx : DecodeContext) :
    ctx.withBuffer ctx.bufferedInput = ctx := rfl

@[simp] theorem DecodeContext.bufferedInput_withBuffer (b : Bytes) (ctx : DecodeContext) :
    (ctx.withBuffer b).bufferedInput = b := rfl

/-! ## What one token does -/

namespace DecodeContext

/-- The handler calls of `push_element`: one if the element completes the
request, none otherwise. -/
def pushCalls (ctx : DecodeContext) (element : Bytes) : List HandlerCall :=
  if ctx.reqList.length + 1 = ctx.readingListSize.toNat then
    [⟨ctx.lastCommandId, ctx.reqList ++ [element]⟩]
  else []

/-- The context after a request has been handed to the handler. -/
def dispatched (ctx : DecodeContext) : DecodeContext :=
  { ctx with
    lastCommandId := ctx.lastCommandId + 1
    state := .init
    readingListSize := 0
    readingStrSize := 0
    reqList := [] }

/-- The context `push_element` leaves. -/
def pushed (ctx : DecodeContext) (element : Bytes) : DecodeContext :=
  if ctx.reqList.length + 1 = ctx.readingListSize.toNat then ctx.dispatched
  else
    { ctx with
      state := .parseElements
      readingStrSize := 0
      reqList := ctx.reqList ++ [element] }

/-- The context after an array header announcing `n` elements. -/
def opened (ctx : DecodeContext) (n : ℤ) : DecodeContext :=
  { ctx with readingListSize := UInt64.ofInt n, state := .parseElements }

/-- The context after an integer element. -/
def collected (ctx : DecodeContext) (token : Bytes) : DecodeContext :=
  { ctx with reqList := ctx.reqList ++ [token] }

/-- The context after the length `n` of a bulk string. -/
def awaiting (ctx : DecodeContext) (n : ℤ) : DecodeContext :=
  { ctx with readingStrSize := UInt64.ofInt n, state := .parseBlukStrings }

/-- **`push_element` always succeeds.** -/
theorem pushElement_eq (ctx : DecodeContext) (element : Bytes) :
    ctx.pushElement element = ⟨ctx.pushCalls element, .ok (ctx.pushed element)⟩ := by
  unfold pushElement pushCalls pushed
  simp only [List.length_append, List.length_singleton]
  split <;> rfl

/-- The element that completes the request. -/
theorem pushed_of_eq (ctx : DecodeContext) (element : Bytes)
    (h : ctx.reqList.length + 1 = ctx.readingListSize.toNat) :
    ctx.pushed element = ctx.dispatched := if_pos h

theorem pushCalls_of_eq (ctx : DecodeContext) (element : Bytes)
    (h : ctx.reqList.length + 1 = ctx.readingListSize.toNat) :
    ctx.pushCalls element = [⟨ctx.lastCommandId, ctx.reqList ++ [element]⟩] := if_pos h

theorem pushCalls_of_ne (ctx : DecodeContext) (element : Bytes)
    (h : ctx.reqList.length + 1 ≠ ctx.readingListSize.toNat) :
    ctx.pushCalls element = [] := if_neg h

/-- An element that leaves the request open. -/
theorem pushed_of_ne (ctx : DecodeContext) (element : Bytes)
    (h : ctx.reqList.length + 1 ≠ ctx.readingListSize.toNat) :
    ctx.pushed element =
      { ctx with
        state := .parseElements
        readingStrSize := 0
        reqList := ctx.reqList ++ [element] } := if_neg h

theorem pushed_withBuffer (ctx : DecodeContext) (b element : Bytes) :
    (ctx.withBuffer b).pushed element = (ctx.pushed element).withBuffer b := by
  by_cases h : ctx.reqList.length + 1 = ctx.readingListSize.toNat
  · rw [ctx.pushed_of_eq element h, (ctx.withBuffer b).pushed_of_eq element h]
    rfl
  · rw [ctx.pushed_of_ne element h, (ctx.withBuffer b).pushed_of_ne element h]
    rfl

end DecodeContext

/-- `static_cast<size_t>` of an `int` is its residue modulo `2^64`. -/
theorem toNat_ofInt (n : ℤ) : (UInt64.ofInt n).toNat = (n % 2 ^ 64).toNat := by
  unfold UInt64.ofInt
  rw [UInt64.toNat_ofNat']
  omega

/-- A number read from a token is zero as a size only if it is zero. -/
theorem ofInt_eq_zero_iff {n : ℤ} (h : -2 ^ 31 ≤ n ∧ n < 2 ^ 31) :
    UInt64.ofInt n = 0 ↔ n = 0 := by
  rw [← UInt64.toNat_inj, toNat_ofInt]
  show (n % 2 ^ 64).toNat = 0 ↔ n = 0
  omega

theorem toNat_ofInt_natCast {n : ℕ} (h : n < 2 ^ 31) : (UInt64.ofInt n).toNat = n := by
  rw [toNat_ofInt]
  omega

theorem stoiTail_of_nil : stoiTail [] = .error .outOfRange := rfl

theorem stoiTail_cons (c : UInt8) (t : Bytes) : stoiTail (c :: t) = stoi t := by
  unfold stoiTail
  rw [substr_of_le (by simp)]
  show stoi (((c :: t).drop 1).take _) = _
  rw [List.drop_succ_cons, List.drop_zero, List.length_cons, Nat.add_sub_cancel,
    List.take_length]

theorem stoiTail_eq_ok_iff {token : Bytes} {n : ℤ} :
    stoiTail token = .ok n ↔ ∃ c t, token = c :: t ∧ stoi t = .ok n := by
  cases token with
  | nil => simp [stoiTail_of_nil]
  | cons c t => simp [stoiTail_cons]

theorem eq_cons_of_headD {token : Bytes} {c : UInt8} (h : token.headD 0 = c) (hc : c ≠ 0) :
    ∃ t, token = c :: t := by
  cases token with
  | nil => exact absurd h.symm hc
  | cons d t => exact ⟨t, congrArg (· :: t) h⟩

theorem head?_ne_iff {token : Bytes} {c : UInt8} (hc : c ≠ 0) :
    token.head? ≠ some c ↔ token.headD 0 ≠ c := by
  cases token with
  | nil => simpa using hc.symm
  | cons d t => simp

/-- What the text behind a token's first character reads as fits an `int`. -/
theorem stoiTail_range {token : Bytes} {n : ℤ} (h : stoiTail token = .ok n) :
    -2 ^ 31 ≤ n ∧ n < 2 ^ 31 := by
  cases token with
  | nil => cases h
  | cons c t => exact stoi_range (stoiTail_cons c t ▸ h)

/-- **One token, case by case.** -/
theorem step_eq (ctx : DecodeContext) (token : Bytes) :
    step ctx token =
      match ctx.state with
      | .init => ⟨[], (stoiTail token).map ctx.opened⟩
      | .parseElements =>
        if token.headD 0 = RespType.integers.code then ⟨[], .ok (ctx.collected token)⟩
        else if token.headD 0 = RespType.bulkStrings.code then
          match stoiTail token with
          | .error e => ⟨[], .error e⟩
          | .ok n =>
            if n = 0 then ⟨ctx.pushCalls [], .ok (ctx.pushed [])⟩
            else ⟨[], .ok (ctx.awaiting n)⟩
        else ⟨[], .ok ctx⟩
      | .parseBlukStrings =>
        if token.length = ctx.readingStrSize.toNat then
          ⟨ctx.pushCalls token, .ok (ctx.pushed token)⟩
        else ⟨[], .ok ctx⟩ := by
  unfold step handleToken
  cases hs : ctx.state with
  | init =>
    simp only
    cases stoiTail token <;> rfl
  | parseElements =>
    simp only
    split
    · rw [DecodeContext.collected, hs]
      rfl
    · split
      · cases hn : stoiTail token with
        | error e => rfl
        | ok n =>
          simp only [Traced.ofExcept_ok, pure_bind, ofInt_eq_zero_iff (stoiTail_range hn)]
          split
          · rw [DecodeContext.pushElement_eq]
            exact Traced.ext (by simp [DecodeContext.pushCalls]) rfl
          · rfl
      · rfl
  | parseBlukStrings =>
    simp only
    split
    · rename_i h
      rw [if_neg (by omega)]
      rfl
    · split
      · rw [if_neg (by omega)]
        rfl
      · rw [if_pos (by omega), DecodeContext.pushElement_eq]
        exact Traced.ext (by simp) rfl

/-- **What handling one token can do when it ends normally**: the branch taken,
the handler calls made and the context left. -/
inductive Handles (ctx : DecodeContext) (token : Bytes) :
    List HandlerCall → DecodeContext → Prop where
  /-- Any line with a number behind its first character opens an array. -/
  | header {n : ℤ} (hs : ctx.state = .init) (hn : stoiTail token = .ok n) :
      Handles ctx token [] (ctx.opened n)
  /-- An integer element joins the list and completes nothing. -/
  | integer (hs : ctx.state = .parseElements)
      (ht : token.headD 0 = RespType.integers.code) : Handles ctx token [] (ctx.collected token)
  /-- The length zero completes an empty element. -/
  | emptyBulk (hs : ctx.state = .parseElements)
      (ht : token.headD 0 = RespType.bulkStrings.code) (hn : stoiTail token = .ok 0) :
      Handles ctx token (ctx.pushCalls []) (ctx.pushed [])
  /-- Any other length opens a payload. -/
  | bulk {n : ℤ} (hs : ctx.state = .parseElements)
      (ht : token.headD 0 = RespType.bulkStrings.code) (hn : stoiTail token = .ok n)
      (hne : n ≠ 0) : Handles ctx token [] (ctx.awaiting n)
  /-- Any other line is passed over. -/
  | unknown (hs : ctx.state = .parseElements)
      (hint : token.headD 0 ≠ RespType.integers.code)
      (hbulk : token.headD 0 ≠ RespType.bulkStrings.code) : Handles ctx token [] ctx
  /-- A payload of the announced length completes an element. -/
  | payload (hs : ctx.state = .parseBlukStrings)
      (hlen : token.length = ctx.readingStrSize.toNat) :
      Handles ctx token (ctx.pushCalls token) (ctx.pushed token)
  /-- A payload of another length is passed over. -/
  | overlong (hs : ctx.state = .parseBlukStrings)
      (hlen : token.length ≠ ctx.readingStrSize.toNat) : Handles ctx token [] ctx

/-- **One token that ends normally, inverted.** -/
theorem step_eq_ok_iff {ctx ctx' : DecodeContext} {token : Bytes} {calls : List HandlerCall} :
    step ctx token = ⟨calls, .ok ctx'⟩ ↔ Handles ctx token calls ctx' := by
  constructor
  · intro h
    rw [step_eq] at h
    cases hs : ctx.state with
    | init =>
      cases hn : stoiTail token with
      | error e => simp [hs, hn, Except.map] at h
      | ok n =>
        simp only [hs, hn, Except.map, Traced.mk.injEq, Except.ok.injEq] at h
        obtain ⟨rfl, rfl⟩ := h
        exact Handles.header hs hn
    | parseElements =>
      simp only [hs] at h
      split at h
      · obtain ⟨rfl, rfl⟩ := by simpa only [Traced.mk.injEq, Except.ok.injEq] using h
        exact Handles.integer hs ‹_›
      · split at h
        · cases hn : stoiTail token with
          | error e => simp [hn] at h
          | ok n =>
            simp only [hn] at h
            split at h
            · obtain ⟨rfl, rfl⟩ := by simpa only [Traced.mk.injEq, Except.ok.injEq] using h
              rename_i hz
              exact Handles.emptyBulk hs ‹_› (hz ▸ hn)
            · obtain ⟨rfl, rfl⟩ := by simpa only [Traced.mk.injEq, Except.ok.injEq] using h
              exact Handles.bulk hs ‹_› hn ‹_›
        · obtain ⟨rfl, rfl⟩ := by simpa only [Traced.mk.injEq, Except.ok.injEq] using h
          exact Handles.unknown hs ‹_› ‹_›
    | parseBlukStrings =>
      simp only [hs] at h
      split at h
      · obtain ⟨rfl, rfl⟩ := by simpa only [Traced.mk.injEq, Except.ok.injEq] using h
        exact Handles.payload hs ‹_›
      · obtain ⟨rfl, rfl⟩ := by simpa only [Traced.mk.injEq, Except.ok.injEq] using h
        exact Handles.overlong hs ‹_›
  · intro h
    rw [step_eq]
    cases h with
    | header hs hn => rw [hs, hn]; rfl
    | integer hs ht => simp only [hs, if_pos ht]
    | emptyBulk hs ht hn =>
      have hne : RespType.bulkStrings.code ≠ RespType.integers.code := by decide
      simp only [hs, ht, if_neg hne, if_true, hn]
    | bulk hs ht hn hz =>
      have hne : RespType.bulkStrings.code ≠ RespType.integers.code := by decide
      simp only [hs, ht, if_neg hne, if_true, hn, if_neg hz]
    | unknown hs hint hbulk => simp only [hs, if_neg hint, if_neg hbulk]
    | payload hs hlen => simp only [hs, if_pos hlen]
    | overlong hs hlen => simp only [hs, if_neg hlen]

/-- Where an element is expected, a bulk marker has a number behind it, and
completes an element or opens a payload. -/
theorem Handles.of_bulk {ctx ctx' : DecodeContext} {token : Bytes} {calls : List HandlerCall}
    (h : Handles ctx token calls ctx') (hs : ctx.state = .parseElements)
    (ht : token.headD 0 = RespType.bulkStrings.code) :
    ∃ n, stoiTail token = .ok n
      ∧ (n = 0 ∧ calls = ctx.pushCalls [] ∧ ctx' = ctx.pushed []
        ∨ n ≠ 0 ∧ calls = [] ∧ ctx' = ctx.awaiting n) := by
  cases h with
  | header hst _ => exact absurd (hst.symm.trans hs) (by decide)
  | integer _ hi => exact absurd (hi.symm.trans ht) (by decide)
  | emptyBulk _ _ hn => exact ⟨0, hn, Or.inl ⟨rfl, rfl, rfl⟩⟩
  | bulk _ _ hn hne => exact ⟨_, hn, Or.inr ⟨hne, rfl, rfl⟩⟩
  | unknown _ _ hbulk => exact absurd ht hbulk
  | payload hst _ => exact absurd (hst.symm.trans hs) (by decide)
  | overlong hst _ => exact absurd (hst.symm.trans hs) (by decide)

/-- **One token that throws, inverted**: it stands where a number is taken
from it, and makes no handler call. -/
theorem step_eq_error_iff {ctx : DecodeContext} {token : Bytes} {calls : List HandlerCall}
    {e : StdException} :
    step ctx token = ⟨calls, .error e⟩
      ↔ calls = [] ∧ stoiTail token = .error e
        ∧ (ctx.state = .init ∨ ctx.state = .parseElements
          ∧ token.headD 0 = RespType.bulkStrings.code) := by
  have hne : RespType.bulkStrings.code ≠ RespType.integers.code := by decide
  rw [step_eq]
  generalize token.headD 0 = c
  cases ctx.state with
  | init => cases stoiTail token <;> simp [Except.map, eq_comm]
  | parseElements =>
    by_cases hint : c = RespType.integers.code
    · simp [hint, hne.symm]
    · by_cases hbulk : c = RespType.bulkStrings.code
      · cases stoiTail token with
        | error e' => simp [hbulk, hne, eq_comm]
        | ok n => by_cases hz : n = 0 <;> simp [hbulk, hne, hz]
      · simp [hint, hbulk]
  | parseBlukStrings =>
    by_cases hlen : token.length = ctx.readingStrSize.toNat <;> simp [hlen]

/-- Between requests no element is collected. -/
def EmptyAtInit (ctx : DecodeContext) : Prop := ctx.state = .init → ctx.reqList = []

theorem emptyAtInit_pushed (ctx : DecodeContext) (t : Bytes) : EmptyAtInit (ctx.pushed t) := by
  intro hs
  by_cases h : ctx.reqList.length + 1 = ctx.readingListSize.toNat
  · rw [ctx.pushed_of_eq t h]
    rfl
  · rw [ctx.pushed_of_ne t h] at hs
    cases hs

/-- **One token keeps the list empty between requests.** -/
theorem EmptyAtInit.step {ctx ctx' : DecodeContext} {t : Bytes} {calls : List HandlerCall}
    (h : EmptyAtInit ctx) (hs : step ctx t = ⟨calls, .ok ctx'⟩) : EmptyAtInit ctx' := by
  intro hi
  cases step_eq_ok_iff.mp hs with
  | header _ _ => cases hi
  | integer hst _ => exact absurd (hst.symm.trans hi) (by decide)
  | emptyBulk _ _ _ => exact emptyAtInit_pushed ctx [] hi
  | bulk _ _ _ _ => cases hi
  | unknown _ _ _ => exact h hi
  | payload _ _ => exact emptyAtInit_pushed ctx t hi
  | overlong _ _ => exact h hi

/-- Handling a token does not look at the buffer. -/
theorem step_withBuffer (b : Bytes) (ctx : DecodeContext) (token : Bytes) :
    step (ctx.withBuffer b) token = DecodeContext.withBuffer b <$> step ctx token := by
  rw [step_eq, step_eq, show (ctx.withBuffer b).state = ctx.state from rfl]
  cases ctx.state with
  | init => cases stoiTail token <;> rfl
  | parseElements =>
    simp only
    split
    · rfl
    · split
      · cases stoiTail token with
        | error e => rfl
        | ok n =>
          simp only
          split
          · rw [DecodeContext.pushed_withBuffer, Traced.ok_map]
            rfl
          · rfl
      · rfl
  | parseBlukStrings =>
    simp only [show (ctx.withBuffer b).readingStrSize = ctx.readingStrSize from rfl]
    split
    · rw [DecodeContext.pushed_withBuffer, Traced.ok_map]
      rfl
    · rfl

theorem run_withBuffer (a : Bytes) (ctx : DecodeContext) (b : Bytes) :
    scanner.run (ctx.withBuffer a) b
      = (fun p => (p.1.withBuffer a, p.2)) <$> scanner.run ctx b :=
  scanner.run_map (DecodeContext.withBuffer a) (fun _ _ => rfl) (step_withBuffer a) ctx b

/-! ## The scan loop -/

/-- Behind a carriage return at the last position there is, no position is left to look at. -/
theorem isTerminator_of_last {buf : Bytes} {i : ℕ} (hi : i + 1 = 2 ^ 31)
    (hcr : buf[i]? = some cr) : isTerminator buf (.ofNat i) = .error .outOfRange := by
  obtain ⟨hlt, hat⟩ := List.getElem?_eq_some_iff.mp hcr
  have hnext : ¬ (Int32.ofNat (2 ^ 31)).toInt = buf.length := by
    show ¬ (-2 ^ 31 : ℤ) = _
    omega
  unfold isTerminator
  rw [charAt_ofNat (by omega) hlt, hat, ofNat_add_one, hi, charAt_ofNat_last]
  simp only [bind, Except.bind, ne_eq, not_true_eq_false, if_false, if_neg hnext]

/-- Anywhere else the condition of the scan loop is a CRLF at the index. -/
theorem isTerminator_eq {buf : Bytes} {i : ℕ} (hi : i < 2 ^ 31) (hlt : i < buf.length)
    (hlast : ¬ (i + 1 = 2 ^ 31 ∧ buf[i]? = some cr)) :
    isTerminator buf (.ofNat i) = .ok (decide (CrlfAt buf i)) := by
  have hat : buf[i]? = some buf[i] := List.getElem?_eq_getElem hlt
  unfold isTerminator
  rw [charAt_ofNat hi hlt]
  show (if buf[i] ≠ cr then _ else _) = _
  by_cases hcr : buf[i] = cr
  · have hnext : i + 1 < 2 ^ 31 := by
      refine lt_of_le_of_ne hi fun h => hlast ⟨h, ?_⟩
      rw [hat, hcr]
    rw [if_neg (not_not.mpr hcr), ofNat_add_one, Int32.toInt_ofNat_of_lt hnext]
    by_cases hend : i + 1 = buf.length
    · rw [if_pos (congrArg Nat.cast hend)]
      exact congrArg Except.ok (decide_eq_false fun hc => hc.lt.ne hend).symm
    · have hmore : i + 1 < buf.length := lt_of_le_of_ne hlt hend
      have hcrlf : CrlfAt buf i ↔ buf[i + 1] = lf := by
        unfold CrlfAt
        rw [hat, List.getElem?_eq_getElem hmore, hcr, Option.some.injEq, Option.some.injEq]
        exact and_iff_right rfl
      rw [if_neg (mt Int.ofNat_inj.mp hend), charAt_ofNat hnext hmore]
      exact congrArg Except.ok (Bool.decide_congr hcrlf).symm
  · rw [if_pos hcr]
    refine congrArg Except.ok (decide_eq_false fun hc => hcr ?_).symm
    exact Option.some.inj (hat.symm.trans hc.1)

/-- The loop ends at the end of the buffer, or where its positions end. -/
theorem parseLoop_of_end {buf : Bytes} {ctx : DecodeContext} {ts : Int32} {i : ℕ}
    (hi : i ≤ 2 ^ 31) (h : ¬ (i < 2 ^ 31 ∧ i < buf.length)) :
    parseLoop buf ctx ts (.ofNat i) = pure (ctx, ts) := by
  rw [parseLoop, dif_neg (mt (inside_ofNat_iff hi).mp h)]

/-- It throws at a carriage return at its last position. -/
theorem parseLoop_of_last {buf : Bytes} {ctx : DecodeContext} {ts : Int32} {i : ℕ}
    (hi : i + 1 = 2 ^ 31) (hcr : buf[i]? = some cr) :
    parseLoop buf ctx ts (.ofNat i) = Traced.ofExcept (.error .outOfRange) := by
  have hlt : i < buf.length := (List.getElem?_eq_some_iff.mp hcr).1
  rw [parseLoop, dif_pos ((inside_ofNat_iff (by omega)).mpr ⟨by omega, hlt⟩),
    isTerminator_of_last hi hcr]
  rfl

/-- It steps over everything else but a CRLF. -/
theorem parseLoop_of_not_crlfAt {buf : Bytes} {ctx : DecodeContext} {ts : Int32} {i : ℕ}
    (hi : i < 2 ^ 31) (hlt : i < buf.length) (hlast : ¬ (i + 1 = 2 ^ 31 ∧ buf[i]? = some cr))
    (h : ¬ CrlfAt buf i) :
    parseLoop buf ctx ts (.ofNat i) = parseLoop buf ctx ts (.ofNat (i + 1)) := by
  rw [parseLoop, dif_pos ((inside_ofNat_iff hi.le).mpr ⟨hi, hlt⟩),
    isTerminator_eq hi hlt hlast, Traced.ofExcept_ok, pure_bind, decide_eq_false h, ofNat_add_one]
  rfl

/-- At a CRLF it hands over what stands before it. -/
theorem parseLoop_of_crlfAt {buf : Bytes} {ctx : DecodeContext} {ts i : ℕ} (hts : ts ≤ i)
    (hi : i + 1 < 2 ^ 31) (h : CrlfAt buf i) :
    parseLoop buf ctx (.ofNat ts) (.ofNat i)
      = handleToken ctx ((buf.drop ts).take (i - ts)) >>= fun p =>
        if p.2 then parseLoop buf p.1 (.ofNat (i + 2)) (.ofNat (i + 2))
        else parseLoop buf p.1 (.ofNat ts) (.ofNat (i + 1)) := by
  have hlt := h.lt
  rw [parseLoop, dif_pos ((inside_ofNat_iff (by omega)).mpr ⟨by omega, by omega⟩),
    isTerminator_eq (by omega) (by omega) (by omega), Traced.ofExcept_ok, pure_bind,
    decide_eq_true h, if_pos rfl, toInt_sub_ofNat hts (by omega), substrFrom_ofNat _ (by omega),
    toNat_ofInt_natCast (by omega), substr_of_le (by omega), Traced.ofExcept_ok, pure_bind,
    ofNat_add_one, ofNat_add_one]

/-- The buffer from the open token on, around a CRLF at `i`. -/
theorem drop_eq_of_crlfAt {buf : Bytes} {ts i : ℕ} (hts : ts ≤ i) (h : CrlfAt buf i) :
    buf.drop ts = (buf.drop ts).take (i - ts) ++ crlf ++ buf.drop (i + 2) := by
  have hlt := h.lt
  have hat : buf.drop i = crlf ++ buf.drop (i + 2) := by
    rw [List.drop_eq_getElem_cons (by omega), List.drop_eq_getElem_cons hlt]
    have h₁ := (List.getElem?_eq_some_iff.mp h.1).2
    have h₂ := (List.getElem?_eq_some_iff.mp h.2).2
    rw [h₁, h₂]
    rfl
  rw [List.append_assoc, ← hat]
  conv_lhs => rw [← List.take_append_drop (i - ts) (buf.drop ts)]
  rw [List.drop_drop, show ts + (i - ts) = i by omega]

/-- **How far the loop gets**: where the buffer reaches beyond the last position and that is a
carriage return, it throws, and otherwise it leaves off at the start of the open token. -/
def leaveOff (buf : Bytes) (p : DecodeContext × Bytes) : Decoding (DecodeContext × Int32) :=
  if 2 ^ 31 ≤ buf.length ∧ p.2.getLast? = some cr then Traced.ofExcept (.error .outOfRange)
  else pure (p.1, .ofNat ((buf.take (2 ^ 31)).length - p.2.length))

/-- **The index loop is the scanner**, over as much of the buffer as there are positions for. Its
invariant: every CRLF between the start of the open token and the index stands below the
threshold. -/
theorem parseLoop_eq_run (buf : Bytes) (ctx : DecodeContext) (ts i : ℕ) (hts : ts ≤ i)
    (hlen : i ≤ (buf.take (2 ^ 31)).length)
    (hlast : i = 2 ^ 31 → ts = i ∨ (buf.take (2 ^ 31)).getLast? ≠ some cr)
    (hinv : ∀ j, ts + threshold ctx ≤ j → j < i → ¬ CrlfAt (buf.take (2 ^ 31)) j) :
    parseLoop buf ctx (.ofNat ts) (.ofNat i)
      = scanner.run ctx ((buf.take (2 ^ 31)).drop ts) >>= leaveOff buf := by
  have hw : (buf.take (2 ^ 31)).length = min (2 ^ 31) buf.length := List.length_take
  generalize hbuf : buf.take (2 ^ 31) = w at hw hlen hlast hinv ⊢
  induction hn : w.length - i using Nat.strong_induction_on generalizing ctx ts i with
  | _ n ih =>
    subst hn
    -- no token is complete where no CRLF is left
    have hnone : (∀ j, CrlfAt w j → j < i) → scanner.cut ctx (w.drop ts) = none := by
      refine fun hbefore => cutCrlf_eq_none_iff.mpr (fun j hj hc => ?_)
      rw [crlfAt_drop] at hc
      exact hinv (ts + j) (by omega) (hbefore _ hc) hc
    by_cases hend : i = w.length
    · have hno := hnone fun j hj => by have := hj.lt; omega
      rw [parseLoop_of_end (by omega) (by omega), scanner.run_of_none hno, pure_bind, leaveOff,
        if_neg, hbuf, List.length_drop, Nat.sub_sub_self (hts.trans hlen)]
      rintro ⟨hlong, hcr⟩
      rcases hlast (by omega) with rfl | hne
      · rw [hend, List.drop_length] at hcr
        cases hcr
      · rw [List.getLast?_drop] at hcr
        split at hcr
        · cases hcr
        · exact hne hcr
    · have hlt : i < w.length := lt_of_le_of_ne hlen hend
      by_cases hc : CrlfAt w i
      · obtain ⟨hc', hi⟩ := crlfAt_take_iff.mp (hbuf ▸ hc)
        have hnext := hc.lt
        have htok : (buf.drop ts).take (i - ts) = (w.drop ts).take (i - ts) := by
          rw [← hbuf, List.drop_take, List.take_take, min_eq_left (by omega)]
        have hlength : ((w.drop ts).take (i - ts)).length = i - ts := by
          rw [List.length_take, List.length_drop]
          omega
        rw [parseLoop_of_crlfAt hts hi hc', htok]
        by_cases hth : threshold ctx ≤ i - ts
        · -- the CRLF ends the token, and the scanner cuts there
          have hcut : scanner.cut ctx (w.drop ts)
              = some ((w.drop ts).take (i - ts), w.drop (i + 2)) := by
            show cutCrlf _ _ = _
            conv_lhs => rw [drop_eq_of_crlfAt hts hc]
            refine cutCrlf_eq_some_of (by omega) (fun j hj hjt => ?_)
            rw [← drop_eq_of_crlfAt hts hc, crlfAt_drop]
            exact hinv (ts + j) (by omega) (by omega)
          rw [handleToken_of_le (by omega), scanner.run_of_some hcut, bind_map_left, bind_assoc]
          refine congrArg _ (funext fun ctx' => ?_)
          exact ih _ (by omega) ctx' (i + 2) (i + 2) le_rfl (by omega) (fun _ => Or.inl rfl)
            (fun j hj hji => absurd hj (by omega)) rfl
        · -- the CRLF is part of the payload
          rw [handleToken_of_lt (by omega), pure_bind]
          refine ih _ (by omega) ctx ts (i + 1) (by omega) (by omega) (fun h => by omega)
            (fun j hj hji => ?_) rfl
          exact hinv j hj (by omega)
      · have hat : i + 1 = 2 ^ 31 → w.getLast? = buf[i]? := fun hi => by
          rw [List.getLast?_eq_getElem?, show w.length - 1 = i by omega, ← hbuf,
            List.getElem?_take_of_lt (by omega)]
        by_cases hcr : i + 1 = 2 ^ 31 ∧ buf[i]? = some cr
        · -- there is no position for what follows the carriage return
          have hno := hnone fun j hj => by have := hj.lt; omega
          have hend : (w.drop ts).getLast? = some cr := by
            rw [List.getLast?_drop, if_neg (by omega), hat hcr.1]
            exact hcr.2
          rw [parseLoop_of_last hcr.1 hcr.2, scanner.run_of_none hno, pure_bind, leaveOff,
            if_pos ⟨by omega, hend⟩]
        · rw [parseLoop_of_not_crlfAt (by omega) (by omega) hcr fun hc' => ?_]
          · refine ih _ (by omega) ctx ts (i + 1) (by omega) (by omega) (fun hi => Or.inr ?_)
              (fun j hj hji => ?_) rfl
            · rw [hat hi]
              exact fun h => hcr ⟨hi, h⟩
            · rcases Nat.lt_succ_iff_lt_or_eq.mp hji with hlt | rfl
              · exact hinv j hj hlt
              · exact hc
          · have hi : ¬ i + 1 < 2 ^ 31 := fun hi => hc (hbuf ▸ crlfAt_take_iff.mpr ⟨hc', hi⟩)
            exact hcr ⟨by omega, hc'.1⟩

/-- A run does not touch the buffered input of the context. -/
theorem bufferedInput_of_run {ctx ctx' : DecodeContext} {b r : Bytes} {calls : List HandlerCall}
    (h : scanner.run ctx b = ⟨calls, .ok (ctx', r)⟩) :
    ctx'.bufferedInput = ctx.bufferedInput := by
  have hw := run_withBuffer ctx.bufferedInput ctx b
  rw [DecodeContext.withBuffer_bufferedInput, h, Traced.ok_map] at hw
  have hctx : ctx' = ctx'.withBuffer ctx.bufferedInput := by
    simpa only [Traced.mk.injEq, Except.ok.injEq, Prod.mk.injEq, and_true, true_and] using hw
  rw [hctx]
  rfl

/-- Keeping the end of the buffer from a position on. -/
theorem popBuffer_ofNat {ctx : DecodeContext} {u r : Bytes} (h : ctx.bufferedInput = u ++ r)
    (hu : u.length < 2 ^ 31) : ctx.popBuffer (.ofNat u.length) = pure (ctx.withBuffer r) := by
  unfold DecodeContext.popBuffer
  rw [substrFrom_ofNat _ hu, Int32.toInt_ofNat_of_lt hu, Int.toNat_natCast, h,
    substr_of_le (by simp), Traced.ofExcept_ok, pure_bind, List.drop_left, List.length_append,
    Nat.add_sub_cancel_left, List.take_length]
  rfl

/-- There is nothing to keep from behind the last position on. -/
theorem popBuffer_ofNat_last (ctx : DecodeContext) :
    ctx.popBuffer (.ofNat (2 ^ 31)) = Traced.ofExcept (.error .outOfRange) := by
  unfold DecodeContext.popBuffer
  rw [substrFrom_ofNat_last]
  rfl

/-- **What `decode` keeps of the buffer** `b`, whose front has been read up to the start of an open
token. If `b` reaches beyond the last position, it throws where that is the end of a token, or a
carriage return. -/
def keep (b : Bytes) (p : DecodeContext × Bytes) : Decoding DecodeContext :=
  if 2 ^ 31 ≤ b.length ∧ (p.2 = [] ∨ p.2.getLast? = some cr) then
    Traced.ofExcept (.error .outOfRange)
  else pure (p.1.withBuffer (p.2 ++ b.drop (2 ^ 31)))

theorem keep_of_lt {b : Bytes} (h : b.length < 2 ^ 31) (p : DecodeContext × Bytes) :
    keep b p = pure (p.1.withBuffer p.2) := by
  rw [keep, if_neg fun hlong => hlong.1.not_gt h, List.drop_of_length_le h.le, List.append_nil]

/-- The loop leaves off where the buffer is then cut. -/
theorem leaveOff_popBuffer {ctx : DecodeContext} {u r : Bytes}
    (h : u ++ r = ctx.bufferedInput.take (2 ^ 31)) :
    (leaveOff ctx.bufferedInput (ctx, r) >>= fun p => p.1.popBuffer p.2)
      = keep ctx.bufferedInput (ctx, r) := by
  have hlen := congrArg List.length h
  rw [List.length_append, List.length_take] at hlen
  have hbuf : ctx.bufferedInput = u ++ (r ++ ctx.bufferedInput.drop (2 ^ 31)) := by
    rw [← List.append_assoc, h, List.take_append_drop]
  have hstart : (ctx.bufferedInput.take (2 ^ 31)).length - r.length = u.length := by
    rw [List.length_take]
    omega
  unfold leaveOff keep
  dsimp only
  rw [hstart]
  by_cases hcr : 2 ^ 31 ≤ ctx.bufferedInput.length ∧ r.getLast? = some cr
  · rw [if_pos hcr, if_pos ⟨hcr.1, Or.inr hcr.2⟩]
    rfl
  · rw [if_neg hcr, pure_bind]
    dsimp only
    by_cases hu : u.length < 2 ^ 31
    · rw [popBuffer_ofNat hbuf hu, if_neg]
      rintro ⟨hlong, rfl | hlast⟩
      · rw [List.length_nil] at hlen
        omega
      · exact hcr ⟨hlong, hlast⟩
    · have hr : r = [] := List.length_eq_zero_iff.mp (by omega)
      rw [show u.length = 2 ^ 31 by omega, popBuffer_ofNat_last, if_pos ⟨by omega, Or.inl hr⟩]

/-- **`decode` is a run of the scanner** over as much of the buffered input as there are positions
for. -/
theorem decode_eq_run_take (ctx : DecodeContext) :
    decode ctx
      = scanner.run ctx (ctx.bufferedInput.take (2 ^ 31)) >>= keep ctx.bufferedInput := by
  have hparse : parse ctx
      = scanner.run ctx (ctx.bufferedInput.take (2 ^ 31)) >>= keep ctx.bufferedInput := by
    have hloop := parseLoop_eq_run ctx.bufferedInput ctx 0 0 le_rfl (Nat.zero_le _)
      (fun h => absurd h (by decide)) (fun _ _ hj => absurd hj (Nat.not_lt_zero _))
    rw [List.drop_zero] at hloop
    unfold parse
    rw [show (0 : Int32) = .ofNat 0 from rfl, hloop, bind_assoc]
    cases hrun : scanner.run ctx (ctx.bufferedInput.take (2 ^ 31)) with
    | mk calls out =>
      cases out with
      | error e => rfl
      | ok p =>
        obtain ⟨ctx', r⟩ := p
        have hbuf := bufferedInput_of_run hrun
        obtain ⟨⟨hist, hr⟩, -⟩ := TokenScanner.run_eq_ok_iff.mp hrun
        obtain ⟨u, hu⟩ := hr.suffix
        have hkeep := leaveOff_popBuffer (hbuf ▸ hu : u ++ r = ctx'.bufferedInput.take (2 ^ 31))
        rw [hbuf] at hkeep
        rw [Traced.ok_bind, Traced.ok_bind, ← hkeep]
  unfold decode
  split
  · rename_i hlen
    have hnil : ctx.bufferedInput = [] := List.length_eq_zero_iff.mp (Nat.le_zero.mp hlen)
    rw [hnil, List.take_nil, scanner.run_of_none (cutCrlf_of_length_le (Nat.zero_le _)), pure_bind,
      keep_of_lt (by decide), ← hnil]
    rfl
  · exact hparse

/-- The run does not look at what the context says the buffer is. -/
theorem decode_withBuffer (ctx : DecodeContext) (b : Bytes) :
    decode (ctx.withBuffer b) = scanner.run ctx (b.take (2 ^ 31)) >>= keep b := by
  rw [decode_eq_run_take, DecodeContext.bufferedInput_withBuffer, run_withBuffer, bind_map_left]
  rfl

/-- One read is appended to the buffer. -/
theorem receive_eq_decode (ctx : DecodeContext) (b command : Bytes) :
    receive (ctx.withBuffer b) command = decode (ctx.withBuffer (b ++ command)) := rfl

/-- A buffer there are positions for is read as a whole. -/
theorem receive_withBuffer (ctx : DecodeContext) {b command : Bytes}
    (h : (b ++ command).length < 2 ^ 31) :
    receive (ctx.withBuffer b) command
      = (fun p => p.1.withBuffer p.2) <$> scanner.run ctx (b ++ command) := by
  rw [receive_eq_decode, decode_withBuffer, List.take_of_length_le h.le, ← bind_pure_comp]
  exact congrArg _ (funext fun p => keep_of_lt h p)

/-! ## Reads -/

theorem receiveAll_singleton (ctx : DecodeContext) (command : Bytes) :
    receiveAll ctx [command] = receive ctx command := bind_pure _

/-- Reads, and further reads. -/
theorem receiveAll_append (ctx : DecodeContext) (commands commands' : List Bytes) :
    receiveAll ctx (commands ++ commands')
      = receiveAll ctx commands >>= fun ctx => receiveAll ctx commands' := by
  induction commands generalizing ctx with
  | nil => exact (pure_bind ctx fun ctx => receiveAll ctx commands').symm
  | cons command commands ih =>
    rw [List.cons_append, receiveAll, receiveAll, bind_assoc]
    exact congrArg _ (funext ih)

/-- Reads, and one more. -/
theorem receiveAll_concat (ctx : DecodeContext) (commands : List Bytes) (command : Bytes) :
    receiveAll ctx (commands ++ [command])
      = receiveAll ctx commands >>= fun ctx => receive ctx command := by
  rw [receiveAll_append]
  exact congrArg _ (funext fun ctx => bind_pure _)

/-- A context that earlier reads have left behind, on a fresh connection with
whatever the constructor left in `reading_str_size`. -/
def Reachable (ctx : DecodeContext) : Prop :=
  ∃ (sessionId : Int32) (readingStrSize : UInt64) (commands : List Bytes)
    (calls : List HandlerCall),
    receiveAll (.new sessionId readingStrSize) commands = ⟨calls, .ok ctx⟩

/-- **What the decoder has done is a reading**, whether it throws or not. -/
theorem exists_reads_of_decoder_run (ctx : DecodeContext) (b : Bytes) :
    ∃ hist ctx' b', scanner.Reads ctx b hist (scanner.run ctx b).events ctx' b'
      ∧ ∀ p, (scanner.run ctx b).outcome = .ok p → p = (ctx', b') :=
  scanner.exists_reads_of_run fun _ _ _ _ h => (step_eq_error_iff.mp h).1

/-- What `decode` keeps is what has not been read. -/
theorem keep_eq_ok {b r : Bytes} {c ctx' : DecodeContext} (h : (keep b (c, r)).outcome = .ok ctx') :
    ctx' = c.withBuffer (r ++ b.drop (2 ^ 31)) := by
  unfold keep at h
  split at h
  · cases h
  · exact (Except.ok.inj h).symm

theorem events_keep (b : Bytes) (p : DecodeContext × Bytes) : (keep b p).events = [] := by
  unfold keep
  split
  · rfl
  · rfl

/-- **A call of `decode` is a reading**, whatever the size of the buffer. -/
theorem exists_reads_of_decode (ctx : DecodeContext) (b : Bytes) :
    ∃ hist c r, scanner.Reads ctx b hist (decode (ctx.withBuffer b)).events c r
      ∧ ∀ ctx', (decode (ctx.withBuffer b)).outcome = .ok ctx' → ctx' = c.withBuffer r := by
  obtain ⟨hist, c, r, hr, hout⟩ := exists_reads_of_decoder_run ctx (b.take (2 ^ 31))
  have hall := hr.append (b.drop (2 ^ 31))
  rw [List.take_append_drop] at hall
  rw [decode_withBuffer]
  cases hrun : scanner.run ctx (b.take (2 ^ 31)) with
  | mk calls out =>
    rw [hrun] at hall hout
    cases out with
    | error e => exact ⟨hist, c, _, hall, fun ctx' h => nomatch h⟩
    | ok p =>
      obtain rfl := hout p rfl
      rw [Traced.ok_bind, events_keep, List.append_nil]
      exact ⟨hist, c, _, hall, fun ctx' h => keep_eq_ok h⟩

/-- `decode` comes to the end of a buffer only if there is a position for it. -/
theorem length_lt_of_decode {ctx ctx' : DecodeContext} {calls : List HandlerCall}
    (h : decode ctx = ⟨calls, .ok ctx'⟩) (hnil : ctx'.bufferedInput = []) :
    ctx.bufferedInput.length < 2 ^ 31 := by
  rw [decode_eq_run_take] at h
  obtain ⟨_, ⟨c, r⟩, _, -, hkeep, -⟩ := Traced.bind_eq_ok_iff.mp h
  have hout := congrArg Traced.outcome hkeep
  obtain rfl := keep_eq_ok hout
  obtain ⟨rfl, hdrop⟩ := List.append_eq_nil_iff.mp hnil
  by_contra hlong
  rw [keep, if_pos ⟨Nat.le_of_not_lt hlong, Or.inl rfl⟩] at hout
  cases hout

/-- So is one read. -/
theorem exists_reads_of_receive (ctx : DecodeContext) (b command : Bytes) :
    ∃ hist c r, scanner.Reads ctx (b ++ command) hist
        (receive (ctx.withBuffer b) command).events c r
      ∧ ∀ ctx', (receive (ctx.withBuffer b) command).outcome = .ok ctx' →
        ctx' = c.withBuffer r :=
  exists_reads_of_decode ctx (b ++ command)

/-- **And so is a sequence of reads.** -/
theorem exists_reads_of_receiveAll (ctx : DecodeContext) (b : Bytes) (commands : List Bytes) :
    ∃ hist c r, scanner.Reads ctx (b ++ commands.flatten) hist
        (receiveAll (ctx.withBuffer b) commands).events c r
      ∧ ∀ ctx', (receiveAll (ctx.withBuffer b) commands).outcome = .ok ctx' →
        ctx' = c.withBuffer r := by
  induction commands generalizing ctx b with
  | nil => exact ⟨[], ctx, _, .refl ctx _, fun ctx' h => by
      rw [List.flatten_nil, List.append_nil]
      exact (Except.ok.inj h).symm⟩
  | cons command commands ih =>
    obtain ⟨hist, c, r, hr, hout⟩ := exists_reads_of_receive ctx b command
    have hall := hr.append commands.flatten
    rw [List.append_assoc, ← List.flatten_cons] at hall
    rw [receiveAll]
    cases hrun : receive (ctx.withBuffer b) command with
    | mk calls out =>
      rw [hrun] at hall hout
      cases out with
      | error e => exact ⟨hist, c, _, hall, fun ctx' h => nomatch h⟩
      | ok ctx₁ =>
        obtain rfl := hout ctx₁ rfl
        obtain ⟨hist', c', r', hr', hout'⟩ := ih c r
        exact ⟨_, c', r', hall.trans hr', hout'⟩

/-- What reads of a fresh connection leave is what a reading leaves. -/
theorem exists_reads_of_receiveAll_new {sessionId : Int32} {readingStrSize : UInt64}
    {commands : List Bytes} {calls : List HandlerCall} {ctx : DecodeContext}
    (h : receiveAll (.new sessionId readingStrSize) commands = ⟨calls, .ok ctx⟩) :
    ∃ hist c r, scanner.Reads (.new sessionId readingStrSize) commands.flatten hist calls c r
      ∧ ctx = c.withBuffer r := by
  obtain ⟨hist, c, r, hr, hout⟩ :=
    exists_reads_of_receiveAll (.new sessionId readingStrSize) [] commands
  have hnew : (DecodeContext.new sessionId readingStrSize).withBuffer []
      = .new sessionId readingStrSize := rfl
  rw [hnew, h] at hr hout
  exact ⟨hist, c, r, hr, hout ctx rfl⟩

/-- What a fresh connection dispatches is a beginning of what a run over the bytes read, and
any bytes behind them, dispatches. -/
theorem prefix_events_run (sessionId : Int32) (readingStrSize : UInt64) {commands : List Bytes}
    {b : Bytes} (h : commands.flatten <+: b) :
    (receiveAll (.new sessionId readingStrSize) commands).events
      <+: (scanner.run (.new sessionId readingStrSize) b).events := by
  obtain ⟨more, rfl⟩ := h
  obtain ⟨hist, c, r, hr, -⟩ :=
    exists_reads_of_receiveAll (.new sessionId readingStrSize) [] commands
  have hrun := (hr.append more).run_eq
  rw [List.nil_append] at hrun
  rw [hrun]
  exact List.prefix_append _ _

/-! ## Reads of buffers that fit -/

/-- **The buffer stays below `2^31` bytes** in all the reads. -/
def BuffersFit (ctx : DecodeContext) : List Bytes → Prop
  | [] => True
  | command :: commands => (ctx.bufferedInput ++ command).length < 2 ^ 31
    ∧ ∀ ctx', (receive ctx command).outcome = .ok ctx' → BuffersFit ctx' commands

/-- It does if all there is to read is shorter. -/
theorem buffersFit_of_lt {ctx : DecodeContext} {commands : List Bytes}
    (h : (ctx.bufferedInput ++ commands.flatten).length < 2 ^ 31) : BuffersFit ctx commands := by
  induction commands generalizing ctx with
  | nil => trivial
  | cons command commands ih =>
    rw [List.flatten_cons, ← List.append_assoc] at h
    rw [List.length_append] at h
    refine ⟨by omega, fun ctx' hctx' => ih ?_⟩
    obtain ⟨hist, c, r, hr, hout⟩ := exists_reads_of_receive ctx ctx.bufferedInput command
    obtain rfl := hout ctx' hctx'
    have hle := hr.suffix.length_le
    rw [List.length_append, DecodeContext.bufferedInput_withBuffer]
    omega

/-- Then it does so in the first of the reads. -/
theorem BuffersFit.of_append {ctx : DecodeContext} {commands commands' : List Bytes}
    (h : BuffersFit ctx (commands ++ commands')) : BuffersFit ctx commands := by
  induction commands generalizing ctx with
  | nil => trivial
  | cons command commands ih => exact ⟨h.1, fun ctx' hctx' => ih (h.2 ctx' hctx')⟩

/-- No complete token waits in the buffered input. -/
def Settled (ctx : DecodeContext) : Prop := scanner.cut ctx ctx.bufferedInput = none

/-- `decode` leaves none of a buffer that fits. -/
theorem settled_of_decode {ctx ctx' : DecodeContext} {calls : List HandlerCall}
    (hlt : ctx.bufferedInput.length < 2 ^ 31) (h : decode ctx = ⟨calls, .ok ctx'⟩) :
    Settled ctx' := by
  rw [decode_eq_run_take, List.take_of_length_le hlt.le] at h
  obtain ⟨ev₁, ⟨c, r⟩, ev₂, hrun, hkeep, -⟩ := Traced.bind_eq_ok_iff.mp h
  rw [keep_of_lt hlt] at hkeep
  obtain rfl := Except.ok.inj (congrArg Traced.outcome hkeep)
  have hcut : scanner.cut c r = none := scanner.cut_of_run_eq_ok hrun
  exact hcut

/-- Reads are the chunks the scanner is fed with. -/
theorem receiveAll_withBuffer (ctx : DecodeContext) {b : Bytes} {commands : List Bytes}
    (h : BuffersFit (ctx.withBuffer b) commands) :
    receiveAll (ctx.withBuffer b) commands
      = (fun p => p.1.withBuffer p.2) <$> scanner.feed ctx b commands := by
  induction commands generalizing ctx b with
  | nil => rfl
  | cons command commands ih =>
    obtain ⟨hlt, hnext⟩ := h
    rw [DecodeContext.bufferedInput_withBuffer] at hlt
    have hone := receive_withBuffer ctx hlt
    rw [receiveAll, TokenScanner.feed, hone, bind_map_left, map_bind]
    rw [hone] at hnext
    cases hrun : scanner.run ctx (b ++ command) with
    | mk calls out =>
      cases out with
      | error e => rfl
      | ok p =>
        rw [Traced.ok_bind, Traced.ok_bind, ih p.1 (hnext _ (by rw [hrun, Traced.ok_map]))]

/-- **A sequence of reads is one run over everything read.** -/
theorem receiveAll_eq_run {ctx : DecodeContext} (h : Settled ctx) {commands : List Bytes}
    (hfit : BuffersFit ctx commands) :
    receiveAll ctx commands
      = (fun p => p.1.withBuffer p.2)
        <$> scanner.run ctx (ctx.bufferedInput ++ commands.flatten) := by
  rw [← scanner.feed_eq_run h]
  exact receiveAll_withBuffer ctx hfit

theorem settled_of_nil {ctx : DecodeContext} (h : ctx.bufferedInput = []) : Settled ctx := by
  unfold Settled
  rw [h]
  exact cutCrlf_of_length_le (Nat.zero_le _)

theorem settled_new (sessionId : Int32) (readingStrSize : UInt64) :
    Settled (.new sessionId readingStrSize) := settled_of_nil rfl

/-- What reads leave is the state of a run over everything read, with the
rest as its buffer. -/
theorem exists_run_of_receiveAll {ctx ctx' : DecodeContext} {commands : List Bytes}
    {calls : List HandlerCall} (h : Settled ctx) (hfit : BuffersFit ctx commands)
    (hr : receiveAll ctx commands = ⟨calls, .ok ctx'⟩) :
    ∃ c r, ctx' = c.withBuffer r
      ∧ scanner.run ctx (ctx.bufferedInput ++ commands.flatten) = ⟨calls, .ok (c, r)⟩ := by
  rw [receiveAll_eq_run h hfit] at hr
  cases hrun : scanner.run ctx (ctx.bufferedInput ++ commands.flatten) with
  | mk ev out =>
    rw [hrun] at hr
    cases out with
    | error e => cases congrArg Traced.outcome hr
    | ok p =>
      rw [Traced.ok_map] at hr
      obtain ⟨rfl, hout⟩ := Traced.mk.injEq .. ▸ hr
      exact ⟨p.1, p.2, (Except.ok.inj hout).symm, rfl⟩

/-- A context that earlier reads have left behind in which the buffer has stayed below `2^31`
bytes. -/
def ReachableFit (ctx : DecodeContext) : Prop :=
  ∃ (sessionId : Int32) (readingStrSize : UInt64) (commands : List Bytes)
    (calls : List HandlerCall),
    receiveAll (.new sessionId readingStrSize) commands = ⟨calls, .ok ctx⟩
      ∧ BuffersFit (.new sessionId readingStrSize) commands

/-- Such reads leave no complete token waiting. -/
theorem ReachableFit.settled {ctx : DecodeContext} (h : ReachableFit ctx) : Settled ctx := by
  obtain ⟨sessionId, readingStrSize, commands, calls, hr, hfit⟩ := h
  obtain ⟨c, r, rfl, hrun⟩ := exists_run_of_receiveAll (settled_new _ _) hfit hr
  have hcut : scanner.cut c r = none := scanner.cut_of_run_eq_ok hrun
  exact hcut

/-- **Chunking independence.** On a connection that earlier reads have left in
any state, a byte string read in any chunks and the same byte string read at
once make the same handler calls, and leave the same context – state, sizes,
collected elements, command counter and buffered input – or throw the same
exception after the same calls. -/
theorem receiveAll_eq_receive {ctx : DecodeContext} (h : ReachableFit ctx) (chunks : List Bytes)
    (hfit : (ctx.bufferedInput ++ chunks.flatten).length < 2 ^ 31) :
    receiveAll ctx chunks = receive ctx chunks.flatten := by
  rw [← receiveAll_singleton, receiveAll_eq_run h.settled (buffersFit_of_lt hfit),
    receiveAll_eq_run h.settled (buffersFit_of_lt (by rwa [List.flatten_singleton])),
    List.flatten_singleton]

/-- A half-read request, read on with cuts inside its payload, between CR and
LF and inside a length line. -/
theorem receiveAll_eq_receive_halfRead :
    receiveAll
        { sessionId := 7, lastCommandId := 0, state := .parseBlukStrings, readingListSize := 2,
          readingStrSize := 3, bufferedInput := ofString "SE", reqList := [] }
        [ofString "T\r", ofString "\n$", [], ofString "2\r\na", ofString "b\r\n*"]
      = receive
        { sessionId := 7, lastCommandId := 0, state := .parseBlukStrings, readingListSize := 2,
          readingStrSize := 3, bufferedInput := ofString "SE", reqList := [] }
        (ofString "T\r\n$2\r\nab\r\n*") :=
  receiveAll_eq_receive ⟨7, 99, [ofString "*2\r\n$3\r\nSE"], [],
    Traced.ext (by decide +kernel) (by decide +kernel), buffersFit_of_lt (by decide)⟩ _ (by decide)

/-! ## The numbers of the requests -/

/-- The calls carry the numbers from `n` on, as the 32-bit counter counts
them. -/
def Numbered (n : ℕ) (calls : List HandlerCall) : Prop :=
  calls.map HandlerCall.commandId = (List.range' n calls.length).map Int32.ofNat

theorem numbered_nil (n : ℕ) : Numbered n [] := rfl

theorem Numbered.append {n : ℕ} {calls calls' : List HandlerCall} (h : Numbered n calls)
    (h' : Numbered (n + calls.length) calls') : Numbered n (calls ++ calls') := by
  unfold Numbered at *
  rw [List.map_append, h, h', ← List.map_append, List.length_append, List.range'_append_1]

theorem numbered_cons_iff {n : ℕ} {call : HandlerCall} {calls : List HandlerCall} :
    Numbered n (call :: calls) ↔ call.commandId = Int32.ofNat n ∧ Numbered (n + 1) calls := by
  unfold Numbered
  rw [List.map_cons, List.length_cons, List.range'_succ, List.map_cons, List.cons.injEq]

/-- The element that completes a request takes its number. -/
theorem numbered_pushCalls {ctx : DecodeContext} {n : ℕ}
    (hn : ctx.lastCommandId = Int32.ofNat n) (element : Bytes) :
    Numbered n (ctx.pushCalls element)
      ∧ (ctx.pushed element).lastCommandId
        = Int32.ofNat (n + (ctx.pushCalls element).length)
      ∧ (ctx.pushed element).sessionId = ctx.sessionId := by
  by_cases h : ctx.reqList.length + 1 = ctx.readingListSize.toNat
  · rw [ctx.pushCalls_of_eq element h, ctx.pushed_of_eq element h]
    refine ⟨congrArg (fun id => [id]) hn, ?_, rfl⟩
    show ctx.lastCommandId + 1 = _
    rw [hn, List.length_singleton, Int32.ofNat_add]
    rfl
  · rw [ctx.pushCalls_of_ne element h, ctx.pushed_of_ne element h]
    exact ⟨rfl, hn, rfl⟩

/-- **One token counts its calls**, and leaves the session id alone. -/
theorem Handles.numbered {ctx ctx' : DecodeContext} {token : Bytes} {calls : List HandlerCall}
    {n : ℕ} (h : Handles ctx token calls ctx') (hn : ctx.lastCommandId = Int32.ofNat n) :
    Numbered n calls ∧ ctx'.lastCommandId = Int32.ofNat (n + calls.length)
      ∧ ctx'.sessionId = ctx.sessionId := by
  cases h with
  | header _ _ => exact ⟨rfl, hn, rfl⟩
  | integer _ _ => exact ⟨rfl, hn, rfl⟩
  | emptyBulk _ _ _ => exact numbered_pushCalls hn []
  | bulk _ _ _ _ => exact ⟨rfl, hn, rfl⟩
  | unknown _ _ _ => exact ⟨rfl, hn, rfl⟩
  | payload _ _ => exact numbered_pushCalls hn token
  | overlong _ _ => exact ⟨rfl, hn, rfl⟩

theorem reads_numbered {ctx ctx' : DecodeContext} {b b' : Bytes} {n : ℕ}
    {hist : List (DecodeContext × Bytes)} {calls : List HandlerCall}
    (h : scanner.Reads ctx b hist calls ctx' b') (hn : ctx.lastCommandId = Int32.ofNat n) :
    Numbered n calls ∧ ctx'.lastCommandId = Int32.ofNat (n + calls.length)
      ∧ ctx'.sessionId = ctx.sessionId := by
  induction h generalizing n with
  | refl ctx b => exact ⟨rfl, hn, rfl⟩
  | step _ hstep _ ih =>
    obtain ⟨hcalls, hnext, hsid⟩ := (step_eq_ok_iff.mp hstep).numbered hn
    obtain ⟨hcalls', hnext', hsid'⟩ := ih hnext
    refine ⟨hcalls.append hcalls', ?_, hsid'.trans hsid⟩
    rw [hnext', List.length_append, Nat.add_assoc]

/-- **One read counts the requests it completes**, also where an exception ends
it. -/
theorem receive_numbered {ctx : DecodeContext} {n : ℕ}
    (hn : ctx.lastCommandId = Int32.ofNat n) (command : Bytes) :
    Numbered n (receive ctx command).events
      ∧ ∀ ctx', (receive ctx command).outcome = .ok ctx' →
        ctx'.lastCommandId = Int32.ofNat (n + (receive ctx command).events.length)
          ∧ ctx'.sessionId = ctx.sessionId := by
  obtain ⟨hist, c, r, hr, hout⟩ := exists_reads_of_receive ctx ctx.bufferedInput command
  rw [DecodeContext.withBuffer_bufferedInput] at hr hout
  obtain ⟨hcalls, hnext⟩ := reads_numbered hr hn
  refine ⟨hcalls, fun ctx' h => ?_⟩
  obtain rfl := hout ctx' h
  exact hnext

theorem exists_ofNat (x : Int32) : ∃ n : ℕ, x = Int32.ofNat n :=
  ⟨x.toBitVec.toNat, Int32.toBitVec_inj.mp (BitVec.ofNat_toNat 32 x.toBitVec).symm⟩

/-- The decoder keeps its session id. -/
theorem sessionId_receive {ctx ctx' : DecodeContext} {command : Bytes}
    (h : (receive ctx command).outcome = .ok ctx') : ctx'.sessionId = ctx.sessionId := by
  obtain ⟨n, hn⟩ := exists_ofNat ctx.lastCommandId
  exact ((receive_numbered hn command).2 ctx' h).2

end SimpleResp
