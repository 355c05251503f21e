import RedisProxy.DecoderScanner

/-!
# What `parse` leaves in the buffer

`parse` ends with `pop_buffer(token_start)`: everything before the open token
is gone, the open token stays. What is gone has been handled, token by token
and each with its CRLF (`Consumes`); what stays holds no terminator the state
would have accepted. Outside a payload that is any CRLF; inside one it is a
CRLF at the announced length or later, so that earlier ones may stay. A
carriage return at the end of the buffer is never part of what is gone, since
that ends with a line feed.

All of this is about what the `int` `i` gets to. A buffer of more than `2^31`
bytes is not looked at behind that, and may be left with complete lines in it
(`not_noCrlf_longLine`).
-/

namespace SimpleResp

open Bytes

/-- **Tokens consumed whole, in order**: none goes on past a CRLF that could
have ended it, and each is done when it is handled. -/
inductive Consumes : DecodeContext → List Bytes → List HandlerCall → DecodeContext → Prop where
  /-- Nothing consumed. -/
  | nil (ctx : DecodeContext) : Consumes ctx [] [] ctx
  /-- One token, then the others. -/
  | cons {ctx ctx₁ ctx₂ : DecodeContext} {token : Bytes} {tokens : List Bytes}
      {calls calls' : List HandlerCall} (hfirst : ∀ j, threshold ctx ≤ j → ¬ CrlfAt token j)
      (hdone : handleToken ctx token = ⟨calls, .ok (ctx₁, true)⟩)
      (hrest : Consumes ctx₁ tokens calls' ctx₂) :
      Consumes ctx (token :: tokens) (calls ++ calls') ctx₂

/-- The bytes of tokens, each with its terminator. -/
def terminated (tokens : List Bytes) : Bytes := (tokens.map (· ++ crlf)).flatten

@[simp] theorem terminated_cons (token : Bytes) (tokens : List Bytes) :
    terminated (token :: tokens) = token ++ crlf ++ terminated tokens := rfl

/-- **A reading consumes its tokens whole**, and they make up what it takes off
the buffer. -/
theorem consumes_of_reads {ctx ctx' : DecodeContext} {b b' : Bytes}
    {hist : List (DecodeContext × Bytes)} {calls : List HandlerCall}
    (h : scanner.Reads ctx b hist calls ctx' b') :
    Consumes ctx (hist.map Prod.snd) calls ctx' ∧ b = terminated (hist.map Prod.snd) ++ b' := by
  induction h with
  | refl ctx b => exact ⟨Consumes.nil ctx, rfl⟩
  | @step s s₁ s₂ b t r b₂ ev evs hist hcut hstep _ ih =>
    obtain ⟨hrest, hr⟩ := ih
    have hb : b = t ++ crlf ++ r := cutCrlf_eq_some hcut
    refine ⟨Consumes.cons (fun j hj hc => ?_) ?_ hrest, ?_⟩
    · -- a CRLF inside the token is one of the buffer
      have hbuf : CrlfAt b j := by
        rw [hb, List.append_assoc]
        exact hc.append _
      have hlt : j + 1 < t.length := hc.lt
      exact not_crlfAt_of_cutCrlf hcut hj (by omega) hbuf
    · have hs : step s t = ⟨ev, .ok s₁⟩ := hstep
      rw [handleToken_of_le (le_length_of_cutCrlf hcut), hs, Traced.ok_map]
    · rw [List.map_cons, terminated_cons, List.append_assoc, ← hr]
      exact hb

/-- A carriage return at the end stands behind the last terminated token. -/
theorem getLast?_of_terminated_append {tokens : List Bytes} {rest : Bytes}
    (h : (terminated tokens ++ rest).getLast? = some cr) : rest.getLast? = some cr := by
  rcases eq_or_ne rest [] with rfl | hne
  · rw [List.append_nil] at h
    cases tokens using List.reverseRecOn with
    | nil => cases h
    | append_singleton tokens token _ =>
      -- the last byte is the line feed of the last terminator
      have hlast : terminated (tokens ++ [token]) = terminated tokens ++ token ++ [cr] ++ [lf] := by
        simp [terminated, crlf]
      rw [hlast, List.getLast?_concat] at h
      exact absurd (Option.some.inj h) (by decide)
  · rwa [List.getLast?_append_of_ne_nil _ hne] at h

/-- **What `decode` leaves in the buffer**: the end of it, with everything before
consumed as whole tokens in order, and a final carriage return, if there was
one; and of a buffer shorter than `2^31` bytes no CRLF outside a payload, and
inside one only below the announced length. -/
theorem decode_rest {ctx ctx' : DecodeContext} {calls : List HandlerCall}
    (h : decode ctx = ⟨calls, .ok ctx'⟩) :
    (∃ tokens c, ctx.bufferedInput = terminated tokens ++ ctx'.bufferedInput
        ∧ Consumes ctx tokens calls c ∧ ctx' = c.withBuffer ctx'.bufferedInput)
      ∧ (ctx.bufferedInput.getLast? = some cr → ctx'.bufferedInput.getLast? = some cr)
      ∧ (ctx.bufferedInput.length < 2 ^ 31 →
        (ctx'.state = .init ∨ ctx'.state = .parseElements → NoCrlf ctx'.bufferedInput)
        ∧ (ctx'.state = .parseBlukStrings →
          ∀ j, CrlfAt ctx'.bufferedInput j → j < ctx'.readingStrSize.toNat)) := by
  obtain ⟨hist, c, r, hr, hout⟩ := exists_reads_of_decode ctx ctx.bufferedInput
  rw [DecodeContext.withBuffer_bufferedInput, h] at hr hout
  obtain rfl := hout ctx' rfl
  obtain ⟨hcons, hb⟩ := consumes_of_reads hr
  refine ⟨⟨_, c, hb, hcons, rfl⟩, fun hlast => ?_, fun hlt => ?_⟩
  · rw [hb] at hlast
    exact getLast?_of_terminated_append hlast
  · have hset : Settled (c.withBuffer r) := settled_of_decode hlt h
    have hno : ∀ j, threshold (c.withBuffer r) ≤ j → ¬ CrlfAt r j := cutCrlf_eq_none_iff.mp hset
    refine ⟨fun hs j => hno j ?_, fun hs j hj => Nat.lt_of_not_le fun hle => hno j ?_ hj⟩
    · have hzero : threshold (c.withBuffer r) = 0 := by
        unfold threshold
        rcases hs with hs | hs
        · rw [hs]
        · rw [hs]
      exact hzero.trans_le (Nat.zero_le j)
    · have hsize : threshold (c.withBuffer r) = (c.withBuffer r).readingStrSize.toNat := by
        unfold threshold
        rw [hs]
      exact hsize.trans_le hle

/-- A length line is consumed; of the payload behind it the front stays, with a
CRLF in it and half of another one. -/
theorem decode_rest_payload :
    (∃ tokens c, ofString "$5\r\na\r\nb\r" = terminated tokens ++ ofString "a\r\nb\r"
        ∧ Consumes ⟨7, 0, .parseElements, 2, 0, ofString "$5\r\na\r\nb\r", [ofString "GET"]⟩
          tokens [] c
        ∧ ⟨7, 0, .parseBlukStrings, 2, 5, ofString "a\r\nb\r", [ofString "GET"]⟩
          = c.withBuffer (ofString "a\r\nb\r"))
      ∧ ((ofString "$5\r\na\r\nb\r").getLast? = some cr →
        (ofString "a\r\nb\r").getLast? = some cr)
      ∧ ((ofString "$5\r\na\r\nb\r").length < 2 ^ 31 →
        (ParseState.parseBlukStrings = .init ∨ ParseState.parseBlukStrings = .parseElements →
          NoCrlf (ofString "a\r\nb\r"))
        ∧ (ParseState.parseBlukStrings = .parseBlukStrings →
          ∀ j, CrlfAt (ofString "a\r\nb\r") j → j < (5 : UInt64).toNat)) :=
  decode_rest
    (show decode ⟨7, 0, .parseElements, 2, 0, ofString "$5\r\na\r\nb\r", [ofString "GET"]⟩
      = ⟨[], .ok ⟨7, 0, .parseBlukStrings, 2, 5, ofString "a\r\nb\r", [ofString "GET"]⟩⟩
      from Traced.ext (by decide +kernel) (by decide +kernel))

/-- **Behind the last position no CRLF is found**: a buffer without one up to there stays as it
is. -/
theorem decode_of_notMem {ctx : DecodeContext} (hlong : 2 ^ 31 ≤ ctx.bufferedInput.length)
    (h : cr ∉ ctx.bufferedInput.take (2 ^ 31)) : decode ctx = pure ctx := by
  have hcut : scanner.cut ctx (ctx.bufferedInput.take (2 ^ 31)) = none :=
    cutCrlf_eq_none_iff.mpr fun j _ => noCrlf_of_notMem h j
  have hkeep : ¬ (2 ^ 31 ≤ ctx.bufferedInput.length
      ∧ (ctx.bufferedInput.take (2 ^ 31) = []
        ∨ (ctx.bufferedInput.take (2 ^ 31)).getLast? = some cr)) := by
    rintro ⟨-, hnil | hlast⟩
    · have hlen := congrArg List.length hnil
      rw [List.length_take, List.length_nil] at hlen
      omega
    · exact h (List.mem_of_getLast? hlast)
  rw [decode_eq_run_take, scanner.run_of_none hcut, pure_bind, keep, if_neg hkeep,
    List.take_append_drop, DecodeContext.withBuffer_bufferedInput]

/-- A header line of more than `2^31` bytes. -/
def longLine : Bytes := List.replicate (2 ^ 31) 42 ++ crlf

/-- **It is left waiting**, although its CRLF has arrived. -/
theorem not_noCrlf_longLine :
    ¬ ∀ (ctx ctx' : DecodeContext) (calls : List HandlerCall), decode ctx = ⟨calls, .ok ctx'⟩ →
      ctx'.state = .init ∨ ctx'.state = .parseElements → NoCrlf ctx'.bufferedInput := by
  intro h
  have hlen : (List.replicate (2 ^ 31) (42 : UInt8)).length = 2 ^ 31 := List.length_replicate
  have hkept : decode ((DecodeContext.new 7 0).withBuffer longLine)
      = pure ((DecodeContext.new 7 0).withBuffer longLine) := by
    refine decode_of_notMem ?_ ?_
    · rw [DecodeContext.bufferedInput_withBuffer, longLine, List.length_append, hlen]
      exact Nat.le_add_right _ _
    · rw [DecodeContext.bufferedInput_withBuffer, longLine, List.take_left' hlen]
      exact fun hmem => absurd (List.eq_of_mem_replicate hmem) (by decide)
  refine h _ _ _ hkept (Or.inl rfl) (2 ^ 31) ?_
  have hat := crlfAt_length (List.replicate (2 ^ 31) 42) []
  rwa [hlen, List.append_nil] at hat

end SimpleResp
