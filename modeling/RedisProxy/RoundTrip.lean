import RedisProxy.RequestText

/-!
# Decoding an encoded pipeline

A client that encodes its requests with `encode` and sends them one behind the
other gets each of them handled once, in order, under the ids `0`, `1`, `2`, …,
whatever bytes the arguments hold and however the stream is cut into reads.

The one exception is an empty last argument. Its length line completes the
request, the decoder is idle again with the CRLF of the empty payload still
unread, and takes that CRLF for an array header, on which `substr` throws. And
the decoder counts its positions with an `int`, which does not get to the end of
`2^31` bytes. So a pipeline comes through exactly if no request of it ends in an
empty string and its text is shorter than that (`roundTrips_iff`).
-/

namespace SimpleResp

open Bytes

/-- The stream a client sends: its requests, encoded and concatenated. -/
def encodeAll (requests : List (List Bytes)) : Bytes :=
  (requests.map (fun r => (encode .arrays r).response)).flatten

/-- **The pipeline comes through**: on a fresh connection, in whatever chunks
it is read, the handler is called once per request, in order, with the ids
`0`, `1`, `2`, … and exactly the vectors sent, nothing is thrown, and the
decoder is idle with nothing left over. -/
def RoundTrips (sessionId : Int32) (readingStrSize : UInt64) (requests : List (List Bytes)) :
    Prop :=
  ∀ chunks : List Bytes, chunks.flatten = encodeAll requests →
    ∃ ctx, receiveAll (.new sessionId readingStrSize) chunks
        = ⟨requests.mapIdx (fun i r => ⟨Int32.ofNat i, r⟩), .ok ctx⟩
      ∧ ctx.state = .init ∧ ctx.reqList = [] ∧ ctx.bufferedInput = []

/-- The requests whose sizes the decoder can read: at least one argument, sizes that fit an
`int`. -/
def Encodable (r : List Bytes) : Prop :=
  r ≠ [] ∧ r.length < 2 ^ 31 ∧ ∀ a ∈ r, a.length < 2 ^ 31

/-- The decoder between two requests. -/
def Idle (ctx : DecodeContext) : Prop := ctx.state = .init ∧ ctx.reqList = []

theorem idle_dispatched (ctx : DecodeContext) : Idle ctx.dispatched := ⟨rfl, rfl⟩

theorem elementsText_bulkStrings (as : List Bytes) :
    ElementsText (as.map bulkString).flatten as := by
  induction as with
  | nil => exact ElementsText.nil
  | cons a as ih =>
    exact ElementsText.cons (ElementText.bulk (digits_decimal _) (digitsValue_decimal _)) ih

/-- **An encoded request** is handled, and what is left of it is the CRLF of an
empty last argument, or nothing. -/
theorem bookDispatch_encode {ctx : DecodeContext} (hi : Idle ctx) {as : List Bytes} {p : Bytes}
    (hr : Encodable (as ++ [p])) (rest : Bytes) :
    BookDispatch ctx ((encode .arrays (as ++ [p])).response ++ rest)
      ⟨ctx.lastCommandId, as ++ [p]⟩ (decide (p = [])) ctx.dispatched
      (if p = [] then crlf ++ rest else rest) := by
  obtain ⟨-, hlen, hlt⟩ := hr
  rw [List.length_append, List.length_singleton] at hlen
  have h := bookDispatch_request hi.1 hi.2 (digits_decimal (as.length + 1))
    (digitsValue_decimal _) hlen (elementsText_bulkStrings as) (digits_decimal p.length)
    (digitsValue_decimal _) (if p = [] then crlf ++ rest else rest) (Or.inl hlt)
  have hpay : payloadRead p ++ (if p = [] then crlf ++ rest else rest)
      = p ++ crlf ++ rest := by
    unfold payloadRead
    split
    · rename_i hp
      rw [hp]
      rfl
    · rfl
  have htext : (encode .arrays (as ++ [p])).response ++ rest
      = ofString "*" ++ decimal (as.length + 1) ++ crlf ++ ((as.map bulkString).flatten
        ++ (ofString "$" ++ decimal p.length ++ crlf ++ (p ++ crlf ++ rest))) := by
    show ofString "*" ++ decimal (as ++ [p]).length ++ crlf
      ++ ((as ++ [p]).map bulkString).flatten ++ rest = _
    rw [List.length_append, List.length_singleton, List.map_append, List.flatten_append,
      List.map_singleton, List.flatten_singleton]
    simp only [bulkString, List.append_assoc]
  rwa [hpay, ← htext] at h

/-- A request has a last argument. -/
theorem Encodable.exists_append {r : List Bytes} (h : Encodable r) :
    ∃ as p, r = as ++ [p] ∧ r.getLast? = some p :=
  ⟨r.dropLast, r.getLast h.1, (List.dropLast_concat_getLast h.1).symm,
    List.getLast?_eq_some_getLast h.1⟩

/-- A pipeline without empty last arguments is handled request by request. -/
theorem bookReads_encodeAll {ctx : DecodeContext} (hi : Idle ctx) {n : ℕ}
    (hn : ctx.lastCommandId = Int32.ofNat n) {requests : List (List Bytes)}
    (hr : ∀ r ∈ requests, Encodable r) (hlast : ∀ r ∈ requests, r.getLast? ≠ some []) :
    ∃ ctx', Idle ctx' ∧ BookReads false ctx (encodeAll requests)
      (requests.mapIdx (fun i r => ⟨Int32.ofNat (n + i), r⟩)) false ctx' [] := by
  induction requests generalizing ctx n with
  | nil => exact ⟨ctx, hi, BookReads.refl false ctx []⟩
  | cons r rs ih =>
    obtain ⟨as, p, rfl, hp⟩ := (hr r List.mem_cons_self).exists_append
    have hne : p ≠ [] := fun h => hlast _ List.mem_cons_self (h ▸ hp)
    have hhead := bookDispatch_encode hi (hr _ List.mem_cons_self) (encodeAll rs)
    rw [if_neg hne, decide_eq_false hne] at hhead
    have hnext : ctx.dispatched.lastCommandId = Int32.ofNat (n + 1) := by
      show ctx.lastCommandId + 1 = _
      rw [hn, Int32.ofNat_add]
      rfl
    obtain ⟨ctx', hi', htail⟩ := ih (idle_dispatched ctx) hnext
      (fun s hs => hr s (List.mem_cons_of_mem _ hs))
      (fun s hs => hlast s (List.mem_cons_of_mem _ hs))
    refine ⟨ctx', hi', ?_⟩
    rw [List.mapIdx_cons, Nat.add_zero, ← hn]
    simp only [Nat.add_right_comm n, Nat.add_assoc n] at htail ⊢
    exact hhead.bookReads.trans htail

/-- A pipeline with an empty last argument somewhere makes the decoder throw. -/
theorem run_encodeAll_of_getLast_nil {ctx : DecodeContext} (hi : Idle ctx)
    {requests : List (List Bytes)} (hr : ∀ r ∈ requests, Encodable r)
    (hlast : ∃ r ∈ requests, r.getLast? = some []) :
    (scanner.run ctx (encodeAll requests)).outcome = .error .outOfRange := by
  induction requests generalizing ctx with
  | nil => exact absurd hlast (by simp)
  | cons r rs ih =>
    obtain ⟨as, p, rfl, hp⟩ := (hr r List.mem_cons_self).exists_append
    obtain ⟨hist, hhead⟩ :=
      (bookDispatch_encode hi (hr _ List.mem_cons_self) (encodeAll rs)).bookReads.reads
    have hrun := congrArg Traced.outcome hhead.run_eq
    by_cases hnil : p = []
    · rw [if_pos hnil, run_crlf_of_init rfl] at hrun
      exact hrun
    · rw [if_neg hnil] at hrun
      obtain ⟨s, hs, hlast⟩ := hlast
      have hs' : s ∈ rs := (List.mem_cons.mp hs).resolve_left (fun he =>
        hnil (Option.some.inj (hp.symm.trans (he ▸ hlast))))
      exact hrun.trans (ih (idle_dispatched ctx) (fun t ht => hr t (List.mem_cons_of_mem _ ht))
        ⟨s, hs', hlast⟩)

/-- An encoded pipeline is decoded, whatever its size. -/
theorem exists_run_encodeAll (sessionId : Int32) (readingStrSize : UInt64)
    {requests : List (List Bytes)} (hr : ∀ r ∈ requests, Encodable r)
    (hlast : ∀ r ∈ requests, r.getLast? ≠ some []) :
    ∃ ctx, Idle ctx ∧ scanner.run (.new sessionId readingStrSize) (encodeAll requests)
      = ⟨requests.mapIdx (fun i r => ⟨Int32.ofNat i, r⟩), .ok (ctx, [])⟩ := by
  have hi : Idle (.new sessionId readingStrSize) := ⟨rfl, rfl⟩
  have hfirst : (DecodeContext.new sessionId readingStrSize).lastCommandId = Int32.ofNat 0 := rfl
  obtain ⟨ctx, hi', hbook⟩ := bookReads_encodeAll hi hfirst hr hlast
  obtain ⟨hist, hreads⟩ := hbook.reads
  simp only [Nat.zero_add] at hreads
  exact ⟨ctx, hi', TokenScanner.run_eq_ok_iff.mpr
    ⟨⟨hist, hreads⟩, cutCrlf_of_length_le (Nat.zero_le _)⟩⟩

/-- An encoded request is longer than it has arguments, and than each of them. -/
theorem length_le_encode (r : List Bytes) :
    r.length ≤ (encode .arrays r).response.length
      ∧ ∀ a ∈ r, a.length ≤ (encode .arrays r).response.length := by
  have hresponse : (encode .arrays r).response
      = ofString "*" ++ decimal r.length ++ crlf ++ (r.map bulkString).flatten := rfl
  have hbulk : ∀ a : Bytes, a.length + 1 ≤ (bulkString a).length := by
    intro a
    unfold bulkString
    simp only [List.length_append]
    have hcrlf : crlf.length = 2 := rfl
    omega
  have hall : r.length ≤ (r.map bulkString).flatten.length
      ∧ ∀ a ∈ r, a.length ≤ (r.map bulkString).flatten.length := by
    induction r with
    | nil => exact ⟨le_rfl, fun a ha => absurd ha List.not_mem_nil⟩
    | cons b r ih =>
      have hb := hbulk b
      rw [List.map_cons, List.flatten_cons, List.length_append, List.length_cons]
      obtain ⟨hlen, hmem⟩ := ih rfl
      refine ⟨by omega, List.forall_mem_cons.mpr ⟨by omega, fun a ha => ?_⟩⟩
      exact (hmem a ha).trans (Nat.le_add_left _ _)
  rw [hresponse, List.length_append]
  exact ⟨hall.1.trans (Nat.le_add_left _ _), fun a ha => (hall.2 a ha).trans (Nat.le_add_left _ _)⟩

/-- A text that is short enough has requests whose sizes are. -/
theorem encodable_of_length_lt {requests : List (List Bytes)} (hne : ∀ r ∈ requests, r ≠ [])
    (hlt : (encodeAll requests).length < 2 ^ 31) : ∀ r ∈ requests, Encodable r := by
  intro r hr
  obtain ⟨hlen, hmem⟩ := length_le_encode r
  have hle : (encode .arrays r).response.length ≤ (encodeAll requests).length :=
    (List.sublist_flatten_of_mem
      (List.mem_map_of_mem (f := fun r => (encode .arrays r).response) hr)).length_le
  exact ⟨hne r hr, by omega, fun a ha => by have := hmem a ha; omega⟩

/-- **Decoding undoes encoding, exactly up to empty last arguments**, where there are positions
for the text. -/
theorem roundTrips_iff (sessionId : Int32) (readingStrSize : UInt64)
    (requests : List (List Bytes)) (hne : ∀ r ∈ requests, r ≠ []) :
    RoundTrips sessionId readingStrSize requests
      ↔ (∀ r ∈ requests, r.getLast? ≠ some []) ∧ (encodeAll requests).length < 2 ^ 31 := by
  constructor
  · intro h
    obtain ⟨ctx, hread, -, -, hbuf⟩ := h [encodeAll requests] List.flatten_singleton
    rw [receiveAll_singleton] at hread
    have hlt : (encodeAll requests).length < 2 ^ 31 := length_lt_of_decode hread hbuf
    refine ⟨fun r hr hnil => ?_, hlt⟩
    have hi : Idle (.new sessionId readingStrSize) := ⟨rfl, rfl⟩
    have herr := run_encodeAll_of_getLast_nil hi (encodable_of_length_lt hne hlt) ⟨r, hr, hnil⟩
    rw [← receiveAll_singleton] at hread
    obtain ⟨c, rest, -, hrun⟩ := exists_run_of_receiveAll (settled_new _ _)
      (buffersFit_of_lt (by rw [List.flatten_singleton]; exact hlt)) hread
    rw [List.flatten_singleton, show (DecodeContext.new sessionId readingStrSize).bufferedInput
      ++ encodeAll requests = encodeAll requests from rfl] at hrun
    rw [hrun] at herr
    cases herr
  · rintro ⟨hlast, hlt⟩ chunks hchunks
    obtain ⟨ctx, hi, hrun⟩ := exists_run_encodeAll sessionId readingStrSize
      (encodable_of_length_lt hne hlt) hlast
    refine ⟨ctx.withBuffer [], ?_, hi.1, hi.2, rfl⟩
    have hfit : BuffersFit (.new sessionId readingStrSize) chunks := buffersFit_of_lt (by
      rw [hchunks]
      exact hlt)
    rw [receiveAll_eq_run (settled_new _ _) hfit, hchunks,
      show (DecodeContext.new sessionId readingStrSize).bufferedInput ++ encodeAll requests
        = encodeAll requests from rfl, hrun, Traced.ok_map]

/-- A request with an empty argument inside, and one that is a CRLF. -/
theorem roundTrips_iff_emptyInside :
    RoundTrips 3 0 [[ofString "SET", [], ofString "\r\n"]] :=
  (roundTrips_iff 3 0 [[ofString "SET", [], ofString "\r\n"]] (by decide)).mpr
    ⟨by decide, by decide⟩

/-- `ECHO` of the empty string, read at once: the pipeline does not come
through. -/
theorem not_roundTrips_emptyLast : ¬ RoundTrips 3 0 [[ofString "ECHO", []]] := by
  intro h
  obtain ⟨ctx, hctx, -⟩ := h [encodeAll [[ofString "ECHO", []]]] (List.flatten_singleton)
  have herr : (receiveAll (.new 3 0) [encodeAll [[ofString "ECHO", []]]]).outcome
      = .error .outOfRange := by decide +kernel
  rw [hctx] at herr
  cases herr

end SimpleResp
