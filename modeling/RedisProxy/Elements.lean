import RedisProxy.Recovery
import RedisProxy.RequestText

/-!
# Elements of either kind

An element of a request is a bulk string or an integer token, and the decoder
treats the two differently. A bulk string ends where its payload has the
announced length, whatever bytes the payload holds, and goes through
`push_element`, which alone checks whether the request is complete. An integer
token is a line, and joins the list without that check.

The first is what makes payloads binary safe. The scanner looks for a CRLF
from the announced length on, so none inside the payload ends it, nor does the
one that a carriage return at its end forms with the terminator: reading a
payload in any pieces is one `push_element` (`receiveAll_payload`). Both hold
of buffers of fewer than `2^31` bytes, all of whose positions are `int`s.

The second is a defect. A request whose last element is an integer is
collected and never dispatched; one whose last element is a bulk string is,
wherever integers stand in it (`dispatchesArray_iff`).
-/

namespace SimpleResp

open Bytes

/-! ## Payloads are binary safe -/

/-- Part of a payload and its CRLF holds no complete token. -/
theorem cut_eq_none_of_insidePayload {ctx : DecodeContext} {p b : Bytes}
    (hs : ctx.state = .parseBlukStrings) (hsize : ctx.readingStrSize.toNat = p.length)
    (hb : b <+: p ++ crlf) (hne : b ≠ p ++ crlf) : scanner.cut ctx b = none := by
  have hlt : b.length < p.length + 2 := by
    have hlen : (p ++ crlf).length = p.length + 2 := List.length_append
    rw [← hlen]
    exact lt_of_le_of_ne hb.length_le (fun h => hne (hb.eq_of_length h))
  show cutCrlf (threshold ctx) b = none
  rw [threshold_parseBlukStrings hs, hsize]
  refine cutCrlf_eq_none_iff.mpr (fun j hj hc => ?_)
  have hend := hc.lt
  omega

/-- A payload that has arrived is one `push_element`. -/
theorem run_payload {ctx : DecodeContext} {p : Bytes} (hs : ctx.state = .parseBlukStrings)
    (hsize : ctx.readingStrSize.toNat = p.length) (t : Bytes) :
    scanner.run ctx (p ++ crlf ++ t) = ctx.pushElement p >>= fun c => scanner.run c t := by
  have hcut : scanner.cut ctx (p ++ crlf ++ t) = some (p, t) := by
    show cutCrlf (threshold ctx) _ = _
    rw [threshold_parseBlukStrings hs, hsize]
    exact cutCrlf_payload p t
  have hstep : step ctx p = ctx.pushElement p := by
    rw [step_eq_ok_iff.mpr (Handles.payload hs hsize.symm), ctx.pushElement_eq]
  rw [scanner.run_of_some hcut]
  exact congrArg (· >>= _) hstep

/-- `push_element` does not look at the buffer. -/
theorem bufferedInput_pushed (ctx : DecodeContext) (element : Bytes) :
    (ctx.pushed element).bufferedInput = ctx.bufferedInput := by
  unfold DecodeContext.pushed
  split <;> rfl

/-- **Bulk payloads are binary safe.** Inside a bulk string, with nothing of
its payload read yet, the payload and its CRLF in any pieces are one
`push_element` of the payload and nothing else. What arrives behind them is
left to the decoder that `push_element` leaves; and as long as some of them is
missing, what has arrived waits in the buffer and nothing has happened. -/
theorem receiveAll_payload {ctx : DecodeContext} {p : Bytes}
    (hs : ctx.state = .parseBlukStrings) (hsize : ctx.readingStrSize.toNat = p.length)
    (hbuf : ctx.bufferedInput = []) (chunks : List Bytes)
    (hfit : chunks.flatten.length < 2 ^ 31) :
    (chunks.flatten = p ++ crlf → receiveAll ctx chunks = ctx.pushElement p)
      ∧ (∀ t, chunks.flatten = p ++ crlf ++ t →
        receiveAll ctx chunks = ctx.pushElement p >>= fun c => receive c t)
      ∧ (chunks.flatten <+: p ++ crlf → chunks.flatten ≠ p ++ crlf →
        receiveAll ctx chunks = pure (ctx.withBuffer chunks.flatten)) := by
  have hempty : (ctx.pushed p).bufferedInput = [] := (bufferedInput_pushed ctx p).trans hbuf
  have hfits : BuffersFit ctx chunks := buffersFit_of_lt (by rw [hbuf, List.nil_append]; exact hfit)
  have hall := receiveAll_eq_run (settled_of_nil hbuf) hfits
  rw [hbuf, List.nil_append] at hall
  refine ⟨fun hchunks => ?_, fun t hchunks => ?_, fun hpre hne => ?_⟩
  · have hrun := run_payload hs hsize []
    rw [List.append_nil, ctx.pushElement_eq, Traced.ok_bind,
      scanner.run_of_none (s := ctx.pushed p) (cutCrlf_of_length_le (Nat.zero_le _))] at hrun
    rw [hall, hchunks, hrun, ctx.pushElement_eq]
    refine Traced.ext (by rw [Traced.events_map]; exact List.append_nil _) ?_
    show Except.ok ((ctx.pushed p).withBuffer []) = _
    rw [← hempty, DecodeContext.withBuffer_bufferedInput]
  · have hlen : ([] ++ t).length < 2 ^ 31 := by
      rw [hchunks, List.length_append] at hfit
      rw [List.nil_append]
      omega
    have hreceive := receive_withBuffer (ctx.pushed p) hlen
    rw [← hempty, DecodeContext.withBuffer_bufferedInput, hempty, List.nil_append] at hreceive
    rw [hall, hchunks, run_payload hs hsize, ctx.pushElement_eq, map_bind]
    exact Traced.ext (by rw [Traced.ok_bind, Traced.ok_bind, hreceive])
      (by rw [Traced.ok_bind, Traced.ok_bind, hreceive])
  · rw [hall, scanner.run_of_none (cut_eq_none_of_insidePayload hs hsize hpre hne), map_pure]

/-- A payload of carriage returns and CRLFs, read with cuts inside its
terminators; its last byte and the terminator look like a CRLF one byte
early. -/
theorem receiveAll_payload_crlfs :
    receiveAll { DecodeContext.new 3 5 with state := .parseBlukStrings, readingListSize := 2 }
        [ofString "\r\n", ofString "$\r", ofString "\r\r", ofString "\n"]
      = DecodeContext.pushElement
        { DecodeContext.new 3 5 with state := .parseBlukStrings, readingListSize := 2 }
        (ofString "\r\n$\r\r") :=
  (receiveAll_payload (p := ofString "\r\n$\r\r") rfl rfl rfl _ (by decide)).1 rfl

/-- The shortest payload whose terminator ends behind the last position. -/
def longPayload : Bytes := List.replicate (2 ^ 31 - 2) 97

theorem length_longPayload : longPayload.length = 2 ^ 31 - 2 := List.length_replicate

/-- The decoder waits for it. -/
def awaitingLongPayload : DecodeContext :=
  { DecodeContext.new 3 2147483646 with state := .parseBlukStrings, readingListSize := 2 }

/-- **It is not read to its end.** -/
theorem not_receiveAll_payload_long :
    ¬ ∀ (ctx : DecodeContext) (p : Bytes) (chunks : List Bytes),
      ctx.state = .parseBlukStrings → ctx.readingStrSize.toNat = p.length → 0 < p.length →
      ctx.bufferedInput = [] → chunks.flatten = p ++ crlf →
        receiveAll ctx chunks = ctx.pushElement p := by
  intro h
  have hpos : 0 < longPayload.length := by
    rw [length_longPayload]
    decide
  have hread := h awaitingLongPayload longPayload [longPayload ++ crlf] rfl
    length_longPayload.symm hpos rfl List.flatten_singleton
  rw [receiveAll_singleton, DecodeContext.pushElement_eq] at hread
  have hlt := length_lt_of_decode hread (bufferedInput_pushed _ _)
  change (longPayload ++ crlf).length < 2 ^ 31 at hlt
  rw [List.length_append, length_longPayload] at hlt
  exact absurd hlt (by decide)

/-! ## Integer elements -/

/-- An element as a client sends it: an integer, or a bulk string that is not
empty. -/
inductive Element where
  /-- An integer, written with an optional sign. -/
  | integer (text : {t : Bytes // IntegerText t})
  /-- A bulk string. -/
  | bulk (payload : {p : Bytes // p ≠ []})

namespace Element

/-- The element on the wire. -/
def text : Element → Bytes
  | integer t => ofString ":" ++ t ++ crlf
  | bulk p => bulkString p

/-- What the handler gets for it: an integer's token, a bulk string's
payload. -/
def value : Element → Bytes
  | integer t => ofString ":" ++ t
  | bulk p => p

/-- The element is a bulk string. -/
def IsBulk : Element → Prop
  | integer _ => False
  | bulk _ => True

end Element

/-- A request as a client sends it: the number of its elements, then the
elements. -/
def arrayText (es : List Element) : Bytes :=
  ofString "*" ++ decimal es.length ++ crlf ++ (es.map Element.text).flatten

/-- **The request is handled**: in whatever chunks its text is read, the
handler is called once, with the elements in order, and the decoder is back
where it was, ready for the next request. -/
def DispatchesArray (ctx : DecodeContext) (es : List Element) : Prop :=
  ∀ chunks : List Bytes, chunks.flatten = arrayText es →
    ∃ ctx', receiveAll ctx chunks = ⟨[⟨ctx.lastCommandId, es.map Element.value⟩], .ok ctx'⟩
      ∧ ctx'.state = .init ∧ ctx'.bufferedInput = [] ∧ ctx'.reqList = []

/-- The text of an element is longer than what the handler gets of it. -/
theorem Element.length_value_lt (e : Element) : e.value.length < e.text.length := by
  have hcrlf : crlf.length = 2 := rfl
  cases e with
  | integer t =>
    rw [text, List.length_append, hcrlf]
    exact Nat.lt_add_of_pos_right two_pos
  | bulk p =>
    rw [text, bulkString, List.length_append, List.length_append, hcrlf, value]
    omega

/-- **One element inside a request** joins the list. -/
theorem bookReads_element {ctx : DecodeContext} (hs : ctx.state = .parseElements) (e : Element)
    (hopen : ctx.reqList.length + 1 ≠ ctx.readingListSize.toNat) (hfit : e.text.length < 2 ^ 31)
    (rest : Bytes) :
    ∃ k, BookReads false ctx (e.text ++ rest) [] false (ctx.extended [e.value] k) rest := by
  have hlt := e.length_value_lt
  cases e with
  | integer t => exact ⟨ctx.readingStrSize, bookReads_integer hs t.2 rest⟩
  | bulk p =>
    have htext : (Element.bulk p).text ++ rest
        = ofString "$" ++ decimal p.1.length ++ crlf ++ (p.1 ++ crlf ++ rest) := by
      simp only [Element.text, bulkString, List.append_assoc]
    rw [htext]
    exact ⟨0, bookReads_bulk hs (digits_decimal _) (digitsValue_decimal _) (hlt.trans hfit) hopen
      rest⟩

/-- **Several elements inside a request**, likewise. -/
theorem bookReads_elementList {ctx : DecodeContext} (hs : ctx.state = .parseElements)
    {es : List Element} (hopen : ctx.reqList.length + es.length < ctx.readingListSize.toNat)
    (hfit : (es.map Element.text).flatten.length < 2 ^ 31) (rest : Bytes) :
    ∃ k, BookReads false ctx ((es.map Element.text).flatten ++ rest) [] false
      (ctx.extended (es.map Element.value) k) rest := by
  induction es generalizing ctx with
  | nil =>
    refine ⟨ctx.readingStrSize, ?_⟩
    rw [List.map_nil, List.map_nil, ctx.extended_nil]
    exact BookReads.refl false ctx rest
  | cons e es ih =>
    rw [List.length_cons] at hopen
    rw [List.map_cons, List.flatten_cons, List.length_append] at hfit
    rw [List.map_cons, List.flatten_cons, List.append_assoc]
    obtain ⟨j, hj⟩ := bookReads_element hs e (by omega) (by omega)
      ((es.map Element.text).flatten ++ rest)
    have hs' : (ctx.extended [e.value] j).state = .parseElements := hs
    have hopen' : (ctx.extended [e.value] j).reqList.length + es.length
        < (ctx.extended [e.value] j).readingListSize.toNat := by
      show (ctx.reqList ++ [e.value]).length + es.length < ctx.readingListSize.toNat
      rw [List.length_append, List.length_singleton]
      omega
    obtain ⟨k, hk⟩ := ih hs' hopen' (by omega)
    rw [DecodeContext.extended_extended] at hk
    exact ⟨k, hj.trans hk⟩

/-- The text of some elements is longer than there are elements. -/
theorem length_le_texts (es : List Element) : es.length ≤ (es.map Element.text).flatten.length := by
  induction es with
  | nil => exact le_rfl
  | cons e es ih =>
    have hlt := e.length_value_lt
    rw [List.map_cons, List.flatten_cons, List.length_append, List.length_cons]
    omega

/-- **All elements of a request but the last**: behind them the decoder waits
for the last one. -/
theorem bookReads_arrayFront {ctx : DecodeContext} (hs : ctx.state = .init)
    (hl : ctx.reqList = []) {es : List Element} (last : Element)
    (hfit : (arrayText (es ++ [last])).length < 2 ^ 31) :
    ∃ c, BookReads false ctx (arrayText (es ++ [last])) [] false c last.text
      ∧ c.state = .parseElements ∧ c.reqList = es.map Element.value
      ∧ c.reqList.length + 1 = c.readingListSize.toNat
      ∧ c.lastCommandId = ctx.lastCommandId := by
  have htext : arrayText (es ++ [last])
      = ofString "*" ++ decimal (es.length + 1) ++ crlf
        ++ ((es.map Element.text).flatten ++ last.text) := by
    unfold arrayText
    rw [List.length_append, List.length_singleton, List.map_append, List.flatten_append,
      List.map_singleton, List.flatten_singleton]
  have hlen : digitsValue (decimal (es.length + 1)) = es.length + 1 := digitsValue_decimal _
  rw [htext] at hfit
  simp only [List.length_append] at hfit
  have hfront := length_le_texts es
  have hlastText := last.length_value_lt
  have hlt : es.length + 1 < 2 ^ 31 := by omega
  rw [htext]
  have hhead := bookReads_header hs (digits_decimal (es.length + 1)) (by omega) (by omega)
    ((es.map Element.text).flatten ++ last.text)
  have hsize : (ctx.opened (digitsValue (decimal (es.length + 1)))).readingListSize.toNat
      = es.length + 1 := hlen.symm ▸ toNat_ofInt_natCast hlt
  have hnil : (ctx.opened (digitsValue (decimal (es.length + 1)))).reqList = [] := hl
  have hopen : (ctx.opened (digitsValue (decimal (es.length + 1)))).reqList.length + es.length
      < (ctx.opened (digitsValue (decimal (es.length + 1)))).readingListSize.toNat := by
    rw [hsize, hnil, List.length_nil]
    omega
  obtain ⟨k, hk⟩ := bookReads_elementList rfl hopen (by omega) last.text
  refine ⟨_, hhead.trans hk, rfl, ?_, ?_, rfl⟩
  · show ctx.reqList ++ _ = _
    rw [hl, List.nil_append]
  · show (ctx.reqList ++ _).length + 1 = _
    rw [hl, List.nil_append, List.length_map]
    exact hsize.symm

/-- **A bulk string as the last element** sends the request to the handler. -/
theorem bookReads_lastBulk {ctx : DecodeContext} (hs : ctx.state = .parseElements)
    (hlast : ctx.reqList.length + 1 = ctx.readingListSize.toNat)
    {p : {p : Bytes // p ≠ []}} (hfit : (Element.bulk p).text.length < 2 ^ 31) :
    BookReads false ctx (Element.bulk p).text [⟨ctx.lastCommandId, ctx.reqList ++ [p.1]⟩] false
      ctx.dispatched [] := by
  have hdisp := bookDispatch_bulk hs (digits_decimal p.1.length) (digitsValue_decimal _)
    ((Element.bulk p).length_value_lt.trans hfit) hlast []
  have htext : ofString "$" ++ decimal p.1.length ++ crlf ++ (payloadRead p.1 ++ [])
      = (Element.bulk p).text := by
    rw [payloadRead, if_neg p.2]
    simp only [Element.text, bulkString, List.append_assoc, List.append_nil]
  rw [htext, decide_eq_false p.2] at hdisp
  exact hdisp.bookReads

/-- **An integer as the last element completes nothing.** -/
theorem run_lastInteger {ctx : DecodeContext} (hs : ctx.state = .parseElements)
    (t : {t : Bytes // IntegerText t}) :
    (scanner.run ctx (Element.integer t).text).events = [] := by
  obtain ⟨hist, hr⟩ := (bookReads_integer hs t.2 []).reads
  rw [List.append_nil] at hr
  rw [show (Element.integer t).text = ofString ":" ++ t.1 ++ crlf from rfl, hr.run_eq,
    scanner.run_of_none (cutCrlf_of_length_le (Nat.zero_le _))]
  rfl

/-- **A request with integer elements is handled exactly if its last element is
a bulk string**, and there are positions for its text. -/
theorem dispatchesArray_iff {ctx : DecodeContext} (h : Reachable ctx) (hs : ctx.state = .init)
    (hbuf : ctx.bufferedInput = []) {es : List Element} (hne : es ≠ []) :
    DispatchesArray ctx es
      ↔ (∃ last, es.getLast? = some last ∧ last.IsBulk) ∧ (arrayText es).length < 2 ^ 31 := by
  have hl : ctx.reqList = [] := h.announced.emptyAtInit hs
  obtain ⟨es, last, rfl⟩ : ∃ front last, es = front ++ [last] :=
    ⟨es.dropLast, es.getLast hne, (List.dropLast_concat_getLast hne).symm⟩
  rw [List.getLast?_concat]
  constructor
  · intro hd
    obtain ⟨ctx', hread, -, hbuf', -⟩ := hd [arrayText (es ++ [last])] List.flatten_singleton
    have hlt : (arrayText (es ++ [last])).length < 2 ^ 31 := by
      rw [receiveAll_singleton] at hread
      have hlen := length_lt_of_decode hread hbuf'
      change (ctx.bufferedInput ++ arrayText (es ++ [last])).length < 2 ^ 31 at hlen
      rwa [hbuf, List.nil_append] at hlen
    refine ⟨⟨last, rfl, ?_⟩, hlt⟩
    have hfits : BuffersFit ctx [arrayText (es ++ [last])] := buffersFit_of_lt (by
      rw [hbuf, List.flatten_singleton, List.nil_append]
      exact hlt)
    rw [receiveAll_eq_run (settled_of_nil hbuf) hfits, hbuf, List.flatten_singleton,
      List.nil_append] at hread
    obtain ⟨c, hfront, hcs, -⟩ := bookReads_arrayFront hs hl last hlt
    cases last with
    | integer t =>
      -- nothing is dispatched
      obtain ⟨hist, hr⟩ := hfront.reads
      have hnil := congrArg Traced.events hread
      rw [Traced.events_map, hr.run_eq, List.nil_append, run_lastInteger hcs t] at hnil
      cases hnil
    | bulk p => trivial
  · rintro ⟨⟨e, he, hbulk⟩, hlt⟩ chunks hchunks
    obtain rfl := Option.some.inj he
    obtain ⟨c, hreads, hcs, hreq, hsize, hid⟩ := bookReads_arrayFront hs hl last hlt
    cases last with
    | integer t => exact absurd hbulk id
    | bulk p =>
      have hp : (Element.bulk p).text.length < 2 ^ 31 := by
        obtain ⟨hist, hr⟩ := hreads.reads
        exact hr.suffix.length_le.trans_lt hlt
      obtain ⟨hist, hr⟩ := (hreads.trans (bookReads_lastBulk (p := p) hcs hsize hp)).reads
      refine ⟨c.dispatched.withBuffer [], ?_, rfl, rfl, rfl⟩
      have hfits : BuffersFit ctx chunks := buffersFit_of_lt (by
        rw [hbuf, hchunks, List.nil_append]
        exact hlt)
      rw [receiveAll_eq_run (settled_of_nil hbuf) hfits, hbuf, hchunks, List.nil_append,
        TokenScanner.run_eq_ok_iff.mpr ⟨⟨hist, hr⟩, cutCrlf_of_length_le (Nat.zero_le _)⟩,
        Traced.ok_map, hreq, hid, List.map_append]
      rfl

/-- The decimal numeral of a natural number is the text of an integer. -/
theorem integerText_decimal (n : ℕ) : IntegerText (decimal n) :=
  ⟨[], decimal n, Or.inl rfl, digits_decimal n, rfl⟩

/-- An integer in front of a bulk string. -/
theorem dispatchesArray_iff_bulkLast :
    DispatchesArray (.new 3 0)
      [.integer ⟨decimal 4, integerText_decimal 4⟩, .bulk ⟨ofString "foobar", by decide⟩] :=
  (dispatchesArray_iff ⟨3, 0, [], [], rfl⟩ rfl rfl (List.cons_ne_nil _ _)).mpr
    ⟨⟨_, rfl, trivial⟩, by decide +kernel⟩

/-- Three integers and nothing else: the handler is never called. -/
theorem not_dispatchesArray_integers :
    ¬ DispatchesArray (.new 3 0)
      [.integer ⟨decimal 1, integerText_decimal 1⟩, .integer ⟨decimal 2, integerText_decimal 2⟩,
        .integer ⟨decimal 3, integerText_decimal 3⟩] := by
  intro h
  obtain ⟨ctx, hctx, -⟩ := h [ofString "*3\r\n:1\r\n:2\r\n:3\r\n"] (by decide +kernel)
  have hnone : (receiveAll (.new 3 0) [ofString "*3\r\n:1\r\n:2\r\n:3\r\n"]).events = [] := by
    decide +kernel
  rw [hctx] at hnone
  exact List.cons_ne_nil _ _ hnone

end SimpleResp
