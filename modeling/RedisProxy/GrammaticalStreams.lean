import RedisProxy.RequestText

/-!
# What the decoder dispatches and what its grammar allows

The handler is called with vectors that the decoder has put together from the
tokens it met, and several of its branches carry on where the grammar of
requests stops: a header may have any first character, `std::stoi` takes
leading white space, a sign and trailing junk, an unknown element is passed
over, an integer element is not looked at, and a payload that is too long is
skipped up to the next CRLF. A request dispatched behind one of these was not
sent.

So the dispatched vectors are those of a pipeline of well-formed requests at
the front of the stream exactly if up to every end of a request the lines of
the stream are by the book (`GoesByTheBook`, `grammatical_iff`). Read forwards
this is an invariant of the reading: what has been consumed is a pipeline and
the front of one more request (`Consumed`). Read backwards it is the
determinism of the decoder: a well-formed pipeline has only one reading, and
that goes by the book.

The CRLF of an empty bulk string that ends a request is not consumed by the
dispatch. It is owed, and may not have arrived.
-/

namespace SimpleResp

open Bytes

/-! ## Pipelines -/

/-- What may stand between requests: an array without elements and the null
array. -/
def IgnorableText (w : Bytes) : Prop :=
  (∃ ds, Digits ds ∧ digitsValue ds = 0 ∧ w = ofString "*" ++ ds ++ crlf)
    ∨ w = ofString "*-1" ++ crlf

/-- **The text of a pipeline**: well-formed requests, one behind the other. -/
inductive PipelineText : Bytes → List (List Bytes) → Prop where
  | nil : PipelineText [] []
  | ignorable {w ws : Bytes} {rs : List (List Bytes)} (hw : IgnorableText w)
      (hs : PipelineText ws rs) : PipelineText (w ++ ws) rs
  | request {w ws : Bytes} {r : List Bytes} {rs : List (List Bytes)} (hw : RequestText w r)
      (hs : PipelineText ws rs) : PipelineText (w ++ ws) (r :: rs)

/-- **Only what the grammar allows is dispatched**: however a fresh connection
reads the stream, the vectors dispatched are those of a pipeline at its front.
The stream may lack the end of the CRLF of an empty bulk string that ends the
last request. -/
def Grammatical (sessionId : Int32) (readingStrSize : UInt64) (s : Bytes) : Prop :=
  ∀ chunks : List Bytes, chunks.flatten = s →
    ∀ rs, rs = (receiveAll (.new sessionId readingStrSize) chunks).events.map
        HandlerCall.request →
      ∃ w t, t <:+ crlf ∧ w <+: s ++ t ∧ PipelineText w rs
        ∧ (t ≠ [] → w = s ++ t ∧ ∃ r, rs.getLast? = some r ∧ r.getLast? = some [])

/-- **Line after line by the book**, from an owed CRLF or none to an owed CRLF or none. -/
inductive BookLines : Bool → Phase → Bytes → Bool → Phase → Bytes → Prop where
  /-- None. -/
  | refl (owed : Bool) (ph : Phase) (b : Bytes) : BookLines owed ph b owed ph b
  /-- One line, then the others. -/
  | step {owed owed' : Bool} {ph ph₁ ph₂ : Phase} {b t r b₂ : Bytes}
      (hcut : ph.cut b = some (t, r)) (hfit : t.length + 2 < 2 ^ 31) (hline : Line ph t ph₁)
      (hbook : ph.ByTheBook owed t) (hrest : BookLines (ph.owes t) ph₁ r owed' ph₂ b₂) :
      BookLines owed ph b owed' ph₂ b₂

/-- **Up to every end of a request the stream goes by the book**, and what follows an end that
owes a CRLF begins with one, as far as it has arrived. -/
def GoesByTheBook (s : Bytes) : Prop :=
  ∀ ph b t rest, Lines .header s ph b → ph.cut b = some (t, rest) → t.length + 2 ≤ 2 ^ 31 →
    Line ph t .header →
      ∃ owed, BookLines false .header s owed ph b ∧ ph.ByTheBook owed t
        ∧ (ph.owes t = true → rest <+: crlf ∨ crlf <+: rest)

theorem PipelineText.append_request {w v : Bytes} {rs : List (List Bytes)} {r : List Bytes}
    (h : PipelineText w rs) (hv : RequestText v r) : PipelineText (w ++ v) (rs ++ [r]) := by
  induction h with
  | nil =>
    rw [List.nil_append, ← List.append_nil v]
    exact PipelineText.request hv PipelineText.nil
  | ignorable hw _ ih =>
    rw [List.append_assoc]
    exact PipelineText.ignorable hw ih
  | request hw _ ih =>
    rw [List.append_assoc]
    exact PipelineText.request hw ih

/-- A pipeline of some requests begins with an array header. -/
theorem PipelineText.head? {w : Bytes} {rs : List (List Bytes)} (h : PipelineText w rs)
    (hne : rs ≠ []) : w.head? = some 42 := by
  cases h with
  | nil => exact absurd rfl hne
  | ignorable hw _ =>
    rcases hw with ⟨ds, -, -, rfl⟩ | rfl
    · rfl
    · rfl
  | request hw _ =>
    cases hw
    rfl

theorem ElementsText.append {w v : Bytes} {as bs : List Bytes} (h : ElementsText w as)
    (hv : ElementsText v bs) : ElementsText (w ++ v) (as ++ bs) := by
  induction h with
  | nil => exact hv
  | cons hw _ ih =>
    rw [List.append_assoc]
    exact ElementsText.cons hw ih

theorem ElementText.elementsText {v p : Bytes} (h : ElementText v p) : ElementsText v [p] := by
  rw [← List.append_nil v]
  exact ElementsText.cons h ElementsText.nil

/-- The text of several elements ends in the text of the last one. -/
theorem ElementsText.exists_last {w : Bytes} {as : List Bytes} (h : ElementsText w as)
    (hne : as ≠ []) :
    ∃ v x bs p, w = v ++ x ∧ as = bs ++ [p] ∧ ElementsText v bs ∧ ElementText x p := by
  induction h with
  | nil => exact absurd rfl hne
  | @cons w ws a as hw hws ih =>
    by_cases has : as = []
    · subst has
      cases hws
      exact ⟨[], w, [], a, List.append_nil w, rfl, ElementsText.nil, hw⟩
    · obtain ⟨v, x, bs, p, rfl, rfl, hv, hx⟩ := ih has
      exact ⟨w ++ v, x, a :: bs, p, (List.append_assoc _ _ _).symm, rfl,
        ElementsText.cons hw hv, hx⟩

/-! ## What a reading by the book has consumed -/

/-- The CRLF still to come. -/
def owedText (owed : Bool) : Bytes := if owed then crlf else []

/-- The front of a request: its header, announcing `n` elements, and the
elements `as`. -/
def FrontText (w : Bytes) (n : ℕ) (as : List Bytes) : Prop :=
  ∃ ds body, Digits ds ∧ digitsValue ds = n ∧ ElementsText body as
    ∧ w = ofString "*" ++ ds ++ crlf ++ body

/-- **What the bytes `done` are, when the decoder has consumed them by the
book**: a pipeline, the front of one more request, and the length line of an
open bulk string. -/
def Consumed (owed : Bool) (ctx : DecodeContext) (done : Bytes) (rs : List (List Bytes)) :
    Prop :=
  match ctx.state with
  | .init => ctx.reqList = [] ∧ PipelineText (done ++ owedText owed) rs
  | .parseElements =>
    ∃ w v, done ++ owedText owed = w ++ v ∧ PipelineText w rs
      ∧ FrontText v ctx.readingListSize.toNat ctx.reqList
  | .parseBlukStrings =>
    owed = false ∧ ∃ w v dl, done = w ++ v ++ (ofString "$" ++ dl ++ crlf)
      ∧ PipelineText w rs ∧ FrontText v ctx.readingListSize.toNat ctx.reqList
      ∧ Digits dl ∧ digitsValue dl = ctx.readingStrSize.toNat

/-- One more element. -/
theorem FrontText.append {v x p : Bytes} {n : ℕ} {as : List Bytes} (h : FrontText v n as)
    (hx : ElementText x p) : FrontText (v ++ x) n (as ++ [p]) := by
  obtain ⟨ds, body, hd, hn, hb, rfl⟩ := h
  exact ⟨ds, body ++ x, hd, hn, hb.append hx.elementsText, List.append_assoc _ _ _⟩

/-- The front of a request with all its elements is the request. -/
theorem FrontText.requestText {v : Bytes} {as : List Bytes} (h : FrontText v as.length as)
    (hne : as ≠ []) : RequestText v as := by
  obtain ⟨ds, body, hd, hn, hb, rfl⟩ := h
  exact RequestText.mk hne hd hn hb

/-- **A completed bulk string**, whose text ends with what is owed. -/
theorem consumed_pushed {ctx : DecodeContext} {w v x p done : Bytes}
    {rs : List (List Bytes)} {owed : Bool} (hw : PipelineText w rs)
    (hv : FrontText v ctx.readingListSize.toNat ctx.reqList) (hx : ElementText x p)
    (hdone : done ++ owedText owed = w ++ (v ++ x)) :
    Consumed owed (ctx.pushed p) done
      (rs ++ (ctx.pushCalls p).map HandlerCall.request) := by
  have hfront := hv.append hx
  by_cases hlast : ctx.reqList.length + 1 = ctx.readingListSize.toNat
  · rw [ctx.pushed_of_eq p hlast, ctx.pushCalls_of_eq p hlast]
    refine ⟨rfl, ?_⟩
    rw [← hlast, ← List.length_singleton (a := p), ← List.length_append] at hfront
    rw [hdone]
    exact hw.append_request (hfront.requestText (by simp))
  · rw [ctx.pushed_of_ne p hlast, ctx.pushCalls_of_ne p hlast, List.map_nil, List.append_nil]
    exact ⟨w, v ++ x, hdone, hw, hfront⟩

/-- What a token by the book can be where an element is expected. -/
theorem ByTheBook.of_parseElements {ctx : DecodeContext} {t : Bytes}
    (h : ByTheBook false ctx t) (hs : ctx.state = .parseElements) :
    (∃ ds, Digits ds ∧ t = ofString "$" ++ ds) ∨ ∃ u, IntegerText u ∧ t = ofString ":" ++ u :=
  (byTheBook_parseElements hs).mp h

/-- A length line by the book, by its marker. -/
theorem ByTheBook.of_bulk {ctx : DecodeContext} {t : Bytes} (h : ByTheBook false ctx t)
    (hs : ctx.state = .parseElements) (ht : t.headD 0 = RespType.bulkStrings.code) :
    ∃ ds, Digits ds ∧ t = ofString "$" ++ ds := by
  refine (h.of_parseElements hs).resolve_right ?_
  rintro ⟨u, -, rfl⟩
  exact absurd (show (58 : UInt8) = 36 from ht) (by decide)

/-- **The owed CRLF, consumed.** -/
theorem consumed_of_owed {ctx ctx' : DecodeContext} {t done : Bytes} {rs : List (List Bytes)}
    {calls : List HandlerCall} (h : Consumed true ctx done rs) (hd : Handles ctx t calls ctx')
    (ht : t = []) :
    Consumed (owes ctx t) ctx' (done ++ (t ++ crlf)) (rs ++ calls.map HandlerCall.request) := by
  subst ht
  unfold Consumed at h
  cases hd with
  | header _ hn => cases hn
  | integer _ hc => exact absurd hc (by decide)
  | emptyBulk _ hc _ => exact absurd hc (by decide)
  | bulk _ hc _ _ => exact absurd hc (by decide)
  | unknown hs _ _ =>
    have ho : owes ctx [] = false :=
      eq_false_of_ne_true fun ho => absurd (owes_iff.mp ho).2.1 (by decide)
    rw [hs] at h
    unfold Consumed
    rw [hs, ho]
    simpa [owedText] using h
  | payload hs _ => rw [hs] at h; cases h.1
  | overlong hs _ => rw [hs] at h; cases h.1

/-- **One token by the book** adds its line to what is consumed, and its
requests to the dispatched ones. -/
theorem Consumed.step {owed : Bool} {ctx ctx' : DecodeContext} {t done : Bytes}
    {rs : List (List Bytes)} {calls : List HandlerCall} (h : Consumed owed ctx done rs)
    (hd : Handles ctx t calls ctx') (hb : ByTheBook owed ctx t) :
    Consumed (owes ctx t) ctx' (done ++ (t ++ crlf)) (rs ++ calls.map HandlerCall.request) := by
  cases owed with
  | true => exact consumed_of_owed h hd hb
  | false =>
    unfold Consumed owedText at h
    cases hd with
    | @header n hs hn =>
      rw [hs] at h
      simp only [Bool.false_eq_true, if_false, List.append_nil] at h
      obtain ⟨ds, hds, hpos, rfl⟩ := (byTheBook_init hs).mp hb
      obtain ⟨rfl, hlt⟩ := eq_digitsValue_of_stoi hds (stoiTail_cons 42 ds ▸ hn)
      rw [owes_of_state (by rw [hs]; decide)]
      refine ⟨done, ofString "*" ++ ds ++ crlf, List.append_nil _, ?_, ds, [], hds, ?_, ?_,
        (List.append_nil _).symm⟩
      · exact (List.append_nil rs).symm ▸ h.2
      · exact (toNat_ofInt_natCast hlt).symm
      · show ElementsText [] ctx.reqList
        rw [h.1]
        exact ElementsText.nil
    | integer hs ht =>
      rw [hs] at h
      simp only [Bool.false_eq_true, if_false, List.append_nil] at h
      obtain ⟨w, v, rfl, hw, hv⟩ := h
      obtain ⟨u, hu, rfl⟩ := (hb.of_parseElements hs).resolve_left (by
        rintro ⟨ds, -, rfl⟩
        exact absurd (show (36 : UInt8) = 58 from ht) (by decide))
      have ho : owes ctx (ofString ":" ++ u) = false :=
        eq_false_of_ne_true fun ho =>
          absurd (show (58 : UInt8) = 36 from (owes_iff.mp ho).2.1) (by decide)
      unfold Consumed
      rw [ho, show (ctx.collected (ofString ":" ++ u)).state = .parseElements from hs]
      refine ⟨w, v ++ (ofString ":" ++ u ++ crlf), ?_, (List.append_nil rs).symm ▸ hw,
        hv.append (ElementText.integer hu)⟩
      exact (List.append_nil _).trans (List.append_assoc _ _ _)
    | emptyBulk hs ht hn =>
      rw [hs] at h
      simp only [Bool.false_eq_true, if_false, List.append_nil] at h
      obtain ⟨w, v, rfl, hw, hv⟩ := h
      obtain ⟨ds, hds, rfl⟩ := hb.of_bulk hs ht
      obtain ⟨hz, hlt⟩ := eq_digitsValue_of_stoi hds (stoiTail_cons 36 ds ▸ hn)
      have hzero : digitsValue ds = 0 := by exact_mod_cast hz.symm
      rw [owes_length hs hds hlt, decide_eq_true hzero]
      refine consumed_pushed hw hv (ElementText.bulk hds hzero) ?_
      show w ++ v ++ (ofString "$" ++ ds ++ crlf) ++ crlf = _
      simp only [List.append_assoc, List.append_nil]
    | @bulk n hs ht hn hne =>
      rw [hs] at h
      simp only [Bool.false_eq_true, if_false, List.append_nil] at h
      obtain ⟨w, v, rfl, hw, hv⟩ := h
      obtain ⟨ds, hds, rfl⟩ := hb.of_bulk hs ht
      obtain ⟨rfl, hlt⟩ := eq_digitsValue_of_stoi hds (stoiTail_cons 36 ds ▸ hn)
      rw [owes_length hs hds hlt, decide_eq_false (by exact_mod_cast hne)]
      refine ⟨rfl, w, v, ds, rfl, (List.append_nil rs).symm ▸ hw, hv, hds, ?_⟩
      exact (toNat_ofInt_natCast hlt).symm
    | unknown hs hint hbulk =>
      rcases hb.of_parseElements hs with ⟨ds, -, rfl⟩ | ⟨u, -, rfl⟩
      · exact absurd rfl hbulk
      · exact absurd rfl hint
    | payload hs hlen =>
      rw [hs] at h
      obtain ⟨-, w, v, dl, rfl, hw, hv, hdl, hsize⟩ := h
      rw [owes_of_state (by rw [hs]; decide)]
      refine consumed_pushed hw hv (ElementText.bulk hdl (hsize.trans hlen.symm)) ?_
      show _ ++ [] = _
      simp only [List.append_assoc, List.append_nil]
    | overlong hs hlen => exact absurd ((byTheBook_parseBlukStrings hs).mp hb) hlen

/-- **A reading by the book** consumes pipelines. -/
theorem Consumed.reads {owed : Bool} {ctx ctx' : DecodeContext} {b b' done : Bytes}
    {rs : List (List Bytes)} {hist : List (DecodeContext × Bytes)} {calls : List HandlerCall}
    (hr : scanner.Reads ctx b hist calls ctx' b') (hb : BookHistory owed hist)
    (h : Consumed owed ctx done rs) :
    ∃ done', done ++ b = done' ++ b'
      ∧ Consumed (owedAfter owed hist) ctx' done' (rs ++ calls.map HandlerCall.request) := by
  induction hr generalizing owed done rs with
  | refl ctx b => exact ⟨done, rfl, (List.append_nil rs).symm ▸ h⟩
  | @step ctx ctx₁ ctx' b t r b' ev evs hist hcut hstep _ ih =>
    have hbuf : b = t ++ crlf ++ r := cutCrlf_eq_some hcut
    obtain ⟨done', hdone, hcons⟩ :=
      ih hb.2 (h.step (step_eq_ok_iff.mp hstep) hb.1)
    refine ⟨done', ?_, ?_⟩
    · rw [hbuf, ← hdone]
      simp only [List.append_assoc]
    · rwa [List.map_append, ← List.append_assoc]

/-! ## By the book, so grammatical -/

/-- A token that makes a handler call and owes a CRLF has completed an empty
last element. -/
theorem getLast?_request_of_owes {ctx ctx' : DecodeContext} {t : Bytes} {call : HandlerCall}
    (hs : step ctx t = ⟨[call], .ok ctx'⟩) (ho : owes ctx t = true) :
    call.request.getLast? = some [] := by
  obtain ⟨hst, hbulk, hzero⟩ := owes_iff.mp ho
  obtain ⟨n, hn, ⟨-, hcalls, -⟩ | ⟨hne, -, -⟩⟩ := (step_eq_ok_iff.mp hs).of_bulk hst hbulk
  · unfold DecodeContext.pushCalls at hcalls
    split at hcalls
    · rw [(List.cons_eq_cons.mp hcalls).1]
      exact List.getLast?_concat
    · cases hcalls
  · exact absurd (Except.ok.inj (hn.symm.trans hzero)) hne

/-- Lines by the book are read by the book. -/
theorem BookLines.exists_bookReads {owed owed' : Bool} {ph ph' : Phase} {b b' : Bytes}
    (h : BookLines owed ph b owed' ph' b') {ctx : DecodeContext} (hph : ctx.phase = ph)
    (hI : EmptyAtInit ctx) : ∃ calls ctx', BookReads owed ctx b calls owed' ctx' b' := by
  induction h generalizing ctx with
  | refl owed ph b => exact ⟨[], ctx, BookReads.refl owed ctx b⟩
  | step hcut _ hline hbook _ ih =>
    obtain ⟨calls, ctx₁, hd, hph₁⟩ := hline.exists_handles hph hI
    have hstep := step_eq_ok_iff.mpr hd
    obtain ⟨calls', ctx', hr⟩ := ih hph₁ (hI.step hstep)
    subst hph
    exact ⟨_, ctx', (BookReads.single ((cut_eq ctx _).trans hcut) hstep hbook).trans hr⟩

/-- And tokens by the book are lines by the book, if they are short enough. -/
theorem bookLines_of_reads {owed : Bool} {ctx ctx' : DecodeContext} {b b' : Bytes}
    {hist : List (DecodeContext × Bytes)} {calls : List HandlerCall}
    (h : scanner.Reads ctx b hist calls ctx' b') (hI : EmptyAtInit ctx)
    (hsmall : ∀ p ∈ hist, p.2.length + 2 < 2 ^ 31) (hbook : BookHistory owed hist) :
    BookLines owed ctx.phase b (owedAfter owed hist) ctx'.phase b' := by
  induction h generalizing owed with
  | refl ctx b => exact BookLines.refl owed ctx.phase b
  | @step ctx ctx₁ ctx' b t r b' ev evs hist hcut hstep _ ih =>
    obtain ⟨hfit, hsmall⟩ := List.forall_mem_cons.mp hsmall
    exact BookLines.step (cut_eq ctx b ▸ hcut) hfit ((step_eq_ok_iff.mp hstep).line hI) hbook.1
      (ih (hI.step hstep) hsmall hbook.2)

/-- **By the book, so grammatical.** -/
theorem grammatical_of_goesByTheBook {sessionId : Int32} {readingStrSize : UInt64} {s : Bytes}
    (h : GoesByTheBook s) : Grammatical sessionId readingStrSize s := by
  rintro chunks rfl rs rfl
  by_cases hev : (receiveAll (.new sessionId readingStrSize) chunks).events = []
  · rw [hev]
    exact ⟨[], [], List.nil_suffix, List.nil_prefix, PipelineText.nil, fun h => absurd rfl h⟩
  have hI : EmptyAtInit (.new sessionId readingStrSize) := fun _ => rfl
  obtain ⟨n, hn, ⟨hist, calls, c, b, t, rest, call, c', hr, hL, hcut, hs, hlen, hcalls⟩, -⟩ :=
    exists_endsWithLine (b := []) hI hev
  rw [List.nil_append] at hr hL
  have hIc : EmptyAtInit c := hr.invariant (fun _ _ _ _ hI hs => hI.step hs) hI
  obtain ⟨-, rfl⟩ := exists_call_of_step hs (List.cons_ne_nil _ _)
  obtain ⟨owed, hlines, hbt, howed⟩ := h c.phase b t rest hL (cut_eq c b ▸ hcut) (by omega)
    ((step_eq_ok_iff.mp hs).line hIc)
  -- the lines by the book are the tokens that were read
  obtain ⟨calls', c₂, hist₂, hr₂, hbook, ho⟩ := hlines.exists_bookReads rfl hI
  obtain ⟨rfl, -, -⟩ := hr.eq_of_rest hr₂
  replace hbook : BookHistory false (hist ++ [(c, t)]) :=
    bookHistory_append.mpr ⟨hbook, by rw [ho]; exact ⟨hbt, trivial⟩⟩
  have hall := hr.trans (TokenScanner.Reads.single hcut hs)
  have hnew : Consumed false (.new sessionId readingStrSize) [] [] := ⟨rfl, PipelineText.nil⟩
  obtain ⟨done, hdone, hcons⟩ := Consumed.reads hall hbook hnew
  have howes : owedAfter false (hist ++ [(c, t)]) = owes c t := by
    rw [owedAfter_append]
    rfl
  obtain ⟨-, htext⟩ := hcons
  rw [howes, List.nil_append] at htext
  rw [List.nil_append] at hdone
  change (receiveAll (.new sessionId readingStrSize) chunks).events = _ at hcalls
  rw [hcalls, hdone]
  cases ho : owes c t with
  | false =>
    rw [ho] at htext
    have htext' : PipelineText done _ := List.append_nil done ▸ htext
    refine ⟨done, [], List.nil_suffix, ?_, htext', fun h => absurd rfl h⟩
    rw [List.append_nil]
    exact List.prefix_append done rest
  | true =>
    rw [ho] at htext
    rcases howed ho with ⟨t', ht'⟩ | ⟨rest', hrest⟩
    · refine ⟨done ++ crlf, t', ⟨rest, ht'⟩, ?_, htext, fun _ => ⟨?_, call.request, ?_, ?_⟩⟩
      · rw [List.append_assoc, ht']
      · rw [List.append_assoc, ht']
      · rw [List.map_append, List.map_singleton, List.getLast?_concat]
      · exact getLast?_request_of_owes hs ho
    · refine ⟨done ++ crlf, [], List.nil_suffix, ?_, htext, fun h => absurd rfl h⟩
      rw [List.append_nil, ← hrest, ← List.append_assoc]
      exact List.prefix_append _ rest'

/-! ## Grammatical, so by the book -/

/-- A run that makes a handler call has a first token, and makes the call
there or behind it. -/
theorem exists_handles_of_events {ctx : DecodeContext} {b : Bytes}
    (h : (scanner.run ctx b).events ≠ []) :
    ∃ t r calls ctx', scanner.cut ctx b = some (t, r) ∧ Handles ctx t calls ctx'
      ∧ (calls ≠ [] ∨ (scanner.run ctx' r).events ≠ []) := by
  cases hcut : scanner.cut ctx b with
  | none => exact absurd (by rw [scanner.run_of_none hcut]; rfl) h
  | some p =>
    obtain ⟨t, r⟩ := p
    cases hstep : step ctx t with
    | mk calls out =>
      cases out with
      | error e =>
        rw [scanner.run_throw hcut hstep] at h
        exact absurd (step_eq_error_iff.mp hstep).1 h
      | ok ctx' =>
        refine ⟨t, r, calls, ctx', rfl, step_eq_ok_iff.mp hstep, ?_⟩
        rw [scanner.run_step hcut hstep] at h
        rw [Ne, List.append_eq_nil_iff, not_and_or] at h
        exact h

/-- **Out of reach is out of reach**: where the announced number is passed, or
further away than the buffer is long, no request is dispatched. -/
theorem events_eq_nil_of_far {ctx : DecodeContext} {b : Bytes} (hs : ctx.state ≠ .init)
    (h : ctx.readingListSize.toNat ≤ ctx.reqList.length
      ∨ ctx.reqList.length + b.length < ctx.readingListSize.toNat) :
    (scanner.run ctx b).events = [] := by
  induction b using WellFounded.induction (measure List.length).wf generalizing ctx with
  | _ b ih =>
    by_contra hev
    obtain ⟨t, r, calls, ctx', hcut, hd, hcalls⟩ := exists_handles_of_events hev
    have hlen : b.length = t.length + 2 + r.length := length_of_cutCrlf hcut
    have hlt : (measure List.length).rel r b := show r.length < b.length by omega
    have hne : ctx.reqList.length + 1 ≠ ctx.readingListSize.toNat := by omega
    -- a bulk string leaves the request open
    have hpush : ∀ a, ctx.pushCalls a = [] ∧ (scanner.run (ctx.pushed a) r).events = [] := by
      intro a
      refine ⟨ctx.pushCalls_of_ne a hne, ih r hlt ?_ ?_⟩
      · rw [ctx.pushed_of_ne a hne]
        exact nofun
      · rw [ctx.pushed_of_ne a hne]
        show _ ≤ (ctx.reqList ++ [a]).length ∨ (ctx.reqList ++ [a]).length + _ < _
        rw [List.length_append, List.length_singleton]
        show ctx.readingListSize.toNat ≤ _ ∨ _ < ctx.readingListSize.toNat
        omega
    cases hd with
    | header hst _ => exact hs hst
    | integer hst _ =>
      refine hcalls.elim (fun hc => hc rfl) (fun hr => hr (ih r hlt hs ?_))
      show ctx.readingListSize.toNat ≤ (ctx.reqList ++ [t]).length
        ∨ (ctx.reqList ++ [t]).length + _ < ctx.readingListSize.toNat
      rw [List.length_append, List.length_singleton]
      omega
    | emptyBulk _ _ _ => exact hcalls.elim (fun hc => hc (hpush []).1) (fun hr => hr (hpush []).2)
    | bulk _ _ _ _ =>
      refine hcalls.elim (fun hc => hc rfl) (fun hr => hr (ih r hlt nofun ?_))
      show ctx.readingListSize.toNat ≤ ctx.reqList.length
        ∨ ctx.reqList.length + _ < ctx.readingListSize.toNat
      omega
    | unknown _ _ _ =>
      exact hcalls.elim (fun hc => hc rfl) (fun hr => hr (ih r hlt hs (by omega)))
    | payload _ _ => exact hcalls.elim (fun hc => hc (hpush t).1) (fun hr => hr (hpush t).2)
    | overlong _ _ =>
      exact hcalls.elim (fun hc => hc rfl) (fun hr => hr (ih r hlt hs (by omega)))

/-- An array without elements and the null array leave nothing in reach. -/
theorem events_eq_nil_of_ignorable {ctx : DecodeContext} (hs : ctx.state = .init)
    (hl : ctx.reqList = []) {w : Bytes} (hw : IgnorableText w) {rest : Bytes}
    (hfit : rest.length < 2 ^ 63) : (scanner.run ctx (w ++ rest)).events = [] := by
  -- the header is read, and the number it announces is out of reach
  have hopened : ∀ (t : Bytes) (n : ℤ), cr ∉ t → stoiTail t = .ok n → n ≤ 0 →
      (scanner.run ctx (t ++ crlf ++ rest)).events = [] := by
    intro t n ht hn hneg
    have hcut := cut_line (threshold_init hs) (noCrlf_of_notMem ht) rest
    rw [scanner.run_step hcut (step_eq_ok_iff.mpr (Handles.header hs hn)), List.nil_append]
    have hnil : (ctx.opened n).reqList.length = 0 := by
      show ctx.reqList.length = 0
      rw [hl, List.length_nil]
    have hsize : (ctx.opened n).readingListSize.toNat = (n % 2 ^ 64).toNat := toNat_ofInt n
    have hrange := stoiTail_range hn
    exact events_eq_nil_of_far nofun (by omega)
  rcases hw with ⟨ds, hd, hzero, rfl⟩ | rfl
  · refine hopened (ofString "*" ++ ds) 0 ?_ ?_ le_rfl
    · exact fun h => (List.mem_append.mp h).elim (by decide) hd.cr_notMem
    · have h := stoiTail_of_digits 42 hd (by omega)
      rw [hzero] at h
      exact h
  · exact hopened (ofString "*-1") (-1) (by decide) rfl (by decide)

/-- **A well-formed request behind which a call is still made** is dispatched
by the book; if it ends in an empty bulk string, the CRLF of that is what
follows. -/
theorem bookDispatch_of_requestText {ctx : DecodeContext} (hi : ctx.state = .init)
    (hl : ctx.reqList = []) {w : Bytes} {r : List Bytes} (hw : RequestText w r) {rest : Bytes}
    (hev : (scanner.run ctx (w ++ rest)).events ≠ []) :
    ∃ owed, BookDispatch ctx (w ++ rest) ⟨ctx.lastCommandId, r⟩ owed ctx.dispatched
      (owedText owed ++ rest) := by
  obtain ⟨hne, hd, hlen, hbody⟩ := hw
  rename_i ds body
  obtain ⟨v, x, as, p, rfl, rfl, hv, hx⟩ := hbody.exists_last hne
  rw [List.length_append, List.length_singleton] at hlen
  have hsmall : digitsValue ds < 2 ^ 31 := by
    rw [List.append_assoc] at hev
    exact digitsValue_lt_of_events (c := 42) (Or.inl hi) hd (by decide)
      (fun h => absurd (hi.symm.trans h) (by decide)) hev
  cases hx with
  | @bulk dl p hdl hp =>
    have htext : ofString "*" ++ ds ++ crlf ++ (v ++ (ofString "$" ++ dl ++ crlf ++ p ++ crlf))
          ++ rest
        = ofString "*" ++ ds ++ crlf ++ (v ++ (ofString "$" ++ dl ++ crlf
          ++ (payloadRead p ++ (owedText (decide (p = [])) ++ rest)))) := by
      have hpay : payloadRead p ++ (owedText (decide (p = [])) ++ rest) = p ++ crlf ++ rest := by
        unfold payloadRead owedText
        by_cases hp : p = [] <;> simp [hp]
      rw [hpay]
      simp only [List.append_assoc]
    rw [htext] at hev ⊢
    exact ⟨_, bookDispatch_request hi hl hd hlen (by omega) hv hdl hp _ (Or.inr hev)⟩
  | @integer t ht =>
    -- nobody looks at the number of elements behind an integer
    refine absurd ?_ hev
    have htext : ofString "*" ++ ds ++ crlf ++ (v ++ (ofString ":" ++ t ++ crlf)) ++ rest
        = ofString "*" ++ ds ++ crlf ++ (v ++ (ofString ":" ++ t ++ crlf ++ rest)) := by
      simp only [List.append_assoc]
    rw [htext] at hev ⊢
    obtain ⟨k, hfront⟩ := bookReads_front hi hl hd hlen (by omega) hv (Or.inr hev)
    have hall := hfront.trans (bookReads_integer rfl ht rest)
    obtain ⟨hist, hr⟩ := hall.reads
    rw [hr.run_eq]
    have hsize : (ctx.opened (digitsValue ds)).readingListSize.toNat = as.length + 1 :=
      hlen ▸ toNat_ofInt_natCast (by omega)
    refine events_eq_nil_of_far nofun (Or.inl ?_)
    show (ctx.opened (digitsValue ds)).readingListSize.toNat
      ≤ (ctx.reqList ++ as ++ [ofString ":" ++ t]).length
    rw [hsize, hl, List.nil_append, List.length_append, List.length_singleton]

/-- **A well-formed pipeline has one reading.** Where the stream begins with
the text of a pipeline, every dispatch that belongs to the pipeline is reached
by the book, and is followed by the CRLF it owes. -/
theorem byTheBook_of_pipelineText {w : Bytes} {rs : List (List Bytes)} (hw : PipelineText w rs)
    {ctx : DecodeContext} (hi : ctx.state = .init) (hl : ctx.reqList = []) {x : Bytes}
    (hfit : (w ++ x).length < 2 ^ 63) {hist : List (DecodeContext × Bytes)}
    {calls : List HandlerCall} {c c' : DecodeContext} {b t rest : Bytes} {call : HandlerCall}
    (hr : scanner.Reads ctx (w ++ x) hist calls c b) (hcut : scanner.cut c b = some (t, rest))
    (hs : step c t = ⟨[call], .ok c'⟩) (hcount : calls.length < rs.length) :
    BookHistory false (hist ++ [(c, t)]) ∧ (owes c t = true → crlf <+: rest) := by
  induction hw generalizing ctx hist calls with
  | nil => exact absurd hcount (Nat.not_lt_zero _)
  | @ignorable w ws rs hw _ _ =>
    -- nothing is dispatched behind such an array
    have hev := (hr.trans (TokenScanner.Reads.single hcut hs)).run_eq
    rw [List.append_assoc] at hev hfit
    have hnil : (scanner.run ctx (w ++ (ws ++ x))).events = [] :=
      events_eq_nil_of_ignorable hi hl hw (by rw [List.length_append] at hfit; omega)
    rw [hev] at hnil
    simp at hnil
  | @request w ws r rs hw hws ih =>
    rw [List.append_assoc] at hr hfit
    have hev : (scanner.run ctx (w ++ (ws ++ x))).events ≠ [] := by
      rw [(hr.trans (TokenScanner.Reads.single hcut hs)).run_eq]
      simp
    obtain ⟨owed, o, c₁, b₁, t₁, ⟨g, hg, hbook, ho⟩, hcut₁, hs₁, hb₁, howed⟩ :=
      bookDispatch_of_requestText hi hl hw hev
    have hbook₁ : BookHistory false (g ++ [(c₁, t₁)]) :=
      bookHistory_append.mpr ⟨hbook, by rw [ho]; exact ⟨hb₁, trivial⟩⟩
    have hpre₁ : owes c₁ t₁ = true → crlf <+: owedText owed ++ (ws ++ x) := by
      intro hot
      rw [← howed, hot]
      exact List.prefix_append crlf _
    rcases hg.comparable hr with ⟨h₃, e₃, rfl, rfl, hr₃⟩ | ⟨h₃, e₃, rfl, he, hr₃⟩
    · cases hr₃ with
      | refl _ _ =>
        -- the dispatch of this request
        obtain ⟨rfl, rfl⟩ := Prod.mk.inj (Option.some.inj (hcut.symm.trans hcut₁))
        exact ⟨(List.append_nil g).symm ▸ hbook₁, hpre₁⟩
      | @step _ c₂ _ _ t₂ r₂ _ ev₂ evs₂ hist₂ hcut₂ hstep₂ hrest₂ =>
        -- a dispatch of a later request
        obtain ⟨rfl, rfl⟩ := Prod.mk.inj (Option.some.inj (hcut₁.symm.trans hcut₂))
        obtain ⟨rfl, heq⟩ := Traced.mk.inj (hs₁.symm.trans hstep₂)
        obtain rfl := Except.ok.inj heq
        have hev₂ := (hrest₂.trans (TokenScanner.Reads.single hcut hs)).run_eq
        cases hot : owed with
        | true =>
          -- the owed CRLF throws, and there is no later dispatch
          rw [hot, owedText, if_pos rfl, run_crlf_of_init rfl] at hev₂
          have hnil := congrArg Traced.events hev₂
          simp at hnil
        | false =>
          rw [hot, owedText] at hrest₂
          have hrest : scanner.Reads ctx.dispatched (ws ++ x) hist₂ evs₂ c b := hrest₂
          have hfit' : (ws ++ x).length < 2 ^ 63 := by
            rw [List.length_append] at hfit
            omega
          have hcount' : evs₂.length < rs.length := by
            rw [List.length_append, List.length_singleton, List.length_cons] at hcount
            omega
          obtain ⟨htail, hpre⟩ := ih rfl rfl hfit' hrest hcount'
          refine ⟨?_, hpre⟩
          rw [List.append_assoc, List.cons_append, ← List.singleton_append, ← List.append_assoc]
          refine bookHistory_append.mpr ⟨hbook₁, ?_⟩
          rwa [owedAfter_append, show owedAfter (owedAfter false g) [(c₁, t₁)] = false from
            howed.trans hot]
    · -- a dispatch before the first one
      cases hr₃ with
      | refl _ _ =>
        obtain ⟨rfl, rfl⟩ := Prod.mk.inj (Option.some.inj (hcut.symm.trans hcut₁))
        rw [List.append_nil] at hbook₁
        exact ⟨hbook₁, hpre₁⟩
      | @step _ c₂ _ _ t₂ r₂ _ ev₂ evs₂ hist₂ hcut₂ hstep₂ hrest₂ =>
        obtain ⟨rfl, rfl⟩ := Prod.mk.inj (Option.some.inj (hcut.symm.trans hcut₂))
        obtain ⟨rfl, -⟩ := Traced.mk.inj (hs.symm.trans hstep₂)
        simp at he

/-- **Grammatical, so by the book.** -/
theorem goesByTheBook_of_grammatical {sessionId : Int32} {readingStrSize : UInt64} {s : Bytes}
    (hfit : s.length < 2 ^ 62) (h : Grammatical sessionId readingStrSize s) : GoesByTheBook s := by
  intro ph b t rest hL hcut hle hline
  have hI : EmptyAtInit (.new sessionId readingStrSize) := fun _ => rfl
  obtain ⟨hist, calls, c, hr, rfl, hIc, hsmall⟩ :=
    hL.exists_reads (show (DecodeContext.new sessionId readingStrSize).phase = .header from rfl) hI
  obtain ⟨ev, c', hd, hph⟩ := hline.exists_handles rfl hIc
  obtain ⟨call, rfl⟩ := exists_call_of_header hd hph
  have hs := step_eq_ok_iff.mpr hd
  have hcut' := (cut_eq c b).trans hcut
  -- the stream is read up to the line, then the line, then what is left
  obtain ⟨chunks, hchunks, -, hall, hbuf⟩ := exists_chunks_of_reads hr rfl hsmall
  obtain ⟨hb, hone⟩ := cut_line_of_cut hcut'
  have hlen : (t ++ crlf).length = t.length + 2 := List.length_append
  have hread : ∃ evs, (receive c (t ++ crlf)).events = call :: evs := by
    have hdecode : receive c (t ++ crlf) = decode (c.withBuffer (t ++ crlf)) := by
      conv_lhs => rw [← c.withBuffer_bufferedInput, hbuf]
      rw [receive_eq_decode, List.nil_append]
    rw [hdecode, decode_withBuffer, List.take_of_length_le (by omega), scanner.run_step hone hs,
      scanner.run_of_none (cutCrlf_of_length_le (Nat.zero_le _))]
    exact ⟨_, rfl⟩
  obtain ⟨evs, hevs⟩ := hread
  obtain ⟨w, t', ht', hw, htext, -⟩ := h (chunks ++ [t ++ crlf] ++ [rest]) (by
    rw [List.flatten_append, List.flatten_append, List.flatten_singleton, List.flatten_singleton,
      List.append_assoc, ← hb, hchunks]) _ rfl
  have hcount : calls.length < ((receiveAll (.new sessionId readingStrSize)
      (chunks ++ [t ++ crlf] ++ [rest])).events.map HandlerCall.request).length := by
    rw [receiveAll_append, receiveAll_concat, hall, bind_assoc, Traced.ok_bind, List.length_map,
      List.length_append]
    cases hout : receive c (t ++ crlf) with
    | mk calls' out =>
      rw [hout] at hevs
      subst hevs
      cases out with
      | error e =>
        rw [Traced.error_bind, List.length_cons]
        omega
      | ok ctx =>
        rw [Traced.ok_bind, List.length_append, List.length_cons]
        omega
  obtain ⟨x, hx⟩ := hw
  have hlen' : t'.length ≤ 2 := ht'.length_le
  have hr' := hr.append t'
  rw [← hx] at hr'
  obtain ⟨hbook, hpre⟩ := byTheBook_of_pipelineText htext rfl rfl
    (by rw [hx, List.length_append]; omega) hr' (scanner.cut_append hcut' t') hs hcount
  obtain ⟨hfront, hlast⟩ := bookHistory_append.mp hbook
  refine ⟨owedAfter false hist, bookLines_of_reads hr hI hsmall hfront, hlast.1, fun ho => ?_⟩
  exact List.prefix_or_prefix_of_prefix (List.prefix_append rest t') (hpre ho)

/-- **The decoder dispatches only what its grammar allows, exactly as long as
every request is completed by the book.** For the second half the stream is no
longer than a process reads, so that no list grows to the `size_t` of a
negative number. -/
theorem grammatical_iff (sessionId : Int32) (readingStrSize : UInt64) (s : Bytes) :
    (GoesByTheBook s → Grammatical sessionId readingStrSize s)
      ∧ (s.length < 2 ^ 62 → Grammatical sessionId readingStrSize s → GoesByTheBook s) :=
  ⟨grammatical_of_goesByTheBook, goesByTheBook_of_grammatical⟩

/-- A request under a header that is no array header is dispatched. -/
theorem not_grammatical_statusHeader :
    ¬ Grammatical 3 0 (ofString "+1\r\n$4\r\nPING\r\n") := by
  intro h
  have hcalls : (receiveAll (.new 3 0) [ofString "+1\r\n$4\r\nPING\r\n"]).events.map
      HandlerCall.request = [[ofString "PING"]] := by decide +kernel
  obtain ⟨w, t, -, hw, htext, -⟩ := h _ List.flatten_singleton _ rfl
  rw [hcalls] at htext
  have hhead := htext.head? (List.cons_ne_nil _ _)
  obtain ⟨u, rfl⟩ := List.head?_eq_some_iff.mp hhead
  obtain ⟨x, hx⟩ := hw
  exact absurd (List.cons_eq_cons.mp hx).1 (by decide)

end SimpleResp
