import RedisProxy.StreamLines

/-!
# Well-formed requests and how the decoder reads them

A request on the wire is an array header and its elements, each a bulk string
with its length in front or an integer token. `RequestText w r` says that the
byte string `w` is such a text of the request `r`; lengths may be written with
any digits of the right value.

A line is *by the book* if it is what the grammar puts where it stands
(`ByTheBook`), and a reading is if all its tokens are (`BookReads`). The
decoder reads a well-formed text by the book, in front of anything: there is
one lemma per kind of token, each stating the handler calls made and the
context left, and they compose to the request (`bookDispatch_request`).

A bulk string of length zero needs care. Its element is complete with its
length line, and its own CRLF is met as a token of its own, which the decoder
*owes* until then. Where the request goes on, that empty token is passed over;
where the request is complete, the decoder is back in the state `init`, and
`stoiTail` throws on it (`run_crlf_of_init`).
-/

namespace SimpleResp

open Bytes

/-! ## The grammar of requests -/

/-- The text of an integer: an optional sign and digits. -/
def IntegerText (t : Bytes) : Prop :=
  ∃ sign ds, (sign = [] ∨ sign = ofString "-" ∨ sign = ofString "+") ∧ Digits ds
    ∧ t = sign ++ ds

/-- **The text of one element**: a bulk string, giving its payload, or an
integer, giving the token. -/
inductive ElementText : Bytes → Bytes → Prop where
  | bulk {ds p : Bytes} (hd : Digits ds) (hlen : digitsValue ds = p.length) :
      ElementText (ofString "$" ++ ds ++ crlf ++ p ++ crlf) p
  | integer {t : Bytes} (ht : IntegerText t) :
      ElementText (ofString ":" ++ t ++ crlf) (ofString ":" ++ t)

/-- The texts of several elements, one after the other. -/
inductive ElementsText : Bytes → List Bytes → Prop where
  | nil : ElementsText [] []
  | cons {w ws a : Bytes} {as : List Bytes} (h : ElementText w a) (hs : ElementsText ws as) :
      ElementsText (w ++ ws) (a :: as)

/-- **The text of a request**: the number of its elements, then the elements.
A request has at least one element. -/
inductive RequestText : Bytes → List Bytes → Prop where
  | mk {ds body : Bytes} {r : List Bytes} (hne : r ≠ []) (hd : Digits ds)
      (hlen : digitsValue ds = r.length) (hbody : ElementsText body r) :
      RequestText (ofString "*" ++ ds ++ crlf ++ body) r

/-! ## Readings by the book -/

/-- Whether an element is expected. -/
def Phase.isElement : Phase → Bool
  | header => false
  | element _ _ => true
  | payload _ _ _ => false

/-- The line is the length line of an empty bulk string, and the CRLF of the
empty payload is still to come. -/
def Phase.owes (ph : Phase) (line : Bytes) : Bool :=
  decide (ph.isElement = true ∧ line.headD 0 = RespType.bulkStrings.code
    ∧ stoiTail line = .ok 0)

/-- **The line the grammar puts here**: the empty one where one is owed,
else a header that announces some elements, a length line or an integer, a
payload of the announced length. -/
def Phase.ByTheBook (owed : Bool) (ph : Phase) (line : Bytes) : Prop :=
  if owed then line = []
  else
    match ph with
    | .header => ∃ ds, Digits ds ∧ digitsValue ds ≠ 0 ∧ line = ofString "*" ++ ds
    | .element _ _ =>
      (∃ ds, Digits ds ∧ line = ofString "$" ++ ds)
        ∨ ∃ t, IntegerText t ∧ line = ofString ":" ++ t
    | .payload _ _ len => line.length = len

theorem isElement_phase_iff {ctx : DecodeContext} :
    ctx.phase.isElement = true ↔ ctx.state = .parseElements := by
  unfold DecodeContext.phase
  cases ctx.state with
  | init => exact iff_of_false nofun nofun
  | parseElements => exact iff_of_true rfl rfl
  | parseBlukStrings => exact iff_of_false nofun nofun

/-- Where a token of the decoder owes a CRLF. -/
def owes (ctx : DecodeContext) (token : Bytes) : Bool := ctx.phase.owes token

/-- **A token by the book**, for the decoder. -/
def ByTheBook (owed : Bool) (ctx : DecodeContext) (token : Bytes) : Prop :=
  ctx.phase.ByTheBook owed token

theorem owes_iff {ctx : DecodeContext} {token : Bytes} :
    owes ctx token = true ↔ ctx.state = .parseElements
      ∧ token.headD 0 = RespType.bulkStrings.code ∧ stoiTail token = .ok 0 := by
  unfold owes Phase.owes
  rw [decide_eq_true_iff, isElement_phase_iff]

theorem byTheBook_init {ctx : DecodeContext} (hs : ctx.state = .init) {token : Bytes} :
    ByTheBook false ctx token
      ↔ ∃ ds, Digits ds ∧ digitsValue ds ≠ 0 ∧ token = ofString "*" ++ ds := by
  unfold ByTheBook Phase.ByTheBook DecodeContext.phase
  rw [hs]
  rfl

theorem byTheBook_parseElements {ctx : DecodeContext} (hs : ctx.state = .parseElements)
    {token : Bytes} : ByTheBook false ctx token
      ↔ (∃ ds, Digits ds ∧ token = ofString "$" ++ ds)
        ∨ ∃ t, IntegerText t ∧ token = ofString ":" ++ t := by
  rw [ByTheBook, phase_parseElements hs]
  rfl

theorem byTheBook_parseBlukStrings {ctx : DecodeContext} (hs : ctx.state = .parseBlukStrings)
    {token : Bytes} : ByTheBook false ctx token ↔ token.length = ctx.readingStrSize.toNat := by
  rw [ByTheBook, phase_parseBlukStrings hs]
  rfl

/-- All tokens of a reading are by the book. -/
def BookHistory : Bool → List (DecodeContext × Bytes) → Prop
  | _, [] => True
  | owed, (ctx, token) :: hist => ByTheBook owed ctx token ∧ BookHistory (owes ctx token) hist

/-- Whether a CRLF is owed behind the tokens of a reading. -/
def owedAfter : Bool → List (DecodeContext × Bytes) → Bool
  | owed, [] => owed
  | _, (ctx, token) :: hist => owedAfter (owes ctx token) hist

theorem owedAfter_append (owed : Bool) (h₁ h₂ : List (DecodeContext × Bytes)) :
    owedAfter owed (h₁ ++ h₂) = owedAfter (owedAfter owed h₁) h₂ := by
  induction h₁ generalizing owed with
  | nil => rfl
  | cons p h₁ ih => exact ih (owes p.1 p.2)

theorem bookHistory_append {owed : Bool} {h₁ h₂ : List (DecodeContext × Bytes)} :
    BookHistory owed (h₁ ++ h₂)
      ↔ BookHistory owed h₁ ∧ BookHistory (owedAfter owed h₁) h₂ := by
  induction h₁ generalizing owed with
  | nil => exact ⟨fun h => ⟨trivial, h⟩, fun h => h.2⟩
  | cons p h₁ ih =>
    show ByTheBook owed p.1 p.2 ∧ BookHistory (owes p.1 p.2) (h₁ ++ h₂) ↔ _
    rw [ih, ← and_assoc]
    rfl

/-- **A reading by the book**, from an owed CRLF or none to an owed CRLF or
none. -/
def BookReads (owed : Bool) (ctx : DecodeContext) (b : Bytes) (calls : List HandlerCall)
    (owed' : Bool) (ctx' : DecodeContext) (b' : Bytes) : Prop :=
  ∃ hist, scanner.Reads ctx b hist calls ctx' b' ∧ BookHistory owed hist
    ∧ owedAfter owed hist = owed'

theorem BookReads.refl (owed : Bool) (ctx : DecodeContext) (b : Bytes) :
    BookReads owed ctx b [] owed ctx b :=
  ⟨[], TokenScanner.Reads.refl ctx b, trivial, rfl⟩

theorem BookReads.trans {o₁ o₂ o₃ : Bool} {c₁ c₂ c₃ : DecodeContext} {b₁ b₂ b₃ : Bytes}
    {e₁ e₂ : List HandlerCall} (h : BookReads o₁ c₁ b₁ e₁ o₂ c₂ b₂)
    (h' : BookReads o₂ c₂ b₂ e₂ o₃ c₃ b₃) : BookReads o₁ c₁ b₁ (e₁ ++ e₂) o₃ c₃ b₃ := by
  obtain ⟨hist, hr, hb, ho⟩ := h
  obtain ⟨hist', hr', hb', ho'⟩ := h'
  refine ⟨hist ++ hist', hr.trans hr', bookHistory_append.mpr ⟨hb, ?_⟩, ?_⟩
  · rwa [ho]
  · rw [owedAfter_append, ho, ho']

theorem BookReads.reads {o o' : Bool} {c c' : DecodeContext} {b b' : Bytes}
    {calls : List HandlerCall} (h : BookReads o c b calls o' c' b') :
    ∃ hist, scanner.Reads c b hist calls c' b' :=
  h.imp fun _ h => h.1

/-- One token by the book. -/
theorem BookReads.single {o : Bool} {c c' : DecodeContext} {b t r : Bytes}
    {calls : List HandlerCall} (hcut : scanner.cut c b = some (t, r))
    (hs : step c t = ⟨calls, .ok c'⟩) (hb : ByTheBook o c t) :
    BookReads o c b calls (owes c t) c' r :=
  ⟨_, TokenScanner.Reads.single hcut hs, ⟨hb, trivial⟩, rfl⟩

/-! ## One token -/

theorem threshold_init {ctx : DecodeContext} (h : ctx.state = .init) : threshold ctx = 0 := by
  rw [threshold, h]

theorem threshold_parseElements {ctx : DecodeContext} (h : ctx.state = .parseElements) :
    threshold ctx = 0 := by
  rw [threshold, h]

theorem threshold_parseBlukStrings {ctx : DecodeContext} (h : ctx.state = .parseBlukStrings) :
    threshold ctx = ctx.readingStrSize.toNat := by
  rw [threshold, h]

/-- Outside a bulk string a line is one token. -/
theorem cut_line {ctx : DecodeContext} (hth : threshold ctx = 0) {t : Bytes} (ht : NoCrlf t)
    (r : Bytes) : scanner.cut ctx (t ++ crlf ++ r) = some (t, r) := by
  show cutCrlf (threshold ctx) _ = _
  rw [hth]
  exact cutCrlf_line ht r

/-- A line by the book. -/
theorem bookReads_line {o : Bool} {ctx ctx' : DecodeContext} {t : Bytes}
    {calls : List HandlerCall} (hth : threshold ctx = 0) (ht : NoCrlf t)
    (hd : Handles ctx t calls ctx') (hb : ByTheBook o ctx t) (rest : Bytes) :
    BookReads o ctx (t ++ crlf ++ rest) calls (owes ctx t) ctx' rest :=
  BookReads.single (cut_line hth ht rest) (step_eq_ok_iff.mpr hd) hb

/-- What the number behind a token's first character is, where that is
digits. -/
theorem stoiTail_of_digits (c : UInt8) {ds : Bytes} (hd : Digits ds)
    (hlt : digitsValue ds < 2 ^ 31) : stoiTail (c :: ds) = .ok (digitsValue ds : ℤ) := by
  rw [stoiTail_cons, stoi_of_digits hd hlt]

/-- The marker of a token in front of digits makes no CRLF. -/
theorem noCrlf_marker {m ds : Bytes} (hm : cr ∉ m) (hd : Digits ds) : NoCrlf (m ++ ds) :=
  noCrlf_of_notMem (fun h => (List.mem_append.mp h).elim hm hd.cr_notMem)

/-- Integers hold no carriage return. -/
theorem IntegerText.cr_notMem {t : Bytes} (h : IntegerText t) : cr ∉ t := by
  obtain ⟨sign, ds, hsign, hd, rfl⟩ := h
  rw [List.mem_append, not_or]
  refine ⟨?_, hd.cr_notMem⟩
  rcases hsign with rfl | rfl | rfl <;> decide

theorem owes_of_state {ctx : DecodeContext} (h : ctx.state ≠ .parseElements) (t : Bytes) :
    owes ctx t = false :=
  eq_false_of_ne_true fun ho => h (owes_iff.mp ho).1

/-- A length line owes a CRLF exactly if the length is zero. -/
theorem owes_length {ctx : DecodeContext} (hs : ctx.state = .parseElements) {ds : Bytes}
    (hd : Digits ds) (hlt : digitsValue ds < 2 ^ 31) :
    owes ctx (ofString "$" ++ ds) = decide (digitsValue ds = 0) := by
  have htail : stoiTail (ofString "$" ++ ds) = .ok (digitsValue ds : ℤ) :=
    stoiTail_of_digits 36 hd hlt
  refine Bool.eq_iff_iff.mpr (owes_iff.trans (Iff.trans ?_ decide_eq_true_iff.symm))
  refine ⟨fun ho => ?_, fun hz => ⟨hs, rfl, by rw [htail, hz]; rfl⟩⟩
  have h := htail.symm.trans ho.2.2
  exact_mod_cast Except.ok.inj h

/-- **An array header.** -/
theorem bookReads_header {ctx : DecodeContext} (hs : ctx.state = .init) {ds : Bytes}
    (hd : Digits ds) (hlt : digitsValue ds < 2 ^ 31) (hne : digitsValue ds ≠ 0)
    (rest : Bytes) :
    BookReads false ctx (ofString "*" ++ ds ++ crlf ++ rest) [] false
      (ctx.opened (digitsValue ds)) rest := by
  have hb : ByTheBook false ctx (ofString "*" ++ ds) := (byTheBook_init hs).mpr ⟨ds, hd, hne, rfl⟩
  have h := bookReads_line (threshold_init hs) (noCrlf_marker (by decide) hd)
    (Handles.header hs (stoiTail_of_digits 42 hd hlt)) hb rest
  rwa [owes_of_state (by rw [hs]; decide)] at h

/-- A length line is by the book wherever an element is expected. -/
theorem byTheBook_length {ctx : DecodeContext} (hs : ctx.state = .parseElements) {ds : Bytes}
    (hd : Digits ds) : ByTheBook false ctx (ofString "$" ++ ds) :=
  (byTheBook_parseElements hs).mpr (Or.inl ⟨ds, hd, rfl⟩)

/-- **The length line of a bulk string that is not empty.** -/
theorem bookReads_length {ctx : DecodeContext} (hs : ctx.state = .parseElements) {ds : Bytes}
    (hd : Digits ds) (hlt : digitsValue ds < 2 ^ 31) (hpos : digitsValue ds ≠ 0)
    (rest : Bytes) :
    BookReads false ctx (ofString "$" ++ ds ++ crlf ++ rest) [] false
      (ctx.awaiting (digitsValue ds)) rest := by
  have h := bookReads_line (threshold_parseElements hs) (noCrlf_marker (by decide) hd)
    (Handles.bulk hs rfl (stoiTail_of_digits 36 hd hlt) (by exact_mod_cast hpos))
    (byTheBook_length hs hd) rest
  rwa [owes_length hs hd hlt, decide_eq_false hpos] at h

/-- **The payload of a bulk string**, whatever bytes it has. -/
theorem bookReads_payload {ctx : DecodeContext} (hs : ctx.state = .parseBlukStrings) {p : Bytes}
    (hsize : ctx.readingStrSize.toNat = p.length) (rest : Bytes) :
    BookReads false ctx (p ++ crlf ++ rest) (ctx.pushCalls p) false (ctx.pushed p) rest := by
  have hcut : scanner.cut ctx (p ++ crlf ++ rest) = some (p, rest) := by
    show cutCrlf (threshold ctx) _ = _
    rw [threshold_parseBlukStrings hs, hsize]
    exact cutCrlf_payload p rest
  have hb : ByTheBook false ctx p := (byTheBook_parseBlukStrings hs).mpr hsize.symm
  have h := BookReads.single hcut (step_eq_ok_iff.mpr (Handles.payload hs hsize.symm)) hb
  rwa [owes_of_state (by rw [hs]; decide)] at h

/-- The token of an empty bulk string's length line. -/
theorem handles_emptyLength {ctx : DecodeContext} (hs : ctx.state = .parseElements)
    {ds : Bytes} (hd : Digits ds) (hzero : digitsValue ds = 0) :
    Handles ctx (ofString "$" ++ ds) (ctx.pushCalls []) (ctx.pushed []) := by
  refine Handles.emptyBulk hs rfl ?_
  have h := stoiTail_of_digits 36 hd (by omega)
  rw [hzero] at h
  exact h

/-- **An integer element.** -/
theorem bookReads_integer {ctx : DecodeContext} (hs : ctx.state = .parseElements) {t : Bytes}
    (ht : IntegerText t) (rest : Bytes) :
    BookReads false ctx (ofString ":" ++ t ++ crlf ++ rest) [] false
      (ctx.collected (ofString ":" ++ t)) rest := by
  have hno : NoCrlf (ofString ":" ++ t) :=
    noCrlf_of_notMem (fun h => (List.mem_append.mp h).elim (by decide) ht.cr_notMem)
  have hb : ByTheBook false ctx (ofString ":" ++ t) :=
    (byTheBook_parseElements hs).mpr (Or.inr ⟨t, ht, rfl⟩)
  have h := bookReads_line (threshold_parseElements hs) hno (Handles.integer hs rfl) hb rest
  have hne : RespType.integers.code ≠ RespType.bulkStrings.code := by decide
  rwa [show owes ctx (ofString ":" ++ t) = false from
    eq_false_of_ne_true fun ho => hne (owes_iff.mp ho).2.1] at h

/-- The CRLF owed by an empty payload is passed over inside a request. -/
theorem bookReads_owed {ctx : DecodeContext} (hs : ctx.state = .parseElements) (rest : Bytes) :
    BookReads true ctx (crlf ++ rest) [] false ctx rest := by
  have h := bookReads_line (threshold_parseElements hs) (noCrlf_of_notMem (by decide))
    (Handles.unknown hs (by decide) (by decide)) (show ByTheBook true ctx [] from rfl) rest
  rwa [show owes ctx [] = false from
    eq_false_of_ne_true fun ho => absurd (owes_iff.mp ho).2.1 (by decide)] at h

/-- The empty line is no header: the decoder throws on it. -/
theorem run_crlf_of_init {ctx : DecodeContext} (hs : ctx.state = .init) (rest : Bytes) :
    scanner.run ctx (crlf ++ rest) = ⟨[], .error .outOfRange⟩ := by
  have hcut : scanner.cut ctx (crlf ++ rest) = some ([], rest) :=
    cut_line (t := []) (threshold_init hs) (noCrlf_of_notMem (by decide)) rest
  refine scanner.run_throw hcut ?_
  exact step_eq_error_iff.mpr ⟨rfl, stoiTail_of_nil, Or.inl hs⟩

/-! ## A whole request -/

/-- The context with more elements collected; `reading_str_size` is whatever
the last length line left. -/
def DecodeContext.extended (ctx : DecodeContext) (as : List Bytes) (k : UInt64) :
    DecodeContext :=
  { ctx with readingStrSize := k, reqList := ctx.reqList ++ as }

theorem DecodeContext.extended_extended (ctx : DecodeContext) (as bs : List Bytes)
    (j k : UInt64) : (ctx.extended as j).extended bs k = ctx.extended (as ++ bs) k := by
  unfold DecodeContext.extended
  simp only [List.append_assoc]

theorem DecodeContext.extended_nil (ctx : DecodeContext) :
    ctx.extended [] ctx.readingStrSize = ctx := by
  unfold DecodeContext.extended
  rw [List.append_nil]

/-- An element that leaves the request open only joins the list. -/
theorem DecodeContext.pushed_eq_extended {ctx : DecodeContext} (hs : ctx.state = .parseElements)
    (a : Bytes) (h : ctx.reqList.length + 1 ≠ ctx.readingListSize.toNat) :
    ctx.pushed a = ctx.extended [a] 0 := by
  rw [ctx.pushed_of_ne a h, DecodeContext.extended, hs]

/-- A handler call is still made, so the reading goes on behind what is read
without one. -/
theorem events_of_bookReads {o o' : Bool} {ctx ctx' : DecodeContext} {b b' : Bytes}
    (h : BookReads o ctx b [] o' ctx' b') (hev : (scanner.run ctx b).events ≠ []) :
    (scanner.run ctx' b').events ≠ [] := by
  obtain ⟨hist, hr⟩ := h.reads
  rwa [hr.run_eq] at hev

/-- **A line that is read as a number is one that fits an `int`**, if a
handler call is still made behind it. -/
theorem digitsValue_lt_of_events {ctx : DecodeContext}
    (hs : ctx.state = .init ∨ ctx.state = .parseElements) {ds : Bytes} (hd : Digits ds)
    {c : UInt8} (hc : c ≠ cr) (hbulk : ctx.state = .parseElements → c = 36) {rest : Bytes}
    (hev : (scanner.run ctx (c :: ds ++ crlf ++ rest)).events ≠ []) :
    digitsValue ds < 2 ^ 31 := by
  by_contra hge
  have hth : threshold ctx = 0 := hs.elim threshold_init threshold_parseElements
  have hno : NoCrlf (c :: ds) :=
    noCrlf_of_notMem (fun h => (List.mem_cons.mp h).elim (fun he => hc he.symm) hd.cr_notMem)
  have hstep : step ctx (c :: ds) = ⟨[], .error .outOfRange⟩ := by
    refine step_eq_error_iff.mpr ⟨rfl, ?_, hs.imp_right (fun h => ⟨h, hbulk h⟩)⟩
    rw [stoiTail_cons, stoi_of_digits_of_le hd (by omega)]
  exact hev (by rw [scanner.run_throw (cut_line hth hno rest) hstep])

/-- **A bulk string inside a request**: it joins the list, and nothing else
happens. -/
theorem bookReads_bulk {ctx : DecodeContext} (hs : ctx.state = .parseElements) {ds p : Bytes}
    (hd : Digits ds) (hlen : digitsValue ds = p.length) (hlt : p.length < 2 ^ 31)
    (hopen : ctx.reqList.length + 1 ≠ ctx.readingListSize.toNat) (rest : Bytes) :
    BookReads false ctx (ofString "$" ++ ds ++ crlf ++ (p ++ crlf ++ rest)) [] false
      (ctx.extended [p] 0) rest := by
  rcases eq_or_ne p [] with rfl | hne
  · -- the CRLF of the empty payload is a token of its own
    have hzero : digitsValue ds = 0 := hlen
    have hb := bookReads_line (threshold_parseElements hs) (noCrlf_marker (by decide) hd)
      (handles_emptyLength hs hd hlen) (byTheBook_length hs hd) (crlf ++ rest)
    rw [owes_length hs hd (by omega), decide_eq_true hzero, ctx.pushCalls_of_ne [] hopen,
      DecodeContext.pushed_eq_extended hs [] hopen] at hb
    have hs' : (ctx.extended [[]] 0).state = .parseElements := hs
    exact hb.trans (bookReads_owed hs' rest)
  · have hpos := List.length_pos_of_ne_nil hne
    have hsize : (ctx.awaiting (digitsValue ds)).readingStrSize.toNat = p.length :=
      hlen ▸ toNat_ofInt_natCast (by omega)
    have hpay := bookReads_payload rfl hsize rest
    have hpush : (ctx.awaiting (digitsValue ds)).pushed p = ctx.extended [p] 0 := by
      rw [(ctx.awaiting (digitsValue ds)).pushed_of_ne p hopen, DecodeContext.extended, hs]
      rfl
    rw [(ctx.awaiting (digitsValue ds)).pushCalls_of_ne p hopen, hpush] at hpay
    exact (bookReads_length hs hd (by omega) (by omega) (p ++ crlf ++ rest)).trans hpay

/-- Several elements inside a request: the decoder reads them if their lengths
are small, or if a handler call is still made behind them. -/
theorem bookReads_elements {ctx : DecodeContext} (hs : ctx.state = .parseElements) {w : Bytes}
    {as : List Bytes} (h : ElementsText w as)
    (hopen : ctx.reqList.length + as.length < ctx.readingListSize.toNat) {rest : Bytes}
    (hgo : (∀ a ∈ as, a.length < 2 ^ 31) ∨ (scanner.run ctx (w ++ rest)).events ≠ []) :
    ∃ k, BookReads false ctx (w ++ rest) [] false (ctx.extended as k) rest := by
  induction h generalizing ctx with
  | nil =>
    refine ⟨ctx.readingStrSize, ?_⟩
    rw [ctx.extended_nil]
    exact BookReads.refl false ctx rest
  | @cons w ws a as hw hws ih =>
    rw [List.length_cons] at hopen
    rw [List.append_assoc] at hgo ⊢
    have hone : ∃ k, BookReads false ctx (w ++ (ws ++ rest)) [] false (ctx.extended [a] k)
        (ws ++ rest) := by
      cases hw with
      | @bulk ds p hd hlen =>
        have htext : ofString "$" ++ ds ++ crlf ++ a ++ crlf ++ (ws ++ rest)
            = ofString "$" ++ ds ++ crlf ++ (a ++ crlf ++ (ws ++ rest)) := by
          simp only [List.append_assoc]
        rw [htext] at hgo ⊢
        have hlt : a.length < 2 ^ 31 :=
          hgo.elim (fun hall => hall a List.mem_cons_self)
            (fun hev => hlen ▸ digitsValue_lt_of_events (Or.inr hs) hd (by decide)
              (fun _ => rfl) hev)
        exact ⟨0, bookReads_bulk hs hd hlen hlt (by omega) (ws ++ rest)⟩
      | @integer t ht => exact ⟨ctx.readingStrSize, bookReads_integer hs ht (ws ++ rest)⟩
    obtain ⟨j, hj⟩ := hone
    have hs' : (ctx.extended [a] j).state = .parseElements := hs
    have hopen' : (ctx.extended [a] j).reqList.length + as.length
        < (ctx.extended [a] j).readingListSize.toNat := by
      show (ctx.reqList ++ [a]).length + as.length < ctx.readingListSize.toNat
      rw [List.length_append, List.length_singleton]
      omega
    obtain ⟨k, hk⟩ := ih hs' hopen' (hgo.imp (fun hall b hb => hall b (List.mem_cons_of_mem a hb))
      (events_of_bookReads hj))
    rw [DecodeContext.extended_extended] at hk
    exact ⟨k, hj.trans hk⟩

/-- **A reading by the book up to the token that makes a handler call**, and
what is left behind it. -/
def BookDispatch (ctx : DecodeContext) (b : Bytes) (call : HandlerCall) (owed : Bool)
    (ctx' : DecodeContext) (rest : Bytes) : Prop :=
  ∃ o c b' t, BookReads false ctx b [] o c b' ∧ scanner.cut c b' = some (t, rest)
    ∧ step c t = ⟨[call], .ok ctx'⟩ ∧ ByTheBook o c t ∧ owes c t = owed

/-- The call of a dispatch is made by the reading as a whole. -/
theorem BookDispatch.bookReads {ctx ctx' : DecodeContext} {b rest : Bytes} {call : HandlerCall}
    {owed : Bool} (h : BookDispatch ctx b call owed ctx' rest) :
    BookReads false ctx b [call] owed ctx' rest := by
  obtain ⟨o, c, b', t, hr, hcut, hs, hb, rfl⟩ := h
  exact hr.trans (BookReads.single hcut hs hb)

theorem BookReads.bookDispatch {ctx c ctx' : DecodeContext} {b b' rest : Bytes}
    {call : HandlerCall} {owed : Bool} (h : BookReads false ctx b [] false c b')
    (hd : BookDispatch c b' call owed ctx' rest) : BookDispatch ctx b call owed ctx' rest := by
  obtain ⟨o, d, b'', t, hr, hcut, hs, hb, ho⟩ := hd
  exact ⟨o, d, b'', t, h.trans hr, hcut, hs, hb, ho⟩

/-- What has been read of a payload when its element completes: all of it and
its CRLF, but nothing of an empty payload. -/
def payloadRead (p : Bytes) : Bytes := if p = [] then [] else p ++ crlf

/-- **A bulk string that completes a request** sends it to the handler; if the
payload is empty, its CRLF is still to come. -/
theorem bookDispatch_bulk {ctx : DecodeContext} (hs : ctx.state = .parseElements)
    {ds p : Bytes} (hd : Digits ds) (hlen : digitsValue ds = p.length)
    (hlt : p.length < 2 ^ 31) (hlast : ctx.reqList.length + 1 = ctx.readingListSize.toNat)
    (rest : Bytes) :
    BookDispatch ctx (ofString "$" ++ ds ++ crlf ++ (payloadRead p ++ rest))
      ⟨ctx.lastCommandId, ctx.reqList ++ [p]⟩ (decide (p = [])) ctx.dispatched rest := by
  rcases eq_or_ne p [] with rfl | hne
  · have hzero : digitsValue ds = 0 := hlen
    have hstep := step_eq_ok_iff.mpr (handles_emptyLength hs hd hlen)
    rw [ctx.pushCalls_of_eq [] hlast, ctx.pushed_of_eq [] hlast] at hstep
    rw [payloadRead, if_pos rfl, List.nil_append]
    refine ⟨false, ctx, _, _, BookReads.refl false ctx _,
      cut_line (threshold_parseElements hs) (noCrlf_marker (by decide) hd) rest, hstep,
      byTheBook_length hs hd, ?_⟩
    rw [owes_length hs hd (by omega), decide_eq_true hzero]
    rfl
  · have hpos := List.length_pos_of_ne_nil hne
    have hsize : (ctx.awaiting (digitsValue ds)).readingStrSize.toNat = p.length :=
      hlen ▸ toNat_ofInt_natCast (by omega)
    have hs' : (ctx.awaiting (digitsValue ds)).state = .parseBlukStrings := rfl
    have hstep := step_eq_ok_iff.mpr (Handles.payload hs' hsize.symm)
    rw [(ctx.awaiting (digitsValue ds)).pushCalls_of_eq p hlast,
      (ctx.awaiting (digitsValue ds)).pushed_of_eq p hlast] at hstep
    have hcut : scanner.cut (ctx.awaiting (digitsValue ds)) (p ++ crlf ++ rest)
        = some (p, rest) := by
      show cutCrlf (threshold _) _ = _
      rw [threshold_parseBlukStrings hs', hsize]
      exact cutCrlf_payload p rest
    rw [payloadRead, if_neg hne]
    refine ⟨false, _, _, p, bookReads_length hs hd (by omega) (by omega) _, hcut, hstep, ?_, ?_⟩
    · exact hsize.symm
    · rw [owes_of_state (by rw [hs']; decide), decide_eq_false hne]

/-- **The front of a request** – its header and all elements but the last –
leaves the decoder waiting for the last one. -/
theorem bookReads_front {ctx : DecodeContext} (hs : ctx.state = .init) (hl : ctx.reqList = [])
    {ds w : Bytes} {as : List Bytes} (hd : Digits ds) (hlen : digitsValue ds = as.length + 1)
    (hlt : as.length + 1 < 2 ^ 31) (hw : ElementsText w as) {rest : Bytes}
    (hgo : (∀ a ∈ as, a.length < 2 ^ 31)
      ∨ (scanner.run ctx (ofString "*" ++ ds ++ crlf ++ (w ++ rest))).events ≠ []) :
    ∃ k, BookReads false ctx (ofString "*" ++ ds ++ crlf ++ (w ++ rest)) [] false
      ((ctx.opened (digitsValue ds)).extended as k) rest := by
  have hhead := bookReads_header hs hd (by omega) (by omega) (w ++ rest)
  have hopen : (ctx.opened (digitsValue ds)).reqList.length + as.length
      < (ctx.opened (digitsValue ds)).readingListSize.toNat := by
    have hsize : (ctx.opened (digitsValue ds)).readingListSize.toNat = as.length + 1 :=
      hlen ▸ toNat_ofInt_natCast (by omega)
    have hnil : (ctx.opened (digitsValue ds)).reqList = [] := hl
    rw [hsize, hnil, List.length_nil]
    omega
  obtain ⟨k, hk⟩ := bookReads_elements rfl hw hopen
    (hgo.imp_right (events_of_bookReads hhead))
  exact ⟨k, hhead.trans hk⟩

/-- **A request that ends in a bulk string** goes to the handler, and the
decoder is idle again behind what it has read of the last payload. -/
theorem bookDispatch_request {ctx : DecodeContext} (hs : ctx.state = .init)
    (hl : ctx.reqList = []) {ds w dl p : Bytes} {as : List Bytes} (hd : Digits ds)
    (hlen : digitsValue ds = as.length + 1) (hlt : as.length + 1 < 2 ^ 31)
    (hw : ElementsText w as) (hdl : Digits dl) (hp : digitsValue dl = p.length) (rest : Bytes)
    (hgo : (∀ a ∈ as ++ [p], a.length < 2 ^ 31)
      ∨ (scanner.run ctx (ofString "*" ++ ds ++ crlf ++ (w ++ (ofString "$" ++ dl ++ crlf
        ++ (payloadRead p ++ rest))))).events ≠ []) :
    BookDispatch ctx
      (ofString "*" ++ ds ++ crlf ++ (w ++ (ofString "$" ++ dl ++ crlf
        ++ (payloadRead p ++ rest))))
      ⟨ctx.lastCommandId, as ++ [p]⟩ (decide (p = [])) ctx.dispatched rest := by
  obtain ⟨k, hfront⟩ := bookReads_front hs hl hd hlen hlt hw
    (hgo.imp_left (fun hall a ha => hall a (List.mem_append_left _ ha)))
  have hlast : ((ctx.opened (digitsValue ds)).extended as k).reqList.length + 1
      = ((ctx.opened (digitsValue ds)).extended as k).readingListSize.toNat := by
    have hsize : (ctx.opened (digitsValue ds)).readingListSize.toNat = as.length + 1 :=
      hlen ▸ toNat_ofInt_natCast (by omega)
    show (ctx.reqList ++ as).length + 1 = (ctx.opened (digitsValue ds)).readingListSize.toNat
    rw [hsize, hl, List.nil_append]
  have hplt : p.length < 2 ^ 31 :=
    hgo.elim (fun hall => hall p (List.mem_append_right _ (List.mem_singleton_self p)))
      (fun hev => hp ▸ digitsValue_lt_of_events (Or.inr rfl) hdl (by decide) (fun _ => rfl)
        (events_of_bookReads hfront hev))
  have hdisp := bookDispatch_bulk rfl hdl hp hplt hlast rest
  have hreq : ((ctx.opened (digitsValue ds)).extended as k).reqList = as := by
    show ctx.reqList ++ as = as
    rw [hl, List.nil_append]
  rw [hreq] at hdisp
  exact hfront.bookDispatch hdisp

end SimpleResp
