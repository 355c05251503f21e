import RedisProxy.DecoderScanner

/-!
# The lines of a stream

What a client sends is read line by line: a header, a length line or an integer
ends at the first CRLF, and a payload at the first one behind its announced
length. What a line is, and what is expected behind it, needs no decoder to
say. All there is to remember is a `Phase`, which knows how many elements the
open request announced and has, and the bytes decide the rest (`Line`).

`Lines` are those that the decoder can get to. A line of `2^31` bytes or more
is not found by a position of type `int`, so there is nothing behind one.

The decoder is in one phase all the time, takes off the line of that phase, and
gets to the phase behind it, or throws where there is none (`lines_of_reads`,
`Lines.exists_reads`). And it gets to every line there is, if the stream is cut
into its lines (`exists_chunks_of_reads`).
-/

namespace SimpleResp

open Bytes

/-! ## Lines -/

/-- What a stream of requests goes on with. -/
inductive Phase where
  /-- An array header. -/
  | header
  /-- An element of a request that announced `size` of them and has `got`. -/
  | element (size got : ℕ)
  /-- The `len` bytes of a bulk string in such a request. -/
  | payload (size got len : ℕ)
  deriving DecidableEq

namespace Phase

/-- Where the terminator of the next line may stand. -/
def reach : Phase → ℕ
  | header => 0
  | element _ _ => 0
  | payload _ _ len => len

/-- The next line, and what stands behind its CRLF. -/
def cut (ph : Phase) (b : Bytes) : Option (Bytes × Bytes) := cutCrlf ph.reach b

/-- The phase behind a bulk string, the `got`-th element of its request. -/
def behindBulk (size got : ℕ) : Phase := if got = size then header else element size got

end Phase

/-- An `int` taken for a `size_t`. -/
def sizeOfInt (n : ℤ) : ℕ := (n % 2 ^ 64).toNat

/-- **What a line is where it stands**, and what is expected behind it. -/
inductive Line : Phase → Bytes → Phase → Prop where
  /-- A header line, with any first character and a number behind it. -/
  | header {c : UInt8} {t : Bytes} {n : ℤ} (hn : stoi t = .ok n) :
      Line .header (c :: t) (.element (sizeOfInt n) 0)
  /-- An integer element, whatever it holds. -/
  | integer {size got : ℕ} {t : Bytes} :
      Line (.element size got) (58 :: t) (.element size (got + 1))
  /-- The length line of an empty bulk string. -/
  | emptyBulk {size got : ℕ} {t : Bytes} (hn : stoi t = .ok 0) :
      Line (.element size got) (36 :: t) (.behindBulk size (got + 1))
  /-- The length line of any other bulk string. -/
  | bulk {size got : ℕ} {t : Bytes} {n : ℤ} (hn : stoi t = .ok n) (hne : n ≠ 0) :
      Line (.element size got) (36 :: t) (.payload size got (sizeOfInt n))
  /-- A line with another first character, or none, where an element is
  expected. -/
  | unknown {size got : ℕ} {t : Bytes} (hint : t.head? ≠ some 58) (hbulk : t.head? ≠ some 36) :
      Line (.element size got) t (.element size got)
  /-- A payload of the announced length. -/
  | payload {size got len : ℕ} {p : Bytes} (hlen : p.length = len) :
      Line (.payload size got len) p (.behindBulk size (got + 1))
  /-- Bytes up to the first CRLF behind the announced length. -/
  | overlong {size got len : ℕ} {p : Bytes} (hlen : p.length ≠ len) :
      Line (.payload size got len) p (.payload size got len)

/-- **Line after line**, each shorter than `2^31` bytes with its CRLF. -/
inductive Lines : Phase → Bytes → Phase → Bytes → Prop where
  /-- None. -/
  | refl (ph : Phase) (b : Bytes) : Lines ph b ph b
  /-- One line, then the others. -/
  | step {ph ph₁ ph₂ : Phase} {b t r b₂ : Bytes} (hcut : ph.cut b = some (t, r))
      (hfit : t.length + 2 < 2 ^ 31) (hline : Line ph t ph₁) (hrest : Lines ph₁ r ph₂ b₂) :
      Lines ph b ph₂ b₂

variable {ph ph₁ ph₂ : Phase} {b b₁ b₂ t r : Bytes}

/-- One line. -/
theorem Lines.single (hcut : ph.cut b = some (t, r)) (hfit : t.length + 2 < 2 ^ 31)
    (hline : Line ph t ph₁) : Lines ph b ph₁ r :=
  Lines.step hcut hfit hline (Lines.refl ph₁ r)

theorem Lines.trans (h : Lines ph b ph₁ b₁) (h' : Lines ph₁ b₁ ph₂ b₂) : Lines ph b ph₂ b₂ := by
  induction h with
  | refl ph b => exact h'
  | step hcut hfit hline _ ih => exact Lines.step hcut hfit hline (ih h')

/-- Lines stay what they are when more arrives. -/
theorem Lines.append (h : Lines ph b ph₁ b₁) (more : Bytes) :
    Lines ph (b ++ more) ph₁ (b₁ ++ more) := by
  induction h with
  | refl ph b => exact Lines.refl ph (b ++ more)
  | step hcut hfit hline _ ih => exact Lines.step (cutCrlf_append hcut more) hfit hline ih

theorem Lines.suffix (h : Lines ph b ph₁ b₁) : b₁ <:+ b := by
  induction h with
  | refl ph b => exact List.suffix_refl b
  | step hcut _ _ _ ih => exact ih.trans (suffix_of_cutCrlf hcut)

/-- Lines were there before what is behind them had arrived. -/
theorem Lines.of_append {more : Bytes} (h : Lines ph (b ++ more) ph₁ (b₁ ++ more)) :
    Lines ph b ph₁ b₁ := by
  generalize hb : b ++ more = c, hb₁ : b₁ ++ more = c₁ at h
  induction h generalizing b with
  | refl ph c =>
    obtain rfl := List.append_cancel_right (hb.trans hb₁.symm)
    exact Lines.refl ph b
  | @step ph ph₁ ph₂ c t r c₂ hcut hfit hline hrest ih =>
    subst hb hb₁
    obtain ⟨u, hu⟩ := hrest.suffix
    rw [← List.append_assoc] at hu
    have hfront : ph.cut b = some (t, u ++ b₁) := cutCrlf_of_append (hu ▸ hcut)
    exact Lines.step hfront hfit hline (ih hu rfl)

/-! ## The phase the decoder is in -/

/-- The phase a decoder context is in. -/
def DecodeContext.phase (ctx : DecodeContext) : Phase :=
  match ctx.state with
  | .init => .header
  | .parseElements => .element ctx.readingListSize.toNat ctx.reqList.length
  | .parseBlukStrings =>
    .payload ctx.readingListSize.toNat ctx.reqList.length ctx.readingStrSize.toNat

theorem reach_phase (ctx : DecodeContext) : ctx.phase.reach = threshold ctx := by
  unfold DecodeContext.phase threshold
  cases ctx.state <;> rfl

theorem phase_parseElements {ctx : DecodeContext} (hs : ctx.state = .parseElements) :
    ctx.phase = .element ctx.readingListSize.toNat ctx.reqList.length := by
  rw [DecodeContext.phase, hs]

theorem phase_parseBlukStrings {ctx : DecodeContext} (hs : ctx.state = .parseBlukStrings) :
    ctx.phase = .payload ctx.readingListSize.toNat ctx.reqList.length
      ctx.readingStrSize.toNat := by
  rw [DecodeContext.phase, hs]

theorem state_of_phase_header {ctx : DecodeContext} (h : ctx.phase = .header) :
    ctx.state = .init := by
  unfold DecodeContext.phase at h
  cases hs : ctx.state <;> simp [hs] at h ⊢

theorem state_of_phase_element {ctx : DecodeContext} {size got : ℕ}
    (h : ctx.phase = .element size got) :
    ctx.state = .parseElements ∧ ctx.readingListSize.toNat = size
      ∧ ctx.reqList.length = got := by
  unfold DecodeContext.phase at h
  cases hs : ctx.state <;> simp [hs] at h ⊢
  exact h

theorem state_of_phase_payload {ctx : DecodeContext} {size got len : ℕ}
    (h : ctx.phase = .payload size got len) :
    ctx.state = .parseBlukStrings ∧ ctx.readingListSize.toNat = size
      ∧ ctx.reqList.length = got ∧ ctx.readingStrSize.toNat = len := by
  unfold DecodeContext.phase at h
  cases hs : ctx.state <;> simp [hs] at h ⊢
  exact h

theorem phase_opened {ctx : DecodeContext} (h : ctx.reqList = []) (n : ℤ) :
    (ctx.opened n).phase = .element (sizeOfInt n) 0 := by
  show Phase.element (UInt64.ofInt n).toNat ctx.reqList.length = _
  rw [toNat_ofInt, h]
  rfl

theorem phase_collected {ctx : DecodeContext} (hs : ctx.state = .parseElements) (t : Bytes) :
    (ctx.collected t).phase
      = .element ctx.readingListSize.toNat (ctx.reqList.length + 1) := by
  unfold DecodeContext.phase
  rw [show (ctx.collected t).state = .parseElements from hs]
  show Phase.element _ (ctx.reqList ++ [t]).length = _
  rw [List.length_append, List.length_singleton]
  rfl

theorem phase_awaiting (ctx : DecodeContext) (n : ℤ) :
    (ctx.awaiting n).phase
      = .payload ctx.readingListSize.toNat ctx.reqList.length (sizeOfInt n) := by
  show Phase.payload _ _ (UInt64.ofInt n).toNat = _
  rw [toNat_ofInt]
  rfl

theorem phase_pushed (ctx : DecodeContext) (t : Bytes) :
    (ctx.pushed t).phase
      = .behindBulk ctx.readingListSize.toNat (ctx.reqList.length + 1) := by
  unfold Phase.behindBulk
  by_cases h : ctx.reqList.length + 1 = ctx.readingListSize.toNat
  · rw [ctx.pushed_of_eq t h, if_pos h]
    rfl
  · rw [ctx.pushed_of_ne t h, if_neg h]
    show Phase.element _ (ctx.reqList ++ [t]).length = _
    rw [List.length_append, List.length_singleton]

/-! ## The decoder reads lines -/

theorem cut_eq (ctx : DecodeContext) (b : Bytes) : scanner.cut ctx b = ctx.phase.cut b :=
  congrArg (cutCrlf · b) (reach_phase ctx).symm

variable {ctx ctx' : DecodeContext} {calls : List HandlerCall}

/-- **A token that is handled is a line.** -/
theorem Handles.line (h : Handles ctx t calls ctx') (hI : EmptyAtInit ctx) :
    Line ctx.phase t ctx'.phase := by
  cases h with
  | header hs hn =>
    obtain ⟨c, u, rfl, hn'⟩ := stoiTail_eq_ok_iff.mp hn
    rw [phase_opened (hI hs), show ctx.phase = .header by rw [DecodeContext.phase, hs]]
    exact Line.header hn'
  | integer hs ht =>
    obtain ⟨u, rfl⟩ := eq_cons_of_headD ht (by decide)
    rw [phase_collected hs, phase_parseElements hs]
    exact Line.integer
  | emptyBulk hs ht hn =>
    obtain ⟨u, rfl⟩ := eq_cons_of_headD ht (by decide)
    rw [phase_pushed, phase_parseElements hs]
    exact Line.emptyBulk (stoiTail_cons _ u ▸ hn)
  | bulk hs ht hn hne =>
    obtain ⟨u, rfl⟩ := eq_cons_of_headD ht (by decide)
    rw [phase_awaiting, phase_parseElements hs]
    exact Line.bulk (stoiTail_cons _ u ▸ hn) hne
  | unknown hs hint hbulk =>
    rw [phase_parseElements hs]
    exact Line.unknown ((head?_ne_iff (by decide)).mpr hint) ((head?_ne_iff (by decide)).mpr hbulk)
  | payload hs hlen =>
    rw [phase_pushed, phase_parseBlukStrings hs]
    exact Line.payload hlen
  | overlong hs hlen =>
    rw [phase_parseBlukStrings hs]
    exact Line.overlong hlen

/-- **A line is handled**, in every context in its phase. -/
theorem Line.exists_handles (h : Line ph t ph₁) (hph : ctx.phase = ph) (hI : EmptyAtInit ctx) :
    ∃ calls ctx', Handles ctx t calls ctx' ∧ ctx'.phase = ph₁ := by
  cases h with
  | @header c t n hn =>
    have hs := state_of_phase_header hph
    exact ⟨[], _, Handles.header hs (stoiTail_eq_ok_iff.mpr ⟨c, t, rfl, hn⟩),
      phase_opened (hI hs) n⟩
  | integer =>
    obtain ⟨hs, rfl, rfl⟩ := state_of_phase_element hph
    exact ⟨[], _, Handles.integer hs rfl, phase_collected hs _⟩
  | @emptyBulk size got t hn =>
    obtain ⟨hs, rfl, rfl⟩ := state_of_phase_element hph
    exact ⟨_, _, Handles.emptyBulk hs rfl (stoiTail_eq_ok_iff.mpr ⟨36, t, rfl, hn⟩),
      phase_pushed ctx _⟩
  | @bulk size got t n hn hne =>
    obtain ⟨hs, rfl, rfl⟩ := state_of_phase_element hph
    exact ⟨[], _, Handles.bulk hs rfl (stoiTail_eq_ok_iff.mpr ⟨36, t, rfl, hn⟩) hne,
      phase_awaiting ctx n⟩
  | unknown hint hbulk =>
    obtain ⟨hs, rfl, rfl⟩ := state_of_phase_element hph
    exact ⟨[], _, Handles.unknown hs ((head?_ne_iff (by decide)).mp hint)
      ((head?_ne_iff (by decide)).mp hbulk), hph⟩
  | payload hlen =>
    obtain ⟨hs, rfl, rfl, rfl⟩ := state_of_phase_payload hph
    exact ⟨_, _, Handles.payload hs hlen, phase_pushed ctx _⟩
  | overlong hlen =>
    obtain ⟨hs, rfl, rfl, rfl⟩ := state_of_phase_payload hph
    exact ⟨[], _, Handles.overlong hs hlen, hph⟩

variable {hist : List (DecodeContext × Bytes)}

/-- **What has been read is lines**, if it is shorter than `2^31` bytes or there is more. -/
theorem lines_of_reads (h : scanner.Reads ctx b hist calls ctx' r) (hI : EmptyAtInit ctx)
    (hfit : b.length < 2 ^ 31 + r.length) : Lines ctx.phase b ctx'.phase r := by
  induction h with
  | refl ctx b => exact Lines.refl ctx.phase b
  | @step ctx ctx₁ ctx₂ b t r b₂ ev evs hist hcut hstep hrest ih =>
    have hlen := length_of_cutCrlf hcut
    have hle := hrest.suffix.length_le
    refine Lines.step (cut_eq ctx b ▸ hcut) (by omega) ((step_eq_ok_iff.mp hstep).line hI) ?_
    exact ih (hI.step hstep) (by omega)

/-- What there are positions for is read line by line, if the end of it is not the end of a
line, or there is nothing behind it. -/
theorem lines_of_reads_take (h : scanner.Reads ctx (b.take (2 ^ 31)) hist calls ctx' r)
    (hI : EmptyAtInit ctx) (hmore : 2 ^ 31 ≤ b.length → r ≠ []) :
    Lines ctx.phase b ctx'.phase (r ++ b.drop (2 ^ 31)) := by
  have hlen : (b.take (2 ^ 31)).length = min (2 ^ 31) b.length := List.length_take
  have hfit : (b.take (2 ^ 31)).length < 2 ^ 31 + r.length := by
    by_cases hlong : 2 ^ 31 ≤ b.length
    · have hpos := List.length_pos_of_ne_nil (hmore hlong)
      omega
    · omega
  have hlines := (lines_of_reads h hI hfit).append (b.drop (2 ^ 31))
  rwa [List.take_append_drop] at hlines

/-- **One read reads lines**, and keeps what is behind them. -/
theorem exists_lines_of_receive {command : Bytes} (hI : EmptyAtInit ctx)
    (h : receive (ctx.withBuffer b) command = ⟨calls, .ok ctx'⟩) :
    ∃ hist c r, ctx' = c.withBuffer r ∧ scanner.Reads ctx (b ++ command) hist calls c r
      ∧ Lines ctx.phase (b ++ command) c.phase r ∧ EmptyAtInit c := by
  rw [receive_eq_decode, decode_withBuffer] at h
  obtain ⟨ev, ⟨c, r⟩, ev', hrun, hkeep, rfl⟩ := Traced.bind_eq_ok_iff.mp h
  obtain ⟨⟨hist, hr⟩, -⟩ := TokenScanner.run_eq_ok_iff.mp hrun
  have hout := congrArg Traced.outcome hkeep
  have hmore : 2 ^ 31 ≤ (b ++ command).length → r ≠ [] := by
    intro hlong hnil
    rw [keep, if_pos ⟨hlong, Or.inl hnil⟩] at hout
    cases hout
  have hev : ev' = [] := (congrArg Traced.events hkeep).symm.trans (events_keep _ _)
  have hall := hr.append ((b ++ command).drop (2 ^ 31))
  rw [List.take_append_drop] at hall
  rw [hev, List.append_nil]
  exact ⟨hist, c, _, keep_eq_ok hout, hall, lines_of_reads_take hr hI hmore,
    hr.invariant (fun _ _ _ _ hI hs => hI.step hs) hI⟩

/-- **Lines are read**, from every context in the phase they start with. -/
theorem Lines.exists_reads (h : Lines ph b ph₁ b₁) (hph : ctx.phase = ph) (hI : EmptyAtInit ctx) :
    ∃ hist calls ctx', scanner.Reads ctx b hist calls ctx' b₁ ∧ ctx'.phase = ph₁
      ∧ EmptyAtInit ctx' ∧ ∀ p ∈ hist, p.2.length + 2 < 2 ^ 31 := by
  induction h generalizing ctx with
  | refl ph b => exact ⟨[], [], ctx, .refl ctx b, hph, hI, fun p hp => absurd hp List.not_mem_nil⟩
  | @step ph ph₁ ph₂ b t r b₂ hcut hfit hline _ ih =>
    obtain ⟨ev, ctx₁, hd, hph₁⟩ := hline.exists_handles hph hI
    have hstep := step_eq_ok_iff.mpr hd
    obtain ⟨hist, calls, ctx₂, hr, hph₂, hI₂, hsmall⟩ := ih hph₁ (hI.step hstep)
    refine ⟨_, _, ctx₂, .step ((cut_eq ctx b).trans (hph ▸ hcut)) hstep hr, hph₂, hI₂, ?_⟩
    exact List.forall_mem_cons.mpr ⟨hfit, hsmall⟩

/-! ## Requests that are completed -/

/-- **A handler call completes a request**, and is the only one of its
token. -/
theorem exists_call_of_step (hs : step ctx t = ⟨calls, .ok ctx'⟩) (hne : calls ≠ []) :
    (∃ call, calls = [call]) ∧ ctx' = ctx.dispatched := by
  have hpush : ∀ a, ctx.pushCalls a ≠ [] →
      (∃ call, ctx.pushCalls a = [call]) ∧ ctx.pushed a = ctx.dispatched := by
    intro a ha
    by_cases hl : ctx.reqList.length + 1 = ctx.readingListSize.toNat
    · exact ⟨⟨_, ctx.pushCalls_of_eq a hl⟩, ctx.pushed_of_eq a hl⟩
    · exact absurd (ctx.pushCalls_of_ne a hl) ha
  cases step_eq_ok_iff.mp hs with
  | header _ _ => exact absurd rfl hne
  | integer _ _ => exact absurd rfl hne
  | emptyBulk _ _ _ => exact hpush [] hne
  | bulk _ _ _ _ => exact absurd rfl hne
  | unknown _ _ _ => exact absurd rfl hne
  | payload _ _ => exact hpush t hne
  | overlong _ _ => exact absurd rfl hne

/-- **A token behind which a header is expected** has made a handler call. -/
theorem exists_call_of_header (hd : Handles ctx t calls ctx') (hph : ctx'.phase = .header) :
    ∃ call, calls = [call] := by
  have hpush : ∀ a, (ctx.pushed a).phase = .header → ∃ call, ctx.pushCalls a = [call] := by
    intro a ha
    rw [phase_pushed, Phase.behindBulk] at ha
    by_cases hl : ctx.reqList.length + 1 = ctx.readingListSize.toNat
    · exact ⟨_, ctx.pushCalls_of_eq a hl⟩
    · rw [if_neg hl] at ha
      cases ha
  have hs := state_of_phase_header hph
  cases hd with
  | header _ _ => cases hs
  | integer hst _ => cases hst.symm.trans hs
  | emptyBulk _ _ _ => exact hpush [] hph
  | bulk _ _ _ _ => cases hs
  | unknown hst _ _ => cases hst.symm.trans hs
  | payload _ _ => exact hpush t hph
  | overlong hst _ => cases hst.symm.trans hs

/-- The last handler call of a run, whether the run throws behind it or not. -/
theorem exists_last_dispatch_of_run (h : (scanner.run ctx b).events ≠ []) :
    ∃ hist calls c b' t rest call c', scanner.Reads ctx b hist calls c b'
      ∧ scanner.cut c b' = some (t, rest) ∧ step c t = ⟨[call], .ok c'⟩
      ∧ (scanner.run ctx b).events = calls ++ [call] := by
  obtain ⟨hist, ctx', b', hr, -⟩ := exists_reads_of_decoder_run ctx b
  obtain ⟨h₁, e₁, c, b₁, t, r, e₂, c', hr₁, hcut, hs, hne, hev⟩ := hr.exists_last h
  obtain ⟨⟨call, rfl⟩, -⟩ := exists_call_of_step hs hne
  exact ⟨h₁, e₁, c, b₁, t, r, call, c', hr₁, hcut, hs, hev⟩

/-- **Handler calls of which the last one is made by a line** of `n` bytes with its CRLF, to which
the lines before it lead. -/
def EndsWithLine (ctx : DecodeContext) (b : Bytes) (n : ℕ) (calls : List HandlerCall) : Prop :=
  ∃ hist calls₁ c b' t rest call c', scanner.Reads ctx b hist calls₁ c b'
    ∧ Lines ctx.phase b c.phase b' ∧ scanner.cut c b' = some (t, rest)
    ∧ step c t = ⟨[call], .ok c'⟩ ∧ t.length + 2 = n ∧ calls = calls₁ ++ [call]

theorem EndsWithLine.append {n : ℕ} (h : EndsWithLine ctx b n calls) (more : Bytes) :
    EndsWithLine ctx (b ++ more) n calls := by
  obtain ⟨hist, calls₁, c, b', t, rest, call, c', hr, hL, hcut, hs, hn, hcalls⟩ := h
  exact ⟨hist, calls₁, c, _, t, _, call, c', hr.append more, hL.append more,
    scanner.cut_append hcut more, hs, hn, hcalls⟩

/-- The last call of one read. -/
theorem exists_endsWithLine_of_receive {command : Bytes} (hI : EmptyAtInit ctx)
    (h : (receive (ctx.withBuffer b) command).events ≠ []) :
    ∃ n ≤ 2 ^ 31, EndsWithLine ctx (b ++ command) n (receive (ctx.withBuffer b) command).events
      ∧ n ≤ (b ++ command).length := by
  have hev : (receive (ctx.withBuffer b) command).events
      = (scanner.run ctx ((b ++ command).take (2 ^ 31))).events := by
    rw [receive_eq_decode, decode_withBuffer]
    cases scanner.run ctx ((b ++ command).take (2 ^ 31)) with
    | mk calls out =>
      cases out with
      | error e => rfl
      | ok p => rw [Traced.ok_bind, events_keep, List.append_nil]
  rw [hev] at h ⊢
  obtain ⟨hist, calls₁, c, b', t, rest, call, c', hr, hcut, hs, hlast⟩ :=
    exists_last_dispatch_of_run h
  have hlen : ((b ++ command).take (2 ^ 31)).length = min (2 ^ 31) (b ++ command).length :=
    List.length_take
  have hle := hr.suffix.length_le
  have hcutlen := length_of_cutCrlf hcut
  have hends : EndsWithLine ctx ((b ++ command).take (2 ^ 31)) (t.length + 2)
      (scanner.run ctx ((b ++ command).take (2 ^ 31))).events :=
    ⟨hist, calls₁, c, b', t, rest, call, c', hr, lines_of_reads hr hI (by omega), hcut, hs, rfl,
      hlast⟩
  have hall := hends.append ((b ++ command).drop (2 ^ 31))
  rw [List.take_append_drop] at hall
  exact ⟨t.length + 2, by omega, hall, by omega⟩

/-- **The last handler call of a sequence of reads** is made by a line that there are positions
for, and for the end of it too if the buffer stays short. -/
theorem exists_endsWithLine {commands : List Bytes} (hI : EmptyAtInit ctx)
    (h : (receiveAll (ctx.withBuffer b) commands).events ≠ []) :
    ∃ n ≤ 2 ^ 31, EndsWithLine ctx (b ++ commands.flatten) n
        (receiveAll (ctx.withBuffer b) commands).events
      ∧ (BuffersFit (ctx.withBuffer b) commands → n < 2 ^ 31) := by
  induction commands generalizing ctx b with
  | nil => exact absurd rfl h
  | cons command commands ih =>
    rw [List.flatten_cons, ← List.append_assoc]
    have hone (hev : (receive (ctx.withBuffer b) command).events ≠ []) :
        ∃ n ≤ 2 ^ 31, EndsWithLine ctx (b ++ command ++ commands.flatten) n
            (receive (ctx.withBuffer b) command).events
          ∧ (BuffersFit (ctx.withBuffer b) (command :: commands) → n < 2 ^ 31) := by
      obtain ⟨n, hn, hends, hle⟩ := exists_endsWithLine_of_receive hI hev
      exact ⟨n, hn, hends.append commands.flatten, fun hfit => hle.trans_lt hfit.1⟩
    cases hread : receive (ctx.withBuffer b) command with
    | mk ev out =>
      rw [receiveAll] at h ⊢
      rw [hread] at hone h ⊢
      cases out with
      | error e => exact hone h
      | ok ctx₁ =>
        rw [Traced.ok_bind] at h ⊢
        obtain ⟨hist₁, c₁, r₁, rfl, hr₁, hL₁, hI₁⟩ := exists_lines_of_receive hI hread
        by_cases hrest : (receiveAll (c₁.withBuffer r₁) commands).events = []
        · rw [hrest, List.append_nil] at h ⊢
          exact hone h
        · -- the call is behind the lines of the first read
          obtain ⟨n, hn, ⟨hist, calls₁, c, b', t, rest, call, c', hr, hL, hcut, hs, hlen, hcalls⟩,
            hlast⟩ := ih hI₁ hrest
          refine ⟨n, hn, ⟨_, ev ++ calls₁, c, b', t, rest, call, c',
            (hr₁.append commands.flatten).trans hr, (hL₁.append commands.flatten).trans hL, hcut,
            hs, hlen, ?_⟩, fun hfit => hlast (hfit.2 _ (by rw [hread]))⟩
          rw [hcalls, List.append_assoc]

/-! ## Streams cut into their lines -/

/-- A line that is still to come is the next one when it has come. -/
theorem cut_line_of_cut (h : scanner.cut ctx b = some (t, r)) :
    b = t ++ crlf ++ r ∧ scanner.cut ctx (t ++ crlf) = some (t, []) := by
  have hb : b = t ++ crlf ++ r := cutCrlf_eq_some h
  subst hb
  exact ⟨rfl, cutCrlf_of_append (r := []) h⟩

/-- **A line read to its end**, if it is short enough, is handled, and nothing else happens. -/
theorem receive_line {e : Bytes} (he : ctx.bufferedInput ++ e = t ++ crlf)
    (hcut : scanner.cut ctx (t ++ crlf) = some (t, []))
    (hstep : step ctx t = ⟨calls, .ok ctx'⟩) (hfit : t.length + 2 < 2 ^ 31) :
    receive ctx e = ⟨calls, .ok (ctx'.withBuffer [])⟩
      ∧ ctx'.bufferedInput = ctx.bufferedInput := by
  have hrun : scanner.run ctx (t ++ crlf) = ⟨calls, .ok (ctx', [])⟩ := by
    rw [scanner.run_step hcut hstep, scanner.run_of_none (cutCrlf_of_length_le (Nat.zero_le _))]
    exact Traced.ext (List.append_nil calls) rfl
  have hlen : (ctx.bufferedInput ++ e).length < 2 ^ 31 := by
    rw [he, List.length_append]
    exact hfit
  have hread := receive_withBuffer ctx hlen
  rw [he, hrun, Traced.ok_map, DecodeContext.withBuffer_bufferedInput] at hread
  exact ⟨hread, bufferedInput_of_run hrun⟩

/-- **Every line is got to**, if the stream is cut into its lines. -/
theorem exists_chunks_of_reads (h : scanner.Reads ctx b hist calls ctx' r)
    (hbuf : ctx.bufferedInput = []) (hsmall : ∀ p ∈ hist, p.2.length + 2 < 2 ^ 31) :
    ∃ chunks : List Bytes, chunks.flatten ++ r = b ∧ BuffersFit ctx chunks
      ∧ receiveAll ctx chunks = ⟨calls, .ok ctx'⟩ ∧ ctx'.bufferedInput = [] := by
  induction h with
  | refl ctx b => exact ⟨[], rfl, trivial, rfl, hbuf⟩
  | @step ctx ctx₁ ctx₂ b t r b₂ ev evs hist hcut hstep _ ih =>
    obtain ⟨hfit, hsmall⟩ := List.forall_mem_cons.mp hsmall
    obtain ⟨rfl, hline⟩ := cut_line_of_cut hcut
    obtain ⟨hread, hkeep⟩ := receive_line (by rw [hbuf, List.nil_append]) hline hstep hfit
    have hbuf₁ := hkeep.trans hbuf
    rw [← hbuf₁, DecodeContext.withBuffer_bufferedInput] at hread
    obtain ⟨chunks, rfl, hfits, hall, hbuf₂⟩ := ih hbuf₁ hsmall
    have hlen : (ctx.bufferedInput ++ (t ++ crlf)).length = t.length + 2 := by
      rw [hbuf, List.nil_append, List.length_append]
      rfl
    refine ⟨(t ++ crlf) :: chunks, ?_, ⟨hlen.trans_lt hfit, fun ctx' hctx' => ?_⟩, ?_, hbuf₂⟩
    · rw [List.flatten_cons, List.append_assoc]
    · rw [hread] at hctx'
      obtain rfl := Except.ok.inj hctx'
      exact hfits
    · rw [receiveAll, hread, Traced.ok_bind, hall]

end SimpleResp
