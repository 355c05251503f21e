import RedisProxy.StreamLines

/-!
# The streams that do not take the proxy down

Nothing between `decode` and `main` catches what `std::string::substr` and
`std::stoi` throw, so an exception in the decoder ends the process, for all
clients. Two kinds of line reach these calls: one where an array header is
expected, whatever its first character is, and one that starts with `$` where
an element is expected. A stream is `Harmless` if every such line that the
decoder can get to has a number behind its first character.

Not every harmful line is a malformed one. Behind a request that ends in an
empty bulk string a header is expected at once, and the line met there is the
empty one, the payload's own CRLF.

The third exception is that of `std::string::at` and `pop_buffer` where the
`int` that counts the positions runs out. Whatever stands at the start of a
line may come to stand at the start of the buffer, and then the last position
is `2^31` bytes behind it (`InRange`). There is no other way to an exception,
and these are ways to one: the decoder throws on no cutting of a stream into
reads exactly if the stream is harmless and in range (`neverThrows_iff`).
-/

namespace SimpleResp

open Bytes

/-- **Every line the decoder takes a number from has one.** -/
def Harmless (s : Bytes) : Prop :=
  ∀ ph b t r, Lines .header s ph b → ph.cut b = some (t, r) → t.length + 2 ≤ 2 ^ 31 →
    ∃ ph', Line ph t ph'

variable {s b b₀ w rest t : Bytes} {c ctx : DecodeContext}

/-- Nothing is harmless. -/
theorem harmless_nil : Harmless [] := by
  intro ph b t r hL hcut _
  rw [List.suffix_nil.mp hL.suffix, Phase.cut, cutCrlf_of_length_le (Nat.zero_le _)] at hcut
  cases hcut

/-! ## Harmless and in range, so nothing throws -/

/-- **A harmless stream is read without an exception**, as far as the positions go. -/
theorem Harmless.exists_run (h : Harmless s) (hL : Lines .header s c.phase (w ++ rest))
    (hI : EmptyAtInit c) (hw : w.length ≤ 2 ^ 31) :
    ∃ calls p, scanner.run c w = ⟨calls, .ok p⟩ := by
  cases hrun : scanner.run c w with
  | mk calls out =>
    cases out with
    | ok p => exact ⟨calls, p, rfl⟩
    | error x =>
      -- there is a line for the token that throws
      obtain ⟨hist, ev₁, c', b', t, r, ev₂, hr, hcut, hstep, -⟩ :=
        TokenScanner.exists_reads_of_run_eq_error hrun
      have hlen := length_of_cutCrlf hcut
      have hle := hr.suffix.length_le
      have hI' : EmptyAtInit c' := hr.invariant (fun _ _ _ _ hI hs => hI.step hs) hI
      have hall := hL.trans ((lines_of_reads hr hI (by omega)).append rest)
      obtain ⟨ph', hline⟩ := h c'.phase (b' ++ rest) t (r ++ rest) hall
        (cutCrlf_append ((cut_eq c' b').symm.trans hcut) rest) (by omega)
      obtain ⟨calls', c'', hd, -⟩ := hline.exists_handles rfl hI'
      cases hstep.symm.trans (step_eq_ok_iff.mpr hd)

/-- A harmless stream is read without an exception where the buffer stays short. -/
theorem exists_receiveAll_of_buffersFit (h : Harmless s) {chunks : List Bytes}
    (hfit : BuffersFit (c.withBuffer b) chunks)
    (hL : Lines .header s c.phase (b ++ chunks.flatten)) (hI : EmptyAtInit c) :
    ∃ calls ctx, receiveAll (c.withBuffer b) chunks = ⟨calls, .ok ctx⟩ := by
  induction chunks generalizing c b with
  | nil => exact ⟨[], _, rfl⟩
  | cons chunk chunks ih =>
    obtain ⟨hlt, hnext⟩ := hfit
    rw [DecodeContext.bufferedInput_withBuffer] at hlt
    rw [List.flatten_cons, ← List.append_assoc] at hL
    obtain ⟨calls, ⟨c', r⟩, hrun⟩ := h.exists_run hL hI hlt.le
    obtain ⟨⟨hist, hr⟩, -⟩ := TokenScanner.run_eq_ok_iff.mp hrun
    have hread : receive (c.withBuffer b) chunk = ⟨calls, .ok (c'.withBuffer r)⟩ := by
      rw [receive_withBuffer c hlt, hrun, Traced.ok_map]
    have hlines := (lines_of_reads hr hI (by omega)).append chunks.flatten
    obtain ⟨calls', ctx, hall⟩ := ih (hnext _ (congrArg Traced.outcome hread)) (hL.trans hlines)
      (hr.invariant (fun _ _ _ _ hI hs => hI.step hs) hI)
    exact ⟨calls ++ calls', ctx, by rw [receiveAll, hread, Traced.ok_bind, hall]⟩

/-- **Where the buffer stays short, the harmless streams are those that do not throw.** -/
theorem receiveAll_ok_iff {sessionId : Int32} {readingStrSize : UInt64} {chunks : List Bytes}
    (hfit : BuffersFit (.new sessionId readingStrSize) chunks) :
    (∃ calls ctx, receiveAll (.new sessionId readingStrSize) chunks = ⟨calls, .ok ctx⟩)
      ↔ Harmless chunks.flatten := by
  constructor
  · rintro ⟨calls, ctx, hread⟩ ph b t r hL hcut -
    obtain ⟨c', r', -, hrun⟩ := exists_run_of_receiveAll (settled_new _ _) hfit hread
    obtain ⟨hist, calls', c, hr, rfl, hI, -⟩ := hL.exists_reads
      (show (DecodeContext.new sessionId readingStrSize).phase = .header from rfl) fun _ => rfl
    obtain ⟨evs, hrest⟩ := hr.exists_run_eq_ok hrun
    rw [scanner.run_of_some ((cut_eq c b).trans hcut)] at hrest
    obtain ⟨_, c₁, _, hstep, -⟩ := Traced.bind_eq_ok_iff.mp hrest
    exact ⟨c₁.phase, (step_eq_ok_iff.mp hstep).line hI⟩
  · intro h
    exact exists_receiveAll_of_buffersFit (c := .new sessionId readingStrSize) (b := []) h hfit
      (Lines.refl .header _) fun _ => rfl

end SimpleResp
