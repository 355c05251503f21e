import RedisProxy.StreamLines

/-!
# The connections that can still dispatch

A request is dispatched when the number of collected elements *equals* the
number announced, and only the completion of a bulk string looks. So a
connection is wedged for good once equality is out of reach: when an integer
element reached the announced number unnoticed, when nothing or a negative
number was announced – a `size_t` no list grows to – or when the length of the
open bulk string is negative, or so large that the `int` that counts the
positions does not get to the end of it. It is as good as wedged already when
the line still arriving can only have one of these effects.

`Recoverable` says of a phase, and of what has arrived of its line, that none
of this is the case, and a connection that earlier reads left behind can
dispatch another request exactly if it holds (`canDispatch_iff`). Both are
matters of lines alone: a request is dispatched where lines lead back to the
header of the next one (`Completes`).

Being out of reach is a matter of size. What the process holds, collected
elements and bytes together, stays below `2^63`, and the announced number is
then either passed already or further away than any input takes it.
-/

namespace SimpleResp

open Bytes

/-! ## What can still be dispatched -/

/-- How many elements the open request has announced. -/
def Phase.size : Phase → ℕ
  | header => 0
  | element size _ => size
  | payload size _ _ => size

/-- How many elements it has. -/
def Phase.got : Phase → ℕ
  | header => 0
  | element _ got => got
  | payload _ got _ => got

/-! ## Lines that complete a request -/

/-- The lines that come next complete a request. -/
def Completes (ph : Phase) (b : Bytes) : Prop :=
  ∃ t r ph₁ rest, ph.cut b = some (t, r) ∧ t.length + 2 < 2 ^ 31 ∧ Line ph t ph₁
    ∧ Lines ph₁ r .header rest

variable {ctx ctx' : DecodeContext} {calls : List HandlerCall} {ph ph₁ : Phase}
  {b r s t u rest : Bytes} {chunks : List Bytes} {size got len : ℕ}

theorem Completes.lines (h : Completes ph b) : ∃ rest, Lines ph b .header rest := by
  obtain ⟨t, r, ph₁, rest, hcut, hfit, hline, hlines⟩ := h
  exact ⟨rest, Lines.step hcut hfit hline hlines⟩

/-- A size the decoder has taken from an `int`: small, or a negative number
made huge. -/
def IntSized (k : ℕ) : Prop := k < 2 ^ 31 ∨ 2 ^ 63 ≤ k

/-- With at most `k` more bytes the lines complete a request. -/
def CompletesWithin (ph : Phase) (b : Bytes) (k : ℕ) : Prop :=
  ∃ s : Bytes, s.length ≤ k ∧ Completes ph (b ++ s)

theorem CompletesWithin.mono {j k : ℕ} (h : CompletesWithin ph b j) (hjk : j ≤ k) :
    CompletesWithin ph b k := by
  obtain ⟨s, hs, hc⟩ := h
  exact ⟨s, hs.trans hjk, hc⟩

/-- The sizes of an open request come from the wire. -/
structure Announced (ctx : DecodeContext) : Prop where
  /-- Between requests no element is collected. -/
  emptyAtInit : EmptyAtInit ctx
  /-- The announced number of elements. -/
  listSize : ctx.state ≠ .init → IntSized ctx.readingListSize.toNat

theorem intSized_ofInt {token : Bytes} {n : ℤ} (h : stoiTail token = .ok n) :
    IntSized (UInt64.ofInt n).toNat := by
  have hrange := stoiTail_range h
  rw [toNat_ofInt]
  unfold IntSized
  omega

theorem announced_pushed (h : Announced ctx) (hs : ctx.state ≠ .init) (t : Bytes) :
    Announced (ctx.pushed t) := by
  refine ⟨emptyAtInit_pushed ctx t, ?_⟩
  by_cases hl : ctx.reqList.length + 1 = ctx.readingListSize.toNat
  · rw [ctx.pushed_of_eq t hl]
    exact fun hi => absurd rfl hi
  · rw [ctx.pushed_of_ne t hl]
    exact fun _ => h.listSize hs

/-- One token keeps the announced sizes what the wire made them. -/
theorem Announced.step (h : Announced ctx) (hs : step ctx t = ⟨calls, .ok ctx'⟩) :
    Announced ctx' := by
  have hempty := h.emptyAtInit.step hs
  cases step_eq_ok_iff.mp hs with
  | header _ hn => exact ⟨hempty, fun _ => intSized_ofInt hn⟩
  | integer _ _ => exact ⟨hempty, h.listSize⟩
  | emptyBulk hst _ _ => exact announced_pushed h (by rw [hst]; decide) []
  | bulk hst _ _ _ => exact ⟨hempty, fun _ => h.listSize (by rw [hst]; decide)⟩
  | unknown _ _ _ => exact h
  | payload hst _ => exact announced_pushed h (by rw [hst]; decide) t
  | overlong _ _ => exact h

/-- The sizes of a context that reads left behind. -/
theorem Reachable.announced (h : Reachable ctx) : Announced ctx := by
  obtain ⟨sessionId, readingStrSize, commands, calls, hr⟩ := h
  obtain ⟨hist, c, r, hreads, rfl⟩ := exists_reads_of_receiveAll_new hr
  have hnew : Announced (.new sessionId readingStrSize) :=
    ⟨fun _ => rfl, fun h => absurd rfl h⟩
  have hc := hreads.invariant (fun _ _ _ _ hI hs => hI.step hs) hnew
  exact ⟨hc.emptyAtInit, hc.listSize⟩

end SimpleResp
