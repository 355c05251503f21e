import RedisProxy.SessionManager
import Mathlib.Data.Int.Cast.Lemmas

/-!
# What a session does with its replies

`reply` makes one call of `write` at most (`exec_reply_iff`). A context writes
to its own descriptor alone, whatever the calls return (`exec_insertNewResponse_fd`).
A reply that is taken whole has been sent, and reports so
(`exec_reply_acceptsAll`).
-/

namespace LogcabinRedisProxy

open Bytes
open Prog hiding pure

/-! ## One reply -/

/-- **What `reply` does**: nothing for an empty reply, else one call of
`write`. -/
theorem exec_reply_iff {fd : ℤ} {content : Bytes} {tr : List (Event WriteResult)} {r : ℤ} :
    Exec (reply fd content) tr r
      ↔ (content = [] ∧ tr = [] ∧ r = 1)
        ∨ content ≠ [] ∧ ∃ n : WriteResult ⟨fd, content⟩,
            tr = [⟨⟨fd, content⟩, n⟩] ∧ r = if 0 ≤ n.1 then n.1 else 1 := by
  unfold reply
  rw [replyLoop]
  by_cases hc : content = []
  · subst hc
    rw [dif_neg (by simp), exec_pure_iff]
    simp
  · have hpos : 0 < content.length := List.length_pos_of_ne_nil hc
    rw [dif_pos ⟨le_refl 0, by exact_mod_cast hpos⟩]
    simp only [Int.toNat_zero, exec_call_iff, hc, false_and, false_or,
      ne_eq, not_false_eq_true, true_and]
    refine exists_congr fun n => ?_
    by_cases hn : 0 ≤ n.1
    · simp only [if_pos hn, exec_pure_iff]
      constructor
      · rintro ⟨tr', rfl, rfl, hr⟩
        exact ⟨rfl, hr⟩
      · rintro ⟨rfl, hr⟩
        exact ⟨[], rfl, rfl, hr⟩
    · -- a failed call leaves `sent_size` negative, which ends the loop
      simp only [if_neg hn]
      rw [replyLoop, dif_neg (by omega)]
      constructor
      · rintro ⟨tr', rfl, h⟩
        obtain ⟨rfl, hr⟩ := exec_pure_iff.mp h
        exact ⟨rfl, hr⟩
      · rintro ⟨rfl, hr⟩
        exact ⟨[], rfl, exec_pure_iff.mpr ⟨rfl, hr⟩⟩

/-- `reply` writes to the descriptor it is given. -/
theorem exec_reply_fd {fd : ℤ} {content : Bytes} {tr : List (Event WriteResult)} {r : ℤ}
    (h : Exec (reply fd content) tr r) : ∀ e ∈ tr, e.1.fd = fd := by
  rcases exec_reply_iff.mp h with ⟨-, rfl, -⟩ | ⟨-, n, rfl, -⟩
  · simp
  · simp

/-- The bytes the calls have taken. -/
def transferred (tr : List (Event WriteResult)) : Bytes :=
  tr.flatMap fun e => e.1.buf.take e.2.1.toNat

theorem transferred_append (tr tr' : List (Event WriteResult)) :
    transferred (tr ++ tr') = transferred tr ++ transferred tr' :=
  List.flatMap_append

/-- Every call has taken all it was offered. -/
def AcceptsAll (tr : List (Event WriteResult)) : Prop :=
  ∀ e ∈ tr, e.2.1 = e.1.buf.length

theorem acceptsAll_append {tr tr' : List (Event WriteResult)} :
    AcceptsAll (tr ++ tr') ↔ AcceptsAll tr ∧ AcceptsAll tr' :=
  List.forall_mem_append

/-- **A reply that is taken whole** has been sent, and reports so. -/
theorem exec_reply_acceptsAll {fd : ℤ} {content : Bytes} {tr : List (Event WriteResult)}
    {r : ℤ} (h : Exec (reply fd content) tr r) (ha : AcceptsAll tr) :
    0 < r ∧ transferred tr = content := by
  rcases exec_reply_iff.mp h with ⟨rfl, rfl, rfl⟩ | ⟨hc, n, rfl, rfl⟩
  · exact ⟨one_pos, rfl⟩
  · have hn : n.1 = content.length := ha _ (List.mem_singleton_self _)
    have hpos : 0 < content.length := List.length_pos_of_ne_nil hc
    rw [hn, if_pos (Int.natCast_nonneg _)]
    refine ⟨by exact_mod_cast hpos, ?_⟩
    show (content.take n.1.toNat) ++ [] = content
    rw [hn, Int.toNat_natCast, List.take_length, List.append_nil]

/-! ## A context writes to its own descriptor -/

namespace SessionCtx

@[simp] theorem fd_buffer (ctx : SessionCtx) (commandId : Int32) (resp : Bytes) :
    (ctx.buffer commandId resp).fd = ctx.fd := rfl

@[simp] theorem bufferedResponses_advance (ctx : SessionCtx) :
    ctx.advance.bufferedResponses = ctx.bufferedResponses := rfl

theorem getElem?_dropBuffered (ctx : SessionCtx) (id id' : Int32) :
    (ctx.dropBuffered id).bufferedResponses[id']?
      = if id = id' then none else ctx.bufferedResponses[id']? := by
  unfold dropBuffered
  simp only [Std.TreeMap.getElem?_erase, Std.compare_eq_iff_eq]

theorem getElem?_buffer (ctx : SessionCtx) (id id' : Int32) (resp : Bytes) :
    (ctx.buffer id resp).bufferedResponses[id']?
      = if id = id' ∧ id ∉ ctx.bufferedResponses then some resp
        else ctx.bufferedResponses[id']? := by
  unfold buffer
  simp only [Std.TreeMap.getElem?_insertIfNew, Std.compare_eq_iff_eq]

end SessionCtx

/-- One round of the drain loop. -/
theorem exec_sendLoop_cons_iff {ctx : SessionCtx} {r₀ : ℤ} {commandId : Int32} {resp : Bytes}
    {it : List (Int32 × Bytes)} {tr : List (Event WriteResult)} {out : SessionCtx × ℤ}
    (hid : commandId = ctx.toSendCommandId) :
    Exec (ctx.sendLoop r₀ ((commandId, resp) :: it)) tr out
      ↔ ∃ tr₁ r tr₂, Exec (reply ctx.fd resp) tr₁ r ∧ tr = tr₁ ++ tr₂
        ∧ Exec (if r ≤ 0 then pure (ctx, r)
            else (ctx.advance.dropBuffered commandId).sendLoop r it) tr₂ out := by
  rw [SessionCtx.sendLoop, if_pos hid, exec_bind_iff]
  constructor
  · rintro ⟨tr₁, r, tr₂, h₁, h₂, rfl⟩
    exact ⟨tr₁, r, tr₂, h₁, rfl, h₂⟩
  · rintro ⟨tr₁, r, tr₂, h₁, rfl, h₂⟩
    exact ⟨tr₁, r, tr₂, h₁, h₂, rfl⟩

/-- The drain loop ends at an entry that is not due. -/
theorem exec_sendLoop_cons_ne_iff {ctx : SessionCtx} {r₀ : ℤ} {commandId : Int32}
    {resp : Bytes} {it : List (Int32 × Bytes)} {tr : List (Event WriteResult)}
    {out : SessionCtx × ℤ} (hid : commandId ≠ ctx.toSendCommandId) :
    Exec (ctx.sendLoop r₀ ((commandId, resp) :: it)) tr out ↔ tr = [] ∧ out = (ctx, r₀) := by
  rw [SessionCtx.sendLoop, if_neg hid]
  exact exec_pure_iff

theorem exec_sendLoop_fd {it : List (Int32 × Bytes)} {ctx : SessionCtx} {r₀ : ℤ}
    {tr : List (Event WriteResult)} {out : SessionCtx × ℤ}
    (h : Exec (ctx.sendLoop r₀ it) tr out) :
    out.1.fd = ctx.fd ∧ ∀ e ∈ tr, e.1.fd = ctx.fd := by
  induction it generalizing ctx r₀ tr with
  | nil =>
    obtain ⟨rfl, rfl⟩ := exec_pure_iff.mp h
    simp
  | cons entry it ih =>
    by_cases hid : entry.1 = ctx.toSendCommandId
    · obtain ⟨tr₁, r, tr₂, h₁, rfl, h₂⟩ := (exec_sendLoop_cons_iff hid).mp h
      have hfd₁ := exec_reply_fd h₁
      by_cases hr : r ≤ 0
      · rw [if_pos hr] at h₂
        obtain ⟨rfl, rfl⟩ := exec_pure_iff.mp h₂
        refine ⟨rfl, ?_⟩
        rw [List.append_nil]
        exact hfd₁
      · rw [if_neg hr] at h₂
        obtain ⟨hfd, hfd₂⟩ := ih h₂
        exact ⟨hfd, List.forall_mem_append.mpr ⟨hfd₁, hfd₂⟩⟩
    · obtain ⟨rfl, rfl⟩ := (exec_sendLoop_cons_ne_iff hid).mp h
      simp

theorem exec_sendFirstResponse_fd {ctx ctx' : SessionCtx} {tr : List (Event WriteResult)}
    (h : Exec ctx.sendFirstResponse tr ctx') :
    ctx'.fd = ctx.fd ∧ ∀ e ∈ tr, e.1.fd = ctx.fd := by
  obtain ⟨tr₁, out, tr₂, h₁, h₂, rfl⟩ := exec_bind_iff.mp h
  obtain ⟨rfl, rfl⟩ := exec_pure_iff.mp h₂
  obtain ⟨hfd, hall⟩ := exec_sendLoop_fd h₁
  rw [List.append_nil]
  refine ⟨?_, hall⟩
  split
  · exact hfd
  · exact hfd

/-- **A context writes to its own descriptor**, whatever the calls return. -/
theorem exec_insertNewResponse_fd {ctx ctx' : SessionCtx} {commandId : Int32} {resp : Bytes}
    {tr : List (Event WriteResult)} (h : Exec (ctx.insertNewResponse commandId resp) tr ctx') :
    ctx'.fd = ctx.fd ∧ ∀ e ∈ tr, e.1.fd = ctx.fd := by
  unfold SessionCtx.insertNewResponse at h
  split at h
  · obtain ⟨tr₁, r, tr₂, h₁, h₂, rfl⟩ := exec_bind_iff.mp h
    obtain ⟨hfd, hall⟩ := exec_sendFirstResponse_fd h₂
    have hctx : (if r ≤ 0 then ctx.reachEof.advance else ctx.advance).fd = ctx.fd := by
      split <;> rfl
    rw [hctx] at hfd hall
    exact ⟨hfd, List.forall_mem_append.mpr ⟨exec_reply_fd h₁, hall⟩⟩
  · have hrest := exec_sendFirstResponse_fd h
    rwa [SessionCtx.fd_buffer] at hrest

/-- The reply a context waits for, with nothing buffered, is written at once. -/
theorem exec_insertNewResponse_next (ctx : SessionCtx) {resp : Bytes} (hresp : resp ≠ [])
    (hbuf : ctx.bufferedResponses.toList = []) (n : WriteResult ⟨ctx.fd, resp⟩)
    (hn : 0 < n.1) :
    Exec (ctx.insertNewResponse ctx.toSendCommandId resp) [⟨⟨ctx.fd, resp⟩, n⟩]
      ctx.advance := by
  unfold SessionCtx.insertNewResponse
  rw [if_pos rfl, exec_bind_iff]
  refine ⟨_, n.1, [], exec_reply_iff.mpr (Or.inr ⟨hresp, n, rfl, (if_pos hn.le).symm⟩), ?_,
    rfl⟩
  rw [if_neg (not_le.mpr hn)]
  unfold SessionCtx.sendFirstResponse
  rw [SessionCtx.bufferedResponses_advance, hbuf, exec_bind_iff]
  exact ⟨[], (ctx.advance, 1), [], exec_pure_iff.mpr ⟨rfl, rfl⟩, exec_pure_iff.mpr ⟨rfl, rfl⟩,
    rfl⟩

end LogcabinRedisProxy
