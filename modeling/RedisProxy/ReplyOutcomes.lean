import RedisProxy.SessionOrder

/-!
# What `reply` reports, and what a session makes of it

`reply` is meant to say whether a response has been sent: positive if so, zero
or negative if the session is to be given up. It returns the count of the
first `write` whatever that count is, and `1` when the `write` fails, so its
report is right exactly if the first `write` takes everything or nothing
(`reply_reports_iff`).

A session makes this of the report: the drain loop keeps a response whose
`reply` fails and stops; the direct path counts it as answered and goes on to
drain. So the stream of responses has no hole as long as no `reply` on the direct
path fails (`noHole_of_directSucceeds`), and after such a failure the next
response leaves one.
-/

namespace LogcabinRedisProxy

open Bytes
open Prog hiding pure

/-! ## What `reply` reports -/

/-- **The report is right**: a positive result says that all of the content has
been taken, and where not all has been taken the result is not positive. -/
structure ReportsFaithfully (content : Bytes) (tr : List (Event WriteResult)) (r : ℤ) :
    Prop where
  /-- Success means that everything was sent. -/
  success : 0 < r → transferred tr = content
  /-- If not everything was sent, the caller learns of it. -/
  failure : transferred tr ≠ content → r ≤ 0

/-- The part of the content one call has taken is the content exactly if it is
all of it. -/
theorem transferred_singleton_eq_iff {fd : ℤ} {content : Bytes}
    {n : WriteResult ⟨fd, content⟩} (hc : content ≠ []) :
    transferred [⟨⟨fd, content⟩, n⟩] = content ↔ n.1 = content.length := by
  have hpos : 0 < content.length := List.length_pos_of_ne_nil hc
  have hle : n.1 ≤ content.length := n.2.2.1
  have htake : transferred [⟨⟨fd, content⟩, n⟩] = content.take n.1.toNat :=
    List.append_nil _
  rw [htake]
  constructor
  · intro h
    have hlen := congrArg List.length h
    rw [List.length_take] at hlen
    omega
  · intro h
    rw [h, Int.toNat_natCast, List.take_length]

/-- **`reply` reports faithfully exactly if its first `write` takes everything
or nothing.** Whatever that `write` returns, it is the only one, and `reply`
returns behind it. -/
theorem reply_reports_iff (fd : ℤ) {content : Bytes} (hc : content ≠ []) :
    (∀ n : WriteResult ⟨fd, content⟩, ∃ r, Exec (reply fd content) [⟨⟨fd, content⟩, n⟩] r)
      ∧ ∀ tr r, Exec (reply fd content) tr r →
        (ReportsFaithfully content tr r
          ↔ ∀ e, tr.head? = some e → e.2.1 = content.length ∨ e.2.1 = 0) := by
  refine ⟨fun n => ⟨_, exec_reply_iff.mpr (Or.inr ⟨hc, n, rfl, rfl⟩)⟩, fun tr r h => ?_⟩
  obtain ⟨-, n, rfl, rfl⟩ := (exec_reply_iff.mp h).resolve_left (fun hnil => hc hnil.1)
  have hpos : 0 < content.length := List.length_pos_of_ne_nil hc
  have hall := transferred_singleton_eq_iff (n := n) hc
  have hcond : (∀ e, [(⟨⟨fd, content⟩, n⟩ : Event WriteResult)].head? = some e →
      e.2.1 = content.length ∨ e.2.1 = 0) ↔ n.1 = content.length ∨ n.1 = 0 := by
    rw [List.head?_cons]
    exact ⟨fun he => he _ rfl, fun hn e he => Option.some.inj he ▸ hn⟩
  rw [hcond]
  constructor
  · intro hrep
    by_contra hne
    rw [not_or] at hne
    have hr := hrep.failure (fun heq => hne.1 (hall.mp heq))
    split at hr
    · omega
    · omega
  · rintro (hn | hn)
    · exact ⟨fun _ => hall.mpr hn, fun hne => absurd (hall.mpr hn) hne⟩
    · rw [hn, if_pos le_rfl]
      exact ⟨fun h0 => absurd h0 (lt_irrefl 0), fun _ => le_rfl⟩

/-- A response that is taken whole. -/
theorem reply_reports_iff_whole :
    ReportsFaithfully (ofString "ok") [⟨⟨5, ofString "ok"⟩, ⟨2, by decide⟩⟩] 2 :=
  ((reply_reports_iff 5 (show ofString "ok" ≠ [] by decide)).2 _ 2
      (exec_reply_iff.mpr (Or.inr ⟨by decide, ⟨2, by decide⟩, rfl, rfl⟩))).mpr
    (fun _ he => Or.inl (Option.some.inj he ▸ rfl))

/-- A `write` that takes one byte of two: `reply` returns `1`, a success. -/
theorem not_reportsFaithfully_partial :
    ¬ ∀ (tr : List (Event WriteResult)) (r : ℤ), Exec (reply 5 (ofString "ok")) tr r →
      ReportsFaithfully (ofString "ok") tr r := by
  intro h
  have hexec : Exec (reply 5 (ofString "ok")) [⟨⟨5, ofString "ok"⟩, ⟨1, by decide⟩⟩] 1 :=
    exec_reply_iff.mpr (Or.inr ⟨by decide, ⟨1, by decide⟩, rfl, rfl⟩)
  have hsent := (h _ _ hexec).success one_pos
  exact absurd hsent (by decide)

/-! ## A stream of responses without a hole -/

/-- One call of `insert_new_response`: the context it finds, the response it is
passed and the calls of `reply` it makes. -/
structure Insertion where
  /-- The context before. -/
  ctx : SessionCtx
  /-- The position of the response. -/
  position : ℕ
  /-- The calls of `reply`, and what they return. -/
  replies : List (Event ReplyResult)

/-- **A run of a session**: responses passed to it one after the other, counted
from the base `c`. -/
inductive Inserts (c : Int32) (resp : ℕ → Bytes) (start : SessionCtx) :
    List Insertion → SessionCtx → Prop where
  | refl : Inserts c resp start [] start
  | step {steps : List Insertion} {ctx ctx' : SessionCtx} {i : ℕ}
      {tr : List (Event ReplyResult)} (h : Inserts c resp start steps ctx)
      (hexec : Exec (ctx.insertResponse (numberFrom c i) (resp i)) tr ctx') :
      Inserts c resp start (steps ++ [⟨ctx, i, tr⟩]) ctx'

/-- The response is not due, or its own `reply` succeeds. -/
def Insertion.DirectSucceeds (c : Int32) (s : Insertion) : Prop :=
  numberFrom c s.position = s.ctx.toSendCommandId → ∀ e ∈ s.replies.head?, 0 < e.2

instance (c : Int32) (s : Insertion) : Decidable (s.DirectSucceeds c) :=
  inferInstanceAs (Decidable (_ → _))

/-- All calls of `reply` of a run, in order. -/
def repliesOf (steps : List Insertion) : List (Event ReplyResult) :=
  steps.flatMap Insertion.replies

/-- **What has been sent is what the context has moved over**, if no `reply` on
the direct path has failed. -/
theorem Inserts.standing {c : Int32} {resp : ℕ → Bytes} {start ctx : SessionCtx}
    {steps : List Insertion} (h : Inserts c resp start steps ctx)
    (hstart : Standing c resp start [] 0) (hnodup : (steps.map Insertion.position).Nodup)
    (hbound : ∀ s ∈ steps, s.position < 2 ^ 31)
    (hdirect : ∀ s ∈ steps, s.DirectSucceeds c) :
    ∃ m, Standing c resp ctx (steps.map Insertion.position) m
      ∧ sent (repliesOf steps) = (List.range m).map (replyOf c start.fd resp)
      ∧ ctx.fd = start.fd := by
  induction h with
  | refl => exact ⟨0, hstart, rfl, rfl⟩
  | @step steps ctx ctx' i tr _ hexec ih =>
    rw [List.map_append, List.nodup_append'] at hnodup
    obtain ⟨hbound, hboundi⟩ := List.forall_mem_append.mp hbound
    obtain ⟨hdirect, hdirecti⟩ := List.forall_mem_append.mp hdirect
    obtain ⟨m, hstand, hsent, hfd⟩ := ih hnodup.1 hbound hdirect
    have hi : i ∉ steps.map Insertion.position :=
      fun hmem => hnodup.2.2 hmem (List.mem_singleton_self i)
    obtain ⟨j, hstand', hsent', hfd', -⟩ := hstand.insertResponse hi
      (hboundi _ (List.mem_singleton_self _)) (hdirecti _ (List.mem_singleton_self _)) hexec
    refine ⟨m + j, List.map_append ▸ hstand', ?_, hfd'.trans hfd⟩
    rw [repliesOf, List.flatMap_append, List.flatMap_singleton, sent_append,
      ← repliesOf, hsent, hsent', hfd, ← List.map_append, List.range_eq_range',
      List.range_eq_range', ← List.range'_append_1, Nat.zero_add]

/-- A fresh context stands at the beginning. -/
theorem standing_new (fd : ℤ) (resp : ℕ → Bytes) : Standing 0 resp (.new fd) [] 0 where
  next := rfl
  below i hi := absurd hi (Nat.not_lt_zero i)
  buffered id r := by
    show (∅ : Std.TreeMap Int32 Bytes)[id]? = some r ↔ _
    simp
  bounded i hi := absurd hi List.not_mem_nil

/-- **The stream of responses has no hole**: at every moment, what has been sent
is an initial segment of the responses, each once and in order. -/
def NoHole (fd : ℤ) (resp : ℕ → Bytes) (steps : List Insertion) : Prop :=
  ∀ tr, tr <+: repliesOf steps → ∃ k, sent tr = (List.range k).map (replyOf 0 fd resp)

/-- What has been sent up to a moment is the beginning of what is sent. -/
theorem sent_mono {tr tr' : List (Event ReplyResult)} (h : tr <+: tr') : sent tr <+: sent tr' :=
  (h.filter _).map _

/-- **A failed send leaves no hole, unless it fails on the direct path.** -/
theorem noHole_of_directSucceeds {fd : ℤ} {resp : ℕ → Bytes} {steps : List Insertion}
    {ctx : SessionCtx} (h : Inserts 0 resp (.new fd) steps ctx)
    (hnodup : (steps.map Insertion.position).Nodup)
    (hbound : ∀ s ∈ steps, s.position < 2 ^ 31)
    (hdirect : ∀ s ∈ steps, s.DirectSucceeds 0) : NoHole fd resp steps := by
  intro tr htr
  obtain ⟨m, -, hsent, -⟩ := h.standing (standing_new fd resp) hnodup hbound hdirect
  have hpre := hsent ▸ sent_mono htr
  refine ⟨min (sent tr).length m, ?_⟩
  rw [← List.take_range, List.map_take]
  exact List.prefix_iff_eq_take.mp hpre

/-- A script of what the calls of `reply` return, one after the other. -/
def scripted (_ : ReplyCall) (results : List ℤ) : ℤ × List ℤ := (results.headD 1, results.tail)

/-- The run of a fresh session that is passed the response `1`, which it
buffers, and then the response `0`, whose `reply` returns `first` and, behind
it, that of the response `1` returns `2`. -/
def overtaking (first : ℤ) : List Insertion :=
  let buffering := (SessionCtx.new 5).insertResponse (numberFrom 0 1) (ofString "ok")
  let ctx := (buffering.run scripted []).1
  [⟨.new 5, 1, buffering.trace scripted []⟩,
    ⟨ctx, 0, (ctx.insertResponse (numberFrom 0 0) (ofString "ok")).trace scripted [first, 2]⟩]

theorem inserts_overtaking (first : ℤ) :
    ∃ ctx, Inserts 0 (fun _ => ofString "ok") (.new 5) (overtaking first) ctx :=
  ⟨_, .step (.step .refl (Prog.exec_trace scripted _ [])) (Prog.exec_trace scripted _ [first, 2])⟩

/-- Both are sent where the first one's `reply` succeeds. -/
theorem noHole_of_directSucceeds_overtaking :
    NoHole 5 (fun _ => ofString "ok") (overtaking 2) := by
  obtain ⟨ctx, h⟩ := inserts_overtaking 2
  exact noHole_of_directSucceeds h (by decide +kernel) (by decide +kernel) (by decide +kernel)

/-- The first one's `reply` fails, and the second one is sent. -/
theorem not_noHole_overtaking :
    ¬ ∀ (steps : List Insertion) (ctx : SessionCtx),
      Inserts 0 (fun _ => ofString "ok") (.new 5) steps ctx →
        (steps.map Insertion.position).Nodup → (∀ s ∈ steps, s.position < 2 ^ 31) →
          NoHole 5 (fun _ => ofString "ok") steps := by
  intro h
  obtain ⟨ctx, hrun⟩ := inserts_overtaking 0
  obtain ⟨k, hk⟩ := h _ ctx hrun (by decide +kernel) (by decide +kernel) _ List.prefix_rfl
  have hsent : sent (repliesOf (overtaking 0)) = [replyOf 0 5 (fun _ => ofString "ok") 1] := by
    decide +kernel
  rw [hsent] at hk
  cases k with
  | zero => cases hk
  | succ k =>
    rw [List.range_succ_eq_map, List.map_cons] at hk
    have hid := congrArg ReplyCall.commandId (List.cons_eq_cons.mp hk).1
    exact absurd hid (by decide)

end LogcabinRedisProxy
