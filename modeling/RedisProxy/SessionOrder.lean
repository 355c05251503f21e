import RedisProxy.SessionRuns
import RedisProxy.Library.Resequencer

/-!
# What a session passes on, and in which order

A session is looked at here with its calls of `reply` left open:
`insertResponse` is `insert_new_response` where these may end in any way, and
carrying them out by `reply` gives it back (`handle_insertResponse`). A context
that stands at number `m` has passed on the responses below `m` and buffered the
others that have arrived (`Standing`). The drain loop moves on over what is in
sequence, stops at a response whose `reply` fails, which stays in the buffer, and
stops at one that is not the first of the buffer.

Numbers are counted from a base, and the counter wraps. Where it does not, and
every `write` takes all it is offered, the context is a resequencer (`Holds`).
-/

namespace LogcabinRedisProxy

open Bytes
open Prog hiding pure

/-! ## A session whose calls of `reply` may end in any way -/

/-- A call of `reply`. The number is a ghost: the code passes the descriptor
and the content. -/
structure ReplyCall where
  /-- The number of the response. -/
  commandId : Int32
  /-- The descriptor. -/
  fd : ℤ
  /-- The content. -/
  content : Bytes
  deriving DecidableEq

/-- A call of `reply` may return anything. -/
abbrev ReplyResult (_ : ReplyCall) : Type := ℤ

/-- The call of `reply` as the code makes it. -/
def ReplyCall.carryOut (c : ReplyCall) : Prog WriteResult (ReplyResult c) := reply c.fd c.content

namespace SessionCtx

/-- The loop of `send_first_response`, whatever `reply` returns. -/
def drainLoop (ctx : SessionCtx) (replyResult : ℤ) :
    List (Int32 × Bytes) → Prog ReplyResult (SessionCtx × ℤ)
  | [] => pure (ctx, replyResult)
  | (commandId, resp) :: it =>
    if commandId = ctx.toSendCommandId then do
      let replyResult ← (Prog.lift ⟨commandId, ctx.fd, resp⟩ : Prog ReplyResult ℤ)
      if replyResult ≤ 0 then pure (ctx, replyResult)
      else drainLoop (ctx.advance.dropBuffered commandId) replyResult it
    else pure (ctx, replyResult)

/-- `send_first_response`, whatever `reply` returns. -/
def drain (ctx : SessionCtx) : Prog ReplyResult SessionCtx := do
  let (ctx, replyResult) ← ctx.drainLoop 1 ctx.bufferedResponses.toList
  pure (if replyResult ≤ 0 then ctx.reachEof else ctx)

/-- `insert_new_response`, whatever `reply` returns. -/
def insertResponse (ctx : SessionCtx) (commandId : Int32) (resp : Bytes) :
    Prog ReplyResult SessionCtx :=
  if commandId = ctx.toSendCommandId then do
    let replyResult ← (Prog.lift ⟨commandId, ctx.fd, resp⟩ : Prog ReplyResult ℤ)
    (if replyResult ≤ 0 then ctx.reachEof.advance else ctx.advance).drain
  else
    (ctx.buffer commandId resp).drain

theorem handle_drainLoop (ctx : SessionCtx) (r : ℤ) (it : List (Int32 × Bytes)) :
    (ctx.drainLoop r it).handle ReplyCall.carryOut = ctx.sendLoop r it := by
  induction it generalizing ctx r with
  | nil => rfl
  | cons entry it ih =>
    rw [drainLoop, sendLoop]
    split
    · rw [handle_bind, handle_lift]
      refine congrArg _ (funext fun r => ?_)
      split
      · rfl
      · exact ih _ r
    · rfl

theorem handle_drain (ctx : SessionCtx) :
    ctx.drain.handle ReplyCall.carryOut = ctx.sendFirstResponse := by
  rw [drain, handle_bind, handle_drainLoop]
  rfl

/-- **With its calls carried out by `reply`, this is `insert_new_response`.** -/
theorem handle_insertResponse (ctx : SessionCtx) (commandId : Int32) (resp : Bytes) :
    (ctx.insertResponse commandId resp).handle ReplyCall.carryOut
      = ctx.insertNewResponse commandId resp := by
  rw [insertResponse, insertNewResponse]
  split
  · rw [handle_bind, handle_lift]
    exact congrArg _ (funext fun r => handle_drain _)
  · exact handle_drain _

end SessionCtx

/-- The calls that have reported success. -/
def sent (tr : List (Event ReplyResult)) : List ReplyCall :=
  (tr.filter fun e => decide (0 < e.2)).map fun e => e.1

theorem sent_append (tr tr' : List (Event ReplyResult)) :
    sent (tr ++ tr') = sent tr ++ sent tr' := by
  unfold sent
  rw [List.filter_append, List.map_append]

theorem sent_cons_of_pos {c : ReplyCall} {r : ℤ} (hr : 0 < r) (tr : List (Event ReplyResult)) :
    sent (⟨c, r⟩ :: tr) = c :: sent tr := by
  unfold sent
  rw [List.filter_cons_of_pos (by simpa using hr), List.map_cons]

theorem sent_singleton_of_nonpos {c : ReplyCall} {r : ℤ} (hr : r ≤ 0) :
    sent [⟨c, r⟩] = [] := by
  unfold sent
  rw [List.filter_cons_of_neg (by simpa using hr)]
  rfl

/-- **Calls of `reply` that are carried out with every `write` taking all it is
offered** succeed, and write their contents. -/
theorem sent_of_carries {tr : List (Event ReplyResult)} {tr' : List (Event WriteResult)}
    (h : Prog.Carries ReplyCall.carryOut tr tr') (ha : AcceptsAll tr') :
    (∀ e ∈ tr, 0 < e.2) ∧ transferred tr' = ((sent tr).map ReplyCall.content).flatten := by
  induction tr generalizing tr' with
  | nil =>
    obtain rfl : tr' = [] := h
    exact ⟨fun e he => absurd he List.not_mem_nil, rfl⟩
  | cons e tr ih =>
    obtain ⟨tr₁, tr₂, h₁, h₂, rfl⟩ := h
    obtain ⟨ha₁, ha₂⟩ := acceptsAll_append.mp ha
    obtain ⟨hr, hsent⟩ := exec_reply_acceptsAll h₁ ha₁
    obtain ⟨hall, hrest⟩ := ih h₂ ha₂
    refine ⟨List.forall_mem_cons.mpr ⟨hr, hall⟩, ?_⟩
    rw [transferred_append, hsent, hrest, sent_cons_of_pos hr, List.map_cons, List.flatten_cons]

/-! ## Replies that succeed -/

section Successes

variable {ctx ctx' : SessionCtx} {tr : List (Event ReplyResult)}

theorem isEofReach_of_drainLoop {it : List (Int32 × Bytes)} {r r' : ℤ}
    (hrun : Exec (ctx.drainLoop r it) tr (ctx', r')) (hall : ∀ e ∈ tr, 0 < e.2) (hr : 0 < r) :
    0 < r' ∧ ctx'.isEofReach = ctx.isEofReach := by
  induction it generalizing ctx r tr with
  | nil =>
    obtain ⟨-, hout⟩ := exec_pure_iff.mp hrun
    obtain ⟨rfl, rfl⟩ := Prod.mk.inj hout
    exact ⟨hr, rfl⟩
  | cons entry it ih =>
    obtain ⟨id, s⟩ := entry
    rw [SessionCtx.drainLoop] at hrun
    by_cases hid : id = ctx.toSendCommandId
    · rw [if_pos hid] at hrun
      obtain ⟨tr₁, r₁, tr₂, h₁, h₂, rfl⟩ := exec_bind_iff.mp hrun
      obtain rfl := exec_lift_iff.mp h₁
      have hr₁ : 0 < r₁ := hall _ List.mem_cons_self
      rw [if_neg (not_le.mpr hr₁)] at h₂
      have hrest := ih h₂ (fun e he => hall e (List.mem_cons_of_mem _ he)) hr₁
      exact hrest
    · rw [if_neg hid] at hrun
      obtain ⟨-, hout⟩ := exec_pure_iff.mp hrun
      obtain ⟨rfl, rfl⟩ := Prod.mk.inj hout
      exact ⟨hr, rfl⟩

theorem isEofReach_of_drain (hrun : Exec ctx.drain tr ctx') (hall : ∀ e ∈ tr, 0 < e.2) :
    ctx'.isEofReach = ctx.isEofReach := by
  obtain ⟨tr₁, ⟨ctx₁, r⟩, tr₂, h₁, h₂, rfl⟩ := exec_bind_iff.mp hrun
  obtain ⟨rfl, rfl⟩ := exec_pure_iff.mp h₂
  rw [List.append_nil] at hall
  obtain ⟨hr, heof⟩ := isEofReach_of_drainLoop h₁ hall one_pos
  rw [if_neg (not_le.mpr hr), heof]

/-- **A session is not given up** where every `reply` succeeds. -/
theorem isEofReach_of_insertResponse {commandId : Int32} {resp : Bytes}
    (hrun : Exec (ctx.insertResponse commandId resp) tr ctx') (hall : ∀ e ∈ tr, 0 < e.2) :
    ctx'.isEofReach = ctx.isEofReach := by
  unfold SessionCtx.insertResponse at hrun
  split at hrun
  · obtain ⟨tr₁, r, tr₂, h₁, h₂, rfl⟩ := exec_bind_iff.mp hrun
    obtain rfl := exec_lift_iff.mp h₁
    have hr : 0 < r := hall _ List.mem_cons_self
    rw [if_neg (not_le.mpr hr)] at h₂
    have heof := isEofReach_of_drain h₂ fun e he => hall e (List.mem_cons_of_mem _ he)
    exact heof
  · have heof := isEofReach_of_drain hrun hall
    exact heof

end Successes

/-! ## Where a context stands -/

/-- The number of the response `i` positions behind the base, as the 32-bit
counters count. -/
def numberFrom (c : Int32) (i : ℕ) : Int32 := c + Int32.ofNat i

theorem numberFrom_zero (c : Int32) : numberFrom c 0 = c := Int32.add_zero c

theorem numberFrom_add_one (c : Int32) (i : ℕ) : numberFrom c i + 1 = numberFrom c (i + 1) := by
  unfold numberFrom
  rw [Int32.add_assoc, Int32.ofNat_add]
  rfl

/-- A number below the wrap is counted up from the base, one behind it from the
least number. -/
theorem toInt_numberFrom (c : Int32) {i : ℕ} (hi : i ≤ 2 ^ 31) :
    (numberFrom c i).toInt
      = if c.toInt + i < 2 ^ 31 then c.toInt + i else c.toInt + i - 2 ^ 32 := by
  have hle := Int32.le_toInt c
  have hlt := Int32.toInt_lt c
  have hsize : Int32.size = 2 ^ 32 := rfl
  unfold numberFrom
  rw [Int32.toInt_add, Int32.toInt_ofNat', hsize, Int.add_bmod_bmod, Int.bmod_def]
  split <;> split <;> omega

/-- Different positions have different numbers. -/
theorem numberFrom_inj {c : Int32} {i j : ℕ} (hi : i ≤ 2 ^ 31) (hj : j ≤ 2 ^ 31) :
    numberFrom c i = numberFrom c j ↔ i = j := by
  refine ⟨fun h => ?_, fun h => by rw [h]⟩
  have hint := congrArg Int32.toInt h
  rw [toInt_numberFrom c hi, toInt_numberFrom c hj] at hint
  split at hint <;> split at hint <;> omega

/-- The call of `reply` for the response `i` positions behind the base. -/
def replyOf (c : Int32) (fd : ℤ) (resp : ℕ → Bytes) (i : ℕ) : ReplyCall :=
  ⟨numberFrom c i, fd, resp i⟩

/-- **A context that stands at position `m`**: the responses below it have
arrived, and those that have arrived from there on are buffered, each under its
number. The one at `m` may be among them, if its `reply` has failed or if the
drain loop does not get to it. -/
structure Standing (c : Int32) (resp : ℕ → Bytes) (ctx : SessionCtx) (arrived : List ℕ)
    (m : ℕ) : Prop where
  /-- The next number is that of `m`. -/
  next : ctx.toSendCommandId = numberFrom c m
  /-- What is below has arrived. -/
  below : ∀ i < m, i ∈ arrived
  /-- The buffer has the rest. -/
  buffered : ∀ (id : Int32) (r : Bytes), ctx.bufferedResponses[id]? = some r
    ↔ ∃ i ∈ arrived, m ≤ i ∧ id = numberFrom c i ∧ r = resp i
  /-- No two numbers are the same. -/
  bounded : ∀ i ∈ arrived, i < 2 ^ 31

/-- The response at `m` is the one the drain loop meets first: it has arrived,
and none that comes behind it in the stream comes before it in the buffer. -/
def Due (c : Int32) (arrived : List ℕ) (m : ℕ) : Prop :=
  m ∈ arrived ∧ ∀ q ∈ arrived, m < q → ¬ numberFrom c q < numberFrom c m

section Standing

variable {c : Int32} {resp : ℕ → Bytes} {ctx ctx' : SessionCtx} {arrived : List ℕ} {m k : ℕ}
  {tr : List (Event ReplyResult)}

theorem Standing.le (h : Standing c resp ctx arrived m) : m ≤ 2 ^ 31 := by
  cases m with
  | zero => exact Nat.zero_le _
  | succ m => exact h.bounded m (h.below m (Nat.lt_succ_self m))

/-- The number of an arrived response is due exactly if the context stands at
it. -/
theorem Standing.due_iff (h : Standing c resp ctx arrived m) {i : ℕ} (hi : i < 2 ^ 31) :
    numberFrom c i = ctx.toSendCommandId ↔ i = m := by
  rw [h.next]
  exact numberFrom_inj hi.le h.le

/-- The response the context stands at is sent from the buffer. -/
theorem Standing.advance_dropBuffered (h : Standing c resp ctx arrived m) (hm : m ∈ arrived) :
    Standing c resp (ctx.advance.dropBuffered (numberFrom c m)) arrived (m + 1) where
  next := by
    show ctx.toSendCommandId + 1 = _
    rw [h.next, numberFrom_add_one]
  below i hi := by
    rcases Nat.lt_succ_iff_lt_or_eq.mp hi with hlt | rfl
    · exact h.below i hlt
    · exact hm
  buffered id r := by
    rw [SessionCtx.getElem?_dropBuffered, SessionCtx.bufferedResponses_advance]
    by_cases hid : numberFrom c m = id
    · rw [if_pos hid]
      refine ⟨fun hn => absurd hn (Option.some_ne_none _).symm, ?_⟩
      rintro ⟨i, hi, hmi, rfl, -⟩
      have him := (numberFrom_inj h.le (h.bounded i hi).le).mp hid
      omega
    · rw [if_neg hid, h.buffered]
      refine exists_congr fun i => and_congr_right fun _ => ?_
      refine and_congr_left fun hi => ?_
      have hne : i ≠ m := fun him => hid (him ▸ hi.1.symm)
      omega
  bounded := h.bounded

section Iteration

variable {it : List (Int32 × Bytes)} {id : Int32} {s : Bytes}

/-- The iteration goes on with what is left of the buffer once its head is
dropped. -/
theorem mem_iff_of_dropBuffered (hhead : ∀ entry ∈ it, compare id entry.1 = .lt)
    (hit : ∀ id' s', (id', s') ∈ (id, s) :: it ↔ ctx.bufferedResponses[id']? = some s')
    (id' : Int32) (s' : Bytes) :
    (id', s') ∈ it ↔ (ctx.advance.dropBuffered id).bufferedResponses[id']? = some s' := by
  rw [SessionCtx.getElem?_dropBuffered, SessionCtx.bufferedResponses_advance]
  by_cases hids : id = id'
  · subst hids
    rw [if_pos rfl]
    refine ⟨fun hmem => ?_, fun hn => absurd hn (Option.some_ne_none _).symm⟩
    exact absurd (Std.compare_eq_lt.mp (hhead _ hmem)) Int32.lt_irrefl
  · rw [if_neg hids, ← hit, List.mem_cons]
    exact ⟨Or.inr, fun hor => hor.resolve_left fun heq => hids (Prod.mk.inj heq).1.symm⟩

/-- What has arrived from the position on is in the iteration. -/
theorem Standing.mem_iteration (h : Standing c resp ctx arrived m)
    (hit : ∀ id' s', (id', s') ∈ it ↔ ctx.bufferedResponses[id']? = some s') {i : ℕ}
    (hi : i ∈ arrived) (hmi : m ≤ i) : (numberFrom c i, resp i) ∈ it :=
  (hit _ _).mpr ((h.buffered _ _).mpr ⟨i, hi, hmi, rfl, rfl⟩)

/-- **The head of the iteration has the least number**: if it is the one the context
stands at, that one is due. -/
theorem Standing.due_of_head (h : Standing c resp ctx arrived m)
    (hhead : ∀ entry ∈ it, compare (numberFrom c m) entry.1 = .lt)
    (hit : ∀ id' s', (id', s') ∈ (numberFrom c m, s) :: it
      ↔ ctx.bufferedResponses[id']? = some s') (hm : m ∈ arrived) : Due c arrived m := by
  refine ⟨hm, fun q hq hmq hlt => ?_⟩
  rcases List.mem_cons.mp (h.mem_iteration hit hq hmq.le) with heq | hmem
  · rw [(Prod.mk.inj heq).1] at hlt
    exact Int32.lt_irrefl hlt
  · have hgt := Std.compare_eq_lt.mp (hhead _ hmem)
    exact Int32.lt_asymm hgt hlt

/-- If the head is a later one, the one the context stands at is not due: it has not
arrived, or stands behind the head. -/
theorem Standing.not_due_of_head (h : Standing c resp ctx arrived m) {i : ℕ}
    (hhead : ∀ entry ∈ it, compare (numberFrom c i) entry.1 = .lt)
    (hit : ∀ id' s', (id', s') ∈ (numberFrom c i, s) :: it
      ↔ ctx.bufferedResponses[id']? = some s') (hi : i ∈ arrived) (hmi : m < i) :
    ¬ Due c arrived m := by
  intro hdue
  rcases List.mem_cons.mp (h.mem_iteration hit hdue.1 le_rfl) with heq | hmem
  · have him := (numberFrom_inj h.le (h.bounded i hi).le).mp (Prod.mk.inj heq).1
    exact absurd him hmi.ne
  · have hlt := Std.compare_eq_lt.mp (hhead _ hmem)
    exact hdue.2 i hi hmi hlt

end Iteration

/-- **The drain loop** moves on over responses that are sent, if the one it
stands at is due, and stops at one whose `reply` fails or that is not due. -/
theorem Standing.drainLoop {it : List (Int32 × Bytes)} {r r' : ℤ}
    (h : Standing c resp ctx arrived m)
    (hsorted : it.Pairwise (fun a b => compare a.1 b.1 = .lt))
    (hit : ∀ id s, (id, s) ∈ it ↔ ctx.bufferedResponses[id]? = some s)
    (hrun : Exec (ctx.drainLoop r it) tr (ctx', r')) :
    ∃ j, Standing c resp ctx' arrived (m + j)
      ∧ sent tr = (List.range' m j).map (replyOf c ctx.fd resp) ∧ ctx'.fd = ctx.fd
      ∧ (0 < j → Due c arrived m)
      ∧ ((∀ e ∈ tr, 0 < e.2) → ¬ Due c arrived (m + j)) := by
  induction it generalizing ctx m r tr with
  | nil =>
    obtain ⟨rfl, hout⟩ := exec_pure_iff.mp hrun
    obtain ⟨rfl, rfl⟩ := Prod.mk.inj hout
    refine ⟨0, h, rfl, rfl, fun h0 => absurd h0 (lt_irrefl 0), fun _ hdue => ?_⟩
    exact absurd (h.mem_iteration hit hdue.1 le_rfl) List.not_mem_nil
  | cons entry it ih =>
    obtain ⟨id, s⟩ := entry
    obtain ⟨hhead, htail⟩ := List.pairwise_cons.mp hsorted
    obtain ⟨i, hi, hmi, rfl, rfl⟩ :=
      (h.buffered id s).mp ((hit id s).mp List.mem_cons_self)
    rw [SessionCtx.drainLoop] at hrun
    by_cases hid : numberFrom c i = ctx.toSendCommandId
    · obtain rfl := (h.due_iff (h.bounded i hi)).mp hid
      rw [if_pos hid] at hrun
      obtain ⟨tr₁, r₁, tr₂, h₁, h₂, rfl⟩ := exec_bind_iff.mp hrun
      obtain rfl := exec_lift_iff.mp h₁
      by_cases hr : r₁ ≤ 0
      · rw [if_pos hr] at h₂
        obtain ⟨rfl, hout⟩ := exec_pure_iff.mp h₂
        obtain ⟨rfl, rfl⟩ := Prod.mk.inj hout
        refine ⟨0, h, sent_singleton_of_nonpos hr, rfl, fun h0 => absurd h0 (lt_irrefl 0),
          fun hall => ?_⟩
        exact absurd (hall _ List.mem_cons_self) (not_lt.mpr hr)
      · rw [if_neg hr] at h₂
        obtain ⟨j, hstand, hsent, hfd, -, hstop⟩ :=
          ih (h.advance_dropBuffered hi) htail (mem_iff_of_dropBuffered hhead hit) h₂
        rw [Nat.add_assoc, Nat.add_comm 1 j] at hstand hstop
        refine ⟨j + 1, hstand, ?_, hfd, fun _ => h.due_of_head hhead hit hi,
          fun hall => hstop fun e he => hall e (List.mem_cons_of_mem _ he)⟩
        rw [List.singleton_append, sent_cons_of_pos (not_le.mp hr), hsent, List.range'_succ,
          List.map_cons]
        rfl
    · rw [if_neg hid] at hrun
      obtain ⟨rfl, hout⟩ := exec_pure_iff.mp hrun
      obtain ⟨rfl, rfl⟩ := Prod.mk.inj hout
      have hmi' : m < i :=
        lt_of_le_of_ne hmi fun hmeq => hid ((h.due_iff (h.bounded i hi)).mpr hmeq.symm)
      exact ⟨0, h, rfl, rfl, fun h0 => absurd h0 (lt_irrefl 0),
        fun _ => h.not_due_of_head hhead hit hi hmi'⟩

theorem Standing.drain (h : Standing c resp ctx arrived m) (hrun : Exec ctx.drain tr ctx') :
    ∃ j, Standing c resp ctx' arrived (m + j)
      ∧ sent tr = (List.range' m j).map (replyOf c ctx.fd resp) ∧ ctx'.fd = ctx.fd
      ∧ (0 < j → Due c arrived m)
      ∧ ((∀ e ∈ tr, 0 < e.2) → ¬ Due c arrived (m + j)) := by
  obtain ⟨tr₁, ⟨ctx₁, r⟩, tr₂, h₁, h₂, rfl⟩ := exec_bind_iff.mp hrun
  obtain ⟨rfl, rfl⟩ := exec_pure_iff.mp h₂
  rw [List.append_nil]
  obtain ⟨j, hstand, hsent, hfd, hdue⟩ :=
    h.drainLoop Std.TreeMap.ordered_keys_toList
      (fun _ _ => Std.TreeMap.mem_toList_iff_getElem?_eq_some) h₁
  refine ⟨j, ?_, hsent, ?_, hdue⟩
  · split
    · exact ⟨hstand.next, hstand.below, hstand.buffered, hstand.bounded⟩
    · exact hstand
  · split
    · exact hfd
    · exact hfd

/-- The response the context stands at has arrived, and is answered at once. -/
theorem Standing.advance (h : Standing c resp ctx arrived m) (hm : m ∉ arrived)
    (hbound : m < 2 ^ 31) : Standing c resp ctx.advance (arrived ++ [m]) (m + 1) where
  next := by
    show ctx.toSendCommandId + 1 = _
    rw [h.next, numberFrom_add_one]
  below i hi := by
    rcases Nat.lt_succ_iff_lt_or_eq.mp hi with hlt | rfl
    · exact List.mem_append_left _ (h.below i hlt)
    · exact List.mem_append_right _ (List.mem_singleton_self i)
  buffered id r := by
    refine (h.buffered id r).trans (exists_congr fun i => ?_)
    rw [List.mem_append, List.mem_singleton]
    constructor
    · rintro ⟨hi, hmi, hrest⟩
      exact ⟨Or.inl hi, lt_of_le_of_ne hmi fun hmeq => hm (hmeq ▸ hi), hrest⟩
    · rintro ⟨hi, hmi, hrest⟩
      exact ⟨hi.resolve_right (by omega), by omega, hrest⟩
  bounded := List.forall_mem_append.mpr ⟨h.bounded, List.forall_mem_singleton.mpr hbound⟩

/-- A later response has arrived, and waits in the buffer. -/
theorem Standing.buffer (h : Standing c resp ctx arrived m) (hk : k ∉ arrived) (hmk : m < k)
    (hbound : k < 2 ^ 31) :
    Standing c resp (ctx.buffer (numberFrom c k) (resp k)) (arrived ++ [k]) m where
  next := h.next
  below i hi := List.mem_append_left _ (h.below i hi)
  buffered id r := by
    have habsent : numberFrom c k ∉ ctx.bufferedResponses := by
      rw [← Std.TreeMap.isSome_getElem?_iff_mem, Option.isSome_iff_exists]
      rintro ⟨r', hr'⟩
      obtain ⟨i, hi, -, hid, -⟩ := (h.buffered _ _).mp hr'
      exact hk ((numberFrom_inj hbound.le (h.bounded i hi).le).mp hid ▸ hi)
    rw [SessionCtx.getElem?_buffer]
    by_cases hid : numberFrom c k = id
    · subst hid
      rw [if_pos ⟨rfl, habsent⟩, Option.some.injEq]
      constructor
      · rintro rfl
        exact ⟨k, List.mem_append_right _ (List.mem_singleton_self k), hmk.le, rfl, rfl⟩
      · rintro ⟨i, hi, -, hid, rfl⟩
        have hile : i < 2 ^ 31 := by
          rcases List.mem_append.mp hi with hi | hi
          · exact h.bounded i hi
          · exact (List.mem_singleton.mp hi) ▸ hbound
        rw [(numberFrom_inj hbound.le hile.le).mp hid]
    · rw [if_neg fun hand => hid hand.1, h.buffered]
      refine exists_congr fun i => ?_
      rw [List.mem_append, List.mem_singleton]
      constructor
      · rintro ⟨hi, hrest⟩
        exact ⟨Or.inl hi, hrest⟩
      · rintro ⟨hi, hmi, hidi, hr⟩
        refine ⟨hi.resolve_right fun hik => hid ?_, hmi, hidi, hr⟩
        rw [hidi, hik]
  bounded := List.forall_mem_append.mpr ⟨h.bounded, List.forall_mem_singleton.mpr hbound⟩

/-- **One arrival**, whose own `reply` does not fail if it is due: it is sent or
buffered, and the drain loop follows. -/
theorem Standing.accept (h : Standing c resp ctx arrived m) (hk : k ∉ arrived)
    (hbound : k < 2 ^ 31)
    (hdirect : numberFrom c k = ctx.toSendCommandId → ∀ e ∈ tr.head?, 0 < e.2)
    (hrun : Exec (ctx.insertResponse (numberFrom c k) (resp k)) tr ctx') :
    ∃ ctx₁ tr₁ tr₂ j, tr = tr₁ ++ tr₂ ∧ j = (if k = m then 1 else 0)
      ∧ Standing c resp ctx₁ (arrived ++ [k]) (m + j)
      ∧ sent tr₁ = (List.range' m j).map (replyOf c ctx.fd resp) ∧ ctx₁.fd = ctx.fd
      ∧ Exec ctx₁.drain tr₂ ctx' := by
  unfold SessionCtx.insertResponse at hrun
  by_cases hid : numberFrom c k = ctx.toSendCommandId
  · obtain rfl := (h.due_iff hbound).mp hid
    rw [if_pos hid] at hrun
    obtain ⟨tr₁, r, tr₂, h₁, h₂, rfl⟩ := exec_bind_iff.mp hrun
    obtain rfl := exec_lift_iff.mp h₁
    have hr : 0 < r := hdirect hid _ rfl
    rw [if_neg (not_le.mpr hr)] at h₂
    refine ⟨ctx.advance, _, tr₂, 1, rfl, (if_pos rfl).symm, h.advance hk hbound, ?_, rfl, h₂⟩
    rw [sent_cons_of_pos hr]
    rfl
  · have hne : k ≠ m := fun hkm => hid ((h.due_iff hbound).mpr hkm)
    have hmk : m < k := lt_of_le_of_ne (Nat.le_of_not_lt fun hlt => hk (h.below k hlt)) hne.symm
    rw [if_neg hid] at hrun
    exact ⟨_, [], tr, 0, rfl, (if_neg hne).symm, h.buffer hk hmk hbound, rfl, rfl, hrun⟩

/-- **The whole of an insertion**: what is sent is what the context moves over; if
every `reply` succeeds, it stops at a response that is not due. -/
theorem Standing.insertResponse (h : Standing c resp ctx arrived m) (hk : k ∉ arrived)
    (hbound : k < 2 ^ 31)
    (hdirect : numberFrom c k = ctx.toSendCommandId → ∀ e ∈ tr.head?, 0 < e.2)
    (hrun : Exec (ctx.insertResponse (numberFrom c k) (resp k)) tr ctx') :
    ∃ j, Standing c resp ctx' (arrived ++ [k]) (m + j)
      ∧ sent tr = (List.range' m j).map (replyOf c ctx.fd resp) ∧ ctx'.fd = ctx.fd
      ∧ ((∀ e ∈ tr, 0 < e.2) → ¬ Due c (arrived ++ [k]) (m + j)) := by
  obtain ⟨ctx₁, tr₁, tr₂, j₁, rfl, -, hstand, hsent₁, hfd₁, hdrain⟩ :=
    h.accept hk hbound hdirect hrun
  obtain ⟨j₂, hstand', hsent₂, hfd₂, -, hstop⟩ := hstand.drain hdrain
  refine ⟨j₁ + j₂, Nat.add_assoc m j₁ j₂ ▸ hstand', ?_, hfd₂.trans hfd₁, fun hall => ?_⟩
  · rw [sent_append, hsent₁, hsent₂, hfd₁, ← List.map_append, List.range'_append_1]
  · rw [← Nat.add_assoc]
    exact hstop fun e he => hall e (List.mem_append_right _ he)

end Standing

/-! ## A context as a resequencer -/

/-- **A context that stands at number `m`**: the replies below it have arrived,
and those that have arrived from there on are buffered, each under its own
number. -/
structure Holds (ctx : SessionCtx) (received : ℕ → Option Bytes) (m : ℕ) : Prop where
  /-- The next number is `m`. -/
  next : ctx.toSendCommandId.toInt = m
  /-- What is below has arrived. -/
  below : ∀ i < m, (received i).isSome
  /-- The buffer has the rest. -/
  buffered : ∀ (id : Int32) (resp : Bytes), ctx.bufferedResponses[id]? = some resp
    ↔ ∃ i : ℕ, m ≤ i ∧ id.toInt = i ∧ received i = some resp
  /-- The numbers do not wrap. -/
  bounded : ∀ i, (received i).isSome → i + 1 < 2 ^ 31

section Resequencing

variable {ctx ctx' : SessionCtx} {received : ℕ → Option Bytes} {resp : ℕ → Bytes}
  {arrived : List ℕ} {m : ℕ}

/-- At rest the number the context stands at is the first missing one. -/
theorem Holds.firstMissing (h : Holds ctx received m) (hm : received m = none) :
    FirstMissing received m := ⟨h.below, hm⟩

/-- The numbers of what has arrived. -/
def arrivedOf (received : ℕ → Option Bytes) : List ℕ :=
  (List.range (2 ^ 31)).filter fun i => (received i).isSome

theorem numberFrom_zero_eq_iff {id : Int32} {i : ℕ} (hi : i < 2 ^ 31) :
    id = numberFrom 0 i ↔ id.toInt = i := by
  rw [← Int32.toInt_inj, toInt_numberFrom 0 hi.le]
  have hzero : (0 : Int32).toInt = 0 := rfl
  rw [hzero, zero_add, if_pos (by omega)]

/-- The list of what has arrived at a resequencer. -/
theorem Holds.mem_arrivedOf (h : Holds ctx received m) {i : ℕ} :
    i ∈ arrivedOf received ↔ (received i).isSome := by
  rw [arrivedOf, List.mem_filter, List.mem_range]
  exact and_iff_right_of_imp fun hi => Nat.lt_of_succ_lt (h.bounded i hi)

theorem Holds.arrivedAs (h : Holds ctx received m)
    (hresp : ∀ i r, received i = some r → resp i = r) :
    ArrivedAs received (arrivedOf received) resp := fun i => by
  cases hi : received i with
  | none =>
    rw [if_neg]
    rw [h.mem_arrivedOf, hi]
    exact Bool.false_ne_true
  | some r =>
    rw [if_pos, hresp i r hi]
    rw [h.mem_arrivedOf, hi]
    rfl

/-- **A resequencer is a context that stands somewhere**, counted from `0` and
before the counter wraps. -/
theorem holds_iff_standing (harrived : ArrivedAs received arrived resp)
    (hbound : ∀ i ∈ arrived, i + 1 < 2 ^ 31) :
    Holds ctx received m ↔ Standing 0 resp ctx arrived m := by
  have hbelow : (∀ i < m, i ∈ arrived) → m < 2 ^ 31 := by
    intro hall
    cases m with
    | zero => decide
    | succ m => exact hbound m (hall m (Nat.lt_succ_self m))
  have hentries : ∀ (id : Int32) (r : Bytes),
      (∃ i : ℕ, m ≤ i ∧ id.toInt = i ∧ received i = some r)
        ↔ ∃ i ∈ arrived, m ≤ i ∧ id = numberFrom 0 i ∧ r = resp i := by
    refine fun id r => exists_congr fun i => ?_
    rw [harrived.eq_some_iff]
    constructor
    · rintro ⟨hmi, hid, hi, hr⟩
      exact ⟨hi, hmi, (numberFrom_zero_eq_iff (Nat.lt_of_succ_lt (hbound i hi))).mpr hid, hr⟩
    · rintro ⟨hi, hmi, hid, hr⟩
      exact ⟨hmi, (numberFrom_zero_eq_iff (Nat.lt_of_succ_lt (hbound i hi))).mp hid, hi, hr⟩
  constructor
  · intro h
    have hall : ∀ i < m, i ∈ arrived := fun i hi => (harrived.isSome_iff i).mp (h.below i hi)
    exact ⟨(numberFrom_zero_eq_iff (hbelow hall)).mpr h.next, hall,
      fun id r => (h.buffered id r).trans (hentries id r),
      fun i hi => Nat.lt_of_succ_lt (hbound i hi)⟩
  · intro h
    exact ⟨(numberFrom_zero_eq_iff (hbelow h.below)).mp h.next,
      fun i hi => (harrived.isSome_iff i).mpr (h.below i hi),
      fun id r => (h.buffered id r).trans (hentries id r).symm,
      fun i hi => hbound i ((harrived.isSome_iff i).mp hi)⟩

/-- Before the counter wraps, the response a context stands at is due once it has
arrived. -/
theorem due_zero_of_mem (hbound : ∀ i ∈ arrived, i < 2 ^ 31) (hm : m ∈ arrived) :
    Due 0 arrived m := by
  refine ⟨hm, fun q hq hmq hlt => ?_⟩
  have hlt' := Int32.lt_iff_toInt_lt.mp hlt
  rw [(numberFrom_zero_eq_iff (hbound q hq)).mp rfl,
    (numberFrom_zero_eq_iff (hbound m hm)).mp rfl] at hlt'
  omega

/-- **A reply is inserted** at a number nothing has arrived for: the context is
a resequencer of what has arrived with it. -/
theorem Holds.insertNewResponse {commandId : Int32} {resp : Bytes} {k : ℕ}
    {tr : List (Event WriteResult)} (h : Holds ctx received m)
    (hid : commandId.toInt = k) (hk : received k = none) (hbound : k + 1 < 2 ^ 31)
    (hrun : Exec (ctx.insertNewResponse commandId resp) tr ctx') (ha : AcceptsAll tr) :
    ∃ m', Holds ctx' (Function.update received k (some resp)) m'
      ∧ Function.update received k (some resp) m' = none
      ∧ ctx'.isEofReach = ctx.isEofReach
      ∧ (inSequence (Function.update received k (some resp)) m').flatten
        = (inSequence received m).flatten ++ transferred tr := by
  -- what has arrived, before and after, as a list and the responses
  have hnot : k ∉ arrivedOf received := by
    rw [h.mem_arrivedOf, hk]
    exact Bool.false_ne_true
  obtain ⟨responses, hresp, hbefore⟩ : ∃ responses : ℕ → Bytes,
      responses k = resp ∧ ArrivedAs received (arrivedOf received) responses := by
    refine ⟨Function.update (fun i => (received i).getD []) k resp, Function.update_self ..,
      h.arrivedAs fun i r hr => ?_⟩
    have hne : i ≠ k := by
      rintro rfl
      rw [hk] at hr
      cases hr
    rw [Function.update_of_ne hne, hr, Option.getD_some]
  subst hresp
  have hboundAll : ∀ i ∈ arrivedOf received ++ [k], i + 1 < 2 ^ 31 :=
    List.forall_mem_append.mpr
      ⟨fun i hi => h.bounded i (h.mem_arrivedOf.mp hi), List.forall_mem_singleton.mpr hbound⟩
  -- the call, with its replies left open
  obtain rfl := (numberFrom_zero_eq_iff (Nat.lt_of_succ_lt hbound)).mpr hid
  rw [← SessionCtx.handle_insertResponse] at hrun
  obtain ⟨replies, hexec, hcarries⟩ := exec_handle_iff.mp hrun
  obtain ⟨hall, htrans⟩ := sent_of_carries hcarries ha
  have hstand := (holds_iff_standing hbefore
    fun i hi => hboundAll i (List.mem_append_left _ hi)).mp h
  obtain ⟨j, hstand', hsent, -, hstop⟩ := hstand.insertResponse hnot (Nat.lt_of_succ_lt hbound)
    (fun _ e he => hall e (List.mem_of_mem_head? he)) hexec
  have hmiss : m + j ∉ arrivedOf received ++ [k] := fun hmem' =>
    hstop hall (due_zero_of_mem (fun i hi => Nat.lt_of_succ_lt (hboundAll i hi)) hmem')
  refine ⟨m + j, (holds_iff_standing (hbefore.update k) hboundAll).mpr hstand', ?_,
    isEofReach_of_insertResponse hexec hall, ?_⟩
  · rw [hbefore.update k, if_neg hmiss]
  · rw [(hbefore.update k).inSequence_eq hstand'.below, hbefore.inSequence_eq hstand.below,
      htrans, hsent, List.map_map, List.range_eq_range', ← List.range'_append_1, Nat.zero_add,
      List.map_append, List.flatten_append, ← List.range_eq_range']
    rfl

end Resequencing

end LogcabinRedisProxy
