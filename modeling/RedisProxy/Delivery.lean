import RedisProxy.Accounting
import RedisProxy.SessionOrder
import RedisProxy.WorkerPool

/-!
# Replies come back in order

A client is connected among others, stays connected, and its descriptor takes
all that is written to it. Its requests are computed by one pool and their
replies sent by another, in any order and interleaving with each other and with
those of the other clients; still the replies reach it in the order of the
requests, each once, and nothing else does (`deliversInOrder_of_runs`).

Each number of a request is owed by a worker, carried by one `sender_worker`, or
inserted in the context of the session (`Accounts`). The context is a
resequencer of what has been inserted (`Holds`), and what it writes is what the
client is sent (`Delivers`).
-/

namespace LogcabinRedisProxy

open Bytes SimpleResp Prog

namespace Proxy

/-! ## The property -/

/-- The reply with the number `i` that has been inserted in the context of a
connection. -/
def received (s : Proxy) (p : ℕ) (i : ℕ) : Option Bytes :=
  (s.inserted.find? fun given => given.1 = p ∧ given.2.reply.commandId.toInt = (i : ℤ)).map
    fun given => given.2.reply.response

/-- The worker of a request is done, and has called `send_reply` with a
response. -/
structure Replied (job : ProcesserJob) (response : Bytes) : Prop where
  /-- What it has done is what `processer_worker` does for the request. -/
  executed : Exec (processerWorker job.call.commandId job.call.request job.sessionId)
    job.made ()
  /-- It has called `send_reply`. -/
  replied : ⟨Sum.inr ⟨job.call.commandId, job.sessionId, response⟩, ()⟩ ∈ job.made

/-- **The replies inserted so far are delivered in order, up to the first one
that is missing**, and the others wait in the buffer. -/
structure DeliversInOrder (s : Proxy) (p : ℕ) (ctx : SessionCtx) (m : ℕ) : Prop where
  /-- The context of the connection. -/
  context : s.manager.ctxs[p]? = some ctx
  /-- The requests are numbered in the order in which they were dispatched. -/
  numbered : (s.jobsOf p).map (fun job => job.call.commandId)
    = (List.range (s.jobsOf p).length).map Int32.ofNat
  /-- A reply inserted under a number is that of the worker of the request. -/
  replies : ∀ i response, s.received p i = some response →
    ∃ job, (s.jobsOf p)[i]? = some job ∧ Replied job response
  /-- `to_send_command_id` is the least number without an inserted reply. -/
  next : ctx.toSendCommandId.toInt = m ∧ FirstMissing (s.received p) m
  /-- The replies below it have been sent, in order, and nothing else. -/
  sent : s.sent p = (inSequence (s.received p) m).flatten
  /-- Those above it are buffered, under their numbers. -/
  buffered : ∀ (id : Int32) (response : Bytes), ctx.bufferedResponses[id]? = some response
    ↔ ∃ i : ℕ, m < i ∧ id.toInt = i ∧ s.received p i = some response

/-- Every job that was enqueued for a connection has run. -/
structure AllRun (s : Proxy) (p : ℕ) : Prop where
  /-- Every `processer_worker` has. -/
  jobs : ∀ job ∈ s.jobsOf p, job.todo = .pure ()
  /-- Every `sender_worker` has taken its first step. -/
  senders : ∀ job ∈ s.senders, job.owner ≠ p
  /-- Every `sender_worker` has taken its second step. -/
  holding : ∀ held ∈ s.holding, held.2.owner ≠ p

/-! ## What a client is sent -/

variable {s s' : Proxy} {p : ℕ} {sessionId : Int32} {ctx : SessionCtx} {m : ℕ} {l : Label}

/-- **The context puts in sequence what has been inserted**, and the client is
sent what it writes. -/
structure Delivers (s : Proxy) (p : ℕ) (ctx : SessionCtx) (m : ℕ) : Prop where
  context : s.manager.ctxs[p]? = some ctx
  open' : s.descriptors ctx.fd = some p
  alive : ctx.isEofReach = false
  holds : Holds ctx (s.received p) m
  missing : s.received p m = none
  sent : s.sent p = (inSequence (s.received p) m).flatten

/-- A `sender_worker` finds the session. -/
theorem Delivers.senderCheck (h : Delivers s p ctx m) (hdisp : Dispatches s p sessionId) :
    s.senderCheck sessionId = some p := by
  unfold Proxy.senderCheck SessionManager.getCtx
  rw [hdisp.table, Option.filter_some]
  exact if_pos (by rw [h.context, Option.map_some, h.alive]; rfl)

theorem exists_given_of_received {i : ℕ} {response : Bytes}
    (h : s.received p i = some response) :
    ∃ given ∈ s.inserted, given.1 = p ∧ given.2.reply.commandId.toInt = i
      ∧ given.2.reply.response = response := by
  obtain ⟨given, hgiven, hresp⟩ := Option.map_eq_some_iff.mp h
  have hprop := List.find?_some hgiven
  rw [decide_eq_true_eq] at hprop
  exact ⟨given, List.mem_of_find?_eq_some hgiven, hprop.1, hprop.2, hresp⟩

/-- **A number under way has not been inserted.** -/
theorem Accounts.received_eq_none (h : Accounts s p) (hcons : Consistent s)
    (hdisp : Dispatches s p sessionId) (hn : (s.jobsOf p).length < 2 ^ 31) {k : ℕ}
    {job : SenderJob} (hheld : (p, job) ∈ s.holding) (hk : job.reply.commandId.toInt = k) :
    s.received p k = none := by
  cases hrec : s.received p k with
  | none => rfl
  | some response =>
    obtain ⟨given, hgiven, hp, hid, -⟩ := exists_given_of_received hrec
    have hsame : given.2.reply.commandId = job.reply.commandId :=
      Int32.toInt_inj.mp (hid.trans hk.symm)
    have hnodup := h.perm.nodup_iff.mpr (hdisp.nodup hn)
    unfold numbers at hnodup
    have hdisj := (List.nodup_append.mp hnodup).2.2
    refine absurd hsame.symm (hdisj job.reply.commandId ?_ _ ?_)
    · refine List.mem_append_right _ (List.mem_flatMap.mpr ⟨_, hheld, ?_⟩)
      rw [(hcons.holding _ hheld).1, share_self]
      exact List.mem_singleton_self _
    · refine List.mem_flatMap.mpr ⟨given, hgiven, ?_⟩
      rw [hcons.inserted given hgiven, hp, share_self]
      exact List.mem_singleton_self _

/-- What has been received with one more reply inserted. -/
theorem received_append {job : SenderJob} {k : ℕ}
    (hinserted : s'.inserted = s.inserted ++ [(p, job)])
    (hk : job.reply.commandId.toInt = k) (hnone : s.received p k = none) :
    s'.received p = Function.update (s.received p) k (some job.reply.response) := by
  funext i
  unfold received
  rw [hinserted, List.find?_append]
  by_cases hik : i = k
  · subst hik
    have hfind := Option.map_eq_none_iff.mp hnone
    rw [hfind, Function.update_self, Option.none_or, List.find?_singleton,
      if_pos (decide_eq_true ⟨rfl, hk⟩)]
    rfl
  · rw [Function.update_of_ne hik, List.find?_singleton, if_neg, Option.or_none]
    intro hdec
    have hi := (of_decide_eq_true hdec).2
    rw [hk] at hi
    exact hik (by exact_mod_cast hi.symm)

/-- Replies inserted for others make no difference. -/
theorem received_append_of_ne {q : ℕ} {job : SenderJob}
    (hinserted : s'.inserted = s.inserted ++ [(q, job)]) (hq : q ≠ p) :
    s'.received p = s.received p := by
  funext i
  unfold received
  rw [hinserted, List.find?_append, List.find?_singleton, if_neg, Option.or_none]
  exact fun hdec => hq (of_decide_eq_true hdec).1

/-- **What a `sender_worker` writes reaches no connection but its own.** -/
theorem Consistent.sentAfter_of_ne (h : Consistent s) {q : ℕ} {job : SenderJob}
    (hheld : (q, job) ∈ s.holding) (hctx : s.manager.ctxs[q]? = some ctx) {r : ℕ} (hr : r ≠ q)
    (bytes : Bytes) : s.sentAfter ctx.fd bytes r = s.sent r := by
  obtain ⟨-, fd, hfd, honly⟩ := h.holding _ hheld
  have hctxfd := h.ctxs_fd q
  rw [hctx, hfd] at hctxfd
  obtain rfl : ctx.fd = fd := Option.some.inj hctxfd
  unfold sentAfter
  cases hopen : s.descriptors ctx.fd with
  | none => rfl
  | some q' =>
    obtain rfl : q' = q := honly q' hopen
    exact Function.update_of_ne hr _ _

/-- The reply of a request of the connection is inserted. -/
theorem Delivers.insert (h : Delivers s p ctx m) (hcons : Consistent s)
    (htrace : Traceable s) (hdisp : Dispatches s p sessionId) (hacc : Accounts s p)
    (hn : (s.jobsOf p).length < 2 ^ 31) {job : SenderJob} (hheld : (p, job) ∈ s.holding)
    {ctx' : SessionCtx} {tr : List (Event WriteResult)} {holding : List (ℕ × SenderJob)}
    (hrun : Exec (ctx.insertNewResponse job.reply.commandId job.reply.response) tr ctx')
    (ha : AcceptsAll tr) :
    ∃ m', Delivers { s with
      manager := s.manager.setCtx p ctx'
      holding := holding
      inserted := s.inserted ++ [(p, job)]
      sent := s.sentAfter ctx.fd (transferred tr) } p ctx' m' := by
  -- the number of the reply is that of a request
  obtain ⟨done, hdone, howner, -, hid, -, -⟩ := htrace.holding _ hheld
  obtain ⟨k, -, hlt, hk⟩ :=
    hdisp.exists_request hn hdone (howner.trans (hcons.holding _ hheld).1)
  rw [hid] at hk
  have hnone := hacc.received_eq_none hcons hdisp hn hheld hk
  have hrec := @received_append s
    { s with
      manager := s.manager.setCtx p ctx'
      holding := holding
      inserted := s.inserted ++ [(p, job)]
      sent := s.sentAfter ctx.fd (transferred tr) } p job k rfl hk hnone
  obtain ⟨m', hh, hmiss, heof, hflat⟩ :=
    h.holds.insertNewResponse hk hnone (by omega) hrun ha
  obtain ⟨hfd, -⟩ := exec_insertNewResponse_fd hrun
  refine ⟨m', ?_, ?_, heof.trans h.alive, hrec ▸ hh, hrec ▸ hmiss, ?_⟩
  · exact List.getElem?_set_self (List.getElem?_eq_some_iff.mp h.context).1
  · show s.descriptors ctx'.fd = _
    rw [hfd, h.open']
  · rw [hrec, hflat, ← h.sent]
    show s.sentAfter ctx.fd (transferred tr) p = _
    unfold sentAfter
    rw [h.open']
    exact Function.update_self p _ s.sent

/-- **A step delivers in sequence.** -/
theorem Delivers.step (h : Delivers s p ctx m) (hcons : Consistent s) (htrace : Traceable s)
    (hdisp : Dispatches s p sessionId) (hacc : Accounts s p)
    (hn : (s.jobsOf p).length < 2 ^ 31) (hx : s.Undisturbed p l) (hs : Step s l s') :
    ∃ ctx' m', Delivers s' p ctx' m' := by
  cases hs with
  | accept hloop hfd hclosed =>
    rename_i fd readingStrSize
    refine ⟨ctx, m, { h with context := ?_, open' := ?_ }⟩
    · show (s.manager.ctxs ++ [_])[p]? = _
      rw [List.getElem?_append_left (List.getElem?_eq_some_iff.mp h.context).1, h.context]
    · show Function.update s.descriptors fd _ ctx.fd = _
      rw [Function.update_of_ne, h.open']
      rintro rfl
      exact nomatch hclosed.symm.trans h.open'
  | disconnect hloop hwatch =>
    refine ⟨ctx, m, { h with context := ?_, open' := ?_ }⟩
    · rw [hcons.ctxs_disconnect hwatch, List.getElem?_modify_ne _ _ hx, h.context]
    · rw [hcons.descriptors_disconnect hwatch, if_neg, h.open']
      intro hfd
      exact hx (Option.some.inj (hwatch.2.2.symm.trans (hfd ▸ h.open')))
  | insert hholding hctx hrun hclosed =>
    rename_i before after q job ctx₁ ctx' tr
    have hheld : (q, job) ∈ s.holding :=
      hholding ▸ List.mem_append_cons_self
    by_cases hq : q = p
    · subst hq
      obtain rfl := Option.some.inj (hctx.symm.trans h.context)
      exact ⟨ctx', h.insert hcons htrace hdisp hacc hn hheld hrun (hx rfl)⟩
    · have hrec := @received_append_of_ne s
        { s with
          manager := s.manager.setCtx q ctx'
          holding := before ++ after
          inserted := s.inserted ++ [(q, job)]
          sent := s.sentAfter ctx₁.fd (transferred tr) } p q job rfl hq
      refine ⟨ctx, m, ?_, h.open', h.alive, hrec ▸ h.holds, hrec ▸ h.missing, ?_⟩
      · exact (List.getElem?_set_ne hq).trans h.context
      · rw [hrec, ← h.sent]
        exact hcons.sentAfter_of_ne hheld hctx (Ne.symm hq) _
  | read hloop hwatch hcommand => exact ⟨ctx, m, { h with }⟩
  | enqueue hloop hc => exact ⟨ctx, m, { h with }⟩
  | decoded hloop => exact ⟨ctx, m, { h with }⟩
  | terminate hloop => exact ⟨ctx, m, { h with }⟩
  | callTree r hjobs htodo => exact ⟨ctx, m, { h with }⟩
  | sendReply hjobs htodo => exact ⟨ctx, m, { h with }⟩
  | check hsenders => exact ⟨ctx, m, { h with }⟩

/-! ## A new connection -/

/-- Nothing has been inserted in a new context. -/
theorem holds_new (fd : ℤ) : Holds (SessionCtx.new fd) (fun _ => none) 0 where
  next := rfl
  below := nofun
  buffered id response := by
    rw [show (SessionCtx.new fd).bufferedResponses = ∅ from rfl, Std.TreeMap.getElem?_emptyc]
    exact ⟨nofun, fun ⟨_, _, _, h⟩ => nomatch h⟩
  bounded := nofun

/-- The next connection to be accepted has no workers yet. -/
theorem Traceable.jobsOf_eq_nil (h : Traceable s) : s.jobsOf s.connections.length = [] := by
  refine List.filter_eq_nil_iff.mpr fun job hjob => ?_
  rw [decide_eq_true_eq]
  exact Nat.ne_of_lt (h.owners job hjob)

/-- Nor has anything been inserted for it. -/
theorem Traceable.received_eq_none (h : Traceable s) (hcons : Consistent s) :
    s.received s.connections.length = fun _ => none := by
  funext i
  cases hrec : s.received s.connections.length i with
  | none => rfl
  | some response =>
    obtain ⟨given, hgiven, hp, -⟩ := exists_given_of_received hrec
    have hlt := h.owner_lt (h.inserted given hgiven)
    rw [hcons.inserted given hgiven, hp] at hlt
    exact absurd hlt (lt_irrefl _)

/-- So its accounts are empty. -/
theorem Traceable.accounts (h : Traceable s) : Accounts s s.connections.length := by
  have hsenders : s.senders.flatMap (fun job =>
      share s.connections.length job.owner [job.reply.commandId]) = [] :=
    List.flatMap_eq_nil_iff.mpr fun job hjob =>
      share_of_ne (Nat.ne_of_lt (h.owner_lt (h.senders job hjob))) _
  have hholding : s.holding.flatMap (fun held =>
      share s.connections.length held.2.owner [held.2.reply.commandId]) = [] :=
    List.flatMap_eq_nil_iff.mpr fun held hheld =>
      share_of_ne (Nat.ne_of_lt (h.owner_lt (h.holding held hheld))) _
  have hinserted : s.inserted.flatMap (fun given =>
      share s.connections.length given.2.owner [given.2.reply.commandId]) = [] :=
    List.flatMap_eq_nil_iff.mpr fun given hgiven =>
      share_of_ne (Nat.ne_of_lt (h.owner_lt (h.inserted given hgiven))) _
  have howed : s.jobs.flatMap (fun job => share s.connections.length job.owner (owed job)) = [] :=
    List.flatMap_eq_nil_iff.mpr fun job hjob =>
      share_of_ne (Nat.ne_of_lt (h.owners job hjob)) _
  unfold Accounts numbers
  rw [hsenders, hholding, hinserted, howed, flatMap_share]
  exact List.Perm.of_eq (congrArg (List.map _) h.jobsOf_eq_nil).symm

/-- **A connection that has just been accepted** has sent no request. -/
theorem Dispatches.acceptTcpHandler (hcons : Consistent s) (htrace : Traceable s) {fd : ℤ}
    {readingStrSize : UInt64} (hloop : s.loop = .waiting)
    (hfresh : s.manager.ctxMap[s.manager.getNextSessionCounterNumber]? = none) :
    Dispatches (s.acceptTcpHandler fd readingStrSize) s.connections.length
      s.manager.getNextSessionCounterNumber := by
  have hjobs : (s.acceptTcpHandler fd readingStrSize).jobsOf s.connections.length = [] :=
    htrace.jobsOf_eq_nil
  refine
    { connection := ⟨_, by rw [connections_acceptTcpHandler, if_pos rfl], fun _ => ?_⟩
      decoding := fun calls outcome hdec => nomatch hloop.symm.trans hdec
      numbered := ?_
      table := ?_
      sessions := ?_ }
  · rw [hjobs]
    rfl
  · rw [hjobs]
    rfl
  · rw [getElem?_acceptTcpHandler hfresh, if_pos rfl, hcons.length_eq]
  · rw [hjobs]
    exact fun _ h => absurd h List.not_mem_nil

/-- And has been sent no reply. -/
theorem Delivers.acceptTcpHandler (hcons : Consistent s) (htrace : Traceable s) {fd : ℤ}
    {readingStrSize : UInt64} (hunsent : s.sent s.connections.length = []) :
    Delivers (s.acceptTcpHandler fd readingStrSize) s.connections.length
      (SessionCtx.new fd) 0 := by
  have hrec : (s.acceptTcpHandler fd readingStrSize).received s.connections.length
      = fun _ => none := htrace.received_eq_none hcons
  refine
    { context := ?_
      open' := ?_
      alive := rfl
      holds := hrec ▸ holds_new fd
      missing := by rw [hrec]
      sent := hunsent }
  · show (s.manager.ctxs ++ [_])[_]? = _
    rw [← hcons.length_eq, List.getElem?_concat_length]
  · rw [← hcons.length_eq]
    exact Function.update_self fd _ _

/-! ## Runs -/

/-- No job of a connection is ever forgotten. -/
theorem Step.length_le (hs : Step s l s') : (s.jobsOf p).length ≤ (s'.jobsOf p).length := by
  have hprogress : ∀ {before after : List ProcesserJob} {job job' : ProcesserJob},
      s.jobs = before ++ job :: after → job'.owner = job.owner →
        (s.jobsOf p).length
          ≤ ((before ++ job' :: after).filter fun job => job.owner = p).length := by
    intro before after job job' hjobs howner
    have hmap := congrArg List.length
      (@map_jobsOf_progress p _ (fun _ => ()) before after job job' howner rfl)
    rw [List.length_map, List.length_map] at hmap
    unfold jobsOf
    rw [hmap, hjobs]
  cases hs with
  | enqueue hloop hc =>
    rename_i q c call calls outcome
    exact ((List.sublist_append_left s.jobs [.enqueued q c.decoder.sessionId call]).filter
      _).length_le
  | callTree r hjobs htodo => exact hprogress hjobs rfl
  | sendReply hjobs htodo => exact hprogress hjobs rfl
  | _ => exact le_refl _

/-- Connections are not forgotten either, and only an accepted one is new. -/
theorem Step.connections_length (hs : Step s l s') :
    s'.connections.length = s.connections.length
      ∨ ∃ fd readingStrSize, l = .accept fd readingStrSize ∧ s.loop = .waiting
        ∧ s' = s.acceptTcpHandler fd readingStrSize
        ∧ s'.connections.length = s.connections.length + 1 := by
  cases hs with
  | accept hloop hfd hclosed =>
    exact Or.inr ⟨_, _, rfl, hloop, rfl, List.length_append⟩
  | disconnect hloop hwatch => exact Or.inl (List.length_modify _ _ _)
  | decoded hloop => exact Or.inl (List.length_modify _ _ _)
  | _ => exact Or.inl rfl

/-- Nothing is sent to those who have not connected. -/
def Unsent (s : Proxy) : Prop := ∀ q, s.connections.length ≤ q → s.sent q = []

theorem Unsent.step (h : Unsent s) (hcons : Consistent s) (hs : Step s l s') : Unsent s' := by
  have hlen : s.connections.length ≤ s'.connections.length := by
    rcases hs.connections_length with heq | ⟨_, _, -, -, -, heq⟩
    · exact heq.ge
    · exact heq ▸ Nat.le_succ _
  intro q hq
  have hunsent := h q (hlen.trans hq)
  cases hs with
  | insert hholding hctx hrun hclosed =>
    have hheld := hholding ▸ List.mem_append_cons_self
    refine (hcons.sentAfter_of_ne hheld hctx (fun hqp => ?_) _).trans hunsent
    have hlt := (List.getElem?_eq_some_iff.mp hctx).1
    rw [hcons.length_eq] at hlt
    exact absurd (hlen.trans hq) (hqp ▸ Nat.not_le_of_lt hlt)
  | _ => exact hunsent

/-- **The invariant of a run that leaves the connection `p` undisturbed.** -/
structure InOrder (s : Proxy) (p : ℕ) : Prop where
  consistent : Consistent s
  traceable : Traceable s
  unsent : Unsent s
  /-- Once the connection has been accepted, its requests are counted, accounted
  for and answered in sequence. -/
  connected : p < s.connections.length → ∃ sessionId, Dispatches s p sessionId
    ∧ ((s.jobsOf p).length < 2 ^ 31 → Accounts s p ∧ ∃ ctx m, Delivers s p ctx m)

theorem inOrder_start (sessionCounter : Int32) (p : ℕ) : InOrder (start sessionCounter) p where
  consistent := consistent_start sessionCounter
  traceable :=
    { progress := fun _ h => absurd h List.not_mem_nil
      senders := fun _ h => absurd h List.not_mem_nil
      holding := fun _ h => absurd h List.not_mem_nil
      inserted := fun _ h => absurd h List.not_mem_nil
      owners := fun _ h => absurd h List.not_mem_nil }
  unsent _ _ := rfl
  connected h := absurd h (Nat.not_lt_zero p)

theorem InOrder.step (h : InOrder s p) (hx : s.Undisturbed p l) (hs : Step s l s') :
    InOrder s' p where
  consistent := h.consistent.step hx.exclusive hs
  traceable := h.traceable.step h.consistent hs
  unsent := h.unsent.step h.consistent hs
  connected hp := by
    by_cases hlt : p < s.connections.length
    · obtain ⟨sessionId, hdisp, hrest⟩ := h.connected hlt
      refine ⟨sessionId, hdisp.step h.consistent hx hs, fun hn => ?_⟩
      have hn' := lt_of_le_of_lt hs.length_le hn
      obtain ⟨hacc, ctx, m, hdel⟩ := hrest hn'
      exact ⟨hacc.step h.consistent h.traceable hdisp (hdel.senderCheck hdisp) hs,
        hdel.step h.consistent h.traceable hdisp hacc hn' hx hs⟩
    · -- the connection has just been accepted
      rcases hs.connections_length with heq | ⟨fd, readingStrSize, rfl, hloop, rfl, heq⟩
      · exact absurd (heq ▸ hp) hlt
      · obtain rfl : p = s.connections.length := by omega
        exact ⟨_, .acceptTcpHandler h.consistent h.traceable hloop hx.2.table,
          fun _ => ⟨h.traceable.accounts,
            _, _, .acceptTcpHandler h.consistent h.traceable (h.unsent _ le_rfl)⟩⟩

theorem InOrder.runs (h : InOrder s p) (hr : Runs (Undisturbed p) s s') : InOrder s' p :=
  hr.invariant (I := (·.InOrder p)) (fun _ _ _ hin hx hs => hin.step hx hs) h

/-! ## Delivery -/

/-- A reply that has been inserted is that of the worker of its request. -/
theorem Traceable.exists_replied (h : Traceable s) (hcons : Consistent s)
    (hdisp : Dispatches s p sessionId) (hn : (s.jobsOf p).length < 2 ^ 31) {i : ℕ}
    {response : Bytes} (hi : s.received p i = some response) :
    ∃ job, (s.jobsOf p)[i]? = some job ∧ Replied job response := by
  obtain ⟨given, hgiven, hp, hid, rfl⟩ := exists_given_of_received hi
  obtain ⟨job, hjob, howner, hdone, hcid, hsid, hmade⟩ := h.inserted given hgiven
  obtain ⟨k, hk, -, hkid⟩ := hdisp.exists_request hn hjob
    (howner.trans ((hcons.inserted given hgiven).trans hp))
  have hik : k = i := by
    rw [hcid, hid] at hkid
    exact_mod_cast hkid.symm
  refine ⟨job, hik ▸ hk, ?_, ?_⟩
  · have hexec := h.progress job hjob [] (by rw [hdone]; exact Exec.pure ())
    rwa [List.append_nil] at hexec
  · rw [hcid, hsid]
    exact hmade

/-- **When every job has run, every reply has been inserted.** -/
theorem Accounts.received_isSome_iff (h : Accounts s p) (hcons : Consistent s)
    (htrace : Traceable s) (hdisp : Dispatches s p sessionId)
    (hn : (s.jobsOf p).length < 2 ^ 31) (hall : s.AllRun p) (i : ℕ) :
    (s.received p i).isSome ↔ i < (s.jobsOf p).length := by
  constructor
  · intro hi
    obtain ⟨response, hresp⟩ := Option.isSome_iff_exists.mp hi
    obtain ⟨job, hjob, -⟩ := htrace.exists_replied hcons hdisp hn hresp
    exact (List.getElem?_eq_some_iff.mp hjob).1
  · intro hi
    have howed : s.jobs.flatMap (fun job => share p job.owner (owed job)) = [] := by
      refine List.flatMap_eq_nil_iff.mpr fun job hjob => ?_
      by_cases hp : job.owner = p
      · rw [owed_of_done (hall.jobs job (List.mem_filter.mpr ⟨hjob, decide_eq_true hp⟩)),
          share_nil]
      · exact share_of_ne hp _
    have hsenders : s.senders.flatMap (fun job =>
        share p job.owner [job.reply.commandId]) = [] :=
      List.flatMap_eq_nil_iff.mpr fun job hjob => share_of_ne (hall.senders job hjob) _
    have hholding : s.holding.flatMap (fun held =>
        share p held.2.owner [held.2.reply.commandId]) = [] :=
      List.flatMap_eq_nil_iff.mpr fun held hheld => share_of_ne (hall.holding held hheld) _
    have hacc := h.perm
    unfold numbers at hacc
    rw [howed, hsenders, hholding, hdisp.commandIds] at hacc
    have hmem : Int32.ofNat i ∈ (List.range (s.jobsOf p).length).map Int32.ofNat :=
      List.mem_map_of_mem (List.mem_range.mpr hi)
    obtain ⟨given, hgiven, hid⟩ := List.mem_flatMap.mp (hacc.mem_iff.mpr hmem)
    have howner : given.2.owner = p := by
      by_contra hne
      rw [share_of_ne hne] at hid
      exact absurd hid List.not_mem_nil
    rw [howner, share_self, List.mem_singleton] at hid
    unfold received
    rw [Option.isSome_map, List.find?_isSome]
    refine ⟨given, hgiven, decide_eq_true ⟨(hcons.inserted given hgiven).symm.trans howner, ?_⟩⟩
    rw [← hid, Int32.toInt_ofNat_of_lt (by omega)]

/-- **Replies come back in request order, each once, under any schedule.** A
client that stays connected, undisturbed, and has sent fewer than `2 ^ 31`
requests has at any time been sent the replies up to the first one that is not
yet inserted, and the other inserted ones are buffered; when every job enqueued
for it has run it has been sent all of them and nothing is buffered. -/
theorem deliversInOrder_of_runs {sessionCounter : Int32} {s : Proxy} {p : ℕ}
    (hr : Runs (Undisturbed p) (start sessionCounter) s) (hp : p < s.connections.length)
    (hn : (s.jobsOf p).length < 2 ^ 31) :
    ∃ ctx m, DeliversInOrder s p ctx m
      ∧ (s.AllRun p → m = (s.jobsOf p).length ∧ ctx.bufferedResponses.isEmpty) := by
  have h := (inOrder_start sessionCounter p).runs hr
  obtain ⟨sessionId, hdisp, hrest⟩ := h.connected hp
  obtain ⟨hacc, ctx, m, hdel⟩ := hrest hn
  have hmiss := hdel.holds.firstMissing hdel.missing
  have hbuffered : ∀ (id : Int32) (response : Bytes),
      ctx.bufferedResponses[id]? = some response
        ↔ ∃ i : ℕ, m < i ∧ id.toInt = i ∧ s.received p i = some response := by
    intro id response
    refine (hdel.holds.buffered id response).trans (exists_congr fun i => ?_)
    refine and_congr_left fun hi => ⟨fun hle => lt_of_le_of_ne hle ?_, Nat.le_of_lt⟩
    rintro rfl
    rw [hdel.missing] at hi
    exact nomatch hi.2
  refine ⟨ctx, m,
    { context := hdel.context
      numbered := hdisp.commandIds
      replies := fun i response hi => h.traceable.exists_replied h.consistent hdisp hn hi
      next := ⟨hdel.holds.next, hmiss⟩
      sent := hdel.sent
      buffered := hbuffered }, fun hall => ?_⟩
  have hcomplete := hacc.received_isSome_iff h.consistent h.traceable hdisp hn hall
  have hm : m = (s.jobsOf p).length := hmiss.eq_of_complete hcomplete
  refine ⟨hm, ?_⟩
  rw [Std.TreeMap.isEmpty_iff_forall_not_mem]
  intro id hid
  obtain ⟨response, hresp⟩ := Option.isSome_iff_exists.mp
    (Std.TreeMap.isSome_getElem?_iff_mem.mpr hid)
  obtain ⟨i, hlt, -, hi⟩ := (hbuffered id response).mp hresp
  have hin := (hcomplete i).mp (by rw [hi]; rfl)
  omega

/-! ## One client alone -/

/-- **Only one client ever connects**, it stays, and its descriptor takes all the bytes it is
offered. -/
def Alone (s : Proxy) : Label → Prop
  | .accept _ _ => s.connections = []
  | .disconnect _ => False
  | .insert _ _ tr => AcceptsAll tr
  | _ => True

/-- Nothing happens before the first client connects. -/
theorem Runs.eq_start {condition : Proxy → Label → Prop} {sessionCounter : Int32}
    (hr : Runs condition (start sessionCounter) s) (hnone : s.connections = []) :
    s = start sessionCounter := by
  refine hr.invariant (I := fun s => s.connections = [] → s = start sessionCounter)
    (fun s s' l ih _ hs hnone' => ?_) (fun _ => rfl) hnone
  have hlen := hs.connections_length
  rw [hnone', List.length_nil] at hlen
  have hbefore : s.connections = [] := by
    rcases hlen with heq | ⟨_, _, -, -, -, heq⟩
    · exact List.length_eq_zero_iff.mp heq.symm
    · exact absurd heq (Nat.succ_ne_zero _).symm
  obtain rfl := ih hbefore
  cases hs with
  | accept hloop hfd hclosed => cases hnone'
  | read hloop hwatch hcommand => cases hwatch.1
  | disconnect hloop hwatch => cases hwatch.1
  | enqueue hloop hc => cases hloop
  | decoded hloop => cases hloop
  | terminate hloop => cases hloop
  | callTree r hjobs htodo => exact absurd hjobs.symm (List.append_ne_nil_of_right_ne_nil _ nofun)
  | sendReply hjobs htodo => exact absurd hjobs.symm (List.append_ne_nil_of_right_ne_nil _ nofun)
  | check hsenders => exact absurd hsenders.symm (List.append_ne_nil_of_right_ne_nil _ nofun)
  | insert hholding hctx hrun hclosed =>
    exact absurd hholding.symm (List.append_ne_nil_of_right_ne_nil _ nofun)

/-- **Who is alone is undisturbed.** -/
theorem Alone.undisturbed {condition : Proxy → Label → Prop} {sessionCounter : Int32}
    (h : s.Alone l) (hr : Runs condition (start sessionCounter) s) : s.Undisturbed 0 l := by
  cases l with
  | accept fd readingStrSize =>
    rw [hr.eq_start h]
    exact exclusive_start sessionCounter fd readingStrSize
  | disconnect q => exact h.elim
  | insert q job tr => exact fun _ => h
  | _ => trivial

theorem Runs.undisturbed {sessionCounter : Int32} (hr : Runs Alone (start sessionCounter) s) :
    Runs (Undisturbed 0) (start sessionCounter) s := by
  induction hr with
  | refl => exact .refl
  | tail hr hnext ih =>
    obtain ⟨l, halone, hs⟩ := hnext
    exact ih.step (halone.undisturbed hr) hs

/-! ## A reply that waits for the one before it -/

/-- The decoder of the first client when it has sent two requests. -/
def afterTwo : DecodeContext := { DecodeContext.new 1 0 with lastCommandId := 2 }

/-- The proxy with that client, and what its workers have come to. -/
def withJobs (jobs : List ProcesserJob) (senders : List SenderJob) : Proxy :=
  { ((start 0).acceptTcpHandler 5 0).setDecoder 0 afterTwo with
    jobs := jobs
    senders := senders }

/-- **A client sends two requests**, which are read at once and dispatched. -/
def sending (text : Bytes) (call call' : HandlerCall) : ℕ → Proxy
  | 0 => start 0
  | 1 => (start 0).acceptTcpHandler 5 0
  | 2 => ((start 0).acceptTcpHandler 5 0).readFromClient 0 (.new 1 0) text
  | 3 => { (start 0).acceptTcpHandler 5 0 with
      loop := .decoding 0 [call'] (.ok afterTwo)
      jobs := [.enqueued 0 1 call] }
  | 4 => { (start 0).acceptTcpHandler 5 0 with
      loop := .decoding 0 [] (.ok afterTwo)
      jobs := [.enqueued 0 1 call, .enqueued 0 1 call'] }
  | _ => withJobs [.enqueued 0 1 call, .enqueued 0 1 call'] []

/-- What happens meanwhile. -/
def sendingLabel (text : Bytes) : ℕ → Label
  | 0 => .accept 5 0
  | 1 => .read 0 text
  | 2 | 3 => .enqueue
  | _ => .decoded

theorem step_sending {text : Bytes} {call call' : HandlerCall}
    (htext : text ≠ [] ∧ text.length ≤ 1023)
    (hreceive : receive (.new 1 0) text = ⟨[call, call'], .ok afterTwo⟩) {n : ℕ} (hn : n < 5) :
    Step (sending text call call' n) (sendingLabel text n) (sending text call call' (n + 1)) := by
  match n, hn with
  | 0, _ => exact Step.accept rfl (by decide) rfl
  | 1, _ => exact Step.read (c := ⟨5, true, .new 1 0⟩) rfl ⟨rfl, rfl, rfl⟩ htext
  | 2, _ =>
    show Step (readFromClient _ 0 (.new 1 0) text) _ _
    unfold readFromClient
    rw [hreceive]
    exact @Step.enqueue _ 0 ⟨5, true, .new 1 0⟩ call _ _ rfl rfl
  | 3, _ => exact @Step.enqueue _ 0 ⟨5, true, .new 1 0⟩ call' _ _ rfl rfl
  | 4, _ => exact Step.decoded rfl

/-- Two writes to one key, which a client sends one behind the other. -/
def twoWrites : List HandlerCall := [setCall 0 "k" "1", setCall 1 "k" "2"]

/-- The same as text. -/
def twoWritesText : Bytes :=
  ofString "*3\r\n$3\r\nSET\r\n$1\r\nk\r\n$1\r\n1\r\n*3\r\n$3\r\nSET\r\n$1\r\nk\r\n$1\r\n2\r\n"

theorem receive_twoWrites :
    receive (.new 1 0) twoWritesText = ⟨twoWrites, .ok afterTwo⟩ :=
  Traced.ext (by decide +kernel) (by decide +kernel)

/-- The worker of a `SET` makes one call and replies. -/
theorem processerWorker_set (commandId sessionId : Int32) (key value : Bytes) :
    processerWorker commandId [ofString "SET", key, value] sessionId
      = .call (Sum.inl (.writeEx key value)) fun r =>
        sendReply commandId sessionId
          (match r with
            | .ok _ => encode .simpleStrings [ofString "OK"]
            | .error _ => internalError).response := by
  have hhandle : handle (commandOf [ofString "SET", key, value]) = handleSetRequest := by
    show handle (toUppercase (ofString "SET")) = _
    unfold handle
    iterate 10 rw [if_neg (by decide +kernel)]
    rw [if_pos (by decide +kernel)]
  unfold processerWorker
  rw [hhandle]
  refine congrArg (Prog.call _) (funext fun r => ?_)
  cases r <;> rfl

/-- The worker of a `SET` that has made its call. -/
def written (commandId : Int32) (value : String) : ProcesserJob where
  owner := 0
  sessionId := 1
  call := setCall commandId "k" value
  made := [⟨Sum.inl (.writeEx (ofString "k") (ofString value)), .ok ()⟩]
  todo := sendReply commandId 1 (encode .simpleStrings [ofString "OK"]).response

/-- Its reply. -/
def okReply (commandId : Int32) : SendReply :=
  ⟨commandId, 1, (encode .simpleStrings [ofString "OK"]).response⟩

/-- And when it has called `send_reply`. -/
def replied (commandId : Int32) (value : String) : ProcesserJob where
  owner := 0
  sessionId := 1
  call := setCall commandId "k" value
  made := (written commandId value).made ++ [⟨Sum.inr (okReply commandId), ()⟩]
  todo := .pure ()

/-- The reply to the second request has found the session. -/
def heldEarly : Proxy :=
  { withJobs [replied 0 "1", replied 1 "2"] [⟨0, okReply 0⟩] with
    holding := [(0, ⟨0, okReply 1⟩)] }

/-- The context that keeps it back. -/
def keepingBack : SessionCtx := (SessionCtx.new 5).buffer 1 (okReply 1).response

/-- It has been inserted, ahead of its turn. -/
def insertedEarly : Proxy :=
  { heldEarly with
    manager := heldEarly.manager.setCtx 0 keepingBack
    holding := []
    inserted := [(0, ⟨0, okReply 1⟩)]
    sent := heldEarly.sentAfter 5 [] }

/-- The reply to the first request has found the session. -/
def heldLate : Proxy :=
  { insertedEarly with
    senders := []
    holding := [(0, ⟨0, okReply 0⟩)] }

/-- The context that has sent both. -/
def bothSent : SessionCtx := keepingBack.advance.advance.dropBuffered 1

/-- It has been inserted as well. -/
def insertedLate : Proxy :=
  { heldLate with
    manager := heldLate.manager.setCtx 0 bothSent
    holding := []
    inserted := [(0, ⟨0, okReply 1⟩), (0, ⟨0, okReply 0⟩)]
    sent := heldLate.sentAfter 5 ((okReply 0).response ++ (okReply 1).response) }

/-- **The second of two writes overtakes the first**, and so does its reply. -/
def overtaking : ℕ → Proxy
  | 6 => withJobs [.enqueued 0 1 (setCall 0 "k" "1"), written 1 "2"] []
  | 7 => withJobs [written 0 "1", written 1 "2"] []
  | 8 => withJobs [written 0 "1", replied 1 "2"] [⟨0, okReply 1⟩]
  | 9 => withJobs [replied 0 "1", replied 1 "2"] [⟨0, okReply 1⟩, ⟨0, okReply 0⟩]
  | 10 => heldEarly
  | 11 => insertedEarly
  | 12 => heldLate
  | _ + 13 => insertedLate
  | n => sending twoWritesText (setCall 0 "k" "1") (setCall 1 "k" "2") n

/-- The kernel takes a reply. -/
def okWrite : Event WriteResult := ⟨⟨5, (okReply 0).response⟩, 5, by decide +kernel⟩

/-- What happens meanwhile. -/
def overtakingLabel : ℕ → Label
  | 5 => .callTree (.writeEx (ofString "k") (ofString "2")) (.ok ())
  | 6 => .callTree (.writeEx (ofString "k") (ofString "1")) (.ok ())
  | 7 => .sendReply (okReply 1)
  | 8 => .sendReply (okReply 0)
  | 9 => .check ⟨0, okReply 1⟩
  | 10 => .insert 0 ⟨0, okReply 1⟩ []
  | 11 => .check ⟨0, okReply 0⟩
  | _ + 12 => .insert 0 ⟨0, okReply 0⟩ [okWrite, okWrite]
  | n => sendingLabel twoWritesText n

theorem toList_keepingBack :
    keepingBack.bufferedResponses.toList = [(1, (okReply 1).response)] := by decide +kernel

/-- A reply ahead of its turn is kept back. -/
theorem exec_keepingBack :
    Exec ((SessionCtx.new 5).insertNewResponse 1 (okReply 1).response) [] keepingBack := by
  have hloop : Exec (keepingBack.sendLoop 1 keepingBack.bufferedResponses.toList) []
      (keepingBack, 1) := by
    rw [toList_keepingBack]
    exact (exec_sendLoop_cons_ne_iff (by decide)).mpr ⟨rfl, rfl⟩
  unfold SessionCtx.insertNewResponse
  rw [if_neg (by decide)]
  exact exec_bind_iff.mpr ⟨_, _, _, hloop, exec_pure_iff.mpr ⟨rfl, rfl⟩, rfl⟩

/-- **Both are sent** when the one it waits for has come. -/
theorem exec_bothSent :
    Exec (keepingBack.insertNewResponse 0 (okReply 0).response) [okWrite, okWrite] bothSent := by
  have hwrite : Exec (reply 5 (okReply 0).response) [okWrite] 5 :=
    exec_reply_iff.mpr (Or.inr ⟨by decide +kernel, ⟨5, by decide +kernel⟩, rfl, rfl⟩)
  have hloop : Exec (keepingBack.advance.sendLoop 1
      keepingBack.advance.bufferedResponses.toList) [okWrite] (bothSent, 5) := by
    rw [SessionCtx.bufferedResponses_advance, toList_keepingBack]
    refine (exec_sendLoop_cons_iff rfl).mpr ⟨_, 5, [], hwrite, rfl, ?_⟩
    exact exec_pure_iff.mpr ⟨rfl, rfl⟩
  unfold SessionCtx.insertNewResponse
  rw [if_pos (show 0 = keepingBack.toSendCommandId from rfl)]
  exact exec_bind_iff.mpr ⟨_, 5, _, hwrite,
    exec_bind_iff.mpr ⟨_, _, _, hloop, exec_pure_iff.mpr ⟨rfl, rfl⟩, rfl⟩, rfl⟩

theorem step_overtaking {n : ℕ} (hn : n < 13) :
    Step (overtaking n) (overtakingLabel n) (overtaking (n + 1)) := by
  have hsending := @step_sending twoWritesText (setCall 0 "k" "1") (setCall 1 "k" "2")
    (by decide +kernel) receive_twoWrites
  match n, hn with
  | 0, _ => exact hsending (n := 0) (by decide)
  | 1, _ => exact hsending (n := 1) (by decide)
  | 2, _ => exact hsending (n := 2) (by decide)
  | 3, _ => exact hsending (n := 3) (by decide)
  | 4, _ => exact hsending (n := 4) (by decide)
  | 5, _ =>
    exact @Step.callTree _ [.enqueued 0 1 (setCall 0 "k" "1")] []
      (.enqueued 0 1 (setCall 1 "k" "2")) (.writeEx (ofString "k") (ofString "2")) _ (.ok ()) rfl
      (processerWorker_set 1 1 _ _)
  | 6, _ =>
    exact @Step.callTree _ [] [written 1 "2"] (.enqueued 0 1 (setCall 0 "k" "1"))
      (.writeEx (ofString "k") (ofString "1")) _ (.ok ()) rfl (processerWorker_set 0 1 _ _)
  | 7, _ => exact @Step.sendReply _ [written 0 "1"] [] (written 1 "2") (okReply 1) .pure rfl rfl
  | 8, _ => exact @Step.sendReply _ [] [replied 1 "2"] (written 0 "1") (okReply 0) .pure rfl rfl
  | 9, _ => exact @Step.check _ [] [⟨0, okReply 0⟩] ⟨0, okReply 1⟩ rfl
  | 10, _ => exact @Step.insert heldEarly [] [] _ _ _ _ _ rfl rfl exec_keepingBack nofun
  | 11, _ => exact @Step.check _ [] [] ⟨0, okReply 0⟩ rfl
  | 12, _ =>
    have hopen : ∀ e ∈ [okWrite, okWrite], heldLate.descriptors e.1.fd = none → e.2.1 = -1 := by
      intro e he hclosed
      rcases List.mem_pair.mp he with rfl | rfl <;> cases hclosed
    have hinsert := @Step.insert heldLate [] [] _ _ _ _ _ rfl rfl exec_bothSent hopen
    have htaken : transferred [okWrite, okWrite]
        = (okReply 0).response ++ (okReply 1).response := by decide +kernel
    rw [htaken] at hinsert
    exact hinsert

theorem alone_overtaking (n : ℕ) : Alone (overtaking n) (overtakingLabel n) := by
  match n with
  | 0 => rfl
  | 10 => exact nofun
  | n + 12 =>
    have htaken : okWrite.2.1 = okWrite.1.buf.length := by decide +kernel
    exact List.forall_mem_cons.mpr ⟨htaken, List.forall_mem_singleton.mpr htaken⟩
  | 1 | 2 | 3 | 4 | 5 | 6 | 7 | 8 | 9 | 11 => trivial

theorem runs_overtaking {n : ℕ} (hn : n ≤ 13) : Runs Alone (start 0) (overtaking n) := by
  induction n with
  | zero => exact .refl
  | succ n ih => exact (ih (by omega)).step (alone_overtaking n) (step_overtaking (by omega))

theorem undisturbed_overtaking {n : ℕ} (hn : n ≤ 13) :
    Undisturbed 0 (overtaking n) (overtakingLabel n) :=
  (alone_overtaking n).undisturbed (runs_overtaking hn)

theorem allRun_insertedLate : insertedLate.AllRun 0 where
  jobs := List.forall_mem_cons.mpr ⟨rfl, List.forall_mem_singleton.mpr rfl⟩
  senders _ h := absurd h List.not_mem_nil
  holding _ h := absurd h List.not_mem_nil

/-- The reply ahead of its turn is kept back, and when the other one has come they are
delivered in order. -/
theorem deliversInOrder_of_runs_overtaking :
    (∃ ctx m, DeliversInOrder insertedEarly 0 ctx m)
      ∧ ∃ ctx, DeliversInOrder insertedLate 0 ctx 2 ∧ ctx.bufferedResponses.isEmpty := by
  have hruns : ∀ n ≤ 13, Runs (Undisturbed 0) (start 0) (overtaking n) :=
    fun n hn => (runs_overtaking hn).undisturbed
  obtain ⟨ctx, m, hearly, -⟩ :=
    deliversInOrder_of_runs (hruns 11 (by decide)) (by decide) (by decide)
  obtain ⟨ctx', m', hlate, hall⟩ :=
    deliversInOrder_of_runs (hruns 13 (by decide)) (by decide) (by decide)
  obtain ⟨rfl, hempty⟩ := hall allRun_insertedLate
  exact ⟨⟨ctx, m, hearly⟩, ctx', hlate, hempty⟩

end Proxy

end LogcabinRedisProxy
