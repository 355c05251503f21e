import RedisProxy.Ownership

/-!
# Accounting for the replies

Of the connections that come and go, one is looked at that stays. Its decoder
counts its requests, whatever those of the others do (`Dispatches`). Every reply
on its way is that of a worker, which has made the calls of `processer_worker`
and is done (`Traceable`). As a worker replies once, and under the number of its
request, each number is owed by a worker, carried by one `sender_worker`, or
inserted in the context of the session, and only one of these (`Accounts`).
-/

namespace LogcabinRedisProxy

open Bytes SimpleResp Prog

namespace Proxy

/-! ## A connection among others -/

/-- The workers of a connection, in the order in which they were enqueued. -/
def jobsOf (s : Proxy) (p : ℕ) : List ProcesserJob := s.jobs.filter fun job => job.owner = p

/-- **The connection `p` stays connected, and its descriptor takes all the bytes
it is offered.** Other clients come and go, and what they are sent may get lost.
No client is accepted with a descriptor or a session id still in use, which holds of
itself where only one ever connects. -/
def Undisturbed (p : ℕ) (s : Proxy) : Label → Prop
  | .accept fd readingStrSize => s.Exclusive (.accept fd readingStrSize)
  | .disconnect q => q ≠ p
  | .insert q _ tr => q = p → AcceptsAll tr
  | _ => True

variable {s s' : Proxy} {p : ℕ} {sessionId : Int32} {l : Label}

theorem Undisturbed.exclusive (h : s.Undisturbed p l) : s.Exclusive l := by
  cases l with
  | accept fd readingStrSize => exact h
  | _ => trivial

/-- What has changed for the workers of a connection when one worker has made a
call. -/
theorem map_jobsOf_progress {α : Type} (g : ProcesserJob → α) {before after : List ProcesserJob}
    {job job' : ProcesserJob} (howner : job'.owner = job.owner) (hg : g job' = g job) :
    ((before ++ job' :: after).filter fun job => job.owner = p).map g
      = ((before ++ job :: after).filter fun job => job.owner = p).map g := by
  rw [List.filter_append, List.filter_append, List.map_append, List.map_append,
    List.filter_cons, List.filter_cons, howner]
  split
  · rw [List.map_cons, List.map_cons, hg]
  · rfl

theorem jobsOf_enqueue_self (s : Proxy) (p : ℕ) (sessionId : Int32) (call : HandlerCall) :
    (s.enqueueProcesser p sessionId call).jobsOf p
      = s.jobsOf p ++ [.enqueued p sessionId call] := by
  show List.filter _ (_ ++ _) = _
  rw [List.filter_append, List.filter_cons_of_pos (by exact decide_eq_true rfl),
    List.filter_nil]
  rfl

theorem jobsOf_enqueue_of_ne {q : ℕ} (h : q ≠ p) (call : HandlerCall) :
    (s.enqueueProcesser q sessionId call).jobsOf p = s.jobsOf p := by
  show List.filter _ (_ ++ _) = _
  rw [List.filter_append, List.filter_cons_of_neg (by exact fun hd => h (of_decide_eq_true hd)),
    List.filter_nil, List.append_nil]
  rfl

/-! ## Counting the requests -/

/-- The decoder of the connection is between two reads. -/
structure BetweenReads (s : Proxy) (p : ℕ) : Prop where
  decoding : ∀ calls outcome, s.loop ≠ .decoding p calls outcome
  alive : s.loop ≠ .terminated

/-- While the bytes of another connection are decoded. -/
theorem BetweenReads.of_decoding {q : ℕ} {calls : List HandlerCall}
    {outcome : Except StdException DecodeContext} (hloop : s.loop = .decoding q calls outcome)
    (hq : q ≠ p) : s.BetweenReads p where
  decoding _ _ hdec := hq (EventLoop.decoding.inj (hloop.symm.trans hdec)).1
  alive := by
    rw [hloop]
    exact nofun

/-- **The decoder of a connection counts its requests.** -/
structure Dispatches (s : Proxy) (p : ℕ) (sessionId : Int32) : Prop where
  /-- Between reads the decoder is at the number of the requests. -/
  connection : ∃ c, s.connections[p]? = some c
    ∧ (s.BetweenReads p → c.decoder.lastCommandId = Int32.ofNat (s.jobsOf p).length)
  /-- While it decodes, the handler calls to come have the next numbers. -/
  decoding : ∀ calls outcome, s.loop = .decoding p calls outcome →
    Numbered (s.jobsOf p).length calls ∧ ∀ decoder, outcome = .ok decoder →
      decoder.lastCommandId = Int32.ofNat ((s.jobsOf p).length + calls.length)
  /-- The requests have their numbers. -/
  numbered : Numbered 0 ((s.jobsOf p).map ProcesserJob.call)
  /-- The session is in the table. -/
  table : s.manager.ctxMap[sessionId]? = some p
  /-- The workers carry its id. -/
  sessions : ∀ job ∈ s.jobsOf p, job.sessionId = sessionId

theorem sessionIdOf_eq_some_iff {id : Int32} :
    s.sessionIdOf p = some id ↔ ∃ c, s.connections[p]? = some c ∧ c.decoder.sessionId = id :=
  Option.map_eq_some_iff

/-- **Steps outside the event loop**, and those that accept or close another
connection. -/
theorem Dispatches.of_elsewhere (h : Dispatches s p sessionId) (hloop : s'.loop = s.loop)
    (hconn : s'.connections[p]? = s.connections[p]?)
    (hjobs : (s'.jobsOf p).map (fun job => (job.call, job.sessionId))
      = (s.jobsOf p).map fun job => (job.call, job.sessionId))
    (htable : s'.manager.ctxMap[sessionId]? = some p) : Dispatches s' p sessionId := by
  have hlen : (s'.jobsOf p).length = (s.jobsOf p).length := by
    have hmap := congrArg List.length hjobs
    rwa [List.length_map, List.length_map] at hmap
  have hcalls : (s'.jobsOf p).map ProcesserJob.call = (s.jobsOf p).map ProcesserJob.call := by
    have hmap := congrArg (List.map Prod.fst) hjobs
    rwa [List.map_map, List.map_map] at hmap
  obtain ⟨c, hc, hlast⟩ := h.connection
  refine
    { connection := ⟨c, hconn.trans hc, fun hbetween => ?_⟩
      decoding := fun calls outcome hdec => ?_
      numbered := hcalls ▸ h.numbered
      table := htable
      sessions := fun job hjob => ?_ }
  · rw [hlen]
    exact hlast ⟨hloop ▸ hbetween.decoding, hloop ▸ hbetween.alive⟩
  · rw [hlen]
    exact h.decoding calls outcome (hloop ▸ hdec)
  · have hmem : (job.call, job.sessionId)
        ∈ (s.jobsOf p).map fun job => (job.call, job.sessionId) :=
      hjobs ▸ List.mem_map_of_mem hjob
    obtain ⟨job', hjob', heq⟩ := List.mem_map.mp hmem
    exact (Prod.mk.inj heq).2 ▸ h.sessions job' hjob'

/-- Bytes are read from a connection. -/
theorem Dispatches.read (h : Dispatches s p sessionId) (hloop : s.loop = .waiting) {q : ℕ}
    {c : Connection} (hw : s.Watches q c) (command : Bytes) :
    Dispatches (s.readFromClient q c.decoder command) p sessionId := by
  obtain ⟨c', hc', hlast⟩ := h.connection
  have hnow := hlast ⟨by rw [hloop]; exact nofun, by rw [hloop]; exact nofun⟩
  refine { h with
    connection := ⟨c', hc', fun _ => hnow⟩
    decoding := fun calls outcome hdec => ?_ }
  obtain ⟨rfl, rfl, rfl⟩ := EventLoop.decoding.inj hdec
  obtain rfl := Option.some.inj (hc'.symm.trans hw.1)
  obtain ⟨hcalls, hnext⟩ := receive_numbered hnow command
  exact ⟨hcalls, fun decoder hok => (hnext decoder hok).1⟩

section Enqueue

variable {c : Connection} {call : HandlerCall} {calls : List HandlerCall}
  {outcome : Except StdException DecodeContext}

/-- The decoder of the connection makes its next handler call. -/
theorem Dispatches.enqueue_self (h : Dispatches s p sessionId) (hcons : Consistent s)
    (hloop : s.loop = .decoding p (call :: calls) outcome) (hc : s.connections[p]? = some c) :
    Dispatches { s.enqueueProcesser p c.decoder.sessionId call with
      loop := .decoding p calls outcome } p sessionId := by
  have hjobs := jobsOf_enqueue_self s p c.decoder.sessionId call
  have hlen : ((s.enqueueProcesser p c.decoder.sessionId call).jobsOf p).length
      = (s.jobsOf p).length + 1 := by
    rw [hjobs, List.length_append]
    rfl
  obtain ⟨hcalls, hnext⟩ := h.decoding _ _ hloop
  obtain ⟨hcall, hcalls⟩ := numbered_cons_iff.mp hcalls
  refine
    { connection := ⟨c, hc, fun hbetween => absurd rfl (hbetween.decoding calls outcome)⟩
      decoding := fun calls' outcome' hdec => ?_
      numbered := ?_
      table := h.table
      sessions := ?_ }
  · obtain ⟨-, rfl, rfl⟩ := EventLoop.decoding.inj hdec
    show Numbered (s.enqueueProcesser p _ call |>.jobsOf p).length _ ∧ ∀ decoder, _ →
      _ = Int32.ofNat ((s.enqueueProcesser p _ call |>.jobsOf p).length + _)
    rw [hlen]
    refine ⟨hcalls, fun decoder hok => ?_⟩
    rw [hnext decoder hok, List.length_cons]
    exact congrArg Int32.ofNat (by omega)
  · show Numbered 0 ((s.enqueueProcesser p _ call |>.jobsOf p).map _)
    rw [hjobs, List.map_append]
    refine h.numbered.append ?_
    rw [List.length_map, Nat.zero_add]
    exact numbered_cons_iff.mpr ⟨hcall, numbered_nil _⟩
  · show ∀ job ∈ (s.enqueueProcesser p _ call).jobsOf p, _
    rw [hjobs]
    refine List.forall_mem_append.mpr ⟨h.sessions, List.forall_mem_singleton.mpr ?_⟩
    obtain ⟨c₁, hc₁, hid⟩ := sessionIdOf_eq_some_iff.mp (hcons.table _ _ h.table)
    obtain rfl := Option.some.inj (hc₁.symm.trans hc)
    exact hid

/-- The decoder of another connection makes its next handler call. -/
theorem Dispatches.enqueue_of_ne (h : Dispatches s p sessionId) {q : ℕ} (hq : q ≠ p)
    (hloop : s.loop = .decoding q (call :: calls) outcome) :
    Dispatches { s.enqueueProcesser q c.decoder.sessionId call with
      loop := .decoding q calls outcome } p sessionId := by
  obtain ⟨c', hc', hlast⟩ := h.connection
  have hjobs : (s.enqueueProcesser q c.decoder.sessionId call).jobsOf p = s.jobsOf p :=
    jobsOf_enqueue_of_ne hq call
  refine
    { connection := ⟨c', hc', fun _ => ?_⟩
      decoding := fun calls' outcome' hdec => absurd (EventLoop.decoding.inj hdec).1 hq
      numbered := ?_
      table := h.table
      sessions := ?_ }
  · show _ = Int32.ofNat (s.enqueueProcesser q _ call |>.jobsOf p).length
    rw [hjobs]
    exact hlast (.of_decoding hloop hq)
  · show Numbered 0 ((s.enqueueProcesser q _ call |>.jobsOf p).map _)
    rw [hjobs]
    exact h.numbered
  · show ∀ job ∈ (s.enqueueProcesser q _ call).jobsOf p, _
    rw [hjobs]
    exact h.sessions

/-- The decoder of a connection makes its next handler call. -/
theorem Dispatches.enqueue (h : Dispatches s p sessionId) (hcons : Consistent s) {q : ℕ}
    (hloop : s.loop = .decoding q (call :: calls) outcome) (hc : s.connections[q]? = some c) :
    Dispatches { s.enqueueProcesser q c.decoder.sessionId call with
      loop := .decoding q calls outcome } p sessionId := by
  by_cases hq : q = p
  · subst hq
    exact h.enqueue_self hcons hloop hc
  · exact h.enqueue_of_ne hq hloop

end Enqueue

/-- The decoder of a connection is done. -/
theorem Dispatches.decoded (h : Dispatches s p sessionId) {q : ℕ} {decoder : DecodeContext}
    (hloop : s.loop = .decoding q [] (.ok decoder)) :
    Dispatches (s.setDecoder q decoder) p sessionId := by
  obtain ⟨c, hc, hlast⟩ := h.connection
  have hget : (s.setDecoder q decoder).connections[p]?
      = some (if q = p then c.setDecoder decoder else c) := by
    show (s.connections.modify q _)[p]? = _
    rw [List.getElem?_modify, hc]
    split <;> rfl
  refine { h with
    connection := ⟨_, hget, fun _ => ?_⟩
    decoding := nofun }
  split
  · rename_i hq
    subst hq
    exact (h.decoding _ _ hloop).2 decoder rfl
  · rename_i hq
    exact hlast (.of_decoding hloop hq)

/-- **Every step of an undisturbed run keeps the count.** -/
theorem Dispatches.step (h : Dispatches s p sessionId) (hcons : Consistent s)
    (hx : s.Undisturbed p l) (hs : Step s l s') : Dispatches s' p sessionId := by
  obtain ⟨c, hc, hlast⟩ := h.connection
  cases hs with
  | accept hloop hfd hclosed =>
    refine h.of_elsewhere rfl ?_ rfl ?_
    · rw [connections_acceptTcpHandler,
        if_neg (Nat.ne_of_lt (List.getElem?_eq_some_iff.mp hc).1)]
    · rw [getElem?_acceptTcpHandler hx.2.table, if_neg, h.table]
      rintro rfl
      exact nomatch hx.2.table.symm.trans h.table
  | disconnect hloop hwatch =>
    rename_i q c'
    refine h.of_elsewhere rfl ?_ rfl ?_
    · show (s.connections.modify q _)[p]? = _
      exact List.getElem?_modify_ne _ _ hx
    · rw [hcons.getElem?_disconnect hwatch, if_neg, h.table]
      rintro rfl
      exact hx (Option.some.inj ((hcons.of_watches hwatch).2.2.symm.trans h.table))
  | read hloop hwatch hcommand => exact h.read hloop hwatch _
  | enqueue hloop hc' => exact h.enqueue hcons hloop hc'
  | decoded hloop => exact h.decoded hloop
  | terminate hloop =>
    exact { h with
      connection := ⟨c, hc, fun hbetween => absurd rfl hbetween.alive⟩
      decoding := nofun }
  | callTree r hjobs htodo =>
    refine h.of_elsewhere rfl rfl ?_ h.table
    unfold jobsOf
    rw [hjobs]
    exact map_jobsOf_progress _ (by rfl) (by rfl)
  | sendReply hjobs htodo =>
    refine h.of_elsewhere rfl rfl ?_ h.table
    unfold jobsOf
    rw [hjobs]
    exact map_jobsOf_progress _ (by rfl) (by rfl)
  | check hsenders => exact h.of_elsewhere rfl rfl rfl h.table
  | insert hholding hctx hrun hclosed => exact h.of_elsewhere rfl rfl rfl h.table

theorem Dispatches.commandIds (h : Dispatches s p sessionId) :
    (s.jobsOf p).map (fun job => job.call.commandId)
      = (List.range (s.jobsOf p).length).map Int32.ofNat := by
  have hnum : _ = _ := h.numbered
  rwa [List.map_map, List.length_map, ← List.range_eq_range'] at hnum

/-- Below `2 ^ 31` no number is given twice. -/
theorem Dispatches.nodup (h : Dispatches s p sessionId) (hn : (s.jobsOf p).length < 2 ^ 31) :
    ((s.jobsOf p).map fun job => job.call.commandId).Nodup := by
  rw [h.commandIds]
  refine List.Nodup.map_on (fun i hi j hj hij => ?_) List.nodup_range
  have hint := congrArg Int32.toInt hij
  rw [Int32.toInt_ofNat_of_lt (by rw [List.mem_range] at hi; omega),
    Int32.toInt_ofNat_of_lt (by rw [List.mem_range] at hj; omega)] at hint
  exact_mod_cast hint

/-- A worker is that of a request, by its number. -/
theorem Dispatches.exists_request (h : Dispatches s p sessionId)
    (hn : (s.jobsOf p).length < 2 ^ 31) {job : ProcesserJob} (hjob : job ∈ s.jobs)
    (howner : job.owner = p) :
    ∃ k : ℕ, (s.jobsOf p)[k]? = some job ∧ k < (s.jobsOf p).length
      ∧ job.call.commandId.toInt = k := by
  obtain ⟨k, hk⟩ : ∃ k, (s.jobsOf p)[k]? = some job :=
    List.mem_iff_getElem?.mp (List.mem_filter.mpr ⟨hjob, decide_eq_true howner⟩)
  have hlt := (List.getElem?_eq_some_iff.mp hk).1
  refine ⟨k, hk, hlt, ?_⟩
  have hids := congrArg (fun l : List Int32 => l[k]?) h.commandIds
  simp only [List.getElem?_map, hk, List.getElem?_range hlt, Option.map_some,
    Option.some.injEq] at hids
  rw [hids, Int32.toInt_ofNat_of_lt (by omega)]

/-! ## Where a reply comes from -/

/-- One of the workers has made this call of `send_reply` and is done. -/
def HasReplied (jobs : List ProcesserJob) (sender : SenderJob) : Prop :=
  ∃ job ∈ jobs, job.owner = sender.owner ∧ job.todo = .pure ()
    ∧ job.call.commandId = sender.reply.commandId ∧ job.sessionId = sender.reply.sessionId
    ∧ ⟨Sum.inr sender.reply, ()⟩ ∈ job.made

/-- A worker that goes on is not one that has replied. -/
theorem HasReplied.of_progress {before after : List ProcesserJob} {job job' : ProcesserJob}
    {sender : SenderJob} (h : HasReplied (before ++ job :: after) sender)
    (htodo : job.todo ≠ .pure ()) : HasReplied (before ++ job' :: after) sender := by
  obtain ⟨done, hmem, howner, hdone, hrest⟩ := h
  refine ⟨done, ?_, howner, hdone, hrest⟩
  rw [List.mem_append, List.mem_cons] at hmem ⊢
  rcases hmem with hmem | rfl | hmem
  · exact Or.inl hmem
  · exact absurd hdone htodo
  · exact Or.inr (Or.inr hmem)

theorem HasReplied.append {jobs : List ProcesserJob} {sender : SenderJob}
    (h : HasReplied jobs sender) (more : List ProcesserJob) :
    HasReplied (jobs ++ more) sender := by
  obtain ⟨done, hmem, hrest⟩ := h
  exact ⟨done, List.mem_append_left _ hmem, hrest⟩

/-- **Every reply can be traced to a worker**, and every worker to a
connection. -/
structure Traceable (s : Proxy) : Prop where
  /-- What a worker has done and has yet to do is what `processer_worker`
  does. -/
  progress : ∀ job ∈ s.jobs, ∀ tr, Exec job.todo tr () →
    Exec (processerWorker job.call.commandId job.call.request job.sessionId)
      (job.made ++ tr) ()
  /-- A `sender_worker` that waits has been enqueued by a worker. -/
  senders : ∀ job ∈ s.senders, HasReplied s.jobs job
  /-- So has one between its two steps. -/
  holding : ∀ held ∈ s.holding, HasReplied s.jobs held.2
  /-- And one that is done. -/
  inserted : ∀ given ∈ s.inserted, HasReplied s.jobs given.2
  /-- A worker is that of a connection. -/
  owners : ∀ job ∈ s.jobs, job.owner < s.connections.length

/-- A worker that makes a call is that much further in `processer_worker`. -/
theorem Traceable.progress_call (h : Traceable s) {before after : List ProcesserJob}
    {job : ProcesserJob} {e : Event WorkerResult} {k : WorkerResult e.1 → Prog WorkerResult Unit}
    (hjobs : s.jobs = before ++ job :: after) (htodo : job.todo = .call e.1 k) :
    ∀ job' ∈ before ++ { job with made := job.made ++ [e], todo := k e.2 } :: after,
      ∀ tr, Exec job'.todo tr () →
        Exec (processerWorker job'.call.commandId job'.call.request job'.sessionId)
          (job'.made ++ tr) () := by
  refine forall_mem_replace (hjobs ▸ h.progress) fun tr htr => ?_
  have hcall := h.progress job (hjobs ▸ List.mem_append_cons_self) (e :: tr)
    (by rw [htodo]; exact Exec.call htr)
  rwa [List.append_cons] at hcall

/-- **A worker that makes a call** keeps the replies traceable. -/
theorem Traceable.call (h : Traceable s) {before after : List ProcesserJob} {job : ProcesserJob}
    {e : Event WorkerResult} {k : WorkerResult e.1 → Prog WorkerResult Unit}
    (hjobs : s.jobs = before ++ job :: after) (htodo : job.todo = .call e.1 k) :
    Traceable { s with
      jobs := before ++ { job with made := job.made ++ [e], todo := k e.2 } :: after } where
  progress := h.progress_call hjobs htodo
  senders job' hjob' := (hjobs ▸ h.senders job' hjob').of_progress (htodo ▸ nofun)
  holding held hheld := (hjobs ▸ h.holding held hheld).of_progress (htodo ▸ nofun)
  inserted given hgiven := (hjobs ▸ h.inserted given hgiven).of_progress (htodo ▸ nofun)
  owners := forall_mem_replace (hjobs ▸ h.owners)
    (h.owners job (hjobs ▸ List.mem_append_cons_self))

/-- The owners are connections, whatever becomes of one of them. -/
theorem Traceable.owners_modify (h : Traceable s) (i : ℕ) (f : Connection → Connection) :
    ∀ job ∈ s.jobs, job.owner < (s.connections.modify i f).length := by
  rw [List.length_modify]
  exact h.owners

/-- **Every step keeps the replies traceable.** -/
theorem Traceable.step (h : Traceable s) (hcons : Consistent s) (hs : Step s l s') :
    Traceable s' := by
  cases hs with
  | accept hloop hfd hclosed =>
    refine { h with owners := fun job hjob => (h.owners job hjob).trans ?_ }
    show _ < (s.connections ++ [_]).length
    rw [List.length_append]
    exact Nat.lt_succ_self _
  | disconnect hloop hwatch => exact { h with owners := h.owners_modify _ _ }
  | read hloop hwatch hcommand => exact { h with }
  | decoded hloop => exact { h with owners := h.owners_modify _ _ }
  | terminate hloop => exact { h with }
  | enqueue hloop hc =>
    exact
      { progress := List.forall_mem_append.mpr
          ⟨h.progress, List.forall_mem_singleton.mpr fun tr htr => htr⟩
        senders := fun job hjob => (h.senders job hjob).append _
        holding := fun held hheld => (h.holding held hheld).append _
        inserted := fun given hgiven => (h.inserted given hgiven).append _
        owners := List.forall_mem_append.mpr
          ⟨h.owners, List.forall_mem_singleton.mpr (List.getElem?_eq_some_iff.mp hc).1⟩ }
  | callTree r hjobs htodo => exact h.call (e := ⟨Sum.inl _, r⟩) hjobs htodo
  | sendReply hjobs htodo =>
    rename_i before after job reply k
    obtain ⟨honce, -⟩ := hcons.of_call (hjobs ▸ List.mem_append_cons_self) htodo
    obtain ⟨hcid, hsid, hdone⟩ := honce.of_sendReply
    have hcall := h.call (e := ⟨Sum.inr reply, ()⟩) hjobs htodo
    exact { hcall with
      senders := List.forall_mem_append.mpr
        ⟨hcall.senders, List.forall_mem_singleton.mpr ⟨_, List.mem_append_cons_self, rfl,
          hdone, hcid.symm, hsid.symm, List.mem_append_cons_self⟩⟩ }
  | check hsenders =>
    have hreplied := h.senders _ (hsenders ▸ List.mem_append_cons_self)
    refine { h with
      senders := forall_mem_takeOut (hsenders ▸ h.senders)
      holding := List.forall_mem_append.mpr ⟨h.holding, fun held hheld => ?_⟩ }
    obtain ⟨q, -, rfl⟩ := Option.map_eq_some_iff.mp (Option.mem_toList.mp hheld)
    exact hreplied
  | insert hholding hctx hrun hclosed =>
    have hreplied := h.holding _ (hholding ▸ List.mem_append_cons_self)
    exact { h with
      holding := forall_mem_takeOut (hholding ▸ h.holding)
      inserted := List.forall_mem_append.mpr
        ⟨h.inserted, List.forall_mem_singleton.mpr hreplied⟩ }

/-- What is sent is sent for a connection. -/
theorem Traceable.owner_lt (h : Traceable s) {sender : SenderJob}
    (hreplied : HasReplied s.jobs sender) : sender.owner < s.connections.length := by
  obtain ⟨job, hjob, howner, -⟩ := hreplied
  exact howner ▸ h.owners job hjob

/-! ## The numbers of a connection -/

/-- What is there for the connection `p`, of what is there for some
connection. -/
def share (p owner : ℕ) (commandIds : List Int32) : List Int32 :=
  if owner = p then commandIds else []

theorem share_self (p : ℕ) (commandIds : List Int32) : share p p commandIds = commandIds :=
  if_pos rfl

theorem share_of_ne {owner : ℕ} (h : owner ≠ p) (commandIds : List Int32) :
    share p owner commandIds = [] := if_neg h

@[simp] theorem share_nil (p owner : ℕ) : share p owner [] = [] := ite_self []

/-- The number a worker still owes a reply to. -/
def owed (job : ProcesserJob) : List Int32 :=
  match job.todo with
  | .pure _ => []
  | .call _ _ => [job.call.commandId]

/-- The numbers of a connection that are owed, under way or inserted. -/
def numbers (s : Proxy) (p : ℕ) : List Int32 :=
  s.jobs.flatMap (fun job => share p job.owner (owed job))
    ++ s.senders.flatMap (fun job => share p job.owner [job.reply.commandId])
    ++ s.holding.flatMap (fun held => share p held.2.owner [held.2.reply.commandId])
    ++ s.inserted.flatMap (fun given => share p given.2.owner [given.2.reply.commandId])

/-- **Every request of a connection is accounted for once.** -/
def Accounts (s : Proxy) (p : ℕ) : Prop :=
  (s.numbers p).Perm (s.jobs.flatMap fun job => share p job.owner [job.call.commandId])

theorem flatMap_share (jobs : List ProcesserJob) (p : ℕ) :
    jobs.flatMap (fun job => share p job.owner [job.call.commandId])
      = (jobs.filter fun job => job.owner = p).map fun job => job.call.commandId := by
  induction jobs with
  | nil => rfl
  | cons job jobs ih =>
    rw [List.flatMap_cons, ih, List.filter_cons]
    by_cases hp : job.owner = p
    · rw [if_pos (decide_eq_true hp), hp, share_self]
      rfl
    · rw [if_neg (by simpa using hp), share_of_ne hp]
      rfl

theorem Accounts.perm (h : Accounts s p) :
    (s.numbers p).Perm ((s.jobsOf p).map fun job => job.call.commandId) := by
  unfold Accounts at h
  rwa [flatMap_share] at h

theorem owed_of_repliesOnce {job : ProcesserJob} {commandId sessionId : Int32}
    (h : RepliesOnce commandId sessionId job.todo) : owed job = [job.call.commandId] := by
  unfold owed
  generalize job.todo = todo at h
  cases h with
  | callTree h => rfl
  | sendReply response => rfl

theorem owed_enqueued (p : ℕ) (sessionId : Int32) (call : HandlerCall) :
    owed (.enqueued p sessionId call) = [call.commandId] :=
  owed_of_repliesOnce (repliesOnce_processerWorker call.request)

theorem owed_of_done {job : ProcesserJob} (h : job.todo = .pure ()) : owed job = [] := by
  unfold owed
  rw [h]

/-- A number that is owed, under way or inserted goes on to the next of these. -/
theorem perm_of_counts {owedIds sending held given owedIds' sending' held' given' ids ids' :
    List Int32} (h : (owedIds ++ sending ++ held ++ given).Perm ids)
    (hmove : ∀ x, owedIds'.count x + sending'.count x + held'.count x + given'.count x
        + ids.count x
      = owedIds.count x + sending.count x + held.count x + given.count x + ids'.count x) :
    (owedIds' ++ sending' ++ held' ++ given').Perm ids' := by
  refine List.perm_iff_count.mpr fun x => ?_
  have hx := h.count_eq x
  have hmx := hmove x
  simp only [List.count_append] at hx ⊢
  omega

/-- A `sender_worker` takes its first step: it goes on, if it is one of the
connection, and what any other does makes no difference. -/
theorem share_senderCheck (hfinds : s.senderCheck sessionId = some p) {job : SenderJob}
    (hid : job.owner = p → job.reply.sessionId = sessionId) :
    ((s.senderCheck job.reply.sessionId).map fun q => (q, job)).toList.flatMap
        (fun held => share p held.2.owner [held.2.reply.commandId])
      = share p job.owner [job.reply.commandId] := by
  by_cases hp : job.owner = p
  · rw [hid hp, hfinds]
    exact List.append_nil _
  · rw [share_of_ne hp]
    refine List.flatMap_eq_nil_iff.mpr fun held hheld => ?_
    obtain ⟨q, -, rfl⟩ := Option.map_eq_some_iff.mp (Option.mem_toList.mp hheld)
    exact share_of_ne hp _

/-- **Every step of an undisturbed run keeps the accounts.** -/
theorem Accounts.step (h : Accounts s p) (hcons : Consistent s) (htrace : Traceable s)
    (hdisp : Dispatches s p sessionId) (hfinds : s.senderCheck sessionId = some p)
    (hs : Step s l s') : Accounts s' p := by
  unfold Accounts numbers at h ⊢
  cases hs with
  | accept hloop hfd hclosed => exact h
  | disconnect hloop hwatch => exact h
  | read hloop hwatch hcommand => exact h
  | decoded hloop => exact h
  | terminate hloop => exact h
  | enqueue hloop hc =>
    rename_i q c call calls outcome
    refine perm_of_counts h fun x => ?_
    simp only [enqueueProcesser, List.flatMap_append, List.flatMap_singleton, owed_enqueued,
      List.count_append]
    show _ + List.count x (share p q [call.commandId]) + _ + _ + _ + _
      = _ + _ + _ + _ + (_ + List.count x (share p q [call.commandId]))
    omega
  | callTree r hjobs htodo =>
    rename_i before after job c k
    obtain ⟨honce, -⟩ := hcons.of_call (hjobs ▸ List.mem_append_cons_self) htodo
    have howed : owed { job with made := job.made ++ [⟨Sum.inl c, r⟩], todo := k r } = owed job :=
      (owed_of_repliesOnce (honce.of_callTree r)).trans
        (owed_of_repliesOnce (htodo.symm ▸ honce)).symm
    rw [hjobs] at h
    simp only [List.flatMap_append, List.flatMap_cons, howed] at h ⊢
    exact h
  | sendReply hjobs htodo =>
    rename_i before after job reply k
    obtain ⟨honce, -⟩ := hcons.of_call (hjobs ▸ List.mem_append_cons_self) htodo
    obtain ⟨hcid, -, hdone⟩ := honce.of_sendReply
    have howed : owed { job with made := job.made ++ [⟨Sum.inr reply, ()⟩], todo := k () } = [] :=
      owed_of_done hdone
    have howed' : owed job = [job.call.commandId] :=
      owed_of_repliesOnce (htodo.symm ▸ honce)
    rw [hjobs] at h
    refine perm_of_counts h fun x => ?_
    simp only [List.flatMap_append, List.flatMap_cons, List.flatMap_nil, howed, howed',
      share_nil, List.count_append, List.count_nil, hcid]
    omega
  | check hsenders =>
    rename_i before after job
    obtain ⟨done, hdone, howner, -, -, hsid, -⟩ := htrace.senders job
      (hsenders ▸ List.mem_append_cons_self)
    have hid : job.owner = p → job.reply.sessionId = sessionId := fun hp =>
      hsid.symm.trans (hdisp.sessions done
        (List.mem_filter.mpr ⟨hdone, decide_eq_true (howner.trans hp)⟩))
    rw [hsenders] at h
    refine perm_of_counts h fun x => ?_
    simp only [List.flatMap_append, List.flatMap_cons, share_senderCheck hfinds hid,
      List.count_append]
    omega
  | insert hholding hctx hrun hclosed =>
    rw [hholding] at h
    refine perm_of_counts h fun x => ?_
    simp only [List.flatMap_append, List.flatMap_cons, List.flatMap_nil, List.count_append,
      List.count_nil]
    omega

end Proxy

end LogcabinRedisProxy
