import RedisProxy.Conversations
import RedisProxy.Serializability

/-!
# Left alone, the proxy comes to rest

While nothing is accepted, read or closed, the proxy works off what it has: the
decoder makes its handler calls, each worker makes its calls on the cluster and
replies, and each reply is handed to its session. Nothing in this goes round in
circles and nothing waits for anything else of it, whichever thread is next and
whatever the cluster and the kernel answer: the proxy makes at most as many steps as
its `stock` says, which is an account of what is still to be done
(`length_le_stock_of_trace`), and where it stops everything is done
(`Sound.atRest_iff`).

So a client that has sent a pipeline of requests, and stays, ends up with the
replies to all of them, in every way the pools can take to that end
(`answered_all_of_trace`).

The stock is finite because a worker makes no more calls than its request has
elements (`length_calls_le`): every handler but those of the pushes and of `MGET`
makes one call, and those go through their arguments once.
-/

namespace LogcabinRedisProxy

open Bytes SimpleResp Prog

/-! ## How many calls a worker makes -/

variable {request : List Bytes} {calls : List (Event TreeResult)} {res : EncodeResult}

/-- Every command has a name. -/
theorem length_pos_of_commandOf {name : Bytes} (h : commandOf request = name)
    (hname : name ≠ []) : 1 ≤ request.length := by
  cases request with
  | nil => exact absurd h.symm hname
  | cons _ _ => exact Nat.succ_le_succ (Nat.zero_le _)

/-- **A handler makes no more calls than its request has elements.** -/
theorem length_calls_le (hrun : Exec (handle (commandOf request) request) calls res) :
    calls.length ≤ request.length := by
  have hone : ∀ name, commandOf request = name → name ≠ [] → calls.length ≤ 1 →
      calls.length ≤ request.length := fun _ h hname hle =>
    hle.trans (length_pos_of_commandOf h hname)
  have hd := dispatch_handle (commandOf request)
  generalize hname : commandOf request = name at hd hrun
  generalize handle name = handler at hd hrun
  cases hd with
  | rpush =>
    exact (length_le_of_push (fun _ _ _ _ => exec_callTree_iff) hrun).trans (Nat.sub_le _ _)
  | lpush =>
    exact (length_le_of_push (fun _ _ _ _ => exec_callTree_iff) hrun).trans (Nat.sub_le _ _)
  | mget => exact (length_le_of_mget hrun).trans (Nat.sub_le _ _)
  | sadd => exact hone _ hname (by decide) (length_le_one_of_guarded hrun)
  | srem => exact hone _ hname (by decide) (length_le_one_of_guarded hrun)
  | smembers => exact hone _ hname (by decide) (length_le_one_of_guarded hrun)
  | scard => exact hone _ hname (by decide) (length_le_one_of_guardedLookup hrun)
  | lrange => exact hone _ hname (by decide) (length_le_one_of_guardedLookup hrun)
  | ltrim => exact hone _ hname (by decide) (length_le_one_of_guarded hrun)
  | expire => exact hone _ hname (by decide) (length_le_one_of_guarded hrun)
  | set => exact hone _ hname (by decide) (length_le_one_of_guarded hrun)
  | get => exact hone _ hname (by decide) (length_le_one_of_guardedLookup hrun)
  | unknown _ _ _ _ =>
    obtain ⟨rfl, -⟩ := exec_pure_iff.mp hrun
    exact Nat.zero_le _

/-- A worker makes one call more, that of `send_reply`. -/
theorem length_made_le {commandId sessionId : Int32} {tr : List (Event WorkerResult)}
    (h : Exec (processerWorker commandId request sessionId) tr ()) :
    tr.length ≤ request.length + 1 := by
  obtain ⟨calls, res, hcalls, rfl⟩ := exec_processerWorker_iff.mp h
  rw [List.length_append, List.length_map, List.length_singleton]
  exact Nat.succ_le_succ (length_calls_le hcalls)

/-- **A worker that has yet to reply can always go on to its end.** -/
theorem RepliesOnce.exists_exec {commandId sessionId : Int32} {p : Prog WorkerResult Unit}
    (h : RepliesOnce commandId sessionId p) : ∃ e tr, Exec p (e :: tr) () := by
  induction h with
  | callTree h ih =>
    rename_i c k
    obtain ⟨e, tr, htr⟩ := ih (.error .other)
    exact ⟨⟨Sum.inl c, .error .other⟩, e :: tr, Exec.call htr⟩
  | sendReply response => exact ⟨⟨Sum.inr _, ()⟩, [], Exec.call (Exec.pure ())⟩

/-! ## What is still to be done -/

/-- What a worker has left to do, and what its reply then takes. -/
def ProcesserJob.stock (job : ProcesserJob) : ℕ :=
  match job.todo with
  | .pure _ => 0
  | .call _ _ => job.call.request.length - job.made.length + 3

/-- What a request takes that has yet to be dispatched. -/
def callStock (call : HandlerCall) : ℕ := call.request.length + 4

/-- What the event loop has left to do before it waits again. -/
def EventLoop.stock : EventLoop → ℕ
  | .decoding _ calls _ => (calls.map callStock).sum + 1
  | _ => 0

namespace Proxy

/-- **An account of what is still to be done.** -/
def stock (s : Proxy) : ℕ :=
  s.loop.stock + (s.jobs.map ProcesserJob.stock).sum + 2 * s.senders.length + s.holding.length

/-- **Everything is done.** -/
structure AtRest (s : Proxy) : Prop where
  /-- The event loop waits for the next event. -/
  loop : s.loop = .waiting
  /-- Every `processer_worker` has replied. -/
  jobs : ∀ job ∈ s.jobs, job.todo = .pure ()
  /-- Every `sender_worker` has taken its first step. -/
  senders : s.senders = []
  /-- Every `sender_worker` has taken its second step. -/
  holding : s.holding = []

/-- **No exception has ended the process, nor is about to.** -/
structure Survives (s : Proxy) : Prop where
  alive : s.loop ≠ .terminated
  returns : ∀ p calls e, s.loop ≠ .decoding p calls (.error e)

/-! ## The invariant -/

/-- A worker is somewhere in `processer_worker`. -/
structure Working (job : ProcesserJob) : Prop where
  /-- What it has done and has yet to do is what `processer_worker` does. -/
  progress : ∀ tr, Exec job.todo tr () →
    Exec (processerWorker job.call.commandId job.call.request job.sessionId) (job.made ++ tr) ()
  /-- It has replied and is done, or has yet to reply. -/
  replies : job.todo = .pure () ∨ RepliesOnce job.call.commandId job.sessionId job.todo

/-- **What the proxy means to use next is there**, in every run. -/
structure Sound (s : Proxy) : Prop where
  jobs : ∀ job ∈ s.jobs, Working job
  table : ∀ (id : Int32) (p : ℕ), s.manager.ctxMap[id]? = some p → p < s.manager.ctxs.length
  holding : ∀ held ∈ s.holding, held.1 < s.manager.ctxs.length
  loop : ∀ p calls outcome, s.loop = .decoding p calls outcome → p < s.connections.length

variable {s s' : Proxy} {l : Label} {job : ProcesserJob}

theorem sound_start (sessionCounter : Int32) : Sound (start sessionCounter) where
  jobs _ h := absurd h List.not_mem_nil
  table id p h := by
    rw [show (start sessionCounter).manager.ctxMap = ∅ from rfl,
      Std.TreeMap.getElem?_emptyc] at h
    cases h
  holding _ h := absurd h List.not_mem_nil
  loop _ _ _ h := nomatch h

theorem working_enqueued (p : ℕ) (sessionId : Int32) (call : HandlerCall) :
    Working (.enqueued p sessionId call) where
  progress _ h := h
  replies := Or.inr (repliesOnce_processerWorker call.request)

/-- **A worker that makes a call goes on.** -/
theorem Working.call (h : Working job) {e : Event WorkerResult}
    {k : WorkerResult e.1 → Prog WorkerResult Unit} (htodo : job.todo = .call e.1 k) :
    Working { job with made := job.made ++ [e], todo := k e.2 } where
  progress tr htr := by
    have hexec := h.progress (e :: tr) (by rw [htodo]; exact Exec.call htr)
    rwa [List.append_cons] at hexec
  replies := by
    have honce := (htodo ▸ h.replies).resolve_left nofun
    obtain ⟨c | reply, r⟩ := e
    · exact Or.inr (honce.of_callTree r)
    · exact Or.inl honce.of_sendReply.2.2

/-- **A worker that has yet to reply has made fewer calls than its request has
elements**, if it is to make another one on the cluster. -/
theorem Working.length_made_lt (h : Working job) {c : TreeCall}
    {k : TreeResult c → Prog WorkerResult Unit} (htodo : job.todo = .call (Sum.inl c) k) :
    job.made.length < job.call.request.length := by
  have honce := (htodo ▸ h.replies).resolve_left nofun
  obtain ⟨e, tr, htr⟩ := (honce.of_callTree (.error .other)).exists_exec
  have hle := length_made_le (h.progress (⟨Sum.inl c, .error .other⟩ :: e :: tr)
    (by rw [htodo]; exact Exec.call htr))
  simp only [List.length_append, List.length_cons] at hle
  omega

/-- **Every step keeps the proxy sound.** -/
theorem Sound.step (h : Sound s) (hs : Step s l s') : Sound s' := by
  cases hs with
  | accept hloop hfd hclosed =>
    rename_i fd readingStrSize
    have hctxs : (s.acceptTcpHandler fd readingStrSize).manager.ctxs.length
        = s.manager.ctxs.length + 1 := List.length_append
    refine
      { jobs := h.jobs
        table := fun id p hp => ?_
        holding := fun held hheld => hctxs ▸ Nat.lt_succ_of_lt (h.holding held hheld)
        loop := fun p calls outcome hdec => nomatch hloop.symm.trans hdec }
    change (s.manager.ctxMap.insertIfNew s.manager.getNextSessionCounterNumber
      s.manager.ctxs.length)[id]? = some p at hp
    rw [Std.TreeMap.getElem?_insertIfNew] at hp
    rw [hctxs]
    split at hp
    · exact Option.some.inj hp ▸ Nat.lt_succ_self _
    · exact Nat.lt_succ_of_lt (h.table id p hp)
  | disconnect hloop hwatch =>
    rename_i q c
    have hctxs : (s.disconnect q c.decoder).manager.ctxs.length = s.manager.ctxs.length := by
      show (s.manager.eraseSession c.decoder.sessionId).1.ctxs.length = _
      unfold SessionManager.eraseSession
      split
      · exact List.length_modify _ _ _
      · rfl
    have htable : ∀ (id : Int32) (p : ℕ),
        (s.disconnect q c.decoder).manager.ctxMap[id]? = some p →
          s.manager.ctxMap[id]? = some p := by
      intro id p hp
      change (s.manager.eraseSession c.decoder.sessionId).1.ctxMap[id]? = some p at hp
      unfold SessionManager.eraseSession at hp
      split at hp
      · rw [Std.TreeMap.getElem?_erase] at hp
        split at hp
        · cases hp
        · exact hp
      · exact hp
    exact
      { jobs := h.jobs
        table := fun id p hp => hctxs ▸ h.table id p (htable id p hp)
        holding := fun held hheld => hctxs ▸ h.holding held hheld
        loop := fun p calls outcome hdec => nomatch hloop.symm.trans hdec }
  | read hloop hwatch hcommand =>
    refine { h with loop := fun p calls outcome hdec => ?_ }
    obtain ⟨rfl, -, -⟩ := EventLoop.decoding.inj hdec
    exact (List.getElem?_eq_some_iff.mp hwatch.1).1
  | enqueue hloop hc =>
    refine
      { h with
        jobs := List.forall_mem_append.mpr
          ⟨h.jobs, List.forall_mem_singleton.mpr (working_enqueued _ _ _)⟩
        loop := fun p calls outcome hdec => ?_ }
    obtain ⟨rfl, -, -⟩ := EventLoop.decoding.inj hdec
    exact (List.getElem?_eq_some_iff.mp hc).1
  | decoded hloop => exact { h with loop := fun p calls outcome hdec => nomatch hdec }
  | terminate hloop => exact { h with loop := fun p calls outcome hdec => nomatch hdec }
  | callTree r hjobs htodo =>
    have hworking := h.jobs _ (hjobs ▸ List.mem_append_cons_self)
    exact { h with
      jobs := forall_mem_replace (hjobs ▸ h.jobs) (hworking.call (e := ⟨Sum.inl _, r⟩) htodo) }
  | sendReply hjobs htodo =>
    have hworking := h.jobs _ (hjobs ▸ List.mem_append_cons_self)
    exact { h with
      jobs := forall_mem_replace (hjobs ▸ h.jobs) (hworking.call (e := ⟨Sum.inr _, ()⟩) htodo) }
  | check hsenders =>
    refine { h with holding := List.forall_mem_append.mpr ⟨h.holding, fun held hheld => ?_⟩ }
    obtain ⟨p, hp, rfl⟩ := Option.map_eq_some_iff.mp (Option.mem_toList.mp hheld)
    exact h.table _ p (Option.filter_eq_some_iff.mp hp).1
  | insert hholding hctx hrun hclosed =>
    have hctxs : ∀ p ctx, (s.manager.ctxs.set p ctx).length = s.manager.ctxs.length := fun _ _ =>
      List.length_set
    exact
      { h with
        table := fun id p hp => by
          show p < (s.manager.ctxs.set _ _).length
          rw [hctxs]
          exact h.table id p hp
        holding := fun held hheld => by
          show held.1 < (s.manager.ctxs.set _ _).length
          rw [hctxs]
          exact forall_mem_takeOut (hholding ▸ h.holding) held hheld }

theorem Sound.runs {condition : Proxy → Label → Prop} (h : Sound s)
    (hr : Runs condition s s') : Sound s' :=
  hr.invariant (fun _ _ _ hsound _ hs => hsound.step hs) h

/-! ## Every step costs something -/

theorem sum_stock_replace {before after : List ProcesserJob} {job job' : ProcesserJob} :
    ((before ++ job' :: after).map ProcesserJob.stock).sum + job.stock
      = ((before ++ job :: after).map ProcesserJob.stock).sum + job'.stock := by
  simp only [List.map_append, List.map_cons, List.sum_append, List.sum_cons]
  omega

theorem stock_of_call {op : TreeCall ⊕ SendReply} {k : WorkerResult op → Prog WorkerResult Unit}
    (htodo : job.todo = .call op k) :
    job.stock = job.call.request.length - job.made.length + 3 := by
  unfold ProcesserJob.stock
  rw [htodo]

/-- A worker that has yet to reply has something left to do. -/
theorem stock_of_repliesOnce {commandId sessionId : Int32}
    (h : RepliesOnce commandId sessionId job.todo) :
    job.stock = job.call.request.length - job.made.length + 3 := by
  unfold ProcesserJob.stock
  generalize job.todo = todo at h
  cases h with
  | callTree h => rfl
  | sendReply response => rfl

/-- A request that is dispatched. -/
theorem stock_enqueued (p : ℕ) (sessionId : Int32) (call : HandlerCall) :
    (ProcesserJob.enqueued p sessionId call).stock = call.request.length + 3 :=
  stock_of_repliesOnce (repliesOnce_processerWorker call.request)

/-- **Every step that the proxy takes by itself costs something.** -/
theorem Sound.stock_lt (h : Sound s) (hin : s.ByItself l) (hs : Step s l s') :
    s'.stock < s.stock := by
  cases hs with
  | accept hloop hfd hclosed => exact hin.elim
  | disconnect hloop hwatch => exact hin.elim
  | read hloop hwatch hcommand => exact hin.elim
  | enqueue hloop hc =>
    rename_i p c call calls outcome
    have hbefore : s.loop.stock = callStock call + (calls.map callStock).sum + 1 := by
      rw [hloop]
      rfl
    have hafter : ((s.jobs ++ [ProcesserJob.enqueued p c.decoder.sessionId call]).map
        ProcesserJob.stock).sum = (s.jobs.map ProcesserJob.stock).sum
          + (call.request.length + 3) := by
      rw [List.map_append, List.sum_append, List.map_singleton, List.sum_singleton,
        stock_enqueued]
    show (calls.map callStock).sum + 1 + ((s.jobs ++ [_]).map ProcesserJob.stock).sum
      + 2 * s.senders.length + s.holding.length < _
    rw [hafter, stock, hbefore, callStock]
    omega
  | decoded hloop =>
    show 0 + (s.jobs.map ProcesserJob.stock).sum + 2 * s.senders.length + s.holding.length < _
    have hbefore : s.loop.stock = 1 := by rw [hloop]; rfl
    rw [stock, hbefore]
    omega
  | terminate hloop =>
    show 0 + (s.jobs.map ProcesserJob.stock).sum + 2 * s.senders.length + s.holding.length < _
    have hbefore : s.loop.stock = 1 := by rw [hloop]; rfl
    rw [stock, hbefore]
    omega
  | callTree r hjobs htodo =>
    rename_i before after job c k
    have hworking := h.jobs job (hjobs ▸ List.mem_append_cons_self)
    have hlt := hworking.length_made_lt htodo
    have hnow := stock_of_call htodo
    have hnext : ({ job with made := job.made ++ [⟨Sum.inl c, r⟩], todo := k r } :
        ProcesserJob).stock = job.call.request.length - (job.made.length + 1) + 3 := by
      have honce := (htodo ▸ hworking.replies).resolve_left nofun
      rw [@stock_of_repliesOnce { job with made := job.made ++ [⟨Sum.inl c, r⟩], todo := k r }
        _ _ (honce.of_callTree r), List.length_append, List.length_singleton]
    have hsum := @sum_stock_replace before after job
      { job with made := job.made ++ [⟨Sum.inl c, r⟩], todo := k r }
    rw [hnow, hnext, ← hjobs] at hsum
    show s.loop.stock + (List.map _ (before ++ _ :: after)).sum + 2 * s.senders.length
      + s.holding.length < _
    rw [stock]
    omega
  | sendReply hjobs htodo =>
    rename_i before after job reply k
    have hworking := h.jobs job (hjobs ▸ List.mem_append_cons_self)
    have hnow := stock_of_call htodo
    have hnext : ({ job with made := job.made ++ [⟨Sum.inr reply, ()⟩], todo := k () } :
        ProcesserJob).stock = 0 := by
      have honce := (htodo ▸ hworking.replies).resolve_left nofun
      unfold ProcesserJob.stock
      rw [honce.of_sendReply.2.2]
    have hsum := @sum_stock_replace before after job
      { job with made := job.made ++ [⟨Sum.inr reply, ()⟩], todo := k () }
    rw [hnow, hnext, ← hjobs] at hsum
    show s.loop.stock + (List.map _ (before ++ _ :: after)).sum
      + 2 * (s.senders ++ [_]).length + s.holding.length < _
    rw [stock, List.length_append, List.length_singleton]
    omega
  | check hsenders =>
    rename_i before after job
    have hheld : ((s.senderCheck job.reply.sessionId).map fun p => (p, job)).toList.length
        ≤ 1 := by
      cases s.senderCheck job.reply.sessionId with
      | none => exact Nat.zero_le 1
      | some p => exact Nat.le_refl 1
    show s.loop.stock + (s.jobs.map ProcesserJob.stock).sum + 2 * (before ++ after).length
      + (s.holding ++ _).length < _
    rw [stock, hsenders, List.length_append, List.length_append, List.length_append,
      List.length_cons]
    omega
  | insert hholding hctx hrun hclosed =>
    rename_i before after p job ctx ctx' tr
    show s.loop.stock + (s.jobs.map ProcesserJob.stock).sum + 2 * s.senders.length
      + (before ++ after).length < _
    rw [stock, hholding, List.length_append, List.length_append, List.length_cons]
    omega

/-! ## Where the proxy stops, everything is done -/

/-- **A worker that has yet to reply can go on.** -/
theorem Sound.exists_step_of_job (h : Sound s) (hjob : job ∈ s.jobs) (htodo : job.todo ≠ .pure ()) :
    ∃ l s', s.ByItself l ∧ Step s l s' := by
  obtain ⟨before, after, hjobs⟩ := List.append_of_mem hjob
  have honce := (h.jobs job hjob).replies.resolve_left htodo
  generalize htodo' : job.todo = todo at honce
  cases honce with
  | callTree hk =>
    exact ⟨.callTree _ (.error .other), _, trivial, Step.callTree _ hjobs htodo'⟩
  | sendReply response => exact ⟨.sendReply _, _, trivial, Step.sendReply hjobs htodo'⟩

/-- **A reply can be inserted**: at worst, every `write` fails. -/
theorem Sound.exists_step_of_holding (h : Sound s) {held : ℕ × SenderJob}
    (hheld : held ∈ s.holding) : ∃ l s', s.ByItself l ∧ Step s l s' := by
  obtain ⟨p, sender⟩ := held
  obtain ⟨before, after, hholding⟩ := List.append_of_mem hheld
  have hlt : p < s.manager.ctxs.length := h.holding _ hheld
  have hctx := List.getElem?_eq_getElem hlt
  obtain ⟨tr, ctx', hrun, hfail⟩ := exists_exec (fun w : WriteCall =>
    (⟨-1, by omega, by omega, by omega⟩ : WriteResult w))
    (s.manager.ctxs[p].insertNewResponse sender.reply.commandId sender.reply.response)
  exact ⟨.insert p sender tr, _, trivial,
    Step.insert hholding hctx hrun fun e he _ => by rw [hfail e he]⟩

/-- **The proxy stops only when everything is done.** -/
theorem Sound.atRest_iff (h : Sound s) (hlive : s.Survives) :
    s.AtRest ↔ ∀ l s', s.ByItself l → ¬ Step s l s' := by
  constructor
  · rintro ⟨hloop, hjobs, hsenders, hholding⟩ l s' hin hs
    cases hs with
    | accept _ _ _ => exact hin
    | disconnect _ _ => exact hin
    | read _ _ _ => exact hin
    | enqueue hdec hc => cases hloop.symm.trans hdec
    | decoded hdec => cases hloop.symm.trans hdec
    | terminate hdec => cases hloop.symm.trans hdec
    | callTree r hsplit htodo =>
      cases htodo.symm.trans (hjobs _ (hsplit ▸ List.mem_append_cons_self))
    | sendReply hsplit htodo =>
      cases htodo.symm.trans (hjobs _ (hsplit ▸ List.mem_append_cons_self))
    | check hsplit => simp [hsenders] at hsplit
    | insert hsplit hctx hrun hclosed => simp [hholding] at hsplit
  · intro hstop
    refine ⟨?_, fun job hjob => ?_, ?_, ?_⟩
    · cases hloop : s.loop with
      | waiting => rfl
      | terminated => exact absurd hloop hlive.alive
      | decoding p calls outcome =>
        have hc := List.getElem?_eq_getElem (h.loop _ _ _ hloop)
        cases calls with
        | cons call rest => exact absurd (Step.enqueue hloop hc) (hstop .enqueue _ trivial)
        | nil =>
          cases outcome with
          | ok decoder => exact absurd (Step.decoded hloop) (hstop .decoded _ trivial)
          | error e => exact absurd hloop (hlive.returns p [] e)
    · by_contra htodo
      obtain ⟨l, s', hin, hs⟩ := h.exists_step_of_job hjob htodo
      exact hstop l s' hin hs
    · refine List.eq_nil_iff_forall_not_mem.mpr fun sender hsender => ?_
      obtain ⟨before, after, hsplit⟩ := List.append_of_mem hsender
      exact hstop (.check sender) _ trivial (Step.check hsplit)
    · refine List.eq_nil_iff_forall_not_mem.mpr fun held hheld => ?_
      obtain ⟨l, s', hin, hs⟩ := h.exists_step_of_holding hheld
      exact hstop l s' hin hs

/-- **The proxy survives what it does by itself.** -/
theorem Survives.step (h : s.Survives) (hin : s.ByItself l) (hs : Step s l s') : s'.Survives := by
  cases hs with
  | accept hloop hfd hclosed => exact hin.elim
  | disconnect hloop hwatch => exact hin.elim
  | read hloop hwatch hcommand => exact hin.elim
  | enqueue hloop hc =>
    refine ⟨nofun, fun p calls e hdec => ?_⟩
    obtain ⟨-, -, rfl⟩ := EventLoop.decoding.inj hdec
    exact h.returns _ _ e hloop
  | decoded hloop => exact ⟨nofun, nofun⟩
  | terminate hloop => exact absurd hloop (h.returns _ _ _)
  | callTree r hjobs htodo => exact ⟨h.alive, h.returns⟩
  | sendReply hjobs htodo => exact ⟨h.alive, h.returns⟩
  | check hsenders => exact ⟨h.alive, h.returns⟩
  | insert hholding hctx hrun hclosed => exact ⟨h.alive, h.returns⟩

/-- What a step taken by itself keeps, and what it costs. -/
theorem step_of_byItself (s : Proxy) (l : Label) (s' : Proxy) (h : Sound s ∧ s.Survives)
    (hs : s.ByItself l ∧ Step s l s') : (Sound s' ∧ s'.Survives) ∧ s'.stock < s.stock :=
  ⟨⟨h.1.step hs.2, h.2.step hs.1 hs.2⟩, h.1.stock_lt hs.1 hs.2⟩

/-- **The steps taken by itself are paid for out of the stock.** -/
theorem length_le_stock_of_trace {labels : List Label} (h : Sound s ∧ s.Survives)
    (ht : Trace ByItself s labels s') :
    (Sound s' ∧ s'.Survives) ∧ labels.length + s'.stock ≤ s.stock :=
  LabelledPath.length_le step_of_byItself ht h

/-- **Left alone, the proxy comes to rest, with everything done.** From every state it
can reach, the steps it takes by itself, in whatever order the threads take them and
whatever the cluster and the kernel answer, are at most as many as the stock says;
where it can take no more of them everything is done; and it always gets there. -/
theorem comesToRest_of_runs {sessionCounter : Int32}
    (hr : Runs (fun _ _ => True) (start sessionCounter) s) (hlive : s.Survives) :
    (∀ labels s', Trace ByItself s labels s' →
        labels.length ≤ s.stock ∧ (s'.AtRest ↔ ∀ l s'', s'.ByItself l → ¬ Step s' l s''))
      ∧ ∃ labels s', Trace ByItself s labels s' ∧ s'.AtRest := by
  have hsound := (sound_start sessionCounter).runs hr
  have hend : ∀ labels s', Trace ByItself s labels s' →
      labels.length ≤ s.stock ∧ (s'.AtRest ↔ ∀ l s'', s'.ByItself l → ¬ Step s' l s'') := by
    intro labels s' ht
    obtain ⟨hkept, hle⟩ := length_le_stock_of_trace ⟨hsound, hlive⟩ ht
    exact ⟨by omega, hkept.1.atRest_iff hkept.2⟩
  refine ⟨hend, ?_⟩
  obtain ⟨labels, s', ht, hstop⟩ := LabelledPath.exists_rest step_of_byItself ⟨hsound, hlive⟩
  exact ⟨labels, s', ht, (hend labels s' ht).2.mpr fun l s'' hin hs => hstop l s'' ⟨hin, hs⟩⟩

theorem survives_readAtOnce : readAtOnce.Survives := by
  unfold readAtOnce readFromClient
  rw [receive_unknownCommand]
  exact ⟨nofun, nofun⟩

/-- A request that has been read and not yet dispatched. -/
theorem comesToRest_of_runs_readAtOnce :
    ∃ labels s', Trace ByItself readAtOnce labels s' ∧ s'.AtRest :=
  (comesToRest_of_runs (trace_readAtOnce.runs.mono fun _ _ _ => trivial) survives_readAtOnce).2

/-! ## Everyone is answered -/

/-- Where everything is done, all the jobs of a client have run. -/
theorem AtRest.allRun (h : s.AtRest) (p : ℕ) : s.AllRun p where
  jobs job hjob := h.jobs job (List.mem_filter.mp hjob).1
  senders := by
    rw [h.senders]
    exact fun _ hmem => absurd hmem List.not_mem_nil
  holding := by
    rw [h.holding]
    exact fun _ hmem => absurd hmem List.not_mem_nil

/-- No connection is forgotten. -/
theorem length_le_of_trace {condition : Proxy → Label → Prop} {labels : List Label}
    (ht : Trace condition s labels s') : s.connections.length ≤ s'.connections.length := by
  refine ht.invariant (I := fun _ s' => s.connections.length ≤ s'.connections.length) le_rfl
    fun labels s₁ l s₂ hle hs => hle.trans ?_
  rcases hs.2.connections_length with heq | ⟨_, _, -, -, -, heq⟩
  · exact heq.ge
  · exact heq ▸ Nat.le_succ _

/-- **A client that has sent a pipeline of requests is answered all of them**, if it
stays, whatever way the proxy takes: within as many steps as its stock says it can
go no further, and then the client has been sent one value for each request, in the
order of the requests. -/
theorem answered_all_of_trace {sessionCounter : Int32} {p : ℕ} {labels labels' : List Label}
    {requests : List (List Bytes)}
    (ht : Trace (Undisturbed p) (start sessionCounter) labels s) (hlive : s.Survives)
    (hp : p < s.connections.length) (hr : ∀ r ∈ requests, Encodable r)
    (hlast : ∀ r ∈ requests, r.getLast? ≠ some []) (hn : requests.length < 2 ^ 31)
    (hbytes : (bytesFrom p labels).flatten = encodeAll requests) (hshort : ShortReads p labels)
    (ht' : Trace (fun s l => s.ByItself l ∧ s.Undisturbed p l) s labels' s')
    (hlines : s'.LinesOnly p) :
    labels'.length ≤ s.stock
      ∧ ((∀ l s'', s'.ByItself l → ¬ Step s' l s'') →
        Answered s' p requests requests.length) := by
  have halone : Trace ByItself s labels' s' := ht'.mono fun _ _ _ h => ⟨h.1.1, h.2⟩
  have hsound := (sound_start sessionCounter).runs ht.runs
  obtain ⟨hkept, hle⟩ := length_le_stock_of_trace ⟨hsound, hlive⟩ halone
  refine ⟨by omega, fun hstop => ?_⟩
  have hrest := (hkept.1.atRest_iff hkept.2).mpr hstop
  have hsame : bytesFrom p (labels ++ labels') = bytesFrom p labels := bytesFrom_of_byItself halone
  have hread : (bytesFrom p (labels ++ labels')).flatten = encodeAll requests := by
    rw [hsame, hbytes]
  have hshort' : ShortReads p (labels ++ labels') := by
    unfold ShortReads
    rw [hsame]
    exact hshort
  have hp' := hp.trans_le (length_le_of_trace halone)
  have hboth := ht.append (ht'.mono fun _ _ _ h => ⟨h.1.2, h.2⟩)
  have hpending : s'.pending p = [] :=
    pending_of_ne fun calls outcome hdec => nomatch hrest.loop.symm.trans hdec
  obtain ⟨k, hk, hall⟩ :=
    exists_answered hboth hp' hr hlast hn (hread ▸ List.prefix_rfl) hlines
  rw [(hall (hrest.allRun p)).trans
    (length_jobsOf_of_trace hboth hp' hr hlast hread hshort' hpending)] at hk
  exact hk

theorem survives_overtaking : (overtaking 2).Survives := by
  show (readFromClient _ 0 (.new 1 0) twoWritesText).Survives
  unfold readFromClient
  rw [receive_twoWrites]
  exact ⟨nofun, nofun⟩

theorem atRest_insertedLate : insertedLate.AtRest where
  loop := rfl
  jobs := List.forall_mem_cons.mpr ⟨rfl, List.forall_mem_singleton.mpr rfl⟩
  senders := rfl
  holding := rfl

/-- The proxy is left alone with two requests. -/
theorem answered_all_of_trace_overtaking :
    Answered insertedLate 0 (twoWrites.map HandlerCall.request) 2 := by
  have ht : Trace (Undisturbed 0) (start 0) ((List.range' 0 2).map overtakingLabel)
      (overtaking 2) := trace_overtaking 0 (by decide)
  have hsound := ((sound_start 0).runs ht.runs).runs trace_byItself_overtaking.runs
  exact (answered_all_of_trace ht survives_overtaking (by decide) encodable_twoWrites
    (by decide +kernel) (by decide) (by decide +kernel) (shortReads_of_lt (by decide +kernel))
    trace_byItself_overtaking linesOnly_insertedLate).2
    ((hsound.atRest_iff ⟨nofun, nofun⟩).mp atRest_insertedLate)

end Proxy

end LogcabinRedisProxy
