import RedisProxy.DecoderScanner
import RedisProxy.Proxy

/-!
# Whose descriptor a reply is written to

`erase_session` closes the descriptor of a session and marks its context, so
that no reply is sent on it any more. A `sender_worker`, however, tests the mark
and then writes, in two steps, and the context it holds keeps the number of the
descriptor. If the kernel hands that number to a new connection in between, the
reply of one client reaches another (`not_neverMisdelivers`).

That is the one way it happens while session ids are told apart. In a run where
no connection is given a descriptor that a waiting `sender_worker` still means to
write to, nor a session id still in use, every byte goes to the connection it
was computed for (`reachesOwner_of_runs`). `Consistent` is the invariant of such runs:
the session table and the kernel agree on who has which descriptor, and whatever
is still to be delivered under a session id belongs to the connection that has
it.
-/

namespace LogcabinRedisProxy

open Bytes SimpleResp Prog

namespace Proxy

/-! ## The property -/

/-- **The bytes a step sends reach the connection they were computed for.** Only
the second step of a `sender_worker` writes: where a call takes bytes, the
descriptor is open and belongs to the connection for which this reply, and every
reply the context was given before, was computed. -/
def ReachesOwner (s : Proxy) : Label → Prop
  | .insert p job tr => ∀ e ∈ tr, 0 < e.2.1 →
      s.descriptors e.1.fd = some job.owner
        ∧ ∀ given ∈ s.inserted, given.1 = p → given.2.owner = job.owner
  | _ => True

/-- No step of any run sends a byte astray. -/
def NeverMisdelivers : Prop :=
  ∀ (sessionCounter : Int32) (s s' : Proxy) (l : Label),
    Runs (fun _ _ => True) (start sessionCounter) s → Step s l s' → s.ReachesOwner l

/-- No session has the id, and nothing under way carries it. -/
structure FreshId (s : Proxy) (sessionId : Int32) : Prop where
  /-- The table has no entry. -/
  table : s.manager.ctxMap[sessionId]? = none
  /-- Every `processer_worker` that carries it has replied. -/
  jobs : ∀ job ∈ s.jobs, job.sessionId = sessionId → job.todo = .pure ()
  /-- No `sender_worker` waits with it. -/
  senders : ∀ job ∈ s.senders, job.reply.sessionId ≠ sessionId

/-- **What a step of accepting must respect**: the descriptor is not that of a
context a `sender_worker` holds between its two steps, and the next session id
is fresh. -/
def Exclusive (s : Proxy) : Label → Prop
  | .accept fd _ =>
    (∀ held ∈ s.holding, s.manager.ctxs[held.1]?.map SessionCtx.fd ≠ some fd)
      ∧ s.FreshId s.manager.getNextSessionCounterNumber
  | _ => True

/-! ## The invariant -/

/-- The descriptor a connection was accepted with. -/
def fdOf (s : Proxy) (p : ℕ) : Option ℤ := s.connections[p]?.map Connection.fd

/-- The session id a connection was given. -/
def sessionIdOf (s : Proxy) (p : ℕ) : Option Int32 :=
  s.connections[p]?.map fun c => c.decoder.sessionId

/-- Whoever the session table has under the id is the connection `p`. -/
def Addressed (s : Proxy) (sessionId : Int32) (p : ℕ) : Prop :=
  ∀ q, s.manager.ctxMap[sessionId]? = some q → q = p

/-- **The table and the kernel agree, and what is under way belongs where it is
going.** -/
structure Consistent (s : Proxy) : Prop where
  /-- The contexts are those of the connections. -/
  contexts : s.manager.ctxs.map SessionCtx.fd = s.connections.map Connection.fd
  /-- The table has connections under their own ids. -/
  table : ∀ (id : Int32) (p : ℕ), s.manager.ctxMap[id]? = some p → s.sessionIdOf p = some id
  /-- A connection has its descriptor open as long as it is in the table. -/
  descriptors : ∀ (fd : ℤ) (p : ℕ), s.descriptors fd = some p
    ↔ s.fdOf p = some fd ∧ ∃ id : Int32, s.sessionIdOf p = some id
      ∧ s.manager.ctxMap[id]? = some p
  /-- The decoder runs for a connection in the table. -/
  loop : ∀ p calls outcome, s.loop = .decoding p calls outcome →
    ∃ id : Int32, s.sessionIdOf p = some id ∧ s.manager.ctxMap[id]? = some p
      ∧ ∀ decoder, outcome = .ok decoder → decoder.sessionId = id
  /-- A `processer_worker` that has yet to reply will do so under the id of its
  connection. -/
  jobs : ∀ job ∈ s.jobs, job.todo = .pure ()
    ∨ RepliesOnce job.call.commandId job.sessionId job.todo
      ∧ s.Addressed job.sessionId job.owner
  /-- A `sender_worker` that waits will find its connection, if any. -/
  senders : ∀ job ∈ s.senders, s.Addressed job.reply.sessionId job.owner
  /-- A `sender_worker` holds the context of its connection, whose descriptor
  nobody else has. -/
  holding : ∀ held ∈ s.holding, held.2.owner = held.1
    ∧ ∃ fd, s.fdOf held.1 = some fd ∧ ∀ q, s.descriptors fd = some q → q = held.1
  /-- Replies have been inserted in the contexts of their connections. -/
  inserted : ∀ given ∈ s.inserted, given.2.owner = given.1

variable {s s' : Proxy}

theorem consistent_start (sessionCounter : Int32) : Consistent (start sessionCounter) where
  contexts := rfl
  table id p h := by
    rw [show (start sessionCounter).manager.ctxMap = ∅ from rfl,
      Std.TreeMap.getElem?_emptyc] at h
    cases h
  descriptors fd p := by
    constructor
    · intro h
      cases h
    · rintro ⟨h, -⟩
      cases h
  loop p calls outcome h := by cases h
  jobs job h := absurd h List.not_mem_nil
  senders job h := absurd h List.not_mem_nil
  holding held h := absurd h List.not_mem_nil
  inserted given h := absurd h List.not_mem_nil

/-- The first connection is accepted with a descriptor and a session id that are
free. -/
theorem exclusive_start (sessionCounter : Int32) (fd : ℤ) (readingStrSize : UInt64) :
    (start sessionCounter).Exclusive (.accept fd readingStrSize) :=
  ⟨fun _ h => absurd h List.not_mem_nil,
    { table := Std.TreeMap.getElem?_emptyc
      jobs := fun _ h => absurd h List.not_mem_nil
      senders := fun _ h => absurd h List.not_mem_nil }⟩

/-- The context of a connection has its descriptor. -/
theorem Consistent.ctxs_fd (h : Consistent s) (p : ℕ) :
    s.manager.ctxs[p]?.map SessionCtx.fd = s.fdOf p := by
  unfold fdOf
  rw [← List.getElem?_map, ← List.getElem?_map, h.contexts]

theorem Consistent.length_eq (h : Consistent s) :
    s.manager.ctxs.length = s.connections.length := by
  have hlen := congrArg List.length h.contexts
  rwa [List.length_map, List.length_map] at hlen

/-- A worker that makes a call has yet to reply. -/
theorem Consistent.of_call (h : Consistent s) {job : ProcesserJob} {op : TreeCall ⊕ SendReply}
    {k : WorkerResult op → Prog WorkerResult Unit} (hjob : job ∈ s.jobs)
    (htodo : job.todo = .call op k) :
    RepliesOnce job.call.commandId job.sessionId (.call op k)
      ∧ s.Addressed job.sessionId job.owner := by
  have hr := h.jobs job hjob
  rw [htodo] at hr
  exact hr.resolve_left nofun

/-- **A consistent state sends no byte astray.** -/
theorem Consistent.reachesOwner (h : Consistent s) {l : Label} (hs : Step s l s') :
    s.ReachesOwner l := by
  cases hs with
  | insert hholding hctx hrun hclosed =>
    rename_i before after p job ctx ctx' tr
    intro e he hpos
    have hheld : (p, job) ∈ s.holding := by
      rw [hholding]
      exact List.mem_append_cons_self
    obtain ⟨howner, fd, hfd, honly⟩ := h.holding _ hheld
    have hefd : e.1.fd = fd := by
      rw [(exec_insertNewResponse_fd hrun).2 e he]
      have hctxfd := h.ctxs_fd p
      rw [hctx, hfd] at hctxfd
      exact Option.some.inj hctxfd
    refine ⟨?_, fun given hgiven hp => ?_⟩
    · cases hd : s.descriptors e.1.fd with
      | none =>
        have hfail := hclosed e he hd
        omega
      | some q => rw [honly q (hefd ▸ hd), howner]
    · rw [h.inserted given hgiven, hp, howner]
  | _ => trivial

/-! ## The steps -/

/-- One element of a list has been replaced. -/
theorem forall_mem_replace {α : Type} {P : α → Prop} {before after : List α} {a a' : α}
    (h : ∀ x ∈ before ++ a :: after, P x) (ha : P a') : ∀ x ∈ before ++ a' :: after, P x := by
  obtain ⟨hbefore, hrest⟩ := List.forall_mem_append.mp h
  exact List.forall_mem_append.mpr
    ⟨hbefore, List.forall_mem_cons.mpr ⟨ha, (List.forall_mem_cons.mp hrest).2⟩⟩

/-- One element of a list has been taken out. -/
theorem forall_mem_takeOut {α : Type} {P : α → Prop} {before after : List α} {a : α}
    (h : ∀ x ∈ before ++ a :: after, P x) : ∀ x ∈ before ++ after, P x := by
  obtain ⟨hbefore, hrest⟩ := List.forall_mem_append.mp h
  exact List.forall_mem_append.mpr ⟨hbefore, (List.forall_mem_cons.mp hrest).2⟩

/-- A watched connection is in the table under its decoder's session id. -/
theorem Consistent.of_watches (h : Consistent s) {p : ℕ} {c : Connection}
    (hw : s.Watches p c) :
    s.fdOf p = some c.fd ∧ s.sessionIdOf p = some c.decoder.sessionId
      ∧ s.manager.ctxMap[c.decoder.sessionId]? = some p := by
  obtain ⟨hc, -, hopen⟩ := hw
  have hsid : s.sessionIdOf p = some c.decoder.sessionId := by
    unfold sessionIdOf
    rw [hc]
    rfl
  obtain ⟨hfd, id, hid, htable⟩ := (h.descriptors c.fd p).mp hopen
  rw [hsid] at hid
  obtain rfl := Option.some.inj hid
  exact ⟨hfd, hsid, htable⟩

/-- The connections after one more has been accepted. -/
theorem connections_acceptTcpHandler (s : Proxy) (fd : ℤ) (readingStrSize : UInt64) (p : ℕ) :
    (s.acceptTcpHandler fd readingStrSize).connections[p]?
      = if p = s.connections.length then
          some ⟨fd, true, .new s.manager.getNextSessionCounterNumber readingStrSize⟩
        else s.connections[p]? := by
  show (s.connections ++ [_])[p]? = _
  rw [List.getElem?_append]
  split
  · rw [if_neg (by omega)]
  · rw [List.getElem?_singleton]
    split
    · rw [if_pos (by omega)]
    · rw [if_neg (by omega), List.getElem?_eq_none (by omega)]

theorem fdOf_acceptTcpHandler (s : Proxy) (fd : ℤ) (readingStrSize : UInt64) (p : ℕ) :
    (s.acceptTcpHandler fd readingStrSize).fdOf p
      = if p = s.connections.length then some fd else s.fdOf p := by
  unfold fdOf
  rw [connections_acceptTcpHandler]
  split <;> rfl

theorem sessionIdOf_acceptTcpHandler (s : Proxy) (fd : ℤ) (readingStrSize : UInt64) (p : ℕ) :
    (s.acceptTcpHandler fd readingStrSize).sessionIdOf p
      = if p = s.connections.length then some s.manager.getNextSessionCounterNumber
        else s.sessionIdOf p := by
  unfold sessionIdOf
  rw [connections_acceptTcpHandler]
  split <;> rfl

/-- The table after a session with a fresh id has been inserted. -/
theorem getElem?_acceptTcpHandler {fd : ℤ} {readingStrSize : UInt64}
    (hfresh : s.manager.ctxMap[s.manager.getNextSessionCounterNumber]? = none) (id : Int32) :
    (s.acceptTcpHandler fd readingStrSize).manager.ctxMap[id]?
      = if id = s.manager.getNextSessionCounterNumber then some s.manager.ctxs.length
        else s.manager.ctxMap[id]? := by
  have habsent : s.manager.getNextSessionCounterNumber ∉ s.manager.ctxMap := by
    rw [← Std.TreeMap.isSome_getElem?_iff_mem, hfresh]
    exact Bool.false_ne_true
  show (s.manager.ctxMap.insertIfNew s.manager.getNextSessionCounterNumber _)[id]? = _
  simp only [Std.TreeMap.getElem?_insertIfNew, Std.compare_eq_iff_eq, habsent, not_false_eq_true,
    and_true, @eq_comm _ id]

/-- Connections that have been accepted are not the next one. -/
theorem ne_of_fdOf {p : ℕ} {fd : ℤ} (h : s.fdOf p = some fd) : p ≠ s.connections.length := by
  rintro rfl
  unfold fdOf at h
  rw [List.getElem?_eq_none le_rfl] at h
  cases h

theorem ne_of_sessionIdOf {p : ℕ} {id : Int32} (h : s.sessionIdOf p = some id) :
    p ≠ s.connections.length := by
  rintro rfl
  unfold sessionIdOf at h
  rw [List.getElem?_eq_none le_rfl] at h
  cases h

/-- A new session leaves the addressees of other ids alone. -/
theorem addressed_acceptTcpHandler {fd : ℤ} {readingStrSize : UInt64} {id : Int32} {p : ℕ}
    (hfresh : s.manager.ctxMap[s.manager.getNextSessionCounterNumber]? = none)
    (hne : id ≠ s.manager.getNextSessionCounterNumber) (h : s.Addressed id p) :
    (s.acceptTcpHandler fd readingStrSize).Addressed id p := by
  intro q hq
  rw [getElem?_acceptTcpHandler hfresh, if_neg hne] at hq
  exact h q hq

/-- The open descriptors after a connection has been accepted. -/
theorem descriptors_acceptTcpHandler (s : Proxy) (fd : ℤ) (readingStrSize : UInt64) (x : ℤ) :
    (s.acceptTcpHandler fd readingStrSize).descriptors x
      = if x = fd then some s.manager.ctxs.length else s.descriptors x :=
  Function.update_apply s.descriptors fd (some s.manager.ctxs.length) x

/-- A descriptor that was closed is now open for the new connection; the others are
open for those in the table as before. -/
theorem Consistent.descriptors_iff_acceptTcpHandler (h : Consistent s) {fd : ℤ}
    {readingStrSize : UInt64} (hclosed : s.descriptors fd = none)
    (hfresh : s.manager.ctxMap[s.manager.getNextSessionCounterNumber]? = none) (fd' : ℤ) (p : ℕ) :
    (s.acceptTcpHandler fd readingStrSize).descriptors fd' = some p
      ↔ (s.acceptTcpHandler fd readingStrSize).fdOf p = some fd'
        ∧ ∃ id : Int32, (s.acceptTcpHandler fd readingStrSize).sessionIdOf p = some id
          ∧ (s.acceptTcpHandler fd readingStrSize).manager.ctxMap[id]? = some p := by
  have hlen := h.length_eq
  have hmap := @getElem?_acceptTcpHandler s fd readingStrSize hfresh
  rw [descriptors_acceptTcpHandler, fdOf_acceptTcpHandler, sessionIdOf_acceptTcpHandler]
  by_cases hp : p = s.connections.length
  · -- the new connection
    rw [if_pos hp, if_pos hp]
    constructor
    · intro hfd'
      split at hfd'
      · rename_i heq
        refine ⟨congrArg some heq.symm, _, rfl, ?_⟩
        rw [hmap, if_pos rfl, hfd']
      · exact absurd hp (ne_of_fdOf ((h.descriptors fd' p).mp hfd').1)
    · rintro ⟨hfd', -⟩
      rw [if_pos (Option.some.inj hfd').symm, hp, hlen]
  · -- one accepted before
    rw [if_neg hp, if_neg hp]
    have hold : (if fd' = fd then some s.manager.ctxs.length else s.descriptors fd') = some p
        ↔ s.descriptors fd' = some p := by
      split
      · rename_i heq
        rw [heq, hclosed, hlen]
        exact ⟨fun hn => absurd (Option.some.inj hn).symm hp, fun hn => absurd hn nofun⟩
      · exact Iff.rfl
    rw [hold, h.descriptors]
    refine and_congr_right fun _ => exists_congr fun id => and_congr_right fun _ => ?_
    rw [hmap]
    split
    · rename_i hid
      rw [hid, hfresh, hlen]
      exact ⟨fun hn => absurd hn nofun, fun hn => absurd (Option.some.inj hn).symm hp⟩
    · exact Iff.rfl

/-- **Accepting a connection**, with a descriptor and a session id nobody means
to use. -/
theorem Consistent.acceptTcpHandler (h : Consistent s) {fd : ℤ} {readingStrSize : UInt64}
    (hloop : s.loop = .waiting) (hclosed : s.descriptors fd = none)
    (hx : s.Exclusive (.accept fd readingStrSize)) :
    Consistent (s.acceptTcpHandler fd readingStrSize) := by
  obtain ⟨hheld, hfresh⟩ := hx
  have hlen := h.length_eq
  have hmap := @getElem?_acceptTcpHandler s fd readingStrSize hfresh.table
  refine
    { contexts := ?_, table := ?_, descriptors := ?_, loop := ?_, jobs := ?_, senders := ?_,
      holding := ?_, inserted := h.inserted }
  · show (s.manager.ctxs ++ [SessionCtx.new fd]).map SessionCtx.fd
      = (s.connections ++ [_]).map Connection.fd
    rw [List.map_append, List.map_append, h.contexts]
    rfl
  · intro id p hp
    rw [hmap] at hp
    rw [sessionIdOf_acceptTcpHandler]
    split at hp
    · rename_i hid
      rw [if_pos (by rw [← Option.some.inj hp, hlen]), hid]
    · have hsid := h.table id p hp
      rw [if_neg (ne_of_sessionIdOf hsid), hsid]
  · exact h.descriptors_iff_acceptTcpHandler hclosed hfresh.table
  · intro p calls outcome hdec
    rw [show (s.acceptTcpHandler fd readingStrSize).loop = s.loop from rfl, hloop] at hdec
    cases hdec
  · intro job hjob
    refine (h.jobs job hjob).imp_right fun hr => ⟨hr.1, ?_⟩
    refine addressed_acceptTcpHandler hfresh.table (fun hid => ?_) hr.2
    have hdone := hfresh.jobs job hjob hid
    rw [hdone] at hr
    exact not_repliesOnce_pure hr.1
  · intro job hjob
    exact addressed_acceptTcpHandler hfresh.table (hfresh.senders job hjob) (h.senders job hjob)
  · intro held hmem
    obtain ⟨howner, fd', hfd', honly⟩ := h.holding held hmem
    refine ⟨howner, fd', ?_, fun q hq => ?_⟩
    · rw [fdOf_acceptTcpHandler, if_neg (ne_of_fdOf hfd'), hfd']
    · rw [descriptors_acceptTcpHandler, if_neg] at hq
      · exact honly q hq
      · rintro rfl
        exact hheld held hmem ((h.ctxs_fd held.1).trans hfd')

/-- A change of one element that a reading does not see. -/
theorem map_modify_of_eq {α β : Type} (g : α → β) (f : α → α) {l : List α} {p : ℕ}
    (hfg : ∀ a, l[p]? = some a → g (f a) = g a) : (l.modify p f).map g = l.map g := by
  refine List.ext_getElem? fun i => ?_
  rw [List.getElem?_map, List.getElem?_map, List.getElem?_modify]
  cases hi : l[i]? with
  | none => rfl
  | some a =>
    show some (g (if p = i then f a else a)) = some (g a)
    split
    · rename_i hp
      rw [hfg a (hp ▸ hi)]
    · rfl

theorem fdOf_disconnect (s : Proxy) (p : ℕ) (decoder : DecodeContext) (q : ℕ) :
    (s.disconnect p decoder).fdOf q = s.fdOf q := by
  unfold fdOf
  rw [← List.getElem?_map, ← List.getElem?_map]
  exact congrArg (fun l : List ℤ => l[q]?)
    (map_modify_of_eq _ Connection.deleteFileEvent fun _ _ => rfl)

theorem sessionIdOf_disconnect (s : Proxy) (p : ℕ) (decoder : DecodeContext) (q : ℕ) :
    (s.disconnect p decoder).sessionIdOf q = s.sessionIdOf q := by
  unfold sessionIdOf
  rw [← List.getElem?_map, ← List.getElem?_map]
  exact congrArg (fun l : List Int32 => l[q]?)
    (map_modify_of_eq _ Connection.deleteFileEvent fun _ _ => rfl)

/-- What `erase_session` does to a watched connection. -/
theorem Consistent.eraseSession_eq (h : Consistent s) {p : ℕ} {c : Connection}
    (hw : s.Watches p c) :
    s.manager.eraseSession c.decoder.sessionId
      = ({ s.manager with
            ctxs := s.manager.ctxs.modify p SessionCtx.reachEof
            ctxMap := s.manager.ctxMap.erase c.decoder.sessionId }, some c.fd) := by
  obtain ⟨hfd, -, htable⟩ := h.of_watches hw
  unfold SessionManager.eraseSession
  rw [htable]
  exact congrArg _ ((h.ctxs_fd p).trans hfd)

/-- The contexts after a connection has been closed. -/
theorem Consistent.ctxs_disconnect (h : Consistent s) {p : ℕ} {c : Connection}
    (hw : s.Watches p c) :
    (s.disconnect p c.decoder).manager.ctxs = s.manager.ctxs.modify p SessionCtx.reachEof := by
  show (s.manager.eraseSession c.decoder.sessionId).1.ctxs = _
  rw [h.eraseSession_eq hw]

/-- The table after a connection has been closed. -/
theorem Consistent.getElem?_disconnect (h : Consistent s) {p : ℕ} {c : Connection}
    (hw : s.Watches p c) (id : Int32) :
    (s.disconnect p c.decoder).manager.ctxMap[id]?
      = if id = c.decoder.sessionId then none else s.manager.ctxMap[id]? := by
  show (s.manager.eraseSession c.decoder.sessionId).1.ctxMap[id]? = _
  rw [h.eraseSession_eq hw]
  simp only [Std.TreeMap.getElem?_erase, Std.compare_eq_iff_eq, @eq_comm _ id]

/-- The open descriptors after a connection has been closed. -/
theorem Consistent.descriptors_disconnect (h : Consistent s) {p : ℕ} {c : Connection}
    (hw : s.Watches p c) (fd : ℤ) :
    (s.disconnect p c.decoder).descriptors fd
      = if fd = c.fd then none else s.descriptors fd := by
  show ((s.manager.eraseSession c.decoder.sessionId).2.elim s.descriptors
    fun fd => Function.update s.descriptors fd none) fd = _
  rw [h.eraseSession_eq hw]
  exact Function.update_apply s.descriptors c.fd none fd

/-- The descriptor of the connection is closed; the others are open for those in the
table as before. -/
theorem Consistent.descriptors_iff_disconnect (h : Consistent s) {p : ℕ} {c : Connection}
    (hw : s.Watches p c) (fd : ℤ) (q : ℕ) :
    (s.disconnect p c.decoder).descriptors fd = some q
      ↔ (s.disconnect p c.decoder).fdOf q = some fd
        ∧ ∃ id : Int32, (s.disconnect p c.decoder).sessionIdOf q = some id
          ∧ (s.disconnect p c.decoder).manager.ctxMap[id]? = some q := by
  obtain ⟨hfd, hsid, htable⟩ := h.of_watches hw
  have hmap := h.getElem?_disconnect hw
  rw [h.descriptors_disconnect hw, fdOf_disconnect, sessionIdOf_disconnect]
  by_cases hqp : q = p
  · -- the connection that is closed
    subst hqp
    rw [hfd]
    constructor
    · intro hq
      split at hq
      · cases hq
      · rename_i hne
        have hold := ((h.descriptors fd q).mp hq).1
        exact absurd (Option.some.inj (hold.symm.trans hfd)) hne
    · rintro ⟨-, id, hid, hq⟩
      rw [hmap, if_pos (Option.some.inj (hid.symm.trans hsid))] at hq
      cases hq
  · -- any other, which has another id and, while it is open, another descriptor
    have hopen := (h.descriptors c.fd p).mpr ⟨hfd, _, hsid, htable⟩
    have hold : (if fd = c.fd then none else s.descriptors fd) = some q
        ↔ s.descriptors fd = some q := by
      split
      · rename_i heq
        rw [heq, hopen]
        exact ⟨fun hn => absurd hn nofun, fun hn => absurd (Option.some.inj hn).symm hqp⟩
      · exact Iff.rfl
    rw [hold, h.descriptors]
    refine and_congr_right fun _ => exists_congr fun id => and_congr_right fun hid => ?_
    rw [hmap]
    split
    · rename_i heq
      rw [heq, htable]
      exact ⟨fun hn => absurd (Option.some.inj hn).symm hqp, fun hn => absurd hn nofun⟩
    · exact Iff.rfl

/-- **Closing a connection** frees its descriptor and its session id. -/
theorem Consistent.disconnect (h : Consistent s) {p : ℕ} {c : Connection}
    (hloop : s.loop = .waiting) (hw : s.Watches p c) :
    Consistent (s.disconnect p c.decoder) := by
  have hmap := h.getElem?_disconnect hw
  have hdesc := h.descriptors_disconnect hw
  have haddressed : ∀ (id : Int32) (q : ℕ), s.Addressed id q →
      (s.disconnect p c.decoder).Addressed id q := by
    intro id q haddr q' hq'
    rw [hmap] at hq'
    split at hq'
    · cases hq'
    · exact haddr q' hq'
  refine
    { contexts := ?_, table := ?_, descriptors := ?_, loop := ?_, jobs := ?_, senders := ?_,
      holding := ?_, inserted := h.inserted }
  · rw [h.ctxs_disconnect hw]
    exact (map_modify_of_eq _ SessionCtx.reachEof fun _ _ => rfl).trans
      (h.contexts.trans
        (map_modify_of_eq _ Connection.deleteFileEvent fun _ _ => rfl).symm)
  · intro id q hq
    rw [hmap] at hq
    split at hq
    · cases hq
    · rw [sessionIdOf_disconnect]
      exact h.table id q hq
  · exact h.descriptors_iff_disconnect hw
  · intro q calls outcome hdec
    rw [show (s.disconnect p c.decoder).loop = s.loop from rfl, hloop] at hdec
    cases hdec
  · intro job hjob
    exact (h.jobs job hjob).imp_right fun hr => ⟨hr.1, haddressed _ _ hr.2⟩
  · intro job hjob
    exact haddressed _ _ (h.senders job hjob)
  · intro held hmem
    obtain ⟨howner, fd, hfd', honly⟩ := h.holding held hmem
    refine ⟨howner, fd, by rw [fdOf_disconnect, hfd'], fun q hq => ?_⟩
    rw [hdesc] at hq
    split at hq
    · cases hq
    · exact honly q hq

/-- A step that only the workers take part in leaves the table, the kernel and
the event loop alone. -/
theorem Consistent.of_workers (h : Consistent s) {jobs : List ProcesserJob}
    {senders : List SenderJob} {holding : List (ℕ × SenderJob)}
    (hjobs : ∀ job ∈ jobs, job.todo = .pure ()
      ∨ RepliesOnce job.call.commandId job.sessionId job.todo
        ∧ s.Addressed job.sessionId job.owner)
    (hsenders : ∀ job ∈ senders, s.Addressed job.reply.sessionId job.owner)
    (hholding : ∀ held ∈ holding, held.2.owner = held.1
      ∧ ∃ fd, s.fdOf held.1 = some fd ∧ ∀ q, s.descriptors fd = some q → q = held.1) :
    Consistent { s with jobs := jobs, senders := senders, holding := holding } :=
  { h with jobs := hjobs, senders := hsenders, holding := hholding }

/-- What a `sender_worker` finds is the context of its connection, in the
table and with its descriptor open. -/
theorem Consistent.senderCheck (h : Consistent s) {job : SenderJob} (hjob : job ∈ s.senders)
    {p : ℕ} (hp : s.senderCheck job.reply.sessionId = some p) :
    job.owner = p ∧ ∃ fd, s.fdOf p = some fd ∧ s.descriptors fd = some p := by
  have htable : s.manager.ctxMap[job.reply.sessionId]? = some p :=
    (Option.filter_eq_some_iff.mp hp).1
  have hsid := h.table _ _ htable
  obtain ⟨c, hc, -⟩ := Option.map_eq_some_iff.mp hsid
  have hfd : s.fdOf p = some c.fd := by
    unfold fdOf
    rw [hc]
    rfl
  exact ⟨(h.senders job hjob p htable).symm, c.fd, hfd,
    (h.descriptors c.fd p).mpr ⟨hfd, _, hsid, htable⟩⟩

/-- **The decoder of a connection has run**, and kept its session id. -/
theorem Consistent.setDecoder (h : Consistent s) {p : ℕ} {decoder : DecodeContext}
    (hid : s.sessionIdOf p = some decoder.sessionId) : Consistent (s.setDecoder p decoder) := by
  have hfds : (s.connections.modify p (Connection.setDecoder decoder)).map Connection.fd
      = s.connections.map Connection.fd := map_modify_of_eq _ _ fun _ _ => rfl
  have hids : (s.connections.modify p (Connection.setDecoder decoder)).map
        (fun c => c.decoder.sessionId)
      = s.connections.map fun c => c.decoder.sessionId := by
    refine map_modify_of_eq (fun c : Connection => c.decoder.sessionId) _ fun c hc => ?_
    unfold sessionIdOf at hid
    rw [hc] at hid
    exact (Option.some.inj hid).symm
  have hfd : ∀ q, (s.setDecoder p decoder).fdOf q = s.fdOf q := by
    intro q
    unfold fdOf
    rw [← List.getElem?_map, ← List.getElem?_map]
    exact congrArg (fun l : List ℤ => l[q]?) hfds
  have hsid : ∀ q, (s.setDecoder p decoder).sessionIdOf q = s.sessionIdOf q := by
    intro q
    unfold sessionIdOf
    rw [← List.getElem?_map, ← List.getElem?_map]
    exact congrArg (fun l : List Int32 => l[q]?) hids
  exact
    { contexts := h.contexts.trans hfds.symm
      table := fun id q hq => (hsid q).trans (h.table id q hq)
      descriptors := fun fd q => by
        rw [hfd, hsid]
        exact h.descriptors fd q
      loop := nofun
      jobs := h.jobs
      senders := h.senders
      holding := fun held hmem => by
        rw [hfd]
        exact h.holding held hmem
      inserted := h.inserted }

/-- **Every step of a run that respects `Exclusive` keeps the state
consistent.** -/
theorem Consistent.step (h : Consistent s) {l : Label} (hx : s.Exclusive l)
    (hs : Step s l s') : Consistent s' := by
  cases hs with
  | accept hloop hfd hclosed => exact h.acceptTcpHandler hloop hclosed hx
  | disconnect hloop hwatch => exact h.disconnect hloop hwatch
  | read hloop hwatch hcommand =>
    rename_i p c command
    obtain ⟨-, hsid, htable⟩ := h.of_watches hwatch
    refine { h with loop := fun q calls outcome hdec => ?_ }
    obtain ⟨rfl, rfl, rfl⟩ := EventLoop.decoding.inj hdec
    exact ⟨_, hsid, htable, fun decoder hok => sessionId_receive hok⟩
  | enqueue hloop hc =>
    rename_i p c call calls outcome
    obtain ⟨id, hsid, htable, hout⟩ := h.loop _ _ _ hloop
    have hid : c.decoder.sessionId = id := by
      unfold sessionIdOf at hsid
      rw [hc] at hsid
      exact Option.some.inj hsid
    refine
      { h with
        loop := fun q calls' outcome' hdec => ?_
        jobs := List.forall_mem_append.mpr ⟨h.jobs, List.forall_mem_singleton.mpr ?_⟩ }
    · obtain ⟨rfl, -, rfl⟩ := EventLoop.decoding.inj hdec
      exact ⟨id, hsid, htable, hout⟩
    · refine Or.inr ⟨repliesOnce_processerWorker call.request, fun q hq => ?_⟩
      rw [hid] at hq
      exact Option.some.inj (hq.symm.trans htable)
  | decoded hloop =>
    rename_i p decoder
    obtain ⟨id, hsid, -, hout⟩ := h.loop _ _ _ hloop
    exact h.setDecoder (hsid.trans (congrArg some (hout decoder rfl).symm))
  | terminate hloop => exact { h with loop := fun q calls outcome hdec => nomatch hdec }
  | callTree r hjobs htodo =>
    rename_i before after job c k
    obtain ⟨honce, haddr⟩ := h.of_call (hjobs ▸ List.mem_append_cons_self) htodo
    exact h.of_workers
      (forall_mem_replace (hjobs ▸ h.jobs) (Or.inr ⟨honce.of_callTree r, haddr⟩))
      h.senders h.holding
  | sendReply hjobs htodo =>
    rename_i before after job reply k
    obtain ⟨honce, haddr⟩ := h.of_call (hjobs ▸ List.mem_append_cons_self) htodo
    obtain ⟨-, hid, hdone⟩ := honce.of_sendReply
    refine h.of_workers (forall_mem_replace (hjobs ▸ h.jobs) (Or.inl hdone))
      (List.forall_mem_append.mpr ⟨h.senders, List.forall_mem_singleton.mpr ?_⟩) h.holding
    exact hid ▸ haddr
  | check hsenders =>
    rename_i before after job
    have hmem : job ∈ s.senders := by
      rw [hsenders]
      exact List.mem_append_cons_self
    refine h.of_workers h.jobs (forall_mem_takeOut (hsenders ▸ h.senders))
      (List.forall_mem_append.mpr ⟨h.holding, fun held hheld => ?_⟩)
    obtain ⟨p, hp, rfl⟩ := Option.map_eq_some_iff.mp (Option.mem_toList.mp hheld)
    obtain ⟨howner, fd, hfd, hopen⟩ := h.senderCheck hmem hp
    exact ⟨howner, fd, hfd, fun q hq => Option.some.inj (hq.symm.trans hopen)⟩
  | insert hholding hctx hrun hclosed =>
    rename_i before after p job ctx ctx' tr
    obtain ⟨howner, -⟩ := h.holding _ (hholding ▸ List.mem_append_cons_self)
    have hfds : (s.manager.ctxs.set p ctx').map SessionCtx.fd
        = s.manager.ctxs.map SessionCtx.fd := by
      obtain ⟨hlt, rfl⟩ := List.getElem?_eq_some_iff.mp hctx
      rw [List.map_set, (exec_insertNewResponse_fd hrun).1, ← List.getElem_map SessionCtx.fd,
        List.set_getElem_self]
      rwa [List.length_map]
    exact
      { h with
        contexts := hfds.trans h.contexts
        holding := forall_mem_takeOut (hholding ▸ h.holding)
        inserted := List.forall_mem_append.mpr
          ⟨h.inserted, List.forall_mem_singleton.mpr howner⟩ }

/-! ## Runs -/

/-- **The invariant rule of runs under a condition.** -/
theorem Runs.invariant {cond : Proxy → Label → Prop} {I : Proxy → Prop}
    (hstep : ∀ s s' l, I s → cond s l → Step s l s' → I s') (hr : Runs cond s s') (h : I s) :
    I s' := by
  induction hr with
  | refl => exact h
  | tail _ hnext ih =>
    obtain ⟨l, hc, hs⟩ := hnext
    exact hstep _ _ l ih hc hs

/-- A run that respects `Exclusive` keeps the state consistent. -/
theorem Consistent.runs (h : Consistent s) (hr : Runs Exclusive s s') : Consistent s' :=
  hr.invariant (fun _ _ _ hcons hx hs => hcons.step hx hs) h

/-- A run meets every weaker condition. -/
theorem Runs.mono {cond cond' : Proxy → Label → Prop} (h : ∀ s l, cond s l → cond' s l)
    (hr : Runs cond s s') : Runs cond' s s' :=
  Relation.ReflTransGen.mono (fun _ _ ⟨l, hc, hs⟩ => ⟨l, h _ _ hc, hs⟩) _ _ hr

/-- One more step. -/
theorem Runs.step {cond : Proxy → Label → Prop} {s₀ : Proxy} {l : Label}
    (hr : Runs cond s₀ s) (hc : cond s l) (hs : Step s l s') : Runs cond s₀ s' :=
  hr.tail ⟨l, hc, hs⟩

/-- **A reply reaches no other client** in a run in which no connection is
accepted with a descriptor that a `sender_worker` between its two steps means to
write to, nor with a session id that is still in use. -/
theorem reachesOwner_of_runs {sessionCounter : Int32} {s s' : Proxy} {l : Label}
    (hr : Runs Exclusive (start sessionCounter) s) (hs : Step s l s') : s.ReachesOwner l :=
  ((consistent_start sessionCounter).runs hr).reachesOwner hs

/-! ## A descriptor handed out again -/

/-- The answer to a command the proxy does not know. -/
def unknownCommandResponse : Bytes := ofString "-ERR unknown command\r\n"

/-- As the first reply of a session. -/
def unknownCommandReply (sessionId : Int32) : SendReply := ⟨0, sessionId, unknownCommandResponse⟩

theorem processerWorker_unknownCommand (sessionId : Int32) :
    processerWorker 0 [ofString "X"] sessionId
      = .call (Sum.inr (unknownCommandReply sessionId)) .pure := by
  have hhandle : handle (commandOf [ofString "X"]) [ofString "X"]
      = pure (encode .errors [ofString "ERR unknown command"]) := by
    unfold handle
    iterate 12 rw [if_neg (by decide +kernel)]
    rfl
  have hresponse : (encode .errors [ofString "ERR unknown command"]).response
      = unknownCommandResponse := by decide +kernel
  unfold processerWorker unknownCommandReply
  rw [hhandle, ← hresponse]
  rfl

/-- The decoder of a client that has sent the command. -/
def afterUnknownCommand (sessionId : Int32) : DecodeContext :=
  { DecodeContext.new sessionId 0 with lastCommandId := 1 }

/-- **A client has sent a command the proxy does not know.** The `sender_worker`
of the reply has found the session and not yet inserted it. -/
def holdReply (s : Proxy) (p : ℕ) (sessionId : Int32) : Proxy :=
  { s.setDecoder p (afterUnknownCommand sessionId) with
    jobs := s.jobs ++ [⟨p, sessionId, ⟨0, [ofString "X"]⟩,
      [⟨Sum.inr (unknownCommandReply sessionId), ()⟩], .pure ()⟩]
    senders := []
    holding := s.holding ++ [(p, ⟨p, unknownCommandReply sessionId⟩)] }

/-- From the accepted connection to the reply on its way. -/
theorem runs_holdReply {p : ℕ} {fd : ℤ} {sessionId : Int32} (hloop : s.loop = .waiting)
    (hw : s.Watches p ⟨fd, true, .new sessionId 0⟩) (hsenders : s.senders = [])
    (hcheck : s.senderCheck sessionId = some p)
    (hreceive : receive (.new sessionId 0) (ofString "*1\r\n$1\r\nX\r\n")
      = ⟨[⟨0, [ofString "X"]⟩], .ok (afterUnknownCommand sessionId)⟩) :
    Runs Exclusive s (s.holdReply p sessionId) := by
  have hread : Runs Exclusive s _ :=
    Runs.step (l := .read p (ofString "*1\r\n$1\r\nX\r\n")) .refl trivial
      (Step.read hloop hw (by decide +kernel))
  unfold readFromClient at hread
  rw [hreceive] at hread
  have henqueue := hread.step (l := .enqueue) trivial (Step.enqueue rfl hw.1)
  have hdecoded := henqueue.step (l := .decoded) trivial (Step.decoded rfl)
  have hsend := hdecoded.step (l := .sendReply (unknownCommandReply sessionId)) trivial
    (@Step.sendReply _ s.jobs [] _ _ _ rfl (processerWorker_unknownCommand sessionId))
  have hchecked := hsend.step (l := .check ⟨p, unknownCommandReply sessionId⟩) trivial
    (@Step.check _ [] [] _ (congrArg (· ++ [_]) hsenders))
  have hfound : ((s.senderCheck sessionId).map fun q =>
      (q, SenderJob.mk p (unknownCommandReply sessionId))).toList
        = [(p, ⟨p, unknownCommandReply sessionId⟩)] := by
    rw [hcheck]
    rfl
  unfold holdReply
  rw [← hfound]
  exact hchecked

theorem receive_unknownCommand :
    receive (.new 1 0) (ofString "*1\r\n$1\r\nX\r\n")
      = ⟨[⟨0, [ofString "X"]⟩], .ok (afterUnknownCommand 1)⟩ :=
  Traced.ext (by decide +kernel) (by decide +kernel)

/-- The first client has sent the command. -/
def heldReply : Proxy := ((start 0).acceptTcpHandler 5 0).holdReply 0 1

theorem runs_heldReply : Runs Exclusive (start 0) heldReply := by
  have haccept : Runs Exclusive (start 0) ((start 0).acceptTcpHandler 5 0) :=
    Runs.step (l := .accept 5 0) .refl (exclusive_start 0 5 0)
      (Step.accept rfl (by decide) rfl)
  exact haccept.trans (runs_holdReply rfl ⟨rfl, rfl, rfl⟩ rfl rfl receive_unknownCommand)

/-- The kernel takes it. -/
def unknownCommandWrite : Event WriteResult := ⟨⟨5, unknownCommandResponse⟩, 22, by decide +kernel⟩

/-- The `sender_worker` inserts the reply and the kernel takes it. -/
theorem exec_unknownCommandReply (isEofReach : Bool) :
    Exec (SessionCtx.insertNewResponse { SessionCtx.new 5 with isEofReach := isEofReach }
        0 unknownCommandResponse) [unknownCommandWrite]
      (SessionCtx.advance { SessionCtx.new 5 with isEofReach := isEofReach }) :=
  exec_insertNewResponse_next { SessionCtx.new 5 with isEofReach := isEofReach }
    (by decide +kernel) rfl _ (show (0 : ℤ) < 22 by decide)

theorem unknownCommandWrite_of_open {p : ℕ} (hopen : s.descriptors 5 = some p) :
    ∀ e ∈ [unknownCommandWrite], s.descriptors e.1.fd = none → e.2.1 = -1 := by
  intro e he hclosed
  obtain rfl := List.mem_singleton.mp he
  cases hopen.symm.trans hclosed

/-- The first client has been answered and has left. -/
def firstGone : Proxy :=
  { heldReply with
    manager := heldReply.manager.setCtx 0 (SessionCtx.new 5).advance
    holding := []
    inserted := [(0, ⟨0, unknownCommandReply 1⟩)]
    sent := heldReply.sentAfter 5 unknownCommandResponse }.disconnect 0
    (afterUnknownCommand 1)

/-- The next one has been given its descriptor, and sends the same. -/
def heldAgain : Proxy := (firstGone.acceptTcpHandler 5 0).holdReply 1 2

theorem runs_heldAgain : Runs Exclusive (start 0) heldAgain := by
  have hinsert := runs_heldReply.step (l := .insert 0 ⟨0, unknownCommandReply 1⟩
      [unknownCommandWrite]) trivial
    (@Step.insert _ [] [] _ _ _ _ _ rfl rfl (exec_unknownCommandReply false)
      (unknownCommandWrite_of_open rfl))
  have htaken : transferred [unknownCommandWrite] = unknownCommandResponse := by decide +kernel
  rw [htaken] at hinsert
  have hgone : Runs Exclusive (start 0) firstGone :=
    hinsert.step (l := .disconnect 0) trivial
      (@Step.disconnect _ 0 ⟨5, true, afterUnknownCommand 1⟩ rfl ⟨rfl, rfl, rfl⟩)
  have hfresh : firstGone.FreshId 2 :=
    { table := rfl
      jobs := List.forall_mem_singleton.mpr fun _ => rfl
      senders := fun _ h => absurd h List.not_mem_nil }
  have haccept := hgone.step (l := .accept 5 0) ⟨fun _ h => absurd h List.not_mem_nil, hfresh⟩
    (Step.accept rfl (by decide) rfl)
  exact haccept.trans (runs_holdReply rfl ⟨rfl, rfl, rfl⟩ rfl rfl
    (Traced.ext (by decide +kernel) (by decide +kernel)))

/-- Where the descriptor has been handed out again in due time, the reply of each
client reaches it. -/
theorem reachesOwner_of_runs_heldAgain :
    heldReply.ReachesOwner (.insert 0 ⟨0, unknownCommandReply 1⟩ [unknownCommandWrite])
      ∧ heldAgain.ReachesOwner
        (.insert 1 ⟨1, unknownCommandReply 2⟩ [unknownCommandWrite]) := by
  constructor
  · exact reachesOwner_of_runs runs_heldReply
      (@Step.insert _ [] [] _ _ _ _ _ rfl rfl (exec_unknownCommandReply false)
        (unknownCommandWrite_of_open rfl))
  · exact reachesOwner_of_runs runs_heldAgain
      (@Step.insert _ [] [] _ _ _ _ _ rfl rfl (exec_unknownCommandReply false)
        (unknownCommandWrite_of_open rfl))

/-- **A reply reaches another client** when its own has disconnected between
the two steps of the `sender_worker` and the next one to connect is given the
same descriptor. -/
theorem not_neverMisdelivers : ¬ NeverMisdelivers := by
  intro h
  have hheld : Runs (fun _ _ => True) (start 0) heldReply :=
    runs_heldReply.mono fun _ _ _ => trivial
  have hgone := hheld.step (l := .disconnect 0) trivial (Step.disconnect rfl ⟨rfl, rfl, rfl⟩)
  have hnext := hgone.step (l := .accept 5 0) trivial (Step.accept rfl (by decide) rfl)
  have hreach := h 0 _ _ _ hnext
    (@Step.insert _ [] [] _ _ _ _ _ rfl rfl (exec_unknownCommandReply true)
      (unknownCommandWrite_of_open rfl))
  have howner := (hreach _ List.mem_cons_self (show (0 : ℤ) < 22 by decide)).1
  cases howner

end Proxy

end LogcabinRedisProxy
