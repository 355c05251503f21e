import RedisProxy.DecoderScanner
import RedisProxy.SessionManager
import RedisProxy.Library.Runs
import Mathlib.Logic.Function.Basic

/-!
# Sessions, descriptors and registrations

`accept_tcp_handler` makes a session for what `anetTcpAccept` returns, and then
registers the descriptor with the event loop; `read_from_client` takes both back
when the client has gone. In between, every session has an open descriptor that
is registered, and every open descriptor a session (`InStep`).

`accept_tcp_handler` does not look at what `anetTcpAccept` returns, and where
`aeCreateFileEvent` fails it logs the failure and returns: the session stays, and
so does the descriptor, which nothing will ever read or close. So the three
are in step through a run exactly if every accepted descriptor is registered
and gets a session id that is not taken (`inStep_iff`).
-/

namespace LogcabinRedisProxy

open Bytes SimpleResp Runs

/-! ## Registrations -/

/-- **What the event loop has of the clients.** `Ae.AeEventLoop` is the whole of it. -/
structure ClientEvents where
  /-- `setsize`. -/
  setsize : ℤ
  /-- The `clientData` of a descriptor registered for reading. -/
  events : ℤ → Option DecodeContext

namespace ClientEvents

/-- A registration, which fails for a descriptor that is too large, and where it is not
added; `none` is `AE_ERR`. Of `-1` the call is taken to return, with `AE_ERR`, as the kernel
adds it to nothing; that `aeCreateFileEvent` reads in front of the array before it asks the
kernel is left to the whole event loop (`Server.acceptTcpHandler_of_failed`). -/
def register (loop : ClientEvents) (fd : ℤ) (clientData : DecodeContext) (added : Bool) :
    Option ClientEvents :=
  if fd ≥ loop.setsize then none
  else if added then some { loop with events := Function.update loop.events fd (some clientData) }
  else none

/-- A registration is taken back. -/
def unregister (loop : ClientEvents) (fd : ℤ) : ClientEvents :=
  if fd ≥ loop.setsize then loop
  else { loop with events := Function.update loop.events fd none }

/-- The decoder of a descriptor has run. -/
def setClientData (loop : ClientEvents) (fd : ℤ) (clientData : DecodeContext) : ClientEvents :=
  { loop with events := Function.update loop.events fd (some clientData) }

variable {loop : ClientEvents} {fd : ℤ} {clientData : DecodeContext} {added : Bool}

/-- **A registration fails** in a full event loop, and where the kernel refuses
it. -/
theorem register_eq_none_iff :
    loop.register fd clientData added = none ↔ loop.setsize ≤ fd ∨ added = false := by
  unfold register
  split
  · rename_i hsize
    exact iff_of_true rfl (Or.inl hsize)
  · rename_i hsize
    cases added with
    | false => exact iff_of_true rfl (Or.inr rfl)
    | true => exact iff_of_false nofun fun h => h.elim hsize nofun

theorem register_of_lt (h : fd < loop.setsize) :
    loop.register fd clientData true
      = some ⟨loop.setsize, Function.update loop.events fd (some clientData)⟩ :=
  if_neg (not_le.mpr h)

theorem unregister_of_lt (h : fd < loop.setsize) :
    loop.unregister fd = ⟨loop.setsize, Function.update loop.events fd none⟩ :=
  if_neg (not_le.mpr h)

end ClientEvents

/-! ## Clients -/

/-- **What there is of the clients**: their sessions, their registrations, and
their descriptors. -/
structure Clients where
  /-- The session table. -/
  manager : SessionManager
  /-- The event loop. -/
  loop : ClientEvents
  /-- Whether a descriptor has been handed out by `accept` and is open. -/
  descriptors : ℤ → Bool

/-- An event, with what the kernel contributes to it. -/
inductive ClientEvent where
  /-- The listening socket is readable. `anetTcpAccept` returns a descriptor or
  `-1`; `aeApiAddEvent` adds it or fails; `reading_str_size` has some value. -/
  | accept (clientFd : ℤ) (added : Bool) (readingStrSize : UInt64)
  /-- A client is readable; `read` fails or returns some bytes. -/
  | read (fd : ℤ) (command : Option Bytes)

namespace Clients

/-- No client has been accepted. -/
def start (setsize : ℤ) (sessionCounter : Int32) : Clients where
  manager := .new sessionCounter
  loop := ⟨setsize, fun _ => none⟩
  descriptors := fun _ => false

/-- `anetTcpAccept` has returned. -/
def anetTcpAccept (s : Clients) (clientFd : ℤ) : Clients :=
  if clientFd = -1 then s
  else { s with descriptors := Function.update s.descriptors clientFd true }

/-- `accept_tcp_handler`, behind `anetTcpAccept`. -/
def acceptTcpHandler (s : Clients) (clientFd : ℤ) (added : Bool) (readingStrSize : UInt64) :
    Clients :=
  let (manager, newSessionId) := s.manager.insertNewStaus clientFd
  let ctx := DecodeContext.new newSessionId readingStrSize
  match s.loop.register clientFd ctx added with
  | none => { s with manager := manager }
  | some loop => { s with manager := manager, loop := loop }

/-- What `read_from_client` does when the read has failed, or returned nothing:
`erase_session` closes the descriptor of the session. -/
def closeClient (s : Clients) (fd : ℤ) (ctx : DecodeContext) : Clients :=
  let loop := s.loop.unregister fd
  let (manager, closed) := s.manager.eraseSession ctx.sessionId
  { manager := manager
    loop := loop
    descriptors := closed.elim s.descriptors fun fd => Function.update s.descriptors fd false }

/-- `read_from_client`. An exception that the decoder throws ends the process. -/
def readFromClient (s : Clients) (fd : ℤ) (ctx : DecodeContext) : Option Bytes → Option Clients
  | none => some (s.closeClient fd ctx)
  | some [] => some (s.closeClient fd ctx)
  | some command =>
    match (receive ctx command).outcome with
    | .ok ctx => some { s with loop := s.loop.setClientData fd ctx }
    | .error _ => none

/-- What `accept` can return: a descriptor that is not open, or `-1`, which the
kernel does not add to anything. -/
def MayAccept (s : Clients) (clientFd : ℤ) (added : Bool) : Prop :=
  clientFd = -1 ∧ added = false ∨ 0 ≤ clientFd ∧ s.descriptors clientFd = false

instance (s : Clients) (clientFd : ℤ) (added : Bool) : Decidable (s.MayAccept clientFd added) :=
  inferInstanceAs (Decidable (_ ∨ _))

/-- **An event is handled.** The event loop knows only of open descriptors that
are registered. -/
def step (s : Clients) : ClientEvent → Option Clients
  | .accept clientFd added readingStrSize =>
    if s.MayAccept clientFd added then
      some ((s.anetTcpAccept clientFd).acceptTcpHandler clientFd added readingStrSize)
    else none
  | .read fd command =>
    match s.loop.events fd with
    | some ctx => if s.descriptors fd then s.readFromClient fd ctx command else none
    | none => none

/-! ## What is to be in step -/

/-- **Sessions, open descriptors and registrations are in step.** -/
structure InStep (s : Clients) : Prop where
  /-- A session has an open descriptor that is registered. -/
  owns : ∀ id, s.manager.getCtx id ≠ none →
    ∃ fd, s.manager.fdOf id = some fd ∧ 0 ≤ fd ∧ s.descriptors fd = true ∧ s.loop.events fd ≠ none
  /-- Sessions have different descriptors. -/
  apart : ∀ id id' fd, s.manager.fdOf id = some fd → s.manager.fdOf id' = some fd → id = id'
  /-- An open descriptor has a session. -/
  owned : ∀ fd, s.descriptors fd = true → ∃ id, s.manager.fdOf id = some fd

/-- The accept, or the registration of what was accepted, fails. -/
def Fails (s : Clients) : ClientEvent → Prop
  | .accept clientFd added readingStrSize =>
    clientFd = -1 ∨ s.loop.register clientFd
      (.new s.manager.getNextSessionCounterNumber readingStrSize) added = none
  | .read _ _ => False

/-- Nothing has changed. -/
structure Unchanged (s s' : Clients) : Prop where
  sessions : ∀ id, s'.manager.getCtx id = s.manager.getCtx id
  descriptors : s'.descriptors = s.descriptors
  registrations : s'.loop = s.loop

/-- **After an event all is in step**, and one that fails has changed nothing. -/
def StaysInStep (s : Clients) (e : ClientEvent) (s' : Clients) : Prop :=
  s'.InStep ∧ (s.Fails e → s.Unchanged s')

/-- **An accept goes well**: a descriptor that is accepted is registered, and its
session has an id that is not taken. What is not accepted gets no session only
where the id is taken. -/
def GoesWell (s : Clients) : ClientEvent → Prop
  | .accept clientFd added _ =>
    if clientFd = -1 then s.manager.getCtx s.manager.getNextSessionCounterNumber ≠ none
    else clientFd < s.loop.setsize ∧ added = true
      ∧ s.manager.getCtx s.manager.getNextSessionCounterNumber = none
  | .read _ _ => True

/-! ## What an event does -/

variable {s s' : Clients} {clientFd fd : ℤ} {added : Bool} {readingStrSize : UInt64}

/-- `accept_tcp_handler` makes a session whatever has happened, and a
registration if there can be one. -/
theorem acceptTcpHandler_eq :
    s.acceptTcpHandler clientFd added readingStrSize
      = { manager := (s.manager.insertNewStaus clientFd).1
          loop := (s.loop.register clientFd
            (.new s.manager.getNextSessionCounterNumber readingStrSize) added).getD s.loop
          descriptors := s.descriptors } := by
  show (match s.loop.register clientFd
    (.new s.manager.getNextSessionCounterNumber readingStrSize) added with
    | none => _
    | some loop => _) = _
  cases s.loop.register clientFd
    (.new s.manager.getNextSessionCounterNumber readingStrSize) added with
  | none => rfl
  | some loop => rfl

/-- **What an accept leaves.** -/
theorem step_accept_iff :
    s.step (.accept clientFd added readingStrSize) = some s'
      ↔ s.MayAccept clientFd added ∧ s' =
        { manager := (s.manager.insertNewStaus clientFd).1
          loop := (s.loop.register clientFd
            (.new s.manager.getNextSessionCounterNumber readingStrSize) added).getD s.loop
          descriptors :=
            if clientFd = -1 then s.descriptors
            else Function.update s.descriptors clientFd true } := by
  rw [step, acceptTcpHandler_eq]
  have heq : s.anetTcpAccept clientFd = { s with
      descriptors :=
        if clientFd = -1 then s.descriptors
        else Function.update s.descriptors clientFd true } := by
    unfold anetTcpAccept
    split <;> rfl
  rw [heq]
  split
  · rename_i hmay
    rw [Option.some_inj]
    exact ⟨fun h => ⟨hmay, h.symm⟩, fun h => h.2.symm⟩
  · rename_i hmay
    exact ⟨nofun, fun h => absurd h.1 hmay⟩

/-- **What a read leaves**: the client is closed, or its decoder has run. -/
theorem step_read_cases {command : Option Bytes} (h : s.step (.read fd command) = some s') :
    ∃ ctx, s.loop.events fd = some ctx ∧ s.descriptors fd = true
      ∧ (s' = s.closeClient fd ctx
        ∨ ∃ ctx', ctx'.sessionId = ctx.sessionId
          ∧ s' = { s with loop := s.loop.setClientData fd ctx' }) := by
  rw [step] at h
  split at h
  · rename_i ctx hctx
    split at h
    · rename_i hopen
      refine ⟨ctx, hctx, hopen, ?_⟩
      unfold readFromClient at h
      split at h
      · exact Or.inl (Option.some.inj h).symm
      · exact Or.inl (Option.some.inj h).symm
      · split at h
        · rename_i ctx' hok
          exact Or.inr ⟨ctx', sessionId_receive hok, (Option.some.inj h).symm⟩
        · cases h
    · cases h
  · cases h

/-! ## What an event preserves -/

/-- The registration of a client leads to its session, and back. -/
structure Linked (s : Clients) : Prop where
  owns : ∀ id, s.manager.getCtx id ≠ none →
    ∃ fd ctx, s.manager.fdOf id = some fd ∧ 0 ≤ fd ∧ s.descriptors fd = true
      ∧ s.loop.events fd = some ctx ∧ ctx.sessionId = id
  owned : ∀ fd, s.descriptors fd = true → ∃ id, s.manager.fdOf id = some fd
  registered : ∀ fd ctx, s.loop.events fd = some ctx →
    s.manager.fdOf ctx.sessionId = some fd ∧ fd < s.loop.setsize

theorem linked_start (setsize : ℤ) (sessionCounter : Int32) :
    (start setsize sessionCounter).Linked where
  owns id h := absurd (show (start setsize sessionCounter).manager.getCtx id = none from
    Std.TreeMap.getElem?_emptyc) h
  owned _ h := absurd h Bool.false_ne_true
  registered _ _ h := nomatch h

/-- A session is registered with its own id, at its own descriptor. -/
theorem Linked.of_fdOf (h : s.Linked) {id : Int32} (hid : s.manager.fdOf id = some fd) :
    0 ≤ fd ∧ s.descriptors fd = true
      ∧ ∃ ctx, s.loop.events fd = some ctx ∧ ctx.sessionId = id := by
  obtain ⟨fd', ctx, hfd, hnonneg, hopen, hctx, hsid⟩ :=
    h.owns id (SessionManager.getCtx_ne_none hid)
  obtain rfl := Option.some.inj (hfd.symm.trans hid)
  exact ⟨hnonneg, hopen, ctx, hctx, hsid⟩

theorem Linked.inStep (h : s.Linked) : s.InStep where
  owns id hid := by
    obtain ⟨fd, ctx, hfd, hnonneg, hopen, hctx, -⟩ := h.owns id hid
    exact ⟨fd, hfd, hnonneg, hopen, by rw [hctx]; exact nofun⟩
  apart id id' fd hid hid' := by
    obtain ⟨-, -, ctx, hctx, rfl⟩ := h.of_fdOf hid
    obtain ⟨-, -, ctx', hctx', rfl⟩ := h.of_fdOf hid'
    rw [Option.some.inj (hctx.symm.trans hctx')]
  owned := h.owned

theorem Linked.fdOf_ne_none (h : s.Linked) {id : Int32} (hid : s.manager.getCtx id ≠ none) :
    s.manager.fdOf id ≠ none := by
  obtain ⟨fd, ctx, hfd, -⟩ := h.owns id hid
  rw [hfd]
  exact nofun

/-- A descriptor that is not open is not registered. -/
theorem Linked.events_eq_none (h : s.Linked) (hclosed : s.descriptors fd = false) :
    s.loop.events fd = none := by
  refine Option.eq_none_iff_forall_ne_some.mpr fun ctx hctx => ?_
  obtain ⟨-, hopen, -⟩ := h.of_fdOf (h.registered fd ctx hctx).1
  rw [hclosed] at hopen
  cases hopen

/-- What was not accepted leaves everything as it is where the next session id is
taken. -/
theorem unchanged_of_taken (hmay : s.MayAccept clientFd added) (hfd : clientFd = -1)
    (htaken : s.manager.getCtx s.manager.getNextSessionCounterNumber ≠ none)
    (hs : s.step (.accept clientFd added readingStrSize) = some s') : s.Unchanged s' := by
  obtain ⟨-, rfl⟩ := step_accept_iff.mp hs
  have hadded : added = false := hmay.elim (·.2) fun h => by omega
  subst hadded
  refine ⟨fun id => ?_, if_pos hfd, ?_⟩
  · show (s.manager.insertNewStaus clientFd).1.getCtx id = _
    rw [SessionManager.getCtx_insertNewStaus, if_neg]
    rintro ⟨rfl, hnone⟩
    exact htaken hnone
  · show (s.loop.register clientFd _ false).getD s.loop = s.loop
    unfold ClientEvents.register
    split <;> rfl

/-- The descriptors of the sessions after an accept. -/
theorem Linked.fdOf_insertNewStaus (h : s.Linked) (id : Int32) :
    (s.manager.insertNewStaus clientFd).1.fdOf id
      = if s.manager.getNextSessionCounterNumber = id ∧ s.manager.getCtx id = none
        then some clientFd else s.manager.fdOf id :=
  SessionManager.fdOf_insertNewStaus h.fdOf_ne_none

theorem Linked.of_unchanged (h : s.Linked) (hsame : s.Unchanged s')
    (hfds : ∀ id, s'.manager.fdOf id = s.manager.fdOf id) : s'.Linked := by
  obtain ⟨hsessions, hdescriptors, hloop⟩ := hsame
  refine ⟨fun id hid => ?_, fun fd hopen => ?_, fun fd ctx hctx => ?_⟩
  · rw [hfds, hdescriptors, hloop]
    exact h.owns id (hsessions id ▸ hid)
  · obtain ⟨id, hid⟩ := h.owned fd (hdescriptors ▸ hopen)
    exact ⟨id, (hfds id).trans hid⟩
  · rw [hfds, hloop]
    exact h.registered fd ctx (hloop ▸ hctx)

/-- **A client that is accepted and registered** has a session, a descriptor and a
registration. -/
theorem Linked.register (h : s.Linked) (hnonneg : 0 ≤ clientFd)
    (hclosed : s.descriptors clientFd = false) (hsize : clientFd < s.loop.setsize)
    (hfresh : s.manager.getCtx s.manager.getNextSessionCounterNumber = none)
    (readingStrSize : UInt64) :
    Linked
      { manager := (s.manager.insertNewStaus clientFd).1
        loop := ⟨s.loop.setsize, Function.update s.loop.events clientFd
          (some (.new s.manager.getNextSessionCounterNumber readingStrSize))⟩
        descriptors := Function.update s.descriptors clientFd true } := by
  have hnew : (s.manager.insertNewStaus clientFd).1.fdOf
      s.manager.getNextSessionCounterNumber = some clientFd := by
    rw [h.fdOf_insertNewStaus, if_pos ⟨rfl, hfresh⟩]
  -- the sessions there are keep their descriptors, which are others
  have hold : ∀ id fd, s.manager.fdOf id = some fd →
      (s.manager.insertNewStaus clientFd).1.fdOf id = some fd ∧ fd ≠ clientFd := by
    intro id fd hid
    refine ⟨?_, ?_⟩
    · rw [h.fdOf_insertNewStaus, if_neg, hid]
      exact fun hnext => SessionManager.getCtx_ne_none hid hnext.2
    · rintro rfl
      have hopen := (h.of_fdOf hid).2.1
      rw [hclosed] at hopen
      cases hopen
  refine ⟨fun id hid => ?_, fun fd hopen => ?_, fun fd ctx hctx => ?_⟩
  · change (s.manager.insertNewStaus clientFd).1.getCtx id ≠ none at hid
    rw [SessionManager.getCtx_insertNewStaus] at hid
    split at hid
    · rename_i hnext
      obtain ⟨rfl, -⟩ := hnext
      exact ⟨clientFd, _, hnew, hnonneg, Function.update_self .., Function.update_self .., rfl⟩
    · obtain ⟨fd, ctx, hfd, hpos, hopen, hctx, hsid⟩ := h.owns id hid
      obtain ⟨hfd', hne⟩ := hold id fd hfd
      exact ⟨fd, ctx, hfd', hpos, (Function.update_of_ne hne ..).trans hopen,
        (Function.update_of_ne hne ..).trans hctx, hsid⟩
  · change Function.update s.descriptors clientFd true fd = true at hopen
    by_cases hfd : fd = clientFd
    · subst hfd
      exact ⟨_, hnew⟩
    · rw [Function.update_of_ne hfd] at hopen
      obtain ⟨id, hid⟩ := h.owned fd hopen
      exact ⟨id, (hold id fd hid).1⟩
  · change Function.update s.loop.events clientFd (some _) fd = some ctx at hctx
    by_cases hfd : fd = clientFd
    · subst hfd
      rw [Function.update_self] at hctx
      obtain rfl := Option.some.inj hctx
      exact ⟨hnew, hsize⟩
    · rw [Function.update_of_ne hfd] at hctx
      obtain ⟨hid, hlt⟩ := h.registered fd ctx hctx
      exact ⟨(hold _ fd hid).1, hlt⟩

/-- **An accept that goes well.** -/
theorem Linked.accept (h : s.Linked)
    (hwell : s.GoesWell (.accept clientFd added readingStrSize))
    (hs : s.step (.accept clientFd added readingStrSize) = some s') : s'.Linked := by
  obtain ⟨hmay, heq⟩ := step_accept_iff.mp hs
  rw [GoesWell] at hwell
  by_cases hfd : clientFd = -1
  · rw [if_pos hfd] at hwell
    refine h.of_unchanged (unchanged_of_taken hmay hfd hwell hs) fun id => ?_
    rw [heq, h.fdOf_insertNewStaus, if_neg]
    rintro ⟨rfl, hnone⟩
    exact hwell hnone
  · rw [if_neg hfd] at hwell
    obtain ⟨hsize, rfl, hfresh⟩ := hwell
    obtain ⟨hnonneg, hclosed⟩ := hmay.resolve_left fun hnot => hfd hnot.1
    rw [heq, ClientEvents.register_of_lt hsize, if_neg hfd]
    exact h.register hnonneg hclosed hsize hfresh readingStrSize

/-- **A client that is closed** takes its session, its descriptor and its
registration with it. -/
theorem Linked.closeClient (h : s.Linked) {ctx : DecodeContext}
    (hctx : s.loop.events fd = some ctx) : (s.closeClient fd ctx).Linked := by
  obtain ⟨hfd, hlt⟩ := h.registered fd ctx hctx
  have hloop : (s.closeClient fd ctx).loop
      = ⟨s.loop.setsize, Function.update s.loop.events fd none⟩ :=
    ClientEvents.unregister_of_lt hlt
  have hdescriptors : (s.closeClient fd ctx).descriptors
      = Function.update s.descriptors fd false := by
    show (s.manager.eraseSession ctx.sessionId).2.elim s.descriptors _ = _
    rw [SessionManager.snd_eraseSession, hfd]
    rfl
  have hfds : ∀ id, (s.closeClient fd ctx).manager.fdOf id
      = if ctx.sessionId = id then none else s.manager.fdOf id := fun id =>
    SessionManager.fdOf_eraseSession
  -- the other sessions have other descriptors
  have hother : ∀ id fd', s.manager.fdOf id = some fd' → (ctx.sessionId = id ↔ fd' = fd) := by
    intro id fd' hid
    constructor
    · rintro rfl
      exact Option.some.inj (hid.symm.trans hfd)
    · rintro rfl
      exact h.inStep.apart _ _ _ hfd hid
  refine ⟨fun id hid => ?_, fun fd' hopen => ?_, fun fd' ctx' hctx' => ?_⟩
  · change (s.manager.eraseSession ctx.sessionId).1.getCtx id ≠ none at hid
    rw [SessionManager.getCtx_eraseSession] at hid
    rw [hfds, hdescriptors, hloop]
    split at hid
    · exact absurd rfl hid
    · rename_i hne
      obtain ⟨fd', ctx', hfd', hpos, hopen, hctx', hsid⟩ := h.owns id hid
      have hne' : fd' ≠ fd := fun heq => hne ((hother id fd' hfd').mpr heq)
      refine ⟨fd', ctx', (if_neg hne).trans hfd', hpos, ?_, ?_, hsid⟩
      · rw [Function.update_of_ne hne', hopen]
      · exact (Function.update_of_ne hne' ..).trans hctx'
  · rw [hdescriptors] at hopen
    have hne : fd' ≠ fd := by
      rintro rfl
      rw [Function.update_self] at hopen
      cases hopen
    rw [Function.update_of_ne hne] at hopen
    obtain ⟨id, hid⟩ := h.owned fd' hopen
    exact ⟨id, (hfds id).trans ((if_neg fun heq => hne ((hother id fd' hid).mp heq)).trans hid)⟩
  · rw [hloop] at hctx' ⊢
    change Function.update s.loop.events fd none fd' = some ctx' at hctx'
    have hne : fd' ≠ fd := by
      rintro rfl
      rw [Function.update_self] at hctx'
      cases hctx'
    rw [Function.update_of_ne hne] at hctx'
    obtain ⟨hid, hlt'⟩ := h.registered fd' ctx' hctx'
    refine ⟨?_, hlt'⟩
    rw [hfds, if_neg fun heq => hne ((hother _ fd' hid).mp heq), hid]

/-- **A read.** -/
theorem Linked.read (h : s.Linked) {command : Option Bytes}
    (hs : s.step (.read fd command) = some s') : s'.Linked := by
  obtain ⟨ctx, hctx, -, rfl | ⟨ctx', hsid, rfl⟩⟩ := step_read_cases hs
  · exact h.closeClient hctx
  · -- only the decoder of the descriptor is another
    refine ⟨fun id hid => ?_, h.owned, fun fd' ctx'' hctx'' => ?_⟩
    · obtain ⟨fd', ctx'', hfd', hpos, hopen, hctx'', rfl⟩ := h.owns id hid
      by_cases hfd : fd' = fd
      · subst hfd
        obtain rfl := Option.some.inj (hctx.symm.trans hctx'')
        exact ⟨fd', ctx', hfd', hpos, hopen, Function.update_self .., hsid⟩
      · exact ⟨fd', ctx'', hfd', hpos, hopen, (Function.update_of_ne hfd ..).trans hctx'', rfl⟩
    · change Function.update s.loop.events fd (some ctx') fd' = some ctx'' at hctx''
      by_cases hfd : fd' = fd
      · subst hfd
        rw [Function.update_self] at hctx''
        obtain rfl := Option.some.inj hctx''
        rw [hsid]
        exact h.registered fd' ctx hctx
      · rw [Function.update_of_ne hfd] at hctx''
        exact h.registered fd' ctx'' hctx''

theorem Linked.step (h : s.Linked) {e : ClientEvent} (hwell : s.GoesWell e)
    (hs : s.step e = some s') : s'.Linked := by
  cases e with
  | accept clientFd added readingStrSize => exact h.accept hwell hs
  | read fd command => exact h.read hs

/-! ## Every run -/

/-- **An accept after which all is in step has gone well.** -/
theorem Linked.goesWell_of_inStep (h : s.Linked)
    (hs : s.step (.accept clientFd added readingStrSize) = some s') (hin : s'.InStep) :
    s.GoesWell (.accept clientFd added readingStrSize) := by
  obtain ⟨hmay, heq⟩ := step_accept_iff.mp hs
  rw [GoesWell]
  have hnext : s.manager.getCtx s.manager.getNextSessionCounterNumber = none →
      s'.manager.fdOf s.manager.getNextSessionCounterNumber = some clientFd := fun hfresh => by
    rw [heq, h.fdOf_insertNewStaus, if_pos ⟨rfl, hfresh⟩]
  by_cases hfd : clientFd = -1
  · rw [if_pos hfd]
    intro hfresh
    obtain ⟨fd, hown, hpos, -⟩ := hin.owns _ (SessionManager.getCtx_ne_none (hnext hfresh))
    obtain rfl := Option.some.inj ((hnext hfresh).symm.trans hown)
    omega
  · rw [if_neg hfd]
    have hclosed : s.descriptors clientFd = false :=
      (hmay.resolve_left fun hnot => hfd hnot.1).2
    -- the descriptor has a session, which can only be the new one
    have hfresh : s.manager.getCtx s.manager.getNextSessionCounterNumber = none := by
      have hopen : s'.descriptors clientFd = true := by
        rw [heq]
        show (if clientFd = -1 then s.descriptors else _) clientFd = true
        rw [if_neg hfd, Function.update_self]
      obtain ⟨id, hid⟩ := hin.owned clientFd hopen
      rw [heq, h.fdOf_insertNewStaus] at hid
      split at hid
      · rename_i hnew
        rw [hnew.1]
        exact hnew.2
      · have hwas := (h.of_fdOf hid).2.1
        rw [hclosed] at hwas
        cases hwas
    -- and is registered
    obtain ⟨fd, hown, -, -, hregistered⟩ :=
      hin.owns _ (SessionManager.getCtx_ne_none (hnext hfresh))
    obtain rfl := Option.some.inj ((hnext hfresh).symm.trans hown)
    have hcreated : ¬ (s.loop.setsize ≤ clientFd ∨ added = false) := by
      rw [← ClientEvents.register_eq_none_iff]
      intro hnone
      rw [heq] at hregistered
      refine hregistered ?_
      show ((s.loop.register clientFd _ added).getD s.loop).events clientFd = none
      rw [hnone]
      exact h.events_eq_none hclosed
    rw [not_or, not_le, Bool.not_eq_false] at hcreated
    exact ⟨hcreated.1, hcreated.2, hfresh⟩

/-- **An event leaves all in step** exactly if it goes well. -/
theorem Linked.staysInStep_iff (h : s.Linked) {e : ClientEvent} (hs : s.step e = some s') :
    s.StaysInStep e s' ↔ s.GoesWell e := by
  constructor
  · intro hstays
    cases e with
    | accept clientFd added readingStrSize => exact h.goesWell_of_inStep hs hstays.1
    | read fd command => exact trivial
  · intro hwell
    refine ⟨(h.step hwell hs).inStep, fun hfails => ?_⟩
    cases e with
    | accept clientFd added readingStrSize =>
      rw [GoesWell] at hwell
      by_cases hfd : clientFd = -1
      · rw [if_pos hfd] at hwell
        exact unchanged_of_taken (step_accept_iff.mp hs).1 hfd hwell hs
      · rw [if_neg hfd] at hwell
        obtain ⟨hsize, rfl, -⟩ := hwell
        rcases hfails with hnot | hnone
        · exact absurd hnot hfd
        · rcases ClientEvents.register_eq_none_iff.mp hnone with hfull | hfalse
          · exact absurd hsize (not_lt.mpr hfull)
          · cases hfalse
    | read fd command => exact absurd hfails id

/-- **Sessions, descriptors and registrations stay in step through a run** exactly
if all that is accepted goes well. -/
theorem inStep_iff (setsize : ℤ) (sessionCounter : Int32) (events : List ClientEvent) :
    Always step StaysInStep (start setsize sessionCounter) events
      ↔ Always step (fun s e _ => s.GoesWell e) (start setsize sessionCounter) events :=
  always_congr (fun _ _ _ h hs => h.staysInStep_iff hs)
    (fun _ _ _ h hs hwell => h.step hwell hs) (linked_start setsize sessionCounter)

/-- **A client that does not fit in the event loop** keeps a session and a
descriptor that nothing will read. -/
theorem not_inStep_fullLoop :
    ¬ Always step StaysInStep (start 1024 0) [.accept 1024 true 0] := by
  intro h
  obtain ⟨⟨hin, -⟩, -⟩ := h _ rfl
  obtain ⟨_, -, -, -, hregistered⟩ := hin.owns 1 (by decide)
  exact hregistered rfl

end Clients

end LogcabinRedisProxy
