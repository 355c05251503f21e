import RedisProxy.EventPolling
import RedisProxy.Registrations

/-!
# Batches of events

The proxy registers `accept_tcp_handler` for its listening socket and
`read_from_client` for each client, both for reading. What it does with the batches of
events it gets is what `Clients` does with the readable ones one after the other, in the
order of the batches (`Server.refines_clients`): each is handled by the callback of its
descriptor with the decoder of its client, and no batch has an access outside of the
array in it. In particular an event still is for the registration it was reported for when
its turn comes (`Server.entries_of_batch`), also if descriptors have been closed and handed
out again since the kernel was asked.

This is so as long as `accept` returns descriptors and session ids are not taken. The
descriptor `-1` of an `accept` that fails is an index into the table, outside of it.
-/

namespace LogcabinRedisProxy

open Bytes SimpleResp Runs Ae

/-! ## The callbacks -/

/-- The callbacks of the proxy. -/
inductive FileProc where
  | acceptTcpHandler
  | readFromClient
  | writeToClient
  deriving DecidableEq

/-- What the calls of a callback return. -/
structure Returns where
  /-- `anetTcpAccept`. -/
  clientFd : ℤ
  /-- Whether `epoll_ctl` refuses to add it. -/
  refused : Bool
  /-- What `reading_str_size` of a new decoder is. -/
  readingStrSize : UInt64
  /-- `read`; `none` is `-1`. -/
  command : Option Bytes

/-- **The thread of the event loop**: the session table and the event loop, which holds the
decoders. -/
structure Server where
  /-- The session table. -/
  manager : SessionManager
  /-- The event loop. -/
  loop : Ae.AeEventLoop FileProc (Option DecodeContext)

namespace Server

/-- `anetTcpAccept`: the kernel hands out a descriptor. -/
def anetTcpAccept (s : Server) (clientFd : ℤ) : Ae.AeEventLoop FileProc (Option DecodeContext) :=
  if clientFd = -1 then s.loop else { s.loop with kernel := s.loop.kernel.opened clientFd }

/-- `accept_tcp_handler`. That `aeCreateFileEvent` has failed is logged. -/
def acceptTcpHandler (s : Server) (env : Returns) : Except (Stop StdException) Server :=
  let (manager, newSessionId) := s.manager.insertNewStaus env.clientFd
  let ctx := DecodeContext.new newSessionId env.readingStrSize
  match (s.anetTcpAccept env.clientFd).aeCreateFileEvent env.clientFd aeReadable
    .readFromClient (some ctx) env.refused with
  | none => .error .undefined
  | some (loop, _) => .ok ⟨manager, loop⟩

/-- What `read_from_client` does when the read has failed, or returned nothing. -/
def closeClient (s : Server) (fd : ℤ) (ctx : DecodeContext) (mask : Mask) :
    Except (Stop StdException) Server :=
  match s.loop.aeDeleteFileEvent fd mask with
  | none => .error .undefined
  | some loop =>
    let (manager, closed) := s.manager.eraseSession ctx.sessionId
    .ok ⟨manager, closed.elim loop fun fd => { loop with kernel := loop.kernel.closed fd }⟩

/-- `read_from_client`. -/
def readFromClient (s : Server) (env : Returns) (fd : ℤ)
    (clientdata : Option (Option DecodeContext)) (mask : Mask) :
    Except (Stop StdException) Server :=
  match clientdata with
  | some (some ctx) =>
    match env.command with
    | none => s.closeClient fd ctx mask
    | some [] => s.closeClient fd ctx mask
    | some command =>
      match (receive ctx command).outcome with
      | .ok ctx => .ok { s with loop := s.loop.setClientData fd (some ctx) }
      | .error e => .error (.thrown e)
  | _ => .error .undefined

/-- A callback is called; `write_to_client` does nothing. -/
def call (env : Returns) (s : Server) (proc : FileProc) (fd : ℤ)
    (clientdata : Option (Option DecodeContext)) (mask : Mask) :
    Except (Stop StdException) Server :=
  match proc with
  | .acceptTcpHandler => s.acceptTcpHandler env
  | .readFromClient => s.readFromClient env fd clientdata mask
  | .writeToClient => .ok s

/-- `proxy::run` up to `aeMain`, with a listening socket; without the registration it is
left by an assertion. -/
def run (setsize : ℕ) (memory : ℕ → AeFileEvent FileProc (Option DecodeContext)) (ipfd : ℤ)
    (sessionCounter : Int32) : Option Server :=
  match (AeEventLoop.aeCreateEventLoop setsize memory fun fd => fd = ipfd).aeCreateFileEvent ipfd
    aeReadable .acceptTcpHandler none false with
  | some (loop, .ok) => some ⟨.new sessionCounter, loop⟩
  | _ => none

/-- **An accept that fails**: there is no event with the index `-1`. -/
theorem acceptTcpHandler_of_failed {s : Server} {env : Returns} (h : env.clientFd = -1)
    (hsize : 0 ≤ s.loop.setsize) : s.acceptTcpHandler env = .error .undefined := by
  have hcreate : ∀ clientData, s.loop.aeCreateFileEvent (-1) aeReadable .readFromClient clientData
      env.refused = none := by
    intro clientData
    unfold Ae.AeEventLoop.aeCreateFileEvent
    rw [if_neg (by omega)]
    rfl
  unfold acceptTcpHandler anetTcpAccept
  rw [if_pos h, h]
  dsimp only
  rw [hcreate]

/-- The event loop handles an event. -/
def processEvent (s : Server) (f : Fired Returns) : Except (Stop StdException) Server :=
  aeProcessEvent loop call s f

/-- The event loop handles a batch of events. -/
def processEvents (s : Server) (batch : List (Fired Returns)) : Except (Stop StdException) Server :=
  aeProcessEvents loop call s batch

/-- The event loop handles one batch after the other. -/
def main (s : Server) (batches : List (List (Fired Returns))) : Except (Stop StdException) Server :=
  aeMain loop call s batches

theorem processEvents_cons (s : Server) (f : Fired Returns) (batch : List (Fired Returns)) :
    s.processEvents (f :: batch) = s.processEvent f >>= fun s' => s'.processEvents batch :=
  List.foldlM_cons

theorem main_cons (s : Server) (batch : List (Fired Returns))
    (batches : List (List (Fired Returns))) :
    s.main (batch :: batches) = s.processEvents batch >>= fun s' => s'.main batches :=
  List.foldlM_cons

end Server

/-! ## What the table is to hold -/

/-- What the listening socket is registered with. -/
def listenEntry : Entry FileProc (Option DecodeContext) where
  mask := aeReadable
  reader := some .acceptTcpHandler
  writer := none
  clientData := none
  lost := false

/-- What a client is registered with. -/
def clientEntry (ctx : DecodeContext) : Entry FileProc (Option DecodeContext) where
  mask := aeReadable
  reader := some .readFromClient
  writer := none
  clientData := some ctx
  lost := false

namespace Clients

/-- **What is registered for the clients**, and for the listening socket. -/
def registry (c : Clients) (ipfd : ℤ) : Registry FileProc (Option DecodeContext) where
  setsize := c.loop.setsize
  isOpen := Function.update c.descriptors ipfd true
  entries := Function.update (fun fd => (c.loop.events fd).map clientEntry) ipfd
    (some listenEntry)

variable {c c' : Clients} {ipfd fd clientFd : ℤ} {ctx : DecodeContext}

theorem registry_entries_of_ne (hfd : fd ≠ ipfd) :
    (c.registry ipfd).entries fd = (c.loop.events fd).map clientEntry := by
  unfold registry
  dsimp only
  rw [Function.update_of_ne hfd]

theorem registry_isOpen_of_ne (hfd : fd ≠ ipfd) :
    (c.registry ipfd).isOpen fd = c.descriptors fd := by
  unfold registry
  dsimp only
  rw [Function.update_of_ne hfd]

theorem registry_entries_self : (c.registry ipfd).entries ipfd = some listenEntry := by
  unfold registry
  dsimp only
  rw [Function.update_self]

/-- One client more or less. -/
theorem registry_update (hfd : fd ≠ ipfd) (registered : Option DecodeContext)
    (hsize : c'.loop.setsize = c.loop.setsize)
    (hevents : c'.loop.events = Function.update c.loop.events fd registered)
    (isOpen : Bool) (hopen : c'.descriptors = Function.update c.descriptors fd isOpen) :
    c'.registry ipfd
      = { setsize := c.loop.setsize
          isOpen := Function.update (c.registry ipfd).isOpen fd isOpen
          entries := Function.update (c.registry ipfd).entries fd
            (registered.map clientEntry) } := by
  have hmap : (fun fd' => (c'.loop.events fd').map clientEntry)
      = Function.update (fun fd' => (c.loop.events fd').map clientEntry) fd
        (registered.map clientEntry) := by
    rw [hevents]
    exact funext fun fd' => Function.apply_update (fun _ => Option.map clientEntry) ..
  unfold registry
  rw [hsize, hmap, hopen, Function.update_comm hfd.symm, Function.update_comm hfd.symm]

/-- **A client is accepted**, and registered if there is room for it. -/
theorem registry_accept (hfd : clientFd ≠ ipfd)
    (hnone : c.loop.events clientFd = none) (ctx : DecodeContext) (refused : Bool)
    (hloop : c'.loop = (c.loop.register clientFd ctx (!refused)).getD c.loop)
    (hopen : c'.descriptors = Function.update c.descriptors clientFd true) :
    (((c.registry ipfd).perform (.opened clientFd)).1.perform
      (.create clientFd aeReadable .readFromClient (some ctx) refused)).1 = c'.registry ipfd := by
  have hentry : (c.registry ipfd).entries clientFd = none := by
    rw [registry_entries_of_ne hfd, hnone, Option.map_none]
  have hadmits : ((c.registry ipfd).perform (.opened clientFd)).1.Admits clientFd refused
      ↔ clientFd < c.loop.setsize ∧ refused = false := by
    show (clientFd < c.loop.setsize
      ∧ Function.update (c.registry ipfd).isOpen clientFd true clientFd = true
      ∧ ((c.registry ipfd).entries clientFd).elim _ _) ↔ _
    rw [hentry, Function.update_self, Option.elim_none]
    exact and_congr_right fun _ => and_iff_right rfl
  by_cases hroom : clientFd < c.loop.setsize ∧ refused = false
  · rw [Registry.perform_create_of_admits (hadmits.mpr hroom)]
    obtain ⟨hlt, rfl⟩ := hroom
    have hc' : c'.loop = ⟨c.loop.setsize, Function.update c.loop.events clientFd (some ctx)⟩ :=
      hloop.trans (congrArg (·.getD c.loop) (ClientEvents.register_of_lt hlt))
    rw [registry_update hfd (some ctx) (by rw [hc']) (by rw [hc']) true hopen]
    refine Registry.ext rfl rfl ?_
    show Function.update (c.registry ipfd).entries clientFd
      (some (.add ((c.registry ipfd).entries clientFd) _ _ _)) = _
    rw [hentry]
    rfl
  · have hc' : c'.loop = c.loop := by
      rw [hloop, ClientEvents.register_eq_none_iff.mpr]
      · rfl
      · rw [Bool.not_eq_false']
        by_contra hnot
        push Not at hnot
        exact hroom ⟨hnot.1, Bool.eq_false_of_not_eq_true hnot.2⟩
    rw [Registry.perform_create_of_not_admits (mt hadmits.mp hroom),
      registry_update hfd none (by rw [hc']) (by rw [hc', ← hnone, Function.update_eq_self]) true
        hopen]
    refine Registry.ext rfl rfl ?_
    show (c.registry ipfd).entries = Function.update (c.registry ipfd).entries clientFd none
    rw [← hentry, Function.update_eq_self]

/-- **A client is closed.** -/
theorem registry_close (hfd : fd ≠ ipfd) {mask : Mask}
    (hmask : aeReadable &&& ~~~mask = aeNone) (hctx : c.loop.events fd = some ctx)
    (hsize : c'.loop.setsize = c.loop.setsize)
    (hevents : c'.loop.events = Function.update c.loop.events fd none)
    (hopen : c'.descriptors = Function.update c.descriptors fd false) :
    (((c.registry ipfd).perform (.delete fd mask)).1.perform (.closed fd)).1
      = c'.registry ipfd := by
  have hremove : ((c.registry ipfd).entries fd).bind (fun entry => entry.remove mask) = none := by
    rw [registry_entries_of_ne hfd, hctx, Option.map_some, Option.bind_some]
    exact if_pos hmask
  rw [registry_update hfd none hsize hevents false hopen]
  refine Registry.ext rfl rfl ?_
  show Function.update (Function.update (c.registry ipfd).entries fd
      (((c.registry ipfd).entries fd).bind _)) fd
    ((Function.update (c.registry ipfd).entries fd _ fd).map _) = _
  rw [hremove, Function.update_self, Function.update_idem]
  rfl

/-- **A decoder has run.** -/
theorem registry_receive (hfd : fd ≠ ipfd) (hsize : c'.loop.setsize = c.loop.setsize)
    (hevents : c'.loop.events = Function.update c.loop.events fd (some ctx))
    (hopen : c'.descriptors = c.descriptors) :
    c'.registry ipfd = { c.registry ipfd with
      entries := Function.update (c.registry ipfd).entries fd (some (clientEntry ctx)) } := by
  rw [registry_update hfd (some ctx) hsize hevents (c.descriptors fd)
    (by rw [Function.update_eq_self, hopen])]
  refine Registry.ext rfl ?_ rfl
  rw [← registry_isOpen_of_ne hfd, Function.update_eq_self]

/-! ## What the clients do -/

/-- An accept. -/
theorem exists_step_accept (hpos : 0 ≤ clientFd) (hclosed : c.descriptors clientFd = false)
    (added : Bool) (readingStrSize : UInt64) :
    ∃ c', c.step (.accept clientFd added readingStrSize) = some c'
      ∧ c'.manager = (c.manager.insertNewStaus clientFd).1
      ∧ c'.loop = (c.loop.register clientFd
        (.new c.manager.getNextSessionCounterNumber readingStrSize) added).getD c.loop
      ∧ c'.descriptors = Function.update c.descriptors clientFd true :=
  ⟨_, step_accept_iff.mpr ⟨Or.inr ⟨hpos, hclosed⟩, rfl⟩, rfl, rfl, if_neg (by omega)⟩

/-- A registration is one more, or none. -/
theorem getD_register (loop : ClientEvents) (fd : ℤ) (ctx : DecodeContext) (added : Bool) :
    ((loop.register fd ctx added).getD loop).setsize = loop.setsize
      ∧ (((loop.register fd ctx added).getD loop).events
          = Function.update loop.events fd (some ctx)
        ∨ ((loop.register fd ctx added).getD loop).events = loop.events) := by
  unfold ClientEvents.register
  split
  · exact ⟨rfl, Or.inr rfl⟩
  · cases added with
    | false => exact ⟨rfl, Or.inr rfl⟩
    | true => exact ⟨rfl, Or.inl rfl⟩

/-- A client is closed. -/
theorem closeClient_spec (hctx : c.manager.fdOf ctx.sessionId = some fd)
    (hlt : fd < c.loop.setsize) :
    (c.closeClient fd ctx).manager = (c.manager.eraseSession ctx.sessionId).1
      ∧ (c.closeClient fd ctx).loop.setsize = c.loop.setsize
      ∧ (c.closeClient fd ctx).loop.events = Function.update c.loop.events fd none
      ∧ (c.closeClient fd ctx).descriptors = Function.update c.descriptors fd false := by
  have hloop : (c.closeClient fd ctx).loop
      = ⟨c.loop.setsize, Function.update c.loop.events fd none⟩ :=
    ClientEvents.unregister_of_lt hlt
  refine ⟨rfl, by rw [hloop], by rw [hloop], ?_⟩
  show (c.manager.eraseSession ctx.sessionId).2.elim c.descriptors _ = _
  rw [SessionManager.snd_eraseSession, hctx]
  rfl

end Clients

/-! ## Following the clients -/

/-- **The event loop has the clients that `Clients` has**, with the callbacks they are to
have, and the sessions of the clients are their own. -/
structure Follows (ipfd : ℤ) (s : Server) (c : Clients) : Prop where
  wellFormed : s.loop.WellFormed
  manager : c.manager = s.manager
  registry : s.loop.registry = c.registry ipfd
  apart : c.descriptors ipfd = false ∧ c.loop.events ipfd = none
  sessions : ∀ fd ctx, c.loop.events fd = some ctx → c.manager.fdOf ctx.sessionId = some fd
  known : ∀ id, c.manager.getCtx id ≠ none → c.manager.fdOf id ≠ none

namespace Follows

variable {ipfd fd : ℤ} {s : Server} {c : Clients} {ctx : DecodeContext} {env : Returns}
  {mask : Mask}

/-- A client is registered. -/
theorem entry (h : Follows ipfd s c) (hctx : c.loop.events fd = some ctx) :
    fd ≠ ipfd ∧ s.loop.registry.entries fd = some (clientEntry ctx) := by
  have hne : fd ≠ ipfd := by
    rintro rfl
    exact nomatch h.apart.2.symm.trans hctx
  refine ⟨hne, ?_⟩
  rw [h.registry, Clients.registry_entries_of_ne hne, hctx, Option.map_some]

/-- Its descriptor is open, and inside of the array. -/
theorem isOpen (h : Follows ipfd s c) (hctx : c.loop.events fd = some ctx) :
    c.descriptors fd = true ∧ 0 ≤ fd ∧ fd < c.loop.setsize := by
  obtain ⟨hne, hentry⟩ := h.entry hctx
  obtain ⟨hopen, hpos, hlt⟩ := Ae.AeEventLoop.isOpen_of_entry h.wellFormed hentry rfl
  change s.loop.registry.isOpen fd = true at hopen
  change fd < s.loop.registry.setsize at hlt
  rw [h.registry] at hopen hlt
  exact ⟨(Clients.registry_isOpen_of_ne hne).symm.trans hopen, hpos, hlt⟩

/-- What is not open is no client. -/
theorem of_not_open (h : Follows ipfd s c) (hclosed : s.loop.kernel.isOpen fd = false) :
    fd ≠ ipfd ∧ c.descriptors fd = false ∧ c.loop.events fd = none := by
  change s.loop.registry.isOpen fd = false at hclosed
  rw [h.registry] at hclosed
  have hne : fd ≠ ipfd := by
    rintro rfl
    change Function.update c.descriptors fd true fd = false at hclosed
    rw [Function.update_self] at hclosed
    cases hclosed
  rw [Clients.registry_isOpen_of_ne hne] at hclosed
  refine ⟨hne, hclosed, Option.eq_none_iff_forall_ne_some.mpr fun ctx hctx => ?_⟩
  rw [(h.isOpen hctx).1] at hclosed
  cases hclosed

/-- What a descriptor inside of the array is registered for is reading, if anything. -/
theorem mask_of_lt (h : Follows ipfd s c) (hpos : 0 ≤ fd) (hlt : fd < c.loop.setsize) :
    ∃ fe, s.loop.fileEvent fd = some fe ∧ (fe.mask = aeReadable ∨ fe.mask = aeNone) := by
  have hsize : s.loop.setsize = c.loop.setsize := congrArg Registry.setsize h.registry
  obtain ⟨fe, hfe⟩ :=
    Ae.AeEventLoop.exists_fileEvent h.wellFormed.length hpos (hsize ▸ hlt)
  refine ⟨fe, hfe, ?_⟩
  by_cases hmask : fe.mask = aeNone
  · exact Or.inr hmask
  · obtain ⟨entry, hentry, hmask', -⟩ := Ae.AeEventLoop.exists_entry h.wellFormed
      ((Ae.AeEventLoop.maskOf_of_fileEvent hfe).trans_ne hmask)
    rw [Ae.AeEventLoop.maskOf_of_fileEvent hfe] at hmask'
    rw [h.registry] at hentry
    rw [← hmask']
    by_cases hfd : fd = ipfd
    · subst hfd
      rw [Clients.registry_entries_self] at hentry
      exact Or.inl (Option.some.inj hentry ▸ rfl)
    · rw [Clients.registry_entries_of_ne hfd] at hentry
      obtain ⟨ctx, -, rfl⟩ := Option.map_eq_some_iff.mp hentry
      exact Or.inl rfl

/-- **A client is accepted.** -/
theorem accepted (h : Follows ipfd s c) (hpos : 0 ≤ env.clientFd)
    (hclosed : s.loop.kernel.isOpen env.clientFd = false)
    (hfresh : s.manager.getCtx s.manager.getNextSessionCounterNumber = none) :
    ∃ s' c', s.acceptTcpHandler env = .ok s'
      ∧ c.step (.accept env.clientFd (!env.refused) env.readingStrSize) = some c'
      ∧ Follows ipfd s' c' ∧ c'.loop.setsize = c.loop.setsize
      ∧ ∀ fd, c.loop.events fd ≠ none → c'.loop.events fd = c.loop.events fd := by
  obtain ⟨hne, hdescriptors, hnone⟩ := h.of_not_open hclosed
  have hfd : env.clientFd ≠ -1 := by omega
  -- what the table makes of it
  obtain ⟨loop', hperform, hregistry, h'⟩ :=
    Ae.AeEventLoop.refines_create (h.wellFormed.opened env.clientFd) hpos aeReadable_ne_aeNone
      FileProc.readFromClient
      (some (.new s.manager.getNextSessionCounterNumber env.readingStrSize)) env.refused
  have haccept : s.acceptTcpHandler env
      = .ok ⟨(s.manager.insertNewStaus env.clientFd).1, loop'⟩ := by
    unfold Server.acceptTcpHandler Server.anetTcpAccept
    rw [if_neg hfd]
    change _ = some _ at hperform
    unfold Ae.AeEventLoop.perform at hperform
    dsimp only [SessionManager.insertNewStaus] at hperform ⊢
    rw [hperform]
  obtain ⟨c', hstep, hmanager, hloop, hopen⟩ :=
    Clients.exists_step_accept hpos hdescriptors (!env.refused) env.readingStrSize
  obtain ⟨hsize, hevents⟩ := Clients.getD_register c.loop env.clientFd
    (.new c.manager.getNextSessionCounterNumber env.readingStrSize) (!env.refused)
  rw [← hloop] at hsize hevents
  have hfresh' : c.manager.getCtx c.manager.getNextSessionCounterNumber = none := by
    rw [h.manager]
    exact hfresh
  have hfds : ∀ id, c'.manager.fdOf id
      = if c.manager.getNextSessionCounterNumber = id ∧ c.manager.getCtx id = none
        then some env.clientFd else c.manager.fdOf id := fun id =>
    hmanager ▸ SessionManager.fdOf_insertNewStaus (h.known id)
  -- the clients there are stay
  have hold : ∀ fd, c.loop.events fd ≠ none → c'.loop.events fd = c.loop.events fd := by
    intro fd hfd
    rcases hevents with hevents | hevents
    · rw [hevents, Function.update_of_ne]
      rintro rfl
      exact hfd hnone
    · rw [hevents]
  refine ⟨_, c', haccept, hstep, ⟨h', ?_, ?_, ⟨?_, ?_⟩, fun fd ctx hctx => ?_, fun id hid => ?_⟩,
    hsize, hold⟩
  · rw [hmanager, h.manager]
  · have hregistry' : loop'.registry
        = (((c.registry ipfd).perform (.opened env.clientFd)).1.perform
          (.create env.clientFd aeReadable .readFromClient
            (some (.new c.manager.getNextSessionCounterNumber env.readingStrSize))
            env.refused)).1 := by
      rw [hregistry, h.manager, ← h.registry]
      rfl
    rw [hregistry']
    exact Clients.registry_accept hne hnone _ env.refused hloop hopen
  · rw [hopen, Function.update_of_ne hne.symm]
    exact h.apart.1
  · rcases hevents with hevents | hevents
    · rw [hevents, Function.update_of_ne hne.symm]
      exact h.apart.2
    · rw [hevents]
      exact h.apart.2
  · have hkeeps : c.loop.events fd = some ctx → c'.manager.fdOf ctx.sessionId = some fd := by
      intro hctx
      rw [hfds, if_neg, h.sessions fd ctx hctx]
      exact fun hnew => SessionManager.getCtx_ne_none (h.sessions fd ctx hctx) hnew.2
    rcases hevents with hevents | hevents
    · rw [hevents] at hctx
      by_cases hfd : fd = env.clientFd
      · subst hfd
        rw [Function.update_self] at hctx
        obtain rfl := Option.some.inj hctx
        rw [hfds]
        exact if_pos ⟨rfl, hfresh'⟩
      · rw [Function.update_of_ne hfd] at hctx
        exact hkeeps hctx
    · exact hkeeps (hevents ▸ hctx)
  · rw [hmanager, SessionManager.getCtx_insertNewStaus] at hid
    rw [hfds]
    split
    · exact nofun
    · rename_i hnew
      rw [if_neg hnew] at hid
      exact h.known id hid

/-- **A client is closed.** -/
theorem closed (h : Follows ipfd s c) (hctx : c.loop.events fd = some ctx)
    (hmask : aeReadable &&& ~~~mask = aeNone) :
    ∃ s', s.closeClient fd ctx mask = .ok s' ∧ Follows ipfd s' (c.closeClient fd ctx)
      ∧ (c.closeClient fd ctx).loop.setsize = c.loop.setsize
      ∧ ∀ fd' ≠ fd, (c.closeClient fd ctx).loop.events fd' = c.loop.events fd' := by
  obtain ⟨hne, -⟩ := h.entry hctx
  obtain ⟨-, hpos, hlt⟩ := h.isOpen hctx
  have hown := h.sessions fd ctx hctx
  obtain ⟨hmanager, hsize, hevents, hopen⟩ := Clients.closeClient_spec hown hlt
  obtain ⟨loop', hperform, hregistry, h'⟩ := Ae.AeEventLoop.refines_delete h.wellFormed hpos mask
  have hdelete : s.loop.aeDeleteFileEvent fd mask = some loop' := by
    obtain ⟨loop, hloop, heq⟩ := Option.map_eq_some_iff.mp hperform
    have hsame : loop = loop' := (Prod.ext_iff.mp heq).1
    rw [hloop, hsame]
  have hclosed : (s.manager.eraseSession ctx.sessionId).2 = some fd := by
    rw [SessionManager.snd_eraseSession, ← h.manager, hown]
  have hclose : s.closeClient fd ctx mask
      = .ok ⟨(s.manager.eraseSession ctx.sessionId).1,
        { loop' with kernel := loop'.kernel.closed fd }⟩ := by
    unfold Server.closeClient
    rw [hdelete]
    dsimp only
    rw [hclosed]
    rfl
  have hfds : ∀ id, (c.closeClient fd ctx).manager.fdOf id
      = if ctx.sessionId = id then none else c.manager.fdOf id := fun id =>
    SessionManager.fdOf_eraseSession
  refine ⟨_, hclose, ⟨h'.closed fd, ?_, ?_, ⟨?_, ?_⟩, fun fd' ctx' hctx' => ?_, fun id hid => ?_⟩,
    hsize, fun fd' hfd' => by rw [hevents, Function.update_of_ne hfd']⟩
  · rw [hmanager, h.manager]
  · obtain ⟨loop'', hperform', hregistry', -⟩ := Ae.AeEventLoop.refines_closed h' fd
    obtain rfl : _ = loop'' := (Prod.ext_iff.mp (Option.some.inj hperform')).1
    rw [hregistry', hregistry, h.registry]
    exact Clients.registry_close hne hmask hctx hsize hevents hopen
  · rw [hopen, Function.update_of_ne hne.symm]
    exact h.apart.1
  · rw [hevents, Function.update_of_ne hne.symm]
    exact h.apart.2
  · rw [hevents] at hctx'
    by_cases hfd : fd' = fd
    · subst hfd
      rw [Function.update_self] at hctx'
      cases hctx'
    · rw [Function.update_of_ne hfd] at hctx'
      have hown' := h.sessions fd' ctx' hctx'
      rw [hfds, if_neg, hown']
      -- another descriptor is that of another session
      intro hsame
      rw [← hsame, hown] at hown'
      exact hfd (Option.some.inj hown').symm
  · rw [hmanager, SessionManager.getCtx_eraseSession] at hid
    rw [hfds]
    split at hid
    · exact absurd rfl hid
    · rename_i hother
      rw [if_neg hother]
      exact h.known id hid

/-- **A decoder has run.** -/
theorem received (h : Follows ipfd s c) (hctx : c.loop.events fd = some ctx)
    {ctx' : DecodeContext} (hid : ctx'.sessionId = ctx.sessionId) :
    Follows ipfd { s with loop := s.loop.setClientData fd (some ctx') }
      { c with loop := c.loop.setClientData fd ctx' } := by
  obtain ⟨hne, hentry⟩ := h.entry hctx
  obtain ⟨h', hregistry⟩ :=
    Ae.AeEventLoop.setClientData_spec h.wellFormed hentry (some ctx')
  refine ⟨h', h.manager, ?_, ⟨h.apart.1, ?_⟩, fun fd' ctx'' hctx'' => ?_, h.known⟩
  · show (s.loop.setClientData fd (some ctx')).registry = _
    rw [hregistry, h.registry]
    symm
    apply Clients.registry_receive hne
    · rfl
    · rfl
    · rfl
  · exact (Function.update_of_ne hne.symm ..).trans h.apart.2
  · change Function.update c.loop.events fd (some ctx') fd' = some ctx'' at hctx''
    by_cases hfd : fd' = fd
    · subst hfd
      rw [Function.update_self] at hctx''
      obtain rfl := Option.some.inj hctx''
      rw [hid]
      exact h.sessions fd' ctx hctx
    · rw [Function.update_of_ne hfd] at hctx''
      exact h.sessions fd' ctx'' hctx''

end Follows

/-! ## Events -/

/-- **An accept goes well**: it returns a descriptor, and the next session id is not
taken. -/
def Server.AcceptsWell (ipfd : ℤ) (s : Server) (f : Fired Returns) : Prop :=
  f.fd = ipfd → f.revents.epollin = true →
    0 ≤ f.env.clientFd ∧ s.loop.kernel.isOpen f.env.clientFd = false
      ∧ s.manager.getCtx s.manager.getNextSessionCounterNumber = none

/-- What an event is for the clients, if it is for them. -/
def clientEvent (ipfd : ℤ) (f : Fired Returns) : Option ClientEvent :=
  if f.revents.epollin = false then none
  else if f.fd = ipfd then
    some (.accept f.env.clientFd (!f.env.refused) f.env.readingStrSize)
  else some (.read f.fd f.env.command)

/-- The clients take one event after the other. -/
def Clients.run (c : Clients) (events : List ClientEvent) : Option Clients :=
  events.foldlM Clients.step c

/-- **Two computations agree**: both come to states that are related, or one throws and the
other has none. -/
def Agree {Exception A B : Type} (R : A → B → Prop) (x : Except (Stop Exception) A)
    (y : Option B) : Prop :=
  match x with
  | .ok a => ∃ b, y = some b ∧ R a b
  | .error stop => (∃ e, stop = .thrown e) ∧ y = none

/-- So do two that go on from there. -/
theorem Agree.bind {Exception A B A' B' : Type} {R : A → B → Prop} {R' : A' → B' → Prop}
    {x : Except (Stop Exception) A} {y : Option B} {g : A → Except (Stop Exception) A'}
    {k : B → Option B'} (h : Agree R x y)
    (hnext : ∀ a b, x = .ok a → R a b → Agree R' (g a) (k b)) : Agree R' (x >>= g) (y >>= k) := by
  cases x with
  | error stop =>
    obtain ⟨hthrown, rfl⟩ := h
    exact ⟨hthrown, rfl⟩
  | ok a =>
    obtain ⟨b, rfl, hR⟩ := h
    exact hnext a b rfl hR

theorem Agree.mono {Exception A B : Type} {R R' : A → B → Prop} {x : Except (Stop Exception) A}
    {y : Option B} (h : Agree R x y) (hsub : ∀ a b, R a b → R' a b) : Agree R' x y := by
  cases x with
  | error stop => exact h
  | ok a =>
    obtain ⟨b, hb, hR⟩ := h
    exact ⟨b, hb, hsub a b hR⟩

/-- **An event loop that follows the clients**, of which all but some are as they were. -/
def FollowsKeeping (ipfd : ℤ) (c : Clients) (handled : List ℤ) (s' : Server) (c' : Clients) :
    Prop :=
  Follows ipfd s' c'
    ∧ ∀ fd ∉ handled, c.loop.events fd ≠ none → c'.loop.events fd = c.loop.events fd

/-- What is still to come of a batch is registered as it was. -/
theorem FollowsKeeping.registered {ipfd : ℤ} {c c' : Clients} {s' : Server} {f : Fired Returns}
    {batch : List (Fired Returns)} (h : FollowsKeeping ipfd c [f.fd] s' c')
    (hnew : f.fd ∉ batch.map Fired.fd)
    (hfds : ∀ g ∈ f :: batch, g.fd = ipfd ∨ c.loop.events g.fd ≠ none) :
    ∀ g ∈ batch, g.fd = ipfd ∨ c'.loop.events g.fd ≠ none := by
  intro g hg
  refine (hfds g (List.mem_cons_of_mem f hg)).imp_right fun hregistered => ?_
  rw [h.2 g.fd _ hregistered]
  · exact hregistered
  · intro hsame
    exact hnew (List.mem_singleton.mp hsame ▸ List.mem_map_of_mem hg)

namespace Follows

variable {ipfd : ℤ} {s : Server} {c : Clients} {f : Fired Returns} {ctx : DecodeContext}

/-- A registration has been handled. -/
theorem processEvent_of_call (h : Follows ipfd s c) {entry : Entry FileProc (Option DecodeContext)}
    {proc : FileProc} (hentry : s.loop.registry.entries f.fd = some entry)
    (hmask : entry.mask = aeReadable) (hreader : entry.reader = some proc)
    (hlost : entry.lost = false) (hin : f.revents.epollin = true) {s' : Server} {c' : Clients}
    (hcall : Server.call f.env s proc f.fd (some entry.clientData) f.revents.mask = .ok s')
    (h' : Follows ipfd s' c') (hsize : c'.loop.setsize = c.loop.setsize) :
    s.processEvent f = .ok s' := by
  obtain ⟨-, hpos, hlt⟩ := Ae.AeEventLoop.isOpen_of_entry h.wellFormed hentry hlost
  have hsize' : s.loop.setsize = c.loop.setsize := congrArg Registry.setsize h.registry
  obtain ⟨fe, hfe, hleft⟩ := h'.mask_of_lt hpos (show f.fd < c'.loop.setsize by omega)
  exact (aeProcessEvent_of_readable hentry hmask hreader hin).2 s' fe hcall hfe hleft

/-- **The listening socket is readable.** -/
theorem processEvent_accept (h : Follows ipfd s c) (hfd : f.fd = ipfd)
    (hin : f.revents.epollin = true) (hwell : s.AcceptsWell ipfd f) :
    ∃ s' c', s.processEvent f = .ok s'
      ∧ c.step (.accept f.env.clientFd (!f.env.refused) f.env.readingStrSize) = some c'
      ∧ Follows ipfd s' c'
      ∧ ∀ fd, c.loop.events fd ≠ none → c'.loop.events fd = c.loop.events fd := by
  obtain ⟨hpos, hclosed, hfresh⟩ := hwell hfd hin
  obtain ⟨s', c', haccept, hstep, h', hsize, hkeeps⟩ := h.accepted hpos hclosed hfresh
  have hentry : s.loop.registry.entries f.fd = some listenEntry := by
    rw [h.registry, hfd, Clients.registry_entries_self]
  exact ⟨s', c', h.processEvent_of_call hentry rfl rfl rfl hin haccept h' hsize, hstep, h', hkeeps⟩

/-- A client has gone. -/
theorem processEvent_close (h : Follows ipfd s c) (hctx : c.loop.events f.fd = some ctx)
    (hin : f.revents.epollin = true)
    (hread : s.readFromClient f.env f.fd (some (some ctx)) f.revents.mask
      = s.closeClient f.fd ctx f.revents.mask) :
    Agree (FollowsKeeping ipfd c [f.fd]) (s.processEvent f) (some (c.closeClient f.fd ctx)) := by
  obtain ⟨s', hclose, h', hsize, hkeeps⟩ := h.closed hctx ((mask_of_readable f.revents).2.2 hin)
  rw [h.processEvent_of_call (h.entry hctx).2 rfl rfl rfl hin (hread.trans hclose) h' hsize]
  exact ⟨_, rfl, h', fun fd hfd _ => hkeeps fd (List.ne_of_not_mem_cons hfd)⟩

/-- **A client is readable.** -/
theorem processEvent_read (h : Follows ipfd s c) (hctx : c.loop.events f.fd = some ctx)
    (hin : f.revents.epollin = true) :
    Agree (FollowsKeeping ipfd c [f.fd]) (s.processEvent f)
      (c.step (.read f.fd f.env.command)) := by
  have hstep : c.step (.read f.fd f.env.command)
      = c.readFromClient f.fd ctx f.env.command := by
    rw [Clients.step, hctx]
    exact if_pos (h.isOpen hctx).1
  rw [hstep]
  cases hcommand : f.env.command with
  | none =>
    refine h.processEvent_close hctx hin ?_
    unfold Server.readFromClient
    rw [hcommand]
  | some command =>
    cases command with
    | nil =>
      refine h.processEvent_close hctx hin ?_
      unfold Server.readFromClient
      rw [hcommand]
    | cons b command =>
      have hentry := (h.entry hctx).2
      cases hreceive : (receive ctx (b :: command)).outcome with
      | error e =>
        have hread : s.readFromClient f.env f.fd (some (some ctx)) f.revents.mask
            = .error (.thrown e) := by
          unfold Server.readFromClient
          rw [hcommand]
          dsimp only
          rw [hreceive]
        have hclients : c.readFromClient f.fd ctx (some (b :: command)) = none := by
          rw [Clients.readFromClient, hreceive]
          exact List.cons_ne_nil b command
        have hprocess : s.processEvent f = .error (.thrown e) :=
          (aeProcessEvent_of_readable hentry rfl rfl hin).1 _ hread
        rw [hprocess, hclients]
        exact ⟨⟨e, rfl⟩, rfl⟩
      | ok ctx' =>
        have hread : s.readFromClient f.env f.fd (some (some ctx)) f.revents.mask
            = .ok { s with loop := s.loop.setClientData f.fd (some ctx') } := by
          unfold Server.readFromClient
          rw [hcommand]
          dsimp only
          rw [hreceive]
        have hclients : c.readFromClient f.fd ctx (some (b :: command))
            = some { c with loop := c.loop.setClientData f.fd ctx' } := by
          rw [Clients.readFromClient, hreceive]
          exact List.cons_ne_nil b command
        have h' := h.received hctx (sessionId_receive hreceive)
        rw [h.processEvent_of_call hentry rfl rfl rfl hin hread h' rfl, hclients]
        exact ⟨_, rfl, h', fun fd hfd _ =>
          Function.update_of_ne (List.ne_of_not_mem_cons hfd) ..⟩

/-- **An event is handled.** -/
theorem processEvent (h : Follows ipfd s c)
    (hfd : f.fd = ipfd ∨ c.loop.events f.fd ≠ none) (hwell : s.AcceptsWell ipfd f) :
    Agree (FollowsKeeping ipfd c [f.fd]) (s.processEvent f)
      (c.run (clientEvent ipfd f).toList) := by
  cases hin : f.revents.epollin with
  | false =>
    have hnone : clientEvent ipfd f = none := if_pos hin
    rw [hnone]
    have hentry : ∃ entry, s.loop.registry.entries f.fd = some entry
        ∧ entry.mask = aeReadable := by
      rcases hfd with hfd | hfd
      · refine ⟨listenEntry, ?_, rfl⟩
        rw [h.registry, hfd, Clients.registry_entries_self]
      · obtain ⟨ctx, hctx⟩ := Option.ne_none_iff_exists'.mp hfd
        exact ⟨clientEntry ctx, (h.entry hctx).2, rfl⟩
    obtain ⟨entry, hentry, hmask⟩ := hentry
    have hprocess : s.processEvent f = .ok s := aeProcessEvent_of_not_readable hentry hmask hin
    rw [hprocess]
    exact ⟨c, rfl, h, fun _ _ _ => rfl⟩
  | true =>
    by_cases hlisten : f.fd = ipfd
    · have hevent : clientEvent ipfd f
          = some (.accept f.env.clientFd (!f.env.refused) f.env.readingStrSize) := by
        rw [clientEvent, hin, if_neg nofun, if_pos hlisten]
      obtain ⟨s', c', hprocess, hstep, h', hkeeps⟩ := h.processEvent_accept hlisten hin hwell
      rw [hprocess, hevent]
      refine ⟨c', ?_, h', fun fd _ => hkeeps fd⟩
      show [_].foldlM Clients.step c = some c'
      rw [List.foldlM_cons, hstep]
      rfl
    · have hevent : clientEvent ipfd f = some (.read f.fd f.env.command) := by
        rw [clientEvent, hin, if_neg nofun, if_neg hlisten]
      obtain ⟨ctx, hctx⟩ := Option.ne_none_iff_exists'.mp (hfd.resolve_left hlisten)
      have hrun : c.run [.read f.fd f.env.command] = c.step (.read f.fd f.env.command) := by
        show [_].foldlM Clients.step c = _
        rw [List.foldlM_cons]
        exact bind_pure _
      rw [hevent, Option.toList_some, hrun]
      exact h.processEvent_read hctx hin

/-- **A batch is handled**, of events for different descriptors. -/
theorem processEvents (h : Follows ipfd s c) {batch : List (Fired Returns)}
    (honce : (batch.map Fired.fd).Nodup)
    (hfds : ∀ f ∈ batch, f.fd = ipfd ∨ c.loop.events f.fd ≠ none)
    (hwell : Along (fun s f s' => s.processEvent f = .ok s')
      (fun s f => s.AcceptsWell ipfd f) s batch) :
    Agree (FollowsKeeping ipfd c (batch.map Fired.fd)) (s.processEvents batch)
      (c.run (batch.filterMap (clientEvent ipfd))) := by
  induction batch generalizing s c with
  | nil => exact ⟨c, rfl, h, fun _ _ _ => rfl⟩
  | cons f batch ih =>
    obtain ⟨hnew, honce'⟩ := List.nodup_cons.mp honce
    have hrun : c.run ((f :: batch).filterMap (clientEvent ipfd))
        = c.run (clientEvent ipfd f).toList
          >>= fun c' => c'.run (batch.filterMap (clientEvent ipfd)) := by
      have hsplit : (f :: batch).filterMap (clientEvent ipfd)
          = (clientEvent ipfd f).toList ++ batch.filterMap (clientEvent ipfd) := by
        rw [List.filterMap_cons]
        cases clientEvent ipfd f <;> rfl
      rw [hsplit]
      exact List.foldlM_append
    rw [s.processEvents_cons, hrun]
    refine (h.processEvent (hfds f List.mem_cons_self) hwell.1).bind fun s' c' hs' h' => ?_
    refine (ih h'.1 honce' (h'.registered hnew hfds) (hwell.2 s' hs')).mono
      fun s'' c'' ⟨h'', hkeeps'⟩ => ⟨h'', fun fd hfd hregistered => ?_⟩
    rw [List.map_cons, List.mem_cons, not_or] at hfd
    have hsame := h'.2 fd (fun hmem => hfd.1 (List.mem_singleton.mp hmem)) hregistered
    rw [hkeeps' fd hfd.2 (hsame ▸ hregistered), hsame]

/-- What the kernel reports is registered. -/
theorem of_reports (h : Follows ipfd s c) {batch : List (Fired Returns)}
    (hreports : s.loop.kernel.Reports batch) :
    ∀ f ∈ batch, f.fd = ipfd ∨ c.loop.events f.fd ≠ none := by
  intro f hf
  refine or_iff_not_imp_left.mpr fun hne hnone => hreports.watched f hf ?_
  rw [Ae.AeEventLoop.interest_registry h.wellFormed, h.registry,
    Clients.registry_entries_of_ne hne, hnone]
  rfl

end Follows

/-! ## Runs -/

/-- **What comes of a run is possible**: the kernel reports what is watched, and accepts go
well. -/
def Server.Feasible (ipfd : ℤ) (s : Server) (batch : List (Fired Returns)) : Prop :=
  s.loop.kernel.Reports batch
    ∧ Along (fun s f s' => s.processEvent f = .ok s') (fun s f => s.AcceptsWell ipfd f) s batch

namespace Follows

variable {ipfd : ℤ} {s : Server} {c : Clients}

/-- **One batch after the other.** -/
theorem main (h : Follows ipfd s c) {batches : List (List (Fired Returns))}
    (hfeasible : Along (fun s batch s' => s.processEvents batch = .ok s')
      (fun s batch => s.Feasible ipfd batch) s batches) :
    Agree (Follows ipfd) (s.main batches)
      (c.run (batches.flatten.filterMap (clientEvent ipfd))) := by
  induction batches generalizing s c with
  | nil => exact ⟨c, rfl, h⟩
  | cons batch batches ih =>
    obtain ⟨⟨hreports, hwell⟩, hrest⟩ := hfeasible
    have hrun : c.run ((batch :: batches).flatten.filterMap (clientEvent ipfd))
        = c.run (batch.filterMap (clientEvent ipfd))
          >>= fun c' => c'.run (batches.flatten.filterMap (clientEvent ipfd)) := by
      rw [List.flatten_cons, List.filterMap_append]
      exact List.foldlM_append
    rw [s.main_cons, hrun]
    exact (h.processEvents hreports.once (h.of_reports hreports) hwell).bind
      fun s' c' hs' ⟨h', _⟩ => ih h' (hrest s' hs')

end Follows

namespace Server

variable {setsize : ℕ} {memory : ℕ → AeFileEvent FileProc (Option DecodeContext)} {ipfd : ℤ}
  {sessionCounter : Int32}

/-- **The event loop starts** with its listening socket and no clients. -/
theorem exists_run (hpos : 0 ≤ ipfd) (hlt : ipfd < setsize)
    (memory : ℕ → AeFileEvent FileProc (Option DecodeContext)) (sessionCounter : Int32) :
    ∃ s, run setsize memory ipfd sessionCounter = some s
      ∧ Follows ipfd s (Clients.start setsize sessionCounter) := by
  obtain ⟨loop, hperform, hregistry, h⟩ :=
    Ae.AeEventLoop.refines_create
      (.aeCreateEventLoop setsize memory fun fd => fd = ipfd) hpos aeReadable_ne_aeNone
      FileProc.acceptTcpHandler none false
  have hadmits : (Registry.new setsize fun fd => fd = ipfd :
      Registry FileProc (Option DecodeContext)).Admits ipfd false :=
    ⟨hlt, decide_eq_true rfl, rfl⟩
  rw [Ae.AeEventLoop.registry_aeCreateEventLoop, Registry.perform_create_of_admits hadmits]
    at hperform hregistry
  have hrun : run setsize memory ipfd sessionCounter = some ⟨.new sessionCounter, loop⟩ := by
    unfold run
    change Ae.AeEventLoop.aeCreateFileEvent _ _ _ _ _ _ = _ at hperform
    rw [hperform]
  refine ⟨_, hrun, h, rfl, ?_, ⟨rfl, rfl⟩, fun _ _ hctx => (nomatch hctx),
    fun id hid => absurd (show (Clients.start setsize sessionCounter).manager.getCtx id = none from
      Std.TreeMap.getElem?_emptyc) hid⟩
  refine hregistry.trans (Registry.ext rfl (funext fun fd => ?_) (funext fun fd => ?_))
  · show decide (fd = ipfd) = Function.update (fun _ => false) ipfd true fd
    rw [Function.update_apply]
    split
    · rename_i hfd
      exact decide_eq_true hfd
    · rename_i hfd
      exact decide_eq_false hfd
  · show Function.update (fun _ => none) ipfd
        (some (Entry.add none aeReadable .acceptTcpHandler none)) fd
      = Function.update (fun _ => none) ipfd (some listenEntry) fd
    rfl

/-- **The event loop does what its clients do**: through every run of batches, whatever is
reported, accepted and read, it comes to the sessions, registrations and decoders that come
of handling the readable events one by one, or ends with the exception that ends this; no
access is outside of the array, and the table stays well formed. -/
theorem refines_clients (hpos : 0 ≤ ipfd) (hlt : ipfd < setsize)
    {s : Server} (hrun : run setsize memory ipfd sessionCounter = some s)
    {batches : List (List (Fired Returns))}
    (hfeasible : Along (fun s batch s' => s.processEvents batch = .ok s')
      (fun s batch => s.Feasible ipfd batch) s batches) :
    Agree (Follows ipfd) (s.main batches)
      ((Clients.start setsize sessionCounter).run
        (batches.flatten.filterMap (clientEvent ipfd))) := by
  obtain ⟨s', hrun', h⟩ := exists_run hpos hlt memory sessionCounter
  obtain rfl := Option.some.inj (hrun.symm.trans hrun')
  exact h.main hfeasible

/-! A client leaves, and in the same batch another gets its descriptor. -/

/-- Memory that has been cleared. -/
def cleared (_ : ℕ) : AeFileEvent FileProc (Option DecodeContext) := ⟨aeNone, none, none, none⟩

/-- Descriptor 3 is readable, and `accept` returns 4. -/
def acceptFour : Fired Returns where
  fd := 3
  revents := ⟨true, false, false, false⟩
  env := ⟨4, false, 0, none⟩

/-- Descriptor 4 has been hung up. -/
def leaveFour : Fired Returns where
  fd := 4
  revents := ⟨true, false, false, true⟩
  env := ⟨-1, false, 0, some []⟩

theorem feasible_reaccept {s : Server} (hrun : run 8 cleared 3 0 = some s) :
    Along (fun s batch s' => s.processEvents batch = .ok s')
      (fun s batch => s.Feasible 3 batch) s [[acceptFour], [leaveFour, acceptFour]] := by
  obtain rfl : _ = s := Option.some.inj (show some _ = some s from hrun)
  refine ⟨⟨⟨by decide, by simp [acceptFour]; exact nofun⟩, fun _ _ => ⟨by decide, rfl, rfl⟩,
    fun _ _ => trivial⟩, fun s₁ hs₁ => ?_⟩
  obtain rfl : _ = s₁ := Except.ok.inj (show Except.ok _ = Except.ok s₁ from hs₁)
  refine ⟨⟨⟨by decide, by simp [acceptFour, leaveFour]; exact ⟨nofun, nofun⟩⟩,
    fun hfd => absurd hfd (by decide), fun s₂ hs₂ => ?_⟩, fun _ _ => trivial⟩
  obtain rfl : _ = s₂ := Except.ok.inj (show Except.ok _ = Except.ok s₂ from hs₂)
  exact ⟨fun _ _ => ⟨by decide, rfl, rfl⟩, fun _ _ => trivial⟩

theorem refines_clients_reaccept :
    ∃ s, run 8 cleared 3 0 = some s
      ∧ Agree (Follows 3) (s.main [[acceptFour], [leaveFour, acceptFour]])
        ((Clients.start 8 0).run [.accept 4 true 0, .read 4 (some []), .accept 4 true 0]) :=
  ⟨_, rfl, refines_clients (by decide) (by decide) rfl (feasible_reaccept rfl)⟩

/-- **An event is for the registration it was reported for**: when its turn comes, its
descriptor is registered as it was when the kernel was asked, whatever the events before it
have closed and accepted. -/
theorem entries_of_batch (hpos : 0 ≤ ipfd) (hlt : ipfd < setsize)
    {s s' s'' : Server} (hrun : run setsize memory ipfd sessionCounter = some s)
    (batches : List (List (Fired Returns))) (before after : List (Fired Returns))
    (f : Fired Returns)
    (hfeasible : Along (fun s batch s' => s.processEvents batch = .ok s')
      (fun s batch => s.Feasible ipfd batch) s (batches ++ [before ++ f :: after]))
    (hmain : s.main batches = .ok s') (hbefore : s'.processEvents before = .ok s'') :
    s''.loop.registry.entries f.fd = s'.loop.registry.entries f.fd := by
  obtain ⟨s₀, hrun', h₀⟩ := exists_run hpos hlt memory sessionCounter
  obtain rfl := Option.some.inj (hrun.symm.trans hrun')
  -- the state in which the kernel is asked
  have hagree := h₀.main (along_of_append hfeasible)
  rw [hmain] at hagree
  obtain ⟨c', -, h'⟩ := hagree
  obtain ⟨⟨hreports, hwell⟩, -⟩ := along_append hfeasible hmain
  have hfds := h'.of_reports hreports
  have honce := hreports.once
  rw [List.map_append, List.nodup_append] at honce
  -- the state after the events before
  have hagree' := h'.processEvents honce.1
    (fun g hg => hfds g (List.mem_append_left _ hg)) (along_of_append hwell)
  rw [hbefore] at hagree'
  obtain ⟨c'', -, h'', hkeeps⟩ := hagree'
  rw [h''.registry, h'.registry]
  by_cases hfd : f.fd = ipfd
  · rw [hfd, Clients.registry_entries_self, Clients.registry_entries_self]
  · have hregistered := (hfds f (List.mem_append_right _ List.mem_cons_self)).resolve_left hfd
    rw [Clients.registry_entries_of_ne hfd, Clients.registry_entries_of_ne hfd, hkeeps f.fd _
      hregistered]
    exact fun hmem => honce.2.2 _ hmem _ (List.mem_map_of_mem List.mem_cons_self) rfl

theorem entries_of_batch_reaccept :
    ∃ s s' s'', run 8 cleared 3 0 = some s ∧ s.main [[acceptFour]] = .ok s'
      ∧ s'.processEvents [leaveFour] = .ok s''
      ∧ s''.loop.registry.entries 3 = s'.loop.registry.entries 3 :=
  ⟨_, _, _, rfl, rfl, rfl, @entries_of_batch 8 cleared 3 0 (by decide) (by decide) _ _ _ rfl
    [[acceptFour]] [leaveFour] [] acceptFour (feasible_reaccept rfl) rfl rfl⟩

end Server

end LogcabinRedisProxy
