import RedisProxy.Delivery
import RedisProxy.EventBatches
import RedisProxy.Isolation

/-!
# The event loop among the workers

`Clients` is the thread of the event loop alone, `Server` is that thread with the table
and the batches it really has, and the proxy is that thread among the workers of two
pools. The workers do not come in its way: whatever they do, the event loop of the proxy
has the sessions, descriptors, registrations and decoders that `Clients` has after the
same events, and is left by an exception when `Clients` is (`agrees_of_eventTrace`). And
what the event loop does with its batches is a run of the proxy
(`exists_trace_of_batches`), so that what holds in all of these holds of it.

A read is one event of `Clients`. In the proxy the decoder makes its calls one at a time,
and until it has returned, the workers may take steps; the decoder it will leave is
determined from the beginning (`decoderOf`).
-/

namespace LogcabinRedisProxy

open Bytes SimpleResp

namespace SessionManager

/-- The table without a session, whose context has reached its end. -/
def without (m : SessionManager) (p : ℕ) (sessionId : Int32) : SessionManager where
  sessionCounter := m.sessionCounter
  ctxMap := m.ctxMap.erase sessionId
  ctxs := m.ctxs.modify p SessionCtx.reachEof

theorem eraseSession_of_entry {m : SessionManager} {sessionId : Int32} {p : ℕ} {fd : ℤ}
    (hentry : m.ctxMap[sessionId]? = some p) (hfd : m.fdAt p = some fd) :
    m.eraseSession sessionId = (m.without p sessionId, some fd) := by
  unfold eraseSession
  rw [hentry]
  exact congrArg _ hfd

end SessionManager

namespace Proxy

/-! ## The same clients -/

/-- The decoder of a connection, or what it will be when it has returned. -/
def decoderOf (s : Proxy) (p : ℕ) (conn : Connection) : DecodeContext :=
  match s.loop with
  | .decoding q _ (.ok decoder) => if q = p then decoder else conn.decoder
  | _ => conn.decoder

/-- **A connection is registered** at its descriptor, in the table, and with its
decoder. -/
structure Registered (c : Clients) (s : Proxy) (fd : ℤ) (p : ℕ) (conn : Connection) : Prop where
  connection : s.connections[p]? = some conn
  descriptor : conn.fd = fd
  registered : conn.registered = true
  session : s.manager.ctxMap[conn.decoder.sessionId]? = some p
  isOpen : c.descriptors fd = true
  decoder : c.loop.events fd = some (s.decoderOf p conn)

/-- **The event loop of the proxy has the clients that `Clients` has.** -/
structure SameClients (setsize : ℤ) (c : Clients) (s : Proxy) : Prop where
  size : c.loop.setsize = setsize
  counter : c.manager.sessionCounter = s.manager.sessionCounter
  table : c.manager.ctxMap = s.manager.ctxMap
  fds : c.manager.ctxs.map SessionCtx.fd = s.connections.map Connection.fd
  contexts : s.manager.ctxs.map SessionCtx.fd = s.connections.map Connection.fd
  closed : ∀ fd, s.descriptors fd = none → c.descriptors fd = false ∧ c.loop.events fd = none
  opened : ∀ fd p, s.descriptors fd = some p → fd < setsize ∧ ∃ conn, Registered c s fd p conn
  loop : ∀ p calls decoder, s.loop = .decoding p calls (.ok decoder) →
    ∃ conn, s.connections[p]? = some conn ∧ decoder.sessionId = conn.decoder.sessionId

/-- The event loop has been left by an exception, or will be. -/
def Doomed (s : Proxy) : Prop :=
  s.loop = .terminated ∨ ∃ p calls e, s.loop = .decoding p calls (.error e)

/-- **The event loop of the proxy does what `Clients` does**: it has its clients, or has
come to an exception as well. -/
def Agrees (setsize : ℤ) (s : Proxy) : Option Clients → Prop
  | none => s.Doomed
  | some c => ¬ s.Doomed ∧ SameClients setsize c s

/-- An accept gets a descriptor that fits into the event loop, and a session id that is
not taken. -/
def Fits (setsize : ℤ) (s : Proxy) : Label → Prop
  | .accept fd _ =>
    fd < setsize ∧ s.manager.ctxMap[s.manager.getNextSessionCounterNumber]? = none
  | _ => True

/-- What a step is for the clients. -/
def clientEvents (s : Proxy) : Label → List ClientEvent
  | .accept fd readingStrSize => [.accept fd true readingStrSize]
  | .read p command => (s.fdOf p).toList.map fun fd => .read fd (some command)
  | .disconnect p => (s.fdOf p).toList.map fun fd => .read fd none
  | _ => []

/-- **A run of the proxy**, of which what it is for the clients is kept. -/
def EventTrace (setsize : ℤ) : Proxy → List (List ClientEvent) → Proxy → Prop :=
  LabelledPath fun s events s' => ∃ l, s.Fits setsize l ∧ Step s l s' ∧ events = s.clientEvents l

variable {setsize : ℤ} {c c' : Clients} {s s' : Proxy} {fd : ℤ} {p : ℕ} {conn : Connection}
  {l : Label}

theorem decoderOf_waiting (h : s.loop = .waiting) (p : ℕ) (conn : Connection) :
    s.decoderOf p conn = conn.decoder := by
  unfold decoderOf
  rw [h]

theorem decoderOf_decoding_self {calls : List HandlerCall} {decoder : DecodeContext}
    (h : s.loop = .decoding p calls (.ok decoder)) (conn : Connection) :
    s.decoderOf p conn = decoder := by
  unfold decoderOf
  rw [h]
  exact if_pos rfl

theorem decoderOf_decoding_of_ne {q : ℕ} {calls : List HandlerCall} {decoder : DecodeContext}
    (h : s.loop = .decoding q calls (.ok decoder)) (hq : q ≠ p) (conn : Connection) :
    s.decoderOf p conn = conn.decoder := by
  unfold decoderOf
  rw [h]
  exact if_neg hq

theorem fdOf_watches (hw : s.Watches p conn) : s.fdOf p = some conn.fd := by
  unfold fdOf
  rw [hw.1]
  rfl

theorem clientEvents_read (hw : s.Watches p conn) (command : Bytes) :
    s.clientEvents (.read p command) = [.read conn.fd (some command)] :=
  congrArg (fun fd : Option ℤ => fd.toList.map fun fd => ClientEvent.read fd (some command))
    (fdOf_watches hw)

theorem clientEvents_disconnect (hw : s.Watches p conn) :
    s.clientEvents (.disconnect p) = [.read conn.fd none] :=
  congrArg (fun fd : Option ℤ => fd.toList.map fun fd => ClientEvent.read fd none)
    (fdOf_watches hw)

theorem sameClients_start (setsize : ℤ) (sessionCounter : Int32) :
    SameClients setsize (Clients.start setsize sessionCounter) (start sessionCounter) where
  size := rfl
  counter := rfl
  table := rfl
  fds := rfl
  contexts := rfl
  closed _ _ := ⟨rfl, rfl⟩
  opened _ _ h := nomatch h
  loop _ _ _ h := nomatch h

namespace SameClients

/-- A watched connection is registered. -/
theorem of_watches (h : SameClients setsize c s) (hw : s.Watches p conn) :
    conn.fd < setsize ∧ Registered c s conn.fd p conn := by
  obtain ⟨hlt, conn', hreg⟩ := h.opened conn.fd p hw.2.2
  obtain rfl := Option.some.inj (hreg.connection.symm.trans hw.1)
  exact ⟨hlt, hreg⟩

/-- **What goes on elsewhere** does not concern the clients. -/
theorem of_elsewhere (h : SameClients setsize c s) (hconn : s'.connections = s.connections)
    (hdesc : s'.descriptors = s.descriptors)
    (hcounter : s'.manager.sessionCounter = s.manager.sessionCounter)
    (htable : s'.manager.ctxMap = s.manager.ctxMap)
    (hfds : s'.manager.ctxs.map SessionCtx.fd = s.manager.ctxs.map SessionCtx.fd)
    (hdec : s'.decoderOf = s.decoderOf)
    (hloop : ∀ p calls decoder, s'.loop = .decoding p calls (.ok decoder) →
      ∃ calls', s.loop = .decoding p calls' (.ok decoder)) : SameClients setsize c s' where
  size := h.size
  counter := h.counter.trans hcounter.symm
  table := h.table.trans htable.symm
  fds := h.fds.trans (congrArg _ hconn.symm)
  contexts := by rw [hfds, hconn, h.contexts]
  closed fd hnone := h.closed fd (hdesc ▸ hnone)
  opened fd p hsome := by
    obtain ⟨hlt, conn, hreg⟩ := h.opened fd p (hdesc ▸ hsome)
    exact ⟨hlt, conn, hconn ▸ hreg.connection, hreg.descriptor, hreg.registered,
      htable ▸ hreg.session, hreg.isOpen, hdec ▸ hreg.decoder⟩
  loop p calls decoder hd := by
    obtain ⟨calls', hd'⟩ := hloop p calls decoder hd
    rw [hconn]
    exact h.loop p calls' decoder hd'

/-- The contexts that have been made are those of the connections. -/
theorem length_eq (h : SameClients setsize c s) :
    c.manager.ctxs.length = s.connections.length
      ∧ s.manager.ctxs.length = s.connections.length := by
  have hfds := congrArg List.length h.fds
  have hcontexts := congrArg List.length h.contexts
  rw [List.length_map, List.length_map] at hfds hcontexts
  exact ⟨hfds, hcontexts⟩

/-- **A client is accepted.** -/
theorem accept (h : SameClients setsize c s) (hloop : s.loop = .waiting) (hpos : 0 ≤ fd)
    (hclosed : s.descriptors fd = none) (hlt : fd < setsize)
    (hfresh : s.manager.ctxMap[s.manager.getNextSessionCounterNumber]? = none)
    (readingStrSize : UInt64) :
    ∃ c', c.step (.accept fd true readingStrSize) = some c'
      ∧ SameClients setsize c' (s.acceptTcpHandler fd readingStrSize) := by
  obtain ⟨hnot, hnone⟩ := h.closed fd hclosed
  obtain ⟨c', hstep, hmanager, hloop', hopen⟩ :=
    Clients.exists_step_accept hpos hnot true readingStrSize
  rw [ClientEvents.register_of_lt (h.size.symm ▸ hlt), Option.getD_some] at hloop'
  obtain ⟨hlen, hlen'⟩ := h.length_eq
  have hnext : c.manager.getNextSessionCounterNumber = s.manager.getNextSessionCounterNumber :=
    congrArg (· + 1) h.counter
  have hwaiting : (s.acceptTcpHandler fd readingStrSize).loop = .waiting := hloop
  have hmap := @getElem?_acceptTcpHandler s fd readingStrSize hfresh
  have hconns := connections_acceptTcpHandler s fd readingStrSize
  have hcontexts : (s.acceptTcpHandler fd readingStrSize).manager.ctxs.map SessionCtx.fd
      = (s.acceptTcpHandler fd readingStrSize).connections.map Connection.fd := by
    show (s.manager.ctxs ++ [SessionCtx.new fd]).map SessionCtx.fd
      = (s.connections ++ [_]).map Connection.fd
    rw [List.map_append, List.map_append, h.contexts]
    rfl
  have hfds : c'.manager.ctxs.map SessionCtx.fd
      = (s.acceptTcpHandler fd readingStrSize).connections.map Connection.fd := by
    rw [hmanager]
    show (c.manager.ctxs ++ [SessionCtx.new fd]).map SessionCtx.fd
      = (s.connections ++ [_]).map Connection.fd
    rw [List.map_append, List.map_append, h.fds]
    rfl
  have htable : c'.manager.ctxMap = (s.acceptTcpHandler fd readingStrSize).manager.ctxMap := by
    rw [hmanager]
    show c.manager.ctxMap.insertIfNew c.manager.getNextSessionCounterNumber c.manager.ctxs.length
      = s.manager.ctxMap.insertIfNew s.manager.getNextSessionCounterNumber s.manager.ctxs.length
    rw [hnext, h.table, hlen, hlen']
  refine ⟨c', hstep, ?_, ?_, htable, hfds, hcontexts, fun fd' hnone' => ?_, fun fd' p hsome => ?_,
    fun p calls decoder hd => ?_⟩
  · rw [hloop']
    exact h.size
  · rw [hmanager]
    exact hnext
  · -- what is closed
    have hne : fd' ≠ fd := by
      rintro rfl
      rw [descriptors_acceptTcpHandler, if_pos rfl] at hnone'
      cases hnone'
    rw [descriptors_acceptTcpHandler, if_neg hne] at hnone'
    rw [hopen, hloop', Function.update_of_ne hne]
    exact ⟨(h.closed fd' hnone').1, (Function.update_of_ne hne ..).trans (h.closed fd' hnone').2⟩
  · by_cases hfd : fd' = fd
    · -- the new client
      subst hfd
      rw [descriptors_acceptTcpHandler, if_pos rfl] at hsome
      obtain rfl := Option.some.inj hsome
      refine ⟨hlt, _, (hconns _).trans (if_pos hlen'), rfl, rfl, ?_, ?_, ?_⟩
      · rw [hmap]
        exact if_pos rfl
      · rw [hopen, Function.update_self]
      · rw [hloop', decoderOf_waiting hwaiting, ← hnext]
        exact Function.update_self ..
    · -- the others
      rw [descriptors_acceptTcpHandler, if_neg hfd] at hsome
      obtain ⟨hlt', conn, hreg⟩ := h.opened fd' p hsome
      have hp : p ≠ s.connections.length := by
        have hconn := (List.getElem?_eq_some_iff.mp hreg.connection).1
        exact Nat.ne_of_lt hconn
      have hid : conn.decoder.sessionId ≠ s.manager.getNextSessionCounterNumber := by
        intro hid
        have hsession := hreg.session
        rw [hid, hfresh] at hsession
        cases hsession
      refine ⟨hlt', conn, (hconns p).trans ((if_neg hp).trans hreg.connection), hreg.descriptor,
        hreg.registered, ?_, ?_, ?_⟩
      · rw [hmap, if_neg hid]
        exact hreg.session
      · rw [hopen, Function.update_of_ne hfd]
        exact hreg.isOpen
      · have hdecoder := hreg.decoder
        rw [decoderOf_waiting hloop] at hdecoder
        rw [hloop', decoderOf_waiting hwaiting]
        exact (Function.update_of_ne hfd ..).trans hdecoder
  · rw [hwaiting] at hd
    cases hd

/-- A read is for the decoder of the connection. -/
theorem step_read (h : SameClients setsize c s) (hloop : s.loop = .waiting)
    (hw : s.Watches p conn) (command : Option Bytes) :
    c.step (.read conn.fd command) = c.readFromClient conn.fd conn.decoder command := by
  obtain ⟨-, hreg⟩ := h.of_watches hw
  have hdecoder := hreg.decoder
  rw [decoderOf_waiting hloop] at hdecoder
  rw [Clients.step, hdecoder]
  exact if_pos hreg.isOpen

/-- Open descriptors are those of different connections. -/
theorem ne_of_descriptors (h : SameClients setsize c s) {fd' : ℤ} {p' : ℕ}
    (hp : s.descriptors fd = some p) (hp' : s.descriptors fd' = some p') (hne : fd' ≠ fd) :
    p' ≠ p := by
  rintro rfl
  obtain ⟨-, conn, hreg⟩ := h.opened fd p' hp
  obtain ⟨-, conn', hreg'⟩ := h.opened fd' p' hp'
  obtain rfl := Option.some.inj (hreg.connection.symm.trans hreg'.connection)
  exact hne (hreg'.descriptor.symm.trans hreg.descriptor)

/-- **A client has sent something**, and its decoder returns. -/
theorem read (h : SameClients setsize c s) (hloop : s.loop = .waiting) (hw : s.Watches p conn)
    {command : Bytes} (hcommand : command ≠ []) {decoder : DecodeContext}
    (hreceive : (receive conn.decoder command).outcome = .ok decoder) :
    ∃ c', c.step (.read conn.fd (some command)) = some c'
      ∧ SameClients setsize c' (s.readFromClient p conn.decoder command) := by
  obtain ⟨-, hreg⟩ := h.of_watches hw
  have hstep : c.step (.read conn.fd (some command))
      = some { c with loop := c.loop.setClientData conn.fd decoder } := by
    rw [h.step_read hloop hw, Clients.readFromClient, hreceive]
    exact hcommand
  have hloop' : (s.readFromClient p conn.decoder command).loop
      = .decoding p (receive conn.decoder command).events (.ok decoder) :=
    congrArg (EventLoop.decoding p _) hreceive
  refine ⟨_, hstep, h.size, h.counter, h.table, h.fds, h.contexts, fun fd' hnone => ?_,
    fun fd' p' hsome => ?_, fun p' calls decoder' hd => ?_⟩
  · obtain ⟨hclosed, hnone'⟩ := h.closed fd' hnone
    have hne : fd' ≠ conn.fd := by
      rintro rfl
      cases hw.2.2.symm.trans hnone
    exact ⟨hclosed, (Function.update_of_ne hne ..).trans hnone'⟩
  · obtain ⟨hlt, conn', hreg'⟩ := h.opened fd' p' hsome
    refine ⟨hlt, conn', hreg'.connection, hreg'.descriptor, hreg'.registered, hreg'.session,
      hreg'.isOpen, ?_⟩
    by_cases hfd : fd' = conn.fd
    · subst hfd
      obtain rfl := Option.some.inj (hw.2.2.symm.trans hsome)
      rw [decoderOf_decoding_self hloop']
      exact Function.update_self ..
    · have hdecoder := hreg'.decoder
      rw [decoderOf_waiting hloop] at hdecoder
      rw [decoderOf_decoding_of_ne hloop' (h.ne_of_descriptors hw.2.2 hsome hfd).symm]
      exact (Function.update_of_ne hfd ..).trans hdecoder
  · rw [hloop'] at hd
    cases hd
    exact ⟨conn, hw.1, sessionId_receive hreceive⟩

/-- **A client has gone.** -/
theorem disconnect (h : SameClients setsize c s) (hloop : s.loop = .waiting)
    (hw : s.Watches p conn) :
    ∃ c', c.step (.read conn.fd none) = some c'
      ∧ SameClients setsize c' (s.disconnect p conn.decoder) := by
  obtain ⟨hlt, hreg⟩ := h.of_watches hw
  have hctx : c.manager.ctxMap[conn.decoder.sessionId]? = some p := h.table ▸ hreg.session
  have hcfd : c.manager.ctxs[p]?.map SessionCtx.fd = some conn.fd := by
    rw [← List.getElem?_map, h.fds, List.getElem?_map, hw.1]
    rfl
  have hsfd : s.manager.ctxs[p]?.map SessionCtx.fd = some conn.fd := by
    rw [← List.getElem?_map, h.contexts, List.getElem?_map, hw.1]
    rfl
  have hcerase := @SessionManager.eraseSession_of_entry c.manager _ _ _ hctx hcfd
  have hserase := @SessionManager.eraseSession_of_entry s.manager _ _ _ hreg.session hsfd
  have hclose : c.closeClient conn.fd conn.decoder
      = { manager := c.manager.without p conn.decoder.sessionId
          loop := ⟨c.loop.setsize, Function.update c.loop.events conn.fd none⟩
          descriptors := Function.update c.descriptors conn.fd false } := by
    unfold Clients.closeClient
    rw [hcerase, ClientEvents.unregister_of_lt (h.size.symm ▸ hlt)]
    rfl
  have hleave : s.disconnect p conn.decoder
      = { s with
          manager := s.manager.without p conn.decoder.sessionId
          connections := s.connections.modify p Connection.deleteFileEvent
          descriptors := Function.update s.descriptors conn.fd none } := by
    unfold Proxy.disconnect
    rw [hserase]
    rfl
  have hconns : (s.connections.modify p Connection.deleteFileEvent).map Connection.fd
      = s.connections.map Connection.fd :=
    map_modify_of_eq _ Connection.deleteFileEvent fun _ _ => rfl
  refine ⟨_, h.step_read hloop hw none, ?_⟩
  rw [hclose, hleave]
  refine ⟨h.size, h.counter, ?_, ?_, ?_, fun fd' hnone => ?_, fun fd' p' hsome => ?_,
    fun p' calls decoder' hd => ?_⟩
  · show c.manager.ctxMap.erase _ = s.manager.ctxMap.erase _
    rw [h.table]
  · rw [hconns, ← h.fds]
    exact map_modify_of_eq _ SessionCtx.reachEof fun _ _ => rfl
  · rw [hconns, ← h.contexts]
    exact map_modify_of_eq _ SessionCtx.reachEof fun _ _ => rfl
  · by_cases hfd : fd' = conn.fd
    · subst hfd
      exact ⟨Function.update_self .., Function.update_self ..⟩
    · obtain ⟨hclosed, hnone'⟩ := h.closed fd' ((Function.update_of_ne hfd ..).symm.trans hnone)
      exact ⟨(Function.update_of_ne hfd ..).trans hclosed,
        (Function.update_of_ne hfd ..).trans hnone'⟩
  · have hfd : fd' ≠ conn.fd := by
      rintro rfl
      cases (Function.update_self ..).symm.trans hsome
    have hsome' := (Function.update_of_ne hfd ..).symm.trans hsome
    have hp := h.ne_of_descriptors hw.2.2 hsome' hfd
    obtain ⟨hlt', conn', hreg'⟩ := h.opened fd' p' hsome'
    -- another client has another session
    have hid : conn'.decoder.sessionId ≠ conn.decoder.sessionId := fun hid =>
      hp (Option.some.inj (hreg'.session.symm.trans (hid ▸ hreg.session)))
    refine ⟨hlt', conn', ?_, hreg'.descriptor, hreg'.registered, ?_, ?_, ?_⟩
    · show (s.connections.modify p Connection.deleteFileEvent)[p']? = some conn'
      rw [List.getElem?_modify, hreg'.connection]
      exact congrArg some (if_neg hp.symm)
    · show (s.manager.ctxMap.erase conn.decoder.sessionId)[conn'.decoder.sessionId]? = some p'
      rw [Std.TreeMap.getElem?_erase, if_neg, hreg'.session]
      rw [Std.compare_eq_iff_eq]
      exact hid.symm
    · exact (Function.update_of_ne hfd ..).trans hreg'.isOpen
    · have hdecoder := hreg'.decoder
      rw [decoderOf_waiting hloop] at hdecoder
      refine ((Function.update_of_ne hfd ..).trans hdecoder).trans (congrArg some ?_)
      exact (decoderOf_waiting hloop p' conn').symm
  · cases hloop.symm.trans hd

/-- **The decoder has returned.** -/
theorem decoded (h : SameClients setsize c s) {decoder : DecodeContext}
    (hloop : s.loop = .decoding p [] (.ok decoder)) :
    SameClients setsize c (s.setDecoder p decoder) := by
  obtain ⟨conn, hconn, hid⟩ := h.loop p [] decoder hloop
  have hwaiting : (s.setDecoder p decoder).loop = .waiting := rfl
  have hconns : (s.connections.modify p (Connection.setDecoder decoder)).map Connection.fd
      = s.connections.map Connection.fd :=
    map_modify_of_eq _ (Connection.setDecoder decoder) fun _ _ => rfl
  have hget : ∀ p', (s.setDecoder p decoder).connections[p']?
      = (s.connections[p']?).map fun conn =>
        if p = p' then conn.setDecoder decoder else conn := fun p' => by
    show (s.connections.modify p (Connection.setDecoder decoder))[p']? = _
    rw [List.getElem?_modify]
    rfl
  refine ⟨h.size, h.counter, h.table, h.fds.trans hconns.symm, h.contexts.trans hconns.symm,
    h.closed, fun fd p' hsome => ?_, fun p' calls decoder' hd => ?_⟩
  · obtain ⟨hlt, conn', hreg⟩ := h.opened fd p' hsome
    by_cases hp : p = p'
    · subst hp
      obtain rfl := Option.some.inj (hconn.symm.trans hreg.connection)
      refine ⟨hlt, conn.setDecoder decoder, ?_, hreg.descriptor, hreg.registered, ?_, hreg.isOpen,
        ?_⟩
      · rw [hget, hconn]
        exact congrArg some (if_pos rfl)
      · show s.manager.ctxMap[decoder.sessionId]? = some p
        rw [hid]
        exact hreg.session
      · have hdecoder := hreg.decoder
        rw [decoderOf_decoding_self hloop] at hdecoder
        rw [hdecoder, decoderOf_waiting hwaiting]
        rfl
    · refine ⟨hlt, conn', ?_, hreg.descriptor, hreg.registered, hreg.session, hreg.isOpen, ?_⟩
      · rw [hget, hreg.connection]
        exact congrArg some (if_neg hp)
      · have hdecoder := hreg.decoder
        rw [decoderOf_decoding_of_ne hloop hp] at hdecoder
        rw [hdecoder, decoderOf_waiting hwaiting]
  · cases hwaiting.symm.trans hd

end SameClients

/-! ## What a step does for the clients -/

theorem not_doomed_of_waiting (h : s.loop = .waiting) : ¬ s.Doomed := by
  rintro (hd | ⟨p, calls, e, hd⟩)
  · cases h.symm.trans hd
  · cases h.symm.trans hd

theorem not_doomed_of_ok {calls : List HandlerCall} {decoder : DecodeContext}
    (h : s.loop = .decoding p calls (.ok decoder)) : ¬ s.Doomed := by
  rintro (hd | ⟨p, calls, e, hd⟩)
  · cases h.symm.trans hd
  · rw [h] at hd
    cases hd

/-- Without a change of the event loop there is no change of its fate. -/
theorem doomed_congr (h : s'.loop = s.loop) : s'.Doomed ↔ s.Doomed := by
  unfold Doomed
  rw [h]

/-- **An exception is the end.** -/
theorem Doomed.step (h : s.Doomed) (hs : Step s l s') : s'.Doomed := by
  cases hs with
  | accept hloop _ _ => exact absurd h (not_doomed_of_waiting hloop)
  | read hloop _ _ => exact absurd h (not_doomed_of_waiting hloop)
  | disconnect hloop _ => exact absurd h (not_doomed_of_waiting hloop)
  | decoded hloop => exact absurd h (not_doomed_of_ok hloop)
  | terminate _ => exact Or.inl rfl
  | @enqueue p c call calls outcome hloop _ =>
    rcases h with hd | ⟨q, calls', e, hd⟩
    · cases hloop.symm.trans hd
    · rw [hloop] at hd
      cases hd
      exact Or.inr ⟨p, calls, e, rfl⟩
  | _ => exact h

theorem run_singleton (c : Clients) (e : ClientEvent) : c.run [e] = c.step e := by
  unfold Clients.run
  rw [List.foldlM_cons]
  exact bind_pure _

theorem run_append (c : Clients) (events events' : List ClientEvent) :
    c.run (events ++ events') = (c.run events).bind fun c => c.run events' :=
  List.foldlM_append

/-- **A step does what `Clients` does** after the same event, or nothing for the
clients. -/
theorem Agrees.step (h : Agrees setsize s (some c)) (hfits : s.Fits setsize l)
    (hs : Step s l s') : Agrees setsize s' (c.run (s.clientEvents l)) := by
  obtain ⟨hlive, hsame⟩ := h
  have helsewhere : ∀ s' : Proxy, s'.loop = s.loop → s'.connections = s.connections →
      s'.descriptors = s.descriptors → s'.manager = s.manager →
      Agrees setsize s' (some c) := by
    intro s' hloop hconns hdesc hmanager
    refine ⟨mt (doomed_congr hloop).mp hlive, hsame.of_elsewhere hconns hdesc (by rw [hmanager])
      (by rw [hmanager]) (by rw [hmanager]) ?_ fun p calls decoder hd => ⟨calls, hloop ▸ hd⟩⟩
    unfold decoderOf
    rw [hloop]
  cases hs with
  | @accept fd readingStrSize hloop hpos hclosed =>
    obtain ⟨c', hstep, hsame'⟩ :=
      hsame.accept hloop hpos hclosed hfits.1 hfits.2 readingStrSize
    rw [show s.clientEvents (.accept fd readingStrSize) = [.accept fd true readingStrSize] from rfl,
      run_singleton, hstep]
    exact ⟨not_doomed_of_waiting hloop, hsame'⟩
  | @read p conn command hloop hw hcommand =>
    rw [clientEvents_read hw, run_singleton]
    cases hreceive : (receive conn.decoder command).outcome with
    | ok decoder =>
      obtain ⟨c', hstep, hsame'⟩ := hsame.read hloop hw hcommand.1 hreceive
      rw [hstep]
      exact ⟨not_doomed_of_ok (congrArg (EventLoop.decoding p _) hreceive), hsame'⟩
    | error e =>
      have hstep : c.step (.read conn.fd (some command)) = none := by
        rw [hsame.step_read hloop hw, Clients.readFromClient, hreceive]
        exact hcommand.1
      rw [hstep]
      exact Or.inr ⟨p, _, e, congrArg (EventLoop.decoding p _) hreceive⟩
  | @enqueue p conn call calls outcome hloop _ =>
    refine ⟨fun hd => hlive ?_, hsame.of_elsewhere rfl rfl rfl rfl rfl ?_
      fun p' calls' decoder hd => ?_⟩
    · rcases hd with hd | ⟨q, calls', e, hd⟩
      · cases hd
      · cases hd
        exact Or.inr ⟨p, _, e, hloop⟩
    · funext p' conn'
      unfold decoderOf
      rw [hloop]
      cases outcome <;> rfl
    · cases hd
      exact ⟨_, hloop⟩
  | decoded hloop => exact ⟨not_doomed_of_waiting rfl, hsame.decoded hloop⟩
  | @terminate p e hloop => exact absurd (Or.inr ⟨p, [], e, hloop⟩) hlive
  | @disconnect p conn hloop hw =>
    obtain ⟨c', hstep, hsame'⟩ := hsame.disconnect hloop hw
    rw [clientEvents_disconnect hw, run_singleton, hstep]
    exact ⟨not_doomed_of_waiting hloop, hsame'⟩
  | callTree r _ _ => exact helsewhere _ rfl rfl rfl rfl
  | sendReply _ _ => exact helsewhere _ rfl rfl rfl rfl
  | check _ => exact helsewhere _ rfl rfl rfl rfl
  | @insert before after p job ctx ctx' tr _ hctx hrun' _ =>
    refine ⟨hlive, hsame.of_elsewhere rfl rfl rfl rfl ?_ rfl
      fun p calls decoder hd => ⟨calls, hd⟩⟩
    show (s.manager.ctxs.set p ctx').map SessionCtx.fd = s.manager.ctxs.map SessionCtx.fd
    obtain ⟨hlt, rfl⟩ := List.getElem?_eq_some_iff.mp hctx
    rw [List.map_set, (exec_insertNewResponse_fd hrun').1, ← List.getElem_map SessionCtx.fd,
      List.set_getElem_self]
    rwa [List.length_map]

/-- **From clients that agree**, any run of the proxy does what `Clients` does after the
same events. -/
theorem Agrees.trace {events : List (List ClientEvent)} (h : Agrees setsize s (some c))
    (ht : EventTrace setsize s events s') : Agrees setsize s' (c.run events.flatten) := by
  refine ht.invariant (I := fun events s' => Agrees setsize s' (c.run events.flatten)) h
    fun events s₁ es s₂ h₁ ⟨l, hfits, hs, hes⟩ => ?_
  subst hes
  rw [List.flatten_concat, run_append]
  cases hc : c.run events.flatten with
  | none =>
    rw [hc] at h₁
    exact Doomed.step h₁ hs
  | some c₁ =>
    rw [hc] at h₁
    exact h₁.step hfits hs

/-- **The event loop does what it would do by itself**, whatever the workers do
meanwhile. -/
theorem agrees_of_eventTrace {sessionCounter : Int32} {events : List (List ClientEvent)}
    (ht : EventTrace setsize (start sessionCounter) events s) :
    Agrees setsize s ((Clients.start setsize sessionCounter).run events.flatten) :=
  Agrees.trace ⟨not_doomed_of_waiting rfl, sameClients_start setsize sessionCounter⟩ ht

theorem fits_overtaking (n : ℕ) : (overtaking n).Fits 8 (overtakingLabel n) := by
  match n with
  | 0 => exact ⟨by decide, rfl⟩
  | 1 | 2 | 3 | 4 | 5 | 6 | 7 | 8 | 9 | 10 | 11 => trivial
  | n + 12 => trivial

/-- A client has been accepted, what it has sent is read and dispatched, and the workers
reply. -/
theorem agrees_of_eventTrace_overtaking :
    Agrees 8 insertedLate
      ((Clients.start 8 0).run [.accept 5 true 0, .read 5 (some twoWritesText)]) := by
  have ht : EventTrace 8 (start 0) ((List.range' 0 13).map fun k =>
      (overtaking k).clientEvents (overtakingLabel k)) insertedLate :=
    LabelledPath.of_sequence (f := overtaking) 0 fun k _ hk =>
      ⟨overtakingLabel k, fits_overtaking k, step_overtaking (by omega), rfl⟩
  exact agrees_of_eventTrace ht

/-! ## From events to traces -/

/-- One step. -/
theorem EventTrace.single (setsize : ℤ) (hfits : s.Fits setsize l) (hs : Step s l s') :
    EventTrace setsize s [s.clientEvents l] s' :=
  LabelledPath.refl.step ⟨l, hfits, hs, rfl⟩

/-- The decoder makes all its calls. -/
theorem exists_enqueueAll (setsize : ℤ) {calls : List HandlerCall}
    {outcome : Except StdException DecodeContext}
    (hloop : s.loop = .decoding p calls outcome) (hconn : s.connections[p]? = some conn) :
    ∃ events s', EventTrace setsize s events s' ∧ events.flatten = []
      ∧ s'.loop = .decoding p [] outcome := by
  induction calls generalizing s with
  | nil => exact ⟨[], s, .refl, rfl, hloop⟩
  | cons call calls ih =>
    have hfirst := EventTrace.single setsize (l := .enqueue) trivial
      (Step.enqueue hloop hconn)
    obtain ⟨events, s', ht, hnone, hloop'⟩ := ih (s := { s.enqueueProcesser p
      conn.decoder.sessionId call with loop := .decoding p calls outcome }) rfl hconn
    exact ⟨_, s', hfirst.append ht, hnone, hloop'⟩

/-- A client that has sent something is read from to the end, or to an exception. -/
theorem exists_trace_read (setsize : ℤ) (hloop : s.loop = .waiting) (hw : s.Watches p conn)
    {command : Bytes} (hcommand : command ≠ [] ∧ command.length ≤ 1023) :
    ∃ events s', EventTrace setsize s events s'
      ∧ events.flatten = [.read conn.fd (some command)]
      ∧ (s'.loop = .waiting ∨ s'.loop = .terminated) := by
  have hread := EventTrace.single setsize (l := .read p command) trivial
    (Step.read hloop hw hcommand)
  rw [clientEvents_read hw] at hread
  obtain ⟨events, s', ht, hnone, hloop'⟩ := exists_enqueueAll setsize
    (s := s.readFromClient p conn.decoder command) rfl hw.1
  cases hreceive : (receive conn.decoder command).outcome with
  | ok decoder =>
    rw [hreceive] at hloop'
    have hlast := EventTrace.single setsize (l := .decoded) trivial
      (Step.decoded hloop')
    refine ⟨_, _, (hread.append ht).append hlast, ?_, Or.inl rfl⟩
    rw [List.flatten_append, List.flatten_append, hnone]
    rfl
  | error e =>
    rw [hreceive] at hloop'
    have hlast := EventTrace.single setsize (l := .decoded) trivial
      (Step.terminate hloop')
    refine ⟨_, _, (hread.append ht).append hlast, ?_, Or.inr rfl⟩
    rw [List.flatten_append, List.flatten_append, hnone]
    rfl

/-- An event that goes well: an accept gets a descriptor and a session id that are free and
is registered, and a read takes no more than the buffer holds. -/
def GoesOn (c : Clients) : ClientEvent → Prop
  | .accept fd added _ =>
    0 ≤ fd ∧ fd < c.loop.setsize ∧ c.descriptors fd = false ∧ added = true
      ∧ c.manager.getCtx c.manager.getNextSessionCounterNumber = none
  | .read fd command =>
    c.loop.events fd ≠ none ∧ ∀ bytes, command = some bytes → bytes.length ≤ 1023

/-- **The proxy can come where `Clients` does**, and to an exception where that does. -/
def Reaches (setsize : ℤ) (s : Proxy) (outcome : Option Clients) : Prop :=
  ∃ events s', EventTrace setsize s events s' ∧ match outcome with
    | none => s'.loop = .terminated
    | some c => s'.loop = .waiting ∧ SameClients setsize c s'

/-- A run that has come to wait for the next event, or to an exception, is one of the
clients. -/
theorem reaches_of_trace (h : SameClients setsize c s) (hloop : s.loop = .waiting)
    {events : List (List ClientEvent)} (ht : EventTrace setsize s events s')
    (hloop' : s'.loop = .waiting ∨ s'.loop = .terminated) :
    Reaches setsize s (c.run events.flatten) := by
  have hagrees := Agrees.trace ⟨not_doomed_of_waiting hloop, h⟩ ht
  refine ⟨events, s', ht, ?_⟩
  cases hrun : c.run events.flatten with
  | none =>
    rw [hrun] at hagrees
    exact hloop'.resolve_left fun hwaiting => not_doomed_of_waiting hwaiting hagrees
  | some c' =>
    rw [hrun] at hagrees
    exact ⟨hloop'.resolve_right fun hterminated => hagrees.1 (Or.inl hterminated), hagrees.2⟩

/-- A registered descriptor belongs to a connection that is watched. -/
theorem SameClients.exists_watches (h : SameClients setsize c s)
    (hfd : c.loop.events fd ≠ none) : ∃ p conn, s.Watches p conn ∧ conn.fd = fd := by
  cases hdesc : s.descriptors fd with
  | none => exact absurd (h.closed fd hdesc).2 hfd
  | some p =>
    obtain ⟨-, conn, hreg⟩ := h.opened fd p hdesc
    obtain rfl := hreg.descriptor
    exact ⟨p, conn, ⟨hreg.connection, hreg.registered, hdesc⟩, rfl⟩

/-- **An event of the clients is a run of the proxy.** -/
theorem reaches_step (h : SameClients setsize c s) (hloop : s.loop = .waiting) {e : ClientEvent}
    (hgoes : GoesOn c e) : Reaches setsize s (c.step e) := by
  rw [← run_singleton]
  cases e with
  | accept fd added readingStrSize =>
    obtain ⟨hpos, hlt, hclosed, rfl, hfresh⟩ := hgoes
    have hnone : s.descriptors fd = none := by
      cases hdesc : s.descriptors fd with
      | none => rfl
      | some p =>
        obtain ⟨-, conn, hreg⟩ := h.opened fd p hdesc
        exact absurd (hclosed.symm.trans hreg.isOpen) Bool.false_ne_true
    have hfresh' : s.manager.ctxMap[s.manager.getNextSessionCounterNumber]? = none := by
      rw [← h.table, ← show c.manager.getNextSessionCounterNumber
        = s.manager.getNextSessionCounterNumber from congrArg (· + 1) h.counter]
      exact hfresh
    exact reaches_of_trace h hloop
      (EventTrace.single setsize (l := .accept fd readingStrSize) ⟨h.size ▸ hlt, hfresh'⟩
        (Step.accept hloop hpos hnone)) (Or.inl hloop)
  | read fd command =>
    obtain ⟨hfd, hshort⟩ := hgoes
    obtain ⟨p, conn, hw, rfl⟩ := h.exists_watches hfd
    have hleave : Reaches setsize s (c.run [.read conn.fd none]) := by
      have ht := EventTrace.single setsize (l := .disconnect p) trivial
        (Step.disconnect hloop hw)
      rw [clientEvents_disconnect hw] at ht
      exact reaches_of_trace h hloop ht (Or.inl hloop)
    cases command with
    | none => exact hleave
    | some bytes =>
      cases bytes with
      | nil =>
        rw [run_singleton, h.step_read hloop hw] at hleave ⊢
        exact hleave
      | cons b bytes =>
        obtain ⟨events, s', ht, hevents, hloop'⟩ := exists_trace_read setsize hloop hw
          ⟨List.cons_ne_nil b bytes, hshort _ rfl⟩
        rw [← hevents]
        exact reaches_of_trace h hloop ht hloop'

/-! ## Batches -/

/-- **The proxy can come where the event loop comes with its batches**, and to an exception
where that does. -/
def Comes (setsize : ℤ) (R : Server → Clients → Prop) (s : Proxy)
    (outcome : Except (Ae.Stop StdException) Server) : Prop :=
  ∃ events s', EventTrace setsize s events s' ∧ match outcome with
    | .error _ => s'.loop = .terminated
    | .ok server => s'.loop = .waiting ∧ ∃ c, R server c ∧ SameClients setsize c s'

/-- An event the proxy can take: what is accepted fits into the event loop and is added to
it, and a read takes no more than the buffer holds. -/
def Takes (ipfd setsize : ℤ) (f : Ae.Fired Returns) : Prop :=
  (f.fd = ipfd → f.env.clientFd < setsize ∧ f.env.refused = false)
    ∧ ∀ bytes, f.env.command = some bytes → bytes.length ≤ 1023

variable {ipfd : ℤ} {R R' : Server → Clients → Prop} {server : Server} {f : Ae.Fired Returns}
  {outcome : Except (Ae.Stop StdException) Server}

theorem Comes.of_agree {outcome' : Option Clients} (h : Agree R outcome outcome')
    (hreaches : Reaches setsize s outcome') : Comes setsize R s outcome := by
  obtain ⟨events, s', ht, hs'⟩ := hreaches
  refine ⟨events, s', ht, ?_⟩
  cases outcome with
  | error stop =>
    obtain ⟨-, rfl⟩ := h
    exact hs'
  | ok server =>
    obtain ⟨c, rfl, hR⟩ := h
    exact ⟨hs'.1, c, hR, hs'.2⟩

theorem Comes.mono (h : Comes setsize R s outcome) (hsub : ∀ server c, R server c → R' server c) :
    Comes setsize R' s outcome := by
  obtain ⟨events, s', ht, hs'⟩ := h
  refine ⟨events, s', ht, ?_⟩
  cases outcome with
  | error stop => exact hs'
  | ok server =>
    obtain ⟨hloop, c, hR, hsame⟩ := hs'
    exact ⟨hloop, c, hsub server c hR, hsame⟩

/-- It goes on from where it has come. -/
theorem Comes.bind {next : Server → Except (Ae.Stop StdException) Server}
    (h : Comes setsize R s outcome)
    (hnext : ∀ server c s', outcome = .ok server → R server c → SameClients setsize c s' →
      s'.loop = .waiting → Comes setsize R' s' (next server)) :
    Comes setsize R' s (outcome >>= next) := by
  obtain ⟨events, s', ht, hs'⟩ := h
  cases outcome with
  | error stop => exact ⟨events, s', ht, hs'⟩
  | ok server =>
    obtain ⟨hloop, c, hR, hsame⟩ := hs'
    obtain ⟨events', s'', ht', hs''⟩ := hnext server c s' rfl hR hsame hloop
    exact ⟨_, s'', ht.append ht', hs''⟩

/-- **An event is handled.** -/
theorem comes_processEvent (hfollows : Follows ipfd server c) (h : SameClients setsize c s)
    (hloop : s.loop = .waiting) (hfd : f.fd = ipfd ∨ c.loop.events f.fd ≠ none)
    (hwell : server.AcceptsWell ipfd f) (htakes : Takes ipfd setsize f) :
    Comes setsize (FollowsKeeping ipfd c [f.fd]) s (server.processEvent f) := by
  refine Comes.of_agree (hfollows.processEvent hfd hwell) ?_
  unfold clientEvent
  split
  · exact ⟨[], s, .refl, hloop, h⟩
  · rename_i hin
    split
    · rename_i hlisten
      obtain ⟨hpos, hclosed, hfresh⟩ := hwell hlisten (Bool.eq_true_of_not_eq_false hin)
      obtain ⟨hlt, hadded⟩ := htakes.1 hlisten
      rw [Option.toList_some, run_singleton]
      refine reaches_step h hloop ⟨hpos, h.size.symm ▸ hlt, (hfollows.of_not_open hclosed).2.1,
        by rw [hadded]; rfl, ?_⟩
      rw [hfollows.manager]
      exact hfresh
    · rename_i hlisten
      rw [Option.toList_some, run_singleton]
      exact reaches_step h hloop ⟨hfd.resolve_left hlisten, htakes.2⟩

/-- **A batch is handled**, of events for different descriptors. -/
theorem comes_processEvents {batch : List (Ae.Fired Returns)} (hfollows : Follows ipfd server c)
    (h : SameClients setsize c s) (hloop : s.loop = .waiting)
    (honce : (batch.map Ae.Fired.fd).Nodup)
    (hfds : ∀ f ∈ batch, f.fd = ipfd ∨ c.loop.events f.fd ≠ none)
    (hwell : Runs.Along (fun server f server' => server.processEvent f = .ok server')
      (fun server f => server.AcceptsWell ipfd f) server batch)
    (htakes : ∀ f ∈ batch, Takes ipfd setsize f) :
    Comes setsize (Follows ipfd) s (server.processEvents batch) := by
  induction batch generalizing server c s with
  | nil => exact ⟨[], s, .refl, hloop, c, hfollows, h⟩
  | cons f batch ih =>
    obtain ⟨hnew, honce'⟩ := List.nodup_cons.mp honce
    obtain ⟨htake, htakes'⟩ := List.forall_mem_cons.mp htakes
    rw [server.processEvents_cons]
    exact (comes_processEvent hfollows h hloop (hfds f List.mem_cons_self) hwell.1 htake).bind
      fun server' c' s' hprocess hfollows' h' hloop' =>
        ih hfollows'.1 h' hloop' honce' (hfollows'.registered hnew hfds)
          (hwell.2 server' hprocess) htakes'

/-- **One batch after the other.** -/
theorem comes_main {batches : List (List (Ae.Fired Returns))} (hfollows : Follows ipfd server c)
    (h : SameClients setsize c s) (hloop : s.loop = .waiting)
    (hfeasible : Runs.Along (fun server batch server' => server.processEvents batch = .ok server')
      (fun server batch => server.Feasible ipfd batch) server batches)
    (htakes : ∀ batch ∈ batches, ∀ f ∈ batch, Takes ipfd setsize f) :
    Comes setsize (Follows ipfd) s (server.main batches) := by
  induction batches generalizing server c s with
  | nil => exact ⟨[], s, .refl, hloop, c, hfollows, h⟩
  | cons batch batches ih =>
    obtain ⟨⟨hreports, hwell⟩, hrest⟩ := hfeasible
    obtain ⟨htake, htakes'⟩ := List.forall_mem_cons.mp htakes
    rw [server.main_cons]
    exact (comes_processEvents hfollows h hloop hreports.once (hfollows.of_reports hreports) hwell
      htake).bind fun server' c' s' hprocess hfollows' h' hloop' =>
        ih hfollows' h' hloop' (hrest server' hprocess) htakes'

/-- **What the event loop does with its batches is a run of the proxy**, in which the
connections, sessions and decoders come to be those of the event loop. -/
theorem exists_trace_of_batches {setsize : ℕ}
    {memory : ℕ → Ae.AeFileEvent FileProc (Option DecodeContext)} {sessionCounter : Int32}
    (hpos : 0 ≤ ipfd) (hlt : ipfd < setsize)
    (hrun : Server.run setsize memory ipfd sessionCounter = some server)
    {batches : List (List (Ae.Fired Returns))}
    (hfeasible : Runs.Along (fun server batch server' => server.processEvents batch = .ok server')
      (fun server batch => server.Feasible ipfd batch) server batches)
    (htakes : ∀ batch ∈ batches, ∀ f ∈ batch, Takes ipfd setsize f) :
    Comes setsize (Follows ipfd) (start sessionCounter) (server.main batches) := by
  obtain ⟨server', hrun', hfollows⟩ := Server.exists_run hpos hlt memory sessionCounter
  obtain rfl := Option.some.inj (hrun.symm.trans hrun')
  exact comes_main hfollows (sameClients_start setsize sessionCounter) rfl hfeasible htakes

theorem exists_trace_of_batches_reaccept :
    ∃ server, Server.run 8 Server.cleared 3 0 = some server
      ∧ Comes 8 (Follows 3) (start 0)
        (server.main [[Server.acceptFour], [Server.leaveFour, Server.acceptFour]]) := by
  have haccept : Takes 3 8 Server.acceptFour := ⟨fun _ => ⟨by decide, rfl⟩, nofun⟩
  have hleave : Takes 3 8 Server.leaveFour :=
    ⟨fun hfd => absurd hfd (by decide), fun bytes hbytes => by cases hbytes; decide⟩
  refine ⟨_, rfl, exists_trace_of_batches (by decide) (by decide) rfl
    (Server.feasible_reaccept rfl) fun batch hbatch f hf => ?_⟩
  simp only [List.mem_cons, List.not_mem_nil, or_false] at hbatch
  rcases hbatch with rfl | rfl
  · exact List.mem_singleton.mp hf ▸ haccept
  · simp only [List.mem_cons, List.not_mem_nil, or_false] at hf
    rcases hf with rfl | rfl
    · exact hleave
    · exact haccept

end Proxy

end LogcabinRedisProxy
