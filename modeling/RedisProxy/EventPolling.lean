import RedisProxy.EventRegistry

/-!
# Polling

`aeMain` asks the kernel for a batch of events, and `aeProcessEvents` goes through it
and calls what is registered, looking into the table anew for each event: an earlier
one of the batch may have changed it. `aeApiPoll` has made a mask of each event, in which
an error or a hang-up counts as writable. So what is registered for reading only is
called if it is readable, with what it has been registered with, and not for anything
else (`aeProcessEvent_of_readable`, `aeProcessEvent_of_not_readable`).

The timers are left out: without them a round is a batch, and the loop sleeps until there is
one.
-/

namespace Ae

/-! ## Polling -/

/-- `events` of an `epoll_event`. -/
structure Revents where
  epollin : Bool
  epollout : Bool
  epollerr : Bool
  epollhup : Bool

/-- The mask `aeApiPoll` makes of it. -/
def Revents.mask (e : Revents) : Mask :=
  (if e.epollin then aeReadable else aeNone) ||| (if e.epollout then aeWritable else aeNone)
    ||| (if e.epollerr then aeWritable else aeNone) ||| (if e.epollhup then aeWritable else aeNone)

/-- An event that `epoll_wait` reports, with what the environment contributes to its being
handled. -/
structure Fired (Env : Type) where
  /-- `data.fd`. -/
  fd : ℤ
  /-- `events`. -/
  revents : Revents
  /-- What the calls of the callback return. -/
  env : Env

variable {Proc Data Env S Exception : Type}

/-- **What `epoll_wait` may report**: descriptors that are watched, each once. -/
structure Epoll.Reports (k : Epoll) (batch : List (Fired Env)) : Prop where
  once : (batch.map Fired.fd).Nodup
  watched : ∀ f ∈ batch, k.interest f.fd ≠ none

/-! ## Processing -/

/-- Why there is no state afterwards. -/
inductive Stop (Exception : Type) where
  /-- An access outside of an array, or through a null pointer. -/
  | undefined
  /-- An exception. -/
  | thrown (e : Exception)

section

variable [DecidableEq Proc] (loopOf : S → AeEventLoop Proc Data)
  (call : Env → S → Proc → ℤ → Option Data → Mask → Except (Stop Exception) S)

/-- A callback of an event is called. -/
def callback (env : Env) (s : S) (proc : Option Proc) (fd : ℤ) (clientData : Option Data)
    (mask : Mask) : Except (Stop Exception) S :=
  match proc with
  | none => .error .undefined
  | some proc => call env s proc fd clientData mask

/-- The body of the loop of `aeProcessEvents`. Behind `fe` is what the first callback has
left there. -/
def aeProcessEvent (s : S) (f : Fired Env) : Except (Stop Exception) S :=
  let mask := f.revents.mask
  match (loopOf s).fileEvent f.fd with
  | none => .error .undefined
  | some fe => do
    let rfired := Mask.has (fe.mask &&& mask) aeReadable
    let s ←
      if rfired then callback call f.env s fe.rfileProc f.fd fe.clientData mask else .ok s
    match (loopOf s).fileEvent f.fd with
    | none => .error .undefined
    | some fe =>
      if Mask.has (fe.mask &&& mask) aeWritable ∧ (rfired = false ∨ fe.wfileProc ≠ fe.rfileProc)
      then callback call f.env s fe.wfileProc f.fd fe.clientData mask
      else .ok s

/-- `aeProcessEvents`, with what the kernel reports. -/
def aeProcessEvents (s : S) (batch : List (Fired Env)) : Except (Stop Exception) S :=
  batch.foldlM (aeProcessEvent loopOf call) s

/-- `aeMain`, for so many rounds. -/
def aeMain (s : S) (batches : List (List (Fired Env))) : Except (Stop Exception) S :=
  batches.foldlM (aeProcessEvents loopOf call) s

end

namespace AeEventLoop

/-- What is behind the `clientData` of a descriptor has changed. -/
def setClientData (loop : AeEventLoop Proc Data) (fd : ℤ) (clientData : Data) :
    AeEventLoop Proc Data :=
  match loop.fileEvent fd with
  | none => loop
  | some fe => loop.setFileEvent fd { fe with clientData := some clientData }

variable {loop : AeEventLoop Proc Data} {fd : ℤ} {entry : Entry Proc Data}

/-- Only that has changed. -/
theorem setClientData_eq {fe : AeFileEvent Proc Data} (hfe : loop.fileEvent fd = some fe)
    (clientData : Data) :
    loop.setClientData fd clientData
      = loop.write fd { fe with clientData := some clientData } (loop.kernel.interest fd)
        loop.maxfd := by
  unfold setClientData write
  rw [hfe, Function.update_eq_self]
  rfl

theorem setClientData_spec (h : loop.WellFormed)
    (hentry : loop.registry.entries fd = some entry) (clientData : Data) :
    (loop.setClientData fd clientData).WellFormed
      ∧ (loop.setClientData fd clientData).registry
        = { loop.registry with
            entries := Function.update loop.registry.entries fd
              (some { entry with clientData := clientData }) } := by
  obtain ⟨fe, hfe, hof⟩ := Option.bind_eq_some_iff.mp hentry
  rw [setClientData_eq hfe]
  constructor
  · refine h.write hfe ?_ ⟨(h.written fd fe hfe).reader, (h.written fd fe hfe).writer,
      fun _ => rfl⟩ fun ee hee => ?_
    · have hsame : (loop.write fd { fe with clientData := some clientData }
          (loop.kernel.interest fd) loop.maxfd).maskOf = loop.maskOf := by
        funext fd'
        rw [maskOf_write hfe]
        split
        · rename_i hfd
          rw [hfd]
          exact (maskOf_of_fileEvent hfe).symm
        · rfl
      rw [hsame]
      exact h.maxfd
    · rw [← maskOf_of_fileEvent hfe]
      exact h.watched fd ee hee
  · rw [registry_write hfe]
    unfold entryOf at hof ⊢
    split at hof
    · cases hof
    · rename_i hmask
      obtain ⟨old, -, rfl⟩ := Option.map_eq_some_iff.mp hof
      rw [if_neg hmask]
      rfl

/-- What is registered and not lost is open, and inside of the array. -/
theorem isOpen_of_entry (h : loop.WellFormed) (hentry : loop.registry.entries fd = some entry)
    (hlost : entry.lost = false) :
    loop.kernel.isOpen fd = true ∧ 0 ≤ fd ∧ fd < loop.setsize := by
  have hmask : loop.maskOf fd ≠ aeNone := fun hnone =>
    nomatch (entry_eq_none hnone).symm.trans hentry
  obtain ⟨hfd, hlt, -⟩ := bounds_of_maskOf h.length hmask
  have hinterest : loop.kernel.interest fd = some (.ofMask entry.mask) := by
    rw [interest_registry h, hentry, Option.bind_some, Entry.interest, hlost]
    rfl
  exact ⟨(h.watched fd _ hinterest).1, hfd, hlt⟩

end AeEventLoop

/-- **What is registered for reading only** is called if it is readable, and nothing else
is. -/
theorem mask_of_readable (e : Revents) :
    Mask.has (aeReadable &&& e.mask) aeReadable = e.epollin
      ∧ Mask.has (aeReadable &&& e.mask) aeWritable = false
      ∧ (e.epollin = true → aeReadable &&& ~~~e.mask = aeNone) := by
  obtain ⟨epollin, epollout, epollerr, epollhup⟩ := e
  revert epollin epollout epollerr epollhup
  decide

theorem has_aeNone_and (mask event : Mask) : Mask.has (aeNone &&& mask) event = false := by
  have hzero : aeNone &&& mask = aeNone := BitVec.zero_and
  rw [hzero, Mask.has_aeNone]

section

variable [DecidableEq Proc] {loopOf : S → AeEventLoop Proc Data}
  {call : Env → S → Proc → ℤ → Option Data → Mask → Except (Stop Exception) S} {s s' : S}
  {f : Fired Env} {entry : Entry Proc Data} {proc : Proc}

/-- What is not readable is not called. -/
theorem aeProcessEvent_of_not_readable
    (hentry : (loopOf s).registry.entries f.fd = some entry) (hmask : entry.mask = aeReadable)
    (hin : f.revents.epollin = false) : aeProcessEvent loopOf call s f = .ok s := by
  obtain ⟨fe, hfe, hmask', -⟩ := AeEventLoop.exists_fileEvent_of_entry hentry
  obtain ⟨hread, hwrite, -⟩ := mask_of_readable f.revents
  unfold aeProcessEvent
  dsimp only
  rw [hfe]
  dsimp only
  rw [hmask', hmask, hread, hin, if_neg nofun]
  show (match (loopOf s).fileEvent f.fd with
    | none => _
    | some fe => _) = _
  rw [hfe]
  dsimp only
  rw [hmask', hmask, hwrite, if_neg (fun h => nomatch h.1)]

/-- **What is readable is called**, and what it was registered with is handed to it. -/
theorem aeProcessEvent_of_readable
    (hentry : (loopOf s).registry.entries f.fd = some entry) (hmask : entry.mask = aeReadable)
    (hreader : entry.reader = some proc) (hin : f.revents.epollin = true) :
    (∀ e, call f.env s proc f.fd (some entry.clientData) f.revents.mask = .error e →
        aeProcessEvent loopOf call s f = .error e)
      ∧ ∀ s' fe, call f.env s proc f.fd (some entry.clientData) f.revents.mask = .ok s' →
        (loopOf s').fileEvent f.fd = some fe → fe.mask = aeReadable ∨ fe.mask = aeNone →
          aeProcessEvent loopOf call s f = .ok s' := by
  obtain ⟨fe, hfe, hmask', hdata, hproc, -⟩ := AeEventLoop.exists_fileEvent_of_entry hentry
  obtain ⟨hread, hwrite, -⟩ := mask_of_readable f.revents
  have hproc' : fe.rfileProc = some proc := by
    rw [hproc (by rw [hmask]; decide), hreader]
  unfold aeProcessEvent callback
  dsimp only
  rw [hfe]
  dsimp only
  rw [hmask', hmask, hread, hin, if_pos rfl, hproc', hdata]
  dsimp only
  refine ⟨fun e he => ?_, fun s' fe' hs' hfe' hleft => ?_⟩
  · rw [he]
    rfl
  · rw [hs']
    show (match (loopOf s').fileEvent f.fd with
      | none => _
      | some fe => _) = _
    rw [hfe']
    dsimp only
    have hnot : Mask.has (fe'.mask &&& f.revents.mask) aeWritable = false := by
      rcases hleft with hleft | hleft
      · rw [hleft]
        exact hwrite
      · rw [hleft]
        exact has_aeNone_and f.revents.mask aeWritable
    rw [hnot, if_neg (fun h => nomatch h.1)]

end

end Ae
