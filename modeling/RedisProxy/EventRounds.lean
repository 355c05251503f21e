import RedisProxy.EventBatches
import RedisProxy.TimerWaits

/-!
# Rounds of the event loop

A round of `aeMain` is a call of `aeProcessEvents`: it looks for the nearest timer, asks the
kernel for a batch of events and goes through it, and then goes through the timers.

Clients and timers do not disturb each other: the rounds come to what the batches come
to and what the passes through the timers come to, side by side
(`Server.rounds_eq_batches_passes`). Nothing in the proxy creates a timer. So its rounds are
the batches it gets, and the kernel is asked to wait forever in each
(`Server.rounds_eq_main`).
-/

namespace Ae

open Runs

/-- What the environment contributes to a round. -/
structure Round (Env Proc Data : Type) where
  /-- What the clock shows as the timeout is computed. -/
  now : Time
  /-- What `epoll_wait` reports. -/
  batch : List (Fired Env)
  /-- What `time` returns afterwards. -/
  time : ℤ
  /-- What is contributed to the pass through the timers. -/
  turns : List (Turn Proc Data)

/-- The pass of a round. -/
def Round.pass {Env Proc Data : Type} (r : Round Env Proc Data) : TimeStep Proc Data :=
  .pass r.time r.turns

variable {Proc Data Env S Exception TimeProc TimeData : Type} [DecidableEq Proc]

section

variable (loopOf : S → AeEventLoop Proc Data) (timersOf : S → TimeLoop TimeProc TimeData)
  (setTimers : S → TimeLoop TimeProc TimeData → S)
  (call : Env → S → Proc → ℤ → Option Data → Mask → Except (Stop Exception) S)

/-- The end of `aeProcessEvents`: the time events. -/
def aeProcessTimers (flags : Flags) (s : S) (r : Round Env TimeProc TimeData) :
    Except (Stop Exception) S :=
  if Mask.has flags aeTimeEvents then
    match (timersOf s).processTimeEvents r.time r.turns with
    | none => .error .undefined
    | some (timers, _) => .ok (setTimers s timers)
  else .ok s

/-- **`aeProcessEvents`, with the time events.** Their callbacks change the timers and nothing
else. -/
def aeProcessRound (flags : Flags) (s : S) (r : Round Env TimeProc TimeData) :
    Except (Stop Exception) S :=
  match (timersOf s).pollTimeout (loopOf s).maxfd flags r.now with
  | none => .error .undefined
  | some none => aeProcessTimers timersOf setTimers flags s r
  | some (some _) => do
    let s ← aeProcessEvents loopOf call s r.batch
    aeProcessTimers timersOf setTimers flags s r

end

/-! ## The timers -/

namespace TimeLoop

variable {timers : TimeLoop TimeProc TimeData}

/-- The kernel is asked in every round. -/
theorem Holds.exists_pollTimeout {xs : List (ℕ × AeTimeEvent TimeProc TimeData)} {lost : List ℕ}
    (h : timers.Holds xs lost) (maxfd : ℤ) (now : Time) :
    ∃ timeout, timers.pollTimeout maxfd aeAllEvents now = some (some timeout) := by
  unfold TimeLoop.pollTimeout tvp shortest
  rw [if_neg (by decide), if_pos (Or.inr (by decide)), if_pos (by decide), h.aeSearchNearestTimer]
  cases xs.argmin fun x => toLex (x.2.whenSec, x.2.whenMs) with
  | none => exact ⟨_, rfl⟩
  | some nearest => exact ⟨_, rfl⟩

/-- **Without timers the kernel is to wait forever.** -/
theorem pollTimeout_of_none (h : timers.timeEventHead = none) (maxfd : ℤ) (now : Time) :
    timers.pollTimeout maxfd aeAllEvents now = some (some (-1)) := by
  have hnearest : timers.aeSearchNearestTimer = some none := by
    unfold aeSearchNearestTimer
    rw [h]
    cases timers.rounds with
    | zero => rfl
    | succ k => rfl
  unfold pollTimeout tvp shortest
  rw [if_neg (by decide), if_pos (Or.inr (by decide)), if_pos (by decide), hnearest]
  rfl

/-- **Without timers a pass notes the time.** -/
theorem processTimeEvents_of_none (h : timers.timeEventHead = none) (now : ℤ)
    (turns : List (Turn TimeProc TimeData)) :
    timers.processTimeEvents now turns = some ({ timers with lastTime := now }, []) := by
  have hskew : timers.detectSkew now = some timers := by
    obtain ⟨nextId, lastTime, head, memory⟩ := timers
    obtain rfl : head = none := h
    have hmodify : ∀ k,
        LinkedList.modifyCells AeTimeEvent.forceDue k none memory = some memory := by
      intro k
      cases k with
      | zero => rfl
      | succ k => rfl
    unfold detectSkew
    split
    · rw [hmodify]
      rfl
    · rfl
  unfold processTimeEvents
  rw [hskew, Option.bind_eq_bind, Option.bind_some]
  dsimp only
  rw [h]
  cases turns with
  | nil => rfl
  | cons turn turns => rfl

end TimeLoop

/-! ## Callbacks that know nothing of timers -/

section

variable (loopOf : S → AeEventLoop Proc Data)
  (call : Env → S → Proc → ℤ → Option Data → Mask → Except (Stop Exception) S)

/-- The callback leaves the timers alone. -/
def untimed (env : Env) (s : S × TimeLoop TimeProc TimeData) (proc : Proc) (fd : ℤ)
    (clientData : Option Data) (mask : Mask) :
    Except (Stop Exception) (S × TimeLoop TimeProc TimeData) :=
  (call env s.1 proc fd clientData mask).map fun s' => (s', s.2)

/-- An event is handled as without timers. -/
theorem aeProcessEvent_untimed (s : S) (timers : TimeLoop TimeProc TimeData) (f : Fired Env) :
    aeProcessEvent (fun s => loopOf s.1) (untimed call) (s, timers) f
      = (aeProcessEvent loopOf call s f).map fun s' => (s', timers) := by
  have hcallback : ∀ (s : S) (proc : Option Proc) (clientData : Option Data),
      callback (untimed call) f.env (s, timers) proc f.fd clientData f.revents.mask
        = (callback call f.env s proc f.fd clientData f.revents.mask).map
          fun s' => (s', timers) := by
    intro s proc clientData
    cases proc with
    | none => rfl
    | some proc => rfl
  have hwritable : ∀ (s : S) (rfired : Bool) (fe : AeFileEvent Proc Data),
      (if Mask.has (fe.mask &&& f.revents.mask) aeWritable
            ∧ (rfired = false ∨ fe.wfileProc ≠ fe.rfileProc)
        then callback (untimed call) f.env (s, timers) fe.wfileProc f.fd fe.clientData
          f.revents.mask
        else .ok (s, timers))
        = (if Mask.has (fe.mask &&& f.revents.mask) aeWritable
              ∧ (rfired = false ∨ fe.wfileProc ≠ fe.rfileProc)
          then callback call f.env s fe.wfileProc f.fd fe.clientData f.revents.mask
          else .ok s).map fun s' => (s', timers) := by
    intro s rfired fe
    split
    · exact hcallback s fe.wfileProc fe.clientData
    · rfl
  unfold aeProcessEvent
  dsimp only
  cases (loopOf s).fileEvent f.fd with
  | none => rfl
  | some fe =>
    dsimp only
    split
    · rw [hcallback]
      cases callback call f.env s fe.rfileProc f.fd fe.clientData f.revents.mask with
      | error e => rfl
      | ok s' =>
        dsimp only [Except.map, bind, Except.bind]
        cases (loopOf s').fileEvent f.fd with
        | none => rfl
        | some fe' => exact hwritable s' _ fe'
    · dsimp only [bind, Except.bind]
      cases (loopOf s).fileEvent f.fd with
      | none => rfl
      | some fe' => exact hwritable s _ fe'

/-- So is a batch. -/
theorem aeProcessEvents_untimed (s : S) (timers : TimeLoop TimeProc TimeData)
    (batch : List (Fired Env)) :
    aeProcessEvents (fun s => loopOf s.1) (untimed call) (s, timers) batch
      = (aeProcessEvents loopOf call s batch).map fun s' => (s', timers) := by
  unfold aeProcessEvents
  induction batch generalizing s with
  | nil => rfl
  | cons f batch ih =>
    rw [List.foldlM_cons, List.foldlM_cons, aeProcessEvent_untimed]
    cases aeProcessEvent loopOf call s f with
    | error e => rfl
    | ok s' => exact ih s'

/-- **A round is its batch and its pass.** -/
theorem aeProcessRound_eq (s : S) {timers timers' : TimeLoop TimeProc TimeData} {timeout : Int32}
    {calls : List (TimerCall TimeProc TimeData)} (r : Round Env TimeProc TimeData)
    (hpoll : timers.pollTimeout (loopOf s).maxfd aeAllEvents r.now = some (some timeout))
    (hpass : timers.processTimeEvents r.time r.turns = some (timers', calls)) :
    aeProcessRound (fun s => loopOf s.1) Prod.snd (fun s timers => (s.1, timers)) (untimed call)
        aeAllEvents (s, timers) r
      = (aeProcessEvents loopOf call s r.batch).map fun s' => (s', timers') := by
  unfold aeProcessRound
  dsimp only
  rw [hpoll, aeProcessEvents_untimed]
  dsimp only
  cases aeProcessEvents loopOf call s r.batch with
  | error e => rfl
  | ok s' =>
    show aeProcessTimers Prod.snd (fun s timers => (s.1, timers)) aeAllEvents (s', timers) r = _
    unfold aeProcessTimers
    rw [if_pos (by decide), hpass]
    rfl

end

end Ae

namespace LogcabinRedisProxy.Server

open Ae Runs

variable {TimeProc TimeData : Type}

/-- A round of the proxy's event loop. -/
def processRound (s : Server × TimeLoop TimeProc TimeData) (r : Round Returns TimeProc TimeData) :
    Except (Stop StdException) (Server × TimeLoop TimeProc TimeData) :=
  aeProcessRound (fun s => s.1.loop) Prod.snd (fun s timers => (s.1, timers)) (untimed call)
    aeAllEvents s r

/-- A round is a batch. -/
theorem processRound_eq (s : Server) {timers : TimeLoop TimeProc TimeData}
    (h : timers.timeEventHead = none) (r : Round Returns TimeProc TimeData) :
    processRound (s, timers) r
      = (s.processEvents r.batch).map fun s' => (s', { timers with lastTime := r.time }) :=
  aeProcessRound_eq loop call s r (TimeLoop.pollTimeout_of_none h s.loop.maxfd r.now)
    (TimeLoop.processTimeEvents_of_none h r.time r.turns)

/-- **The rounds of the proxy are the batches it gets**, and in each of them it asks the kernel to
wait forever. -/
theorem rounds_eq_main (s : Server) (start : ℤ) (rounds : List (Round Returns TimeProc TimeData)) :
    ∃ timers, timers.timeEventHead = none
      ∧ rounds.foldlM processRound (s, TimeLoop.aeCreateEventLoop start)
        = (s.main (rounds.map Round.batch)).map (fun s' => (s', timers))
      ∧ Along (fun s r s' => processRound s r = .ok s')
        (fun s r => s.2.pollTimeout s.1.loop.maxfd aeAllEvents r.now = some (some (-1)))
        (s, TimeLoop.aeCreateEventLoop start) rounds := by
  have hstart : (TimeLoop.aeCreateEventLoop start : TimeLoop TimeProc TimeData).timeEventHead
      = none := rfl
  generalize TimeLoop.aeCreateEventLoop start = timers at hstart
  induction rounds generalizing s timers with
  | nil => exact ⟨timers, hstart, rfl, trivial⟩
  | cons r rounds ih =>
    have hstep := processRound_eq s hstart r
    have hwait := TimeLoop.pollTimeout_of_none hstart s.loop.maxfd r.now
    rw [List.foldlM_cons, List.map_cons, main_cons, hstep]
    cases hbatch : s.processEvents r.batch with
    | error e =>
      refine ⟨timers, hstart, rfl, hwait, fun s' hs' => ?_⟩
      have hstopped := hstep.symm.trans hs'
      rw [hbatch] at hstopped
      cases hstopped
    | ok s₁ =>
      obtain ⟨timers', hnone, hrounds, hwaits⟩ :=
        ih s₁ { timers with lastTime := r.time } hstart
      refine ⟨timers', hnone, hrounds, hwait, fun s' hs' => ?_⟩
      have hdone := hstep.symm.trans hs'
      rw [hbatch] at hdone
      obtain rfl := Except.ok.inj hdone
      exact hwaits

/-- **The clients and the timers do not disturb each other**: with any timers that have been
created before, the server comes to what the batches come to, and the timers to what their passes
come to. -/
theorem rounds_eq_batches_passes (s : Server) (start : ℤ)
    {steps : List (TimeStep TimeProc TimeData)}
    (hsteps : Along TimeLoop.Next TimeLoop.Enough (TimeLoop.aeCreateEventLoop start) steps) :
    ∃ timers, steps.foldlM TimeLoop.next (TimeLoop.aeCreateEventLoop start) = some timers
      ∧ ∀ rounds : List (Round Returns TimeProc TimeData),
        Along TimeLoop.Next TimeLoop.Enough timers (rounds.map Round.pass) →
          ∃ timers', (rounds.map Round.pass).foldlM TimeLoop.next timers = some timers'
            ∧ rounds.foldlM processRound (s, timers)
              = (s.main (rounds.map Round.batch)).map fun s' => (s', timers') := by
  have hnext : ∀ (timers : TimeLoop TimeProc TimeData) (step : TimeStep TimeProc TimeData),
      (∃ xs lost, timers.Holds xs lost) → timers.Enough step →
        ∃ timers', timers.next step = some timers' ∧ (∃ xs lost, timers'.Holds xs lost) ∧ True := by
    intro timers step ⟨xs, lost, h⟩ henough
    obtain ⟨timers', hnext, hholds, -⟩ := h.next henough
    exact ⟨timers', hnext, hholds, trivial⟩
  obtain ⟨timers, htimers, hholds, -⟩ := exists_run_of_along (Q := fun _ _ => True) hnext
    ⟨[], [], TimeLoop.holds_aeCreateEventLoop start⟩ hsteps
  refine ⟨timers, htimers, fun rounds henough => ?_⟩
  clear htimers hsteps
  induction rounds generalizing s timers with
  | nil => exact ⟨timers, rfl, rfl⟩
  | cons r rounds ih =>
    obtain ⟨timers₁, hpass, hholds₁, -⟩ := hnext timers r.pass hholds henough.1
    obtain ⟨⟨timers₂, calls⟩, hcalls, hfst⟩ := Option.map_eq_some_iff.mp hpass
    obtain rfl : timers₂ = timers₁ := hfst
    obtain ⟨xs, lost, h⟩ := hholds
    obtain ⟨timeout, hpoll⟩ := h.exists_pollTimeout s.loop.maxfd r.now
    have hstep : processRound (s, timers) r
        = (s.processEvents r.batch).map fun s' => (s', timers₂) :=
      aeProcessRound_eq loop call s r hpoll hcalls
    have hlater := henough.2 timers₂ hpass
    rw [List.map_cons, List.map_cons, List.foldlM_cons, List.foldlM_cons, main_cons, hpass, hstep]
    cases s.processEvents r.batch with
    | error e =>
      obtain ⟨timers', htimers', -⟩ := ih s timers₂ hholds₁ hlater
      exact ⟨timers', htimers', rfl⟩
    | ok s₁ => exact ih s₁ timers₂ hholds₁ hlater

/-- Descriptor 3 is readable, and `accept` returns 5. -/
def acceptFive : Fired Returns where
  fd := 3
  revents := ⟨true, false, false, false⟩
  env := ⟨5, false, 0, none⟩

/-- Descriptor 5 is readable, and the beginning of a request is read. -/
def readFive : Fired Returns where
  fd := 5
  revents := ⟨true, false, false, false⟩
  env := ⟨-1, false, 0, some (Bytes.ofString "*2")⟩

/-- A second client comes, and later it sends something and the first one leaves, and after every
batch there is a pass through the timers. -/
def twoRounds : List (Round Returns Unit Unit) :=
  [⟨⟨0, 0⟩, [acceptFive], 1, [TimeLoop.turnAt 1 [], TimeLoop.turnAt 1 []]⟩,
    ⟨⟨1, 0⟩, [readFive, leaveFour], 2, [TimeLoop.turnAt 2 [], TimeLoop.turnAt 2 []]⟩]

/-- The second client stays. -/
theorem keys_twoRounds : ((run 8 cleared 3 0).bind fun s =>
    (s.processEvents [acceptFour]).toOption.bind fun s₁ =>
      (s₁.main (twoRounds.map Round.batch)).toOption).map (fun s => s.manager.ctxMap.keys)
        = some [2] := by decide +kernel

theorem eq_ok_of_toOption {r : Except (Stop StdException) Server} {s : Server}
    (h : r.toOption = some s) : r = .ok s := by
  cases r with
  | error e => cases h
  | ok s' => exact congrArg Except.ok (Option.some.inj h)

/-- Both timers have had their turns then. -/
theorem rounds_eq_batches_passes_twoRounds :
    ∃ s s₁ s₂ timers timers', run 8 cleared 3 0 = some s ∧ s.processEvents [acceptFour] = .ok s₁
      ∧ s₁.main (twoRounds.map Round.batch) = .ok s₂ ∧ s₂.manager.ctxMap.keys = [2]
      ∧ TimeLoop.createTwo.foldlM TimeLoop.next (TimeLoop.aeCreateEventLoop 0) = some timers
      ∧ (twoRounds.map Round.pass).foldlM TimeLoop.next timers = some timers'
      ∧ twoRounds.foldlM processRound (s₁, timers) = .ok (s₂, timers') := by
  obtain ⟨s₂, hbinds, hkeys⟩ := Option.map_eq_some_iff.mp keys_twoRounds
  obtain ⟨s, hs, hbind⟩ := Option.bind_eq_some_iff.mp hbinds
  obtain ⟨s₁, hs₁, hs₂⟩ := Option.bind_eq_some_iff.mp hbind
  replace hs₁ := eq_ok_of_toOption hs₁
  replace hs₂ := eq_ok_of_toOption hs₂
  have hsteps : Along TimeLoop.Next TimeLoop.Enough (TimeLoop.aeCreateEventLoop 0)
      TimeLoop.createTwo := ⟨trivial, fun _ _ => ⟨trivial, fun _ _ => trivial⟩⟩
  obtain ⟨timers, htimers, hrounds⟩ := rounds_eq_batches_passes s₁ 0 hsteps
  obtain ⟨timers₀, htimers₀, h⟩ := TimeLoop.exists_createTwo
  obtain rfl := Option.some.inj (htimers₀.symm.trans htimers)
  obtain ⟨timers', hpasses, hround⟩ := hrounds twoRounds
    ⟨h.enough_iff.mpr le_rfl, fun timers₁ hnext => ⟨(h.of_next hnext
      TimeLoop.takes_createTwo).enough_iff.mpr le_rfl, fun _ _ => trivial⟩⟩
  rw [hs₂] at hround
  exact ⟨s, s₁, s₂, timers₀, timers', hs, hs₁, hs₂, hkeys, htimers, hpasses, hround⟩

end LogcabinRedisProxy.Server
