import RedisProxy.TimerRuns
import Mathlib

/-!
# Waiting for a timer

Before it asks `epoll_wait` for events, `aeProcessEvents` looks for the timer that is due
first, and sleeps no longer than until then. The time is told in seconds and
milliseconds and compared as such; that is the order of time as long as there are less than a
thousand of the latter, which is kept where nothing is created for a time in the past
(`TimeStep.Proper`).

Then the wait is exact (`timeout_of_run`), as far as it fits into the `int` that
`epoll_wait` takes: after about 25 days it does not. And the loop does not wake up in vain:
when it has slept as long as it wanted to, a timer is called, or one is freed
(`wakes_of_run`).
-/

namespace Ae

open LinkedList Runs

variable {Proc Data : Type}

/-! ## The timeout -/

/-- The flags of `aeProcessEvents`. -/
abbrev Flags : Type := BitVec 32

/-- `AE_FILE_EVENTS`. -/
def aeFileEvents : Flags := 1

/-- `AE_TIME_EVENTS`. -/
def aeTimeEvents : Flags := 2

/-- `AE_ALL_EVENTS`. -/
def aeAllEvents : Flags := aeFileEvents ||| aeTimeEvents

/-- `AE_DONT_WAIT`. -/
def aeDontWait : Flags := 4

/-- `struct timeval`. -/
structure Timeval where
  /-- `tv_sec`. -/
  sec : ℤ
  /-- `tv_usec`. -/
  usec : ℤ

/-- The last argument of `epoll_wait` in `aeApiPoll`; `none` is `NULL`. It is a `long`, and becomes
an `int`. -/
def epollTimeout : Option Timeval → Int32
  | some tvp => Int32.ofInt (tvp.sec * 1000 + tvp.usec.tdiv 1000)
  | none => -1

namespace TimeLoop

/-- The timer that is waited for. -/
def shortest (loop : TimeLoop Proc Data) (flags : Flags) :
    Option (Option (ℕ × AeTimeEvent Proc Data)) :=
  if Mask.has flags aeTimeEvents ∧ ¬ Mask.has flags aeDontWait then loop.aeSearchNearestTimer
  else some none

/-- `tvp` in `aeProcessEvents`, with what the clock shows; `none` is `NULL`. -/
def tvp (loop : TimeLoop Proc Data) (flags : Flags) (now : Time) : Option (Option Timeval) := do
  match ← loop.shortest flags with
  | some shortest =>
    let ms := (shortest.2.whenSec - now.sec) * 1000 + shortest.2.whenMs - now.ms
    some (some (if ms > 0 then ⟨ms.tdiv 1000, ms.tmod 1000 * 1000⟩ else ⟨0, 0⟩))
  | none => some (if Mask.has flags aeDontWait then some ⟨0, 0⟩ else none)

/-- **How long `aeProcessEvents` lets `epoll_wait` wait**, if it calls it. -/
def pollTimeout (loop : TimeLoop Proc Data) (maxfd : ℤ) (flags : Flags) (now : Time) :
    Option (Option Int32) :=
  if ¬ Mask.has flags aeTimeEvents ∧ ¬ Mask.has flags aeFileEvents then some none
  else if maxfd ≠ -1 ∨ Mask.has flags aeTimeEvents ∧ ¬ Mask.has flags aeDontWait then
    (loop.tvp flags now).map fun tvp => some (epollTimeout tvp)
  else some none

end TimeLoop

/-! ## The order of time -/

/-- The milliseconds are those of a second. -/
def Time.Proper (t : Time) : Prop := 0 ≤ t.ms ∧ t.ms < 1000

/-- A time, in milliseconds. -/
def Time.toMs (t : Time) : ℤ := t.sec * 1000 + t.ms

/-- When a timer is due. -/
def AeTimeEvent.when (te : AeTimeEvent Proc Data) : Time := ⟨te.whenSec, te.whenMs⟩

/-- **A timer is due from its time on.** -/
theorem AeTimeEvent.isDue_iff {te : AeTimeEvent Proc Data} {now : Time} (hte : te.when.Proper)
    (hnow : now.Proper) : te.IsDue now ↔ te.when.toMs ≤ now.toMs := by
  obtain ⟨hms, hms'⟩ := hte
  obtain ⟨hnow, hnow'⟩ := hnow
  unfold AeTimeEvent.when at hms hms'
  unfold AeTimeEvent.IsDue AeTimeEvent.when Time.toMs
  dsimp only at hms hms' ⊢
  omega

/-- **It stays due.** -/
theorem AeTimeEvent.IsDue.mono {te : AeTimeEvent Proc Data} {now later : Time}
    (hdue : te.IsDue now) (hnow : now.Proper) (hlater : later.Proper)
    (hle : now.toMs ≤ later.toMs) : te.IsDue later := by
  obtain ⟨hnow, hnow'⟩ := hnow
  obtain ⟨hlater, hlater'⟩ := hlater
  unfold Time.toMs at hle
  unfold AeTimeEvent.IsDue at hdue ⊢
  omega

/-- There is a time for every number of milliseconds. -/
theorem exists_proper_toMs (ms : ℤ) : ∃ t : Time, t.Proper ∧ t.toMs = ms := by
  refine ⟨⟨ms / 1000, ms % 1000⟩, ⟨Int.emod_nonneg _ (by decide),
    Int.emod_lt_of_pos _ (by decide)⟩, ?_⟩
  exact Int.ediv_mul_add_emod ms 1000

/-- What is some time after a time is a time. -/
theorem proper_aeAddMillisecondsToNow {now : Time} {milliseconds : ℤ} (hnow : now.Proper)
    (hmilliseconds : 0 ≤ milliseconds) : (aeAddMillisecondsToNow now milliseconds).Proper := by
  have hnonneg := Int.emod_nonneg milliseconds (b := 1000) (by decide)
  have hlt := Int.emod_lt_of_pos milliseconds (b := 1000) (by decide)
  obtain ⟨hms, hms'⟩ := hnow
  unfold aeAddMillisecondsToNow
  rw [Int.tmod_eq_emod_of_nonneg hmilliseconds]
  dsimp only
  split
  · exact ⟨by dsimp only; omega, by dsimp only; omega⟩
  · exact ⟨by dsimp only; omega, by dsimp only; omega⟩

/-! ## The nearest timer -/

/-- So many milliseconds are left until a timer is due. -/
structure IsLeft (xs : List (ℕ × AeTimeEvent Proc Data)) (now : Time) (left : ℤ) : Prop where
  nonneg : 0 ≤ left
  due_iff : ∀ later : Time, later.Proper → now.toMs ≤ later.toMs →
    ((∃ x ∈ xs, x.2.IsDue later) ↔ now.toMs + left ≤ later.toMs)

namespace TimeLoop

variable {loop : TimeLoop Proc Data} {xs : List (ℕ × AeTimeEvent Proc Data)} {lost : List ℕ}

/-- **`aeSearchNearestTimer`** finds the first timer that is not due after another. -/
theorem Holds.aeSearchNearestTimer (h : loop.Holds xs lost) :
    loop.aeSearchNearestTimer
      = some (xs.argmin fun x => toLex (x.2.whenSec, x.2.whenMs)) := by
  unfold TimeLoop.aeSearchNearestTimer
  rw [foldCells_eq h.list h.length_le_rounds]
  unfold List.argmin
  congr 2
  funext nearest te
  cases nearest with
  | none => rfl
  | some nearest =>
    unfold List.argAux
    dsimp only
    refine if_congr ?_ rfl rfl
    exact (Prod.Lex.toLex_lt_toLex (x := (te.2.whenSec, te.2.whenMs))
      (y := (nearest.2.whenSec, nearest.2.whenMs))).symm

end TimeLoop

variable {xs : List (ℕ × AeTimeEvent Proc Data)} {lost : List ℕ} {now : Time}

/-- **The nearest timer says how much is left.** -/
theorem isLeft_of_mem_argmin (hproper : ∀ x ∈ xs, x.2.when.Proper)
    {nearest : ℕ × AeTimeEvent Proc Data}
    (hnearest : nearest ∈ xs.argmin fun x => toLex (x.2.whenSec, x.2.whenMs)) :
    IsLeft xs now (max 0 (nearest.2.when.toMs - now.toMs)) := by
  have hmem := List.argmin_mem hnearest
  have hfirst : ∀ x ∈ xs, nearest.2.when.toMs ≤ x.2.when.toMs := by
    intro x hx
    have hle := Prod.Lex.toLex_le_toLex.mp (List.le_of_mem_argmin hx hnearest)
    obtain ⟨hms, hms'⟩ := hproper x hx
    obtain ⟨hfirst, hfirst'⟩ := hproper nearest hmem
    unfold AeTimeEvent.when Time.toMs at *
    dsimp only at *
    omega
  refine ⟨le_max_left 0 _, fun later hlater hle => ⟨fun ⟨x, hx, hdue⟩ => ?_, fun hlate => ?_⟩⟩
  · have hreached := (AeTimeEvent.isDue_iff (hproper x hx) hlater).mp hdue
    have := hfirst x hx
    omega
  · refine ⟨nearest, hmem, (AeTimeEvent.isDue_iff (hproper nearest hmem) hlater).mpr ?_⟩
    omega

/-- No other number of milliseconds is left. -/
theorem IsLeft.unique {left left' : ℤ} (h : IsLeft xs now left) (h' : IsLeft xs now left') :
    left = left' := by
  have hle : ∀ {l l' : ℤ}, IsLeft xs now l → IsLeft xs now l' → l' ≤ l := by
    intro l l' h h'
    obtain ⟨later, hlater, hms⟩ := exists_proper_toMs (now.toMs + l)
    have hafter : now.toMs ≤ later.toMs := hms ▸ Int.le_add_of_nonneg_right h.nonneg
    have hdue := (h.due_iff later hlater hafter).mpr hms.ge
    have hreached := (h'.due_iff later hlater hafter).mp hdue
    omega
  exact le_antisymm (hle h' h) (hle h h')

/-- The wait is told in seconds and microseconds, and told to `epoll_wait` in milliseconds. -/
theorem epollTimeout_of_nonneg {ms : ℤ} (hms : 0 ≤ ms) :
    epollTimeout (some ⟨ms.tdiv 1000, ms.tmod 1000 * 1000⟩) = Int32.ofInt ms := by
  have hnonneg := Int.emod_nonneg ms (b := 1000) (by decide)
  unfold epollTimeout
  dsimp only
  rw [Int.tdiv_eq_ediv_of_nonneg hms, Int.tmod_eq_emod_of_nonneg hms,
    Int.tdiv_eq_ediv_of_nonneg (Int.mul_nonneg hnonneg (by decide)),
    Int.mul_ediv_cancel _ (by decide), Int.ediv_mul_add_emod]

namespace TimeLoop

variable {loop : TimeLoop Proc Data}

/-- **It is waited as long as nothing is due**, and forever where there are no timers. -/
theorem Holds.pollTimeout (h : loop.Holds xs lost) (hproper : ∀ x ∈ xs, x.2.when.Proper)
    {flags : Flags} (htime : Mask.has flags aeTimeEvents = true)
    (hwait : Mask.has flags aeDontWait = false) (maxfd : ℤ) (now : Time) :
    (xs = [] ∧ loop.pollTimeout maxfd flags now = some (some (-1)))
      ∨ ∃ left, IsLeft xs now left
        ∧ loop.pollTimeout maxfd flags now = some (some (Int32.ofInt left)) := by
  have hwaits : Mask.has flags aeTimeEvents ∧ ¬ Mask.has flags aeDontWait :=
    ⟨htime, ne_true_of_eq_false hwait⟩
  unfold TimeLoop.pollTimeout
  rw [if_neg fun h => h.1 htime, if_pos (Or.inr hwaits)]
  unfold tvp shortest
  rw [if_pos hwaits, h.aeSearchNearestTimer, Option.bind_eq_bind, Option.bind_some]
  cases hnearest : xs.argmin fun x => toLex (x.2.whenSec, x.2.whenMs) with
  | none =>
    refine Or.inl ⟨List.argmin_eq_none.mp hnearest, ?_⟩
    dsimp only
    rw [if_neg hwaits.2]
    rfl
  | some nearest =>
    refine Or.inr ⟨_, isLeft_of_mem_argmin hproper hnearest, ?_⟩
    have hms : (nearest.2.whenSec - now.sec) * 1000 + nearest.2.whenMs - now.ms
        = nearest.2.when.toMs - now.toMs := by
      unfold AeTimeEvent.when Time.toMs
      dsimp only
      omega
    dsimp only
    rw [hms, Option.map_some]
    split
    · rename_i hpos
      rw [epollTimeout_of_nonneg hpos.le, max_eq_right hpos.le]
    · rename_i hneg
      rw [max_eq_left (not_lt.mp hneg)]
      rfl

end TimeLoop

/-- An `int` is the lower half of a `long`. -/
theorem toInt_ofInt (left : ℤ) :
    (Int32.ofInt left).toInt
      = if left % 2 ^ 32 < 2 ^ 31 then left % 2 ^ 32 else left % 2 ^ 32 - 2 ^ 32 := by
  rw [Int32.toInt_ofInt]
  rfl

/-- **A wait that fits** is told as it is. -/
theorem toInt_ofInt_eq_iff {left : ℤ} (hleft : 0 ≤ left) :
    (Int32.ofInt left).toInt = left ↔ left < 2 ^ 31 := by
  rw [toInt_ofInt]
  split
  · omega
  · omega

/-- **One that does not** may become a wait forever. -/
theorem toInt_ofInt_neg_iff (left : ℤ) :
    (Int32.ofInt left).toInt < 0 ↔ 2 ^ 31 ≤ left % 2 ^ 32 := by
  rw [toInt_ofInt]
  split
  · omega
  · omega

/-! ## Proper times -/

/-- A timer is not created for a time in the past. -/
def TimeOp.Proper : TimeOp Proc Data → Prop
  | .create now _ milliseconds _ _ _ => now.Proper ∧ 0 ≤ milliseconds
  | .delete _ => True

/-- Nor is it to be called again in the past. -/
structure Turn.Proper (turn : Turn Proc Data) : Prop where
  ops : ∀ op ∈ turn.ops, op.Proper
  retval : turn.retval ≠ aeNoMore → 0 ≤ turn.retval
  later : turn.later.Proper

/-- **Nothing is done in the past.** -/
def TimeStep.Proper : TimeStep Proc Data → Prop
  | .op o => o.Proper
  | .pass _ turns => ∀ turn ∈ turns, turn.Proper

/-- What is created has a proper time. -/
theorem TimeOp.Proper.made {op : TimeOp Proc Data} (hop : op.Proper) (nextId : ℤ) :
    ∀ te ∈ op.made nextId, te.when.Proper := by
  cases op with
  | create now zmalloc milliseconds timeProc clientData finalizerProc =>
    intro te hte
    cases zmalloc with
    | none => exact absurd hte List.not_mem_nil
    | some zmalloc =>
      obtain rfl := List.mem_singleton.mp hte
      exact proper_aeAddMillisecondsToNow hop.1 hop.2
  | delete id => exact fun te hte => absurd hte List.not_mem_nil

/-- No operation changes the time of a timer. -/
theorem TimeOp.when_onAll (ops : List (TimeOp Proc Data)) (te : AeTimeEvent Proc Data) :
    (onAll ops te).when = te.when := by
  rcases onAll_eq ops te with ⟨-, hte⟩ | ⟨-, hte⟩
  · rw [hte]
    rfl
  · rw [hte]

/-- They change none of them. -/
theorem TimeOp.proper_map_onAll {ops : List (TimeOp Proc Data)}
    {timers : List (AeTimeEvent Proc Data)} (htimers : ∀ te ∈ timers, te.when.Proper) :
    ∀ te ∈ timers.map (onAll ops), te.when.Proper := by
  intro te hte
  obtain ⟨te, hmem, rfl⟩ := List.mem_map.mp hte
  rw [when_onAll]
  exact htimers te hmem

/-- **What a callback creates** has a proper time. -/
theorem TimeOp.proper_madeBy {ops : List (TimeOp Proc Data)} (hops : ∀ op ∈ ops, op.Proper)
    (nextId : ℤ) : ∀ te ∈ madeBy ops nextId, te.when.Proper := by
  induction ops generalizing nextId with
  | nil => exact fun te hte => absurd hte List.not_mem_nil
  | cons op ops ih =>
    intro te hte
    rcases List.mem_append.mp hte with hte | hte
    · exact ih (fun op hop => hops op (List.mem_cons_of_mem _ hop)) _ te hte
    · exact proper_map_onAll ((hops op List.mem_cons_self).made nextId) te hte

/-- What is called again is called at a proper time. -/
theorem Turn.Proper.settle {turn : Turn Proc Data} (hturn : turn.Proper)
    {te : AeTimeEvent Proc Data} (hte : te.when.Proper) : (te.settle turn).when.Proper := by
  unfold AeTimeEvent.settle
  split
  · rename_i hagain
    exact proper_aeAddMillisecondsToNow hturn.later (hturn.retval hagain)
  · exact hte

namespace Pass

/-- All timers have proper times. -/
structure Proper (s : Pass Proc Data) : Prop where
  fresh : ∀ te ∈ s.fresh, te.when.Proper
  kept : ∀ te ∈ s.kept, te.when.Proper
  rest : ∀ te ∈ s.rest, te.when.Proper

variable {s : Pass Proc Data} {turn : Turn Proc Data} {te : AeTimeEvent Proc Data}

theorem Proper.keep (h : s.Proper) (hte : te.when.Proper) : (s.keep te).Proper where
  fresh := h.fresh
  kept x hx := by
    rcases List.mem_append.mp hx with hx | hx
    · exact h.kept x hx
    · obtain rfl := List.mem_singleton.mp hx
      exact hte
  rest := h.rest

theorem Proper.callback (h : s.Proper) (hturn : turn.Proper) : (s.callback turn.ops).Proper where
  fresh x hx := by
    rcases List.mem_append.mp hx with hx | hx
    · exact TimeOp.proper_madeBy hturn.ops s.nextId x hx
    · exact TimeOp.proper_map_onAll h.fresh x hx
  kept := TimeOp.proper_map_onAll h.kept
  rest := TimeOp.proper_map_onAll h.rest

theorem Proper.visit (h : s.Proper) (hturn : turn.Proper) (hte : te.when.Proper) :
    (s.visit turn te).Proper := by
  unfold Pass.visit
  split
  · split
    · exact h.callback hturn
    · exact h
  · split
    · refine (h.callback hturn).keep (hturn.settle ?_)
      rw [TimeOp.when_onAll]
      exact hte
    · exact h.keep hte

/-- **A pass leaves proper times.** -/
theorem Proper.run {turns : List (Turn Proc Data)} (h : s.Proper)
    (hturns : ∀ turn ∈ turns, turn.Proper) : (s.run turns).Proper := by
  induction turns generalizing s with
  | nil => exact h
  | cons turn turns ih =>
    unfold Pass.run
    split
    · exact h
    · rename_i te rest hrest
      have hte : te.when.Proper := h.rest te (hrest ▸ List.mem_cons_self)
      have hothers : ({ s with rest := rest } : Pass Proc Data).Proper :=
        ⟨h.fresh, h.kept, fun x hx => h.rest x (hrest ▸ List.mem_cons_of_mem _ hx)⟩
      exact ih (hothers.visit (hturns turn List.mem_cons_self) hte) fun turn hturn =>
        hturns turn (List.mem_cons_of_mem _ hturn)

theorem proper_start {nextId lastTime now : ℤ} {timers : List (AeTimeEvent Proc Data)}
    (htimers : ∀ te ∈ timers, te.when.Proper) : (start nextId lastTime now timers).Proper where
  fresh te hte := absurd hte List.not_mem_nil
  kept te hte := absurd hte List.not_mem_nil
  rest te hte := by
    unfold start at hte
    dsimp only at hte
    split at hte
    · obtain ⟨te, hmem, rfl⟩ := List.mem_map.mp hte
      exact htimers te hmem
    · exact htimers te hte

end Pass

namespace TimeLoop

variable {loop : TimeLoop Proc Data}

/-- All timers in the list have proper times. -/
def Punctual (loop : TimeLoop Proc Data) : Prop :=
  ∃ xs lost, loop.Holds xs lost ∧ ∀ x ∈ xs, x.2.when.Proper

/-- **A step leaves proper times.** -/
theorem Punctual.next (h : loop.Punctual) {step : TimeStep Proc Data}
    (henough : loop.Enough step) (hstep : step.Proper) :
    ∃ loop', loop.next step = some loop' ∧ loop'.Punctual := by
  obtain ⟨xs, lost, h, hproper⟩ := h
  have hvalues : ∀ te ∈ xs.map Prod.snd, te.when.Proper := by
    intro te hte
    obtain ⟨x, hx, rfl⟩ := List.mem_map.mp hte
    exact hproper x hx
  cases step with
  | op op =>
    obtain ⟨loop', zs, hloop', hholds, hzs, -, -⟩ := h.perform op
    refine ⟨loop', next_of_step (step_op hloop'), _, lost, hholds, fun x hx => ?_⟩
    rcases List.mem_append.mp hx with hx | hx
    · exact hstep.made loop.timeEventNextId x.2 (hzs ▸ List.mem_map_of_mem hx)
    · have hkept : ∀ te ∈ (xs.map Prod.snd).map (TimeOp.onAll [op]), te.when.Proper :=
        TimeOp.proper_map_onAll hvalues
      refine hkept x.2 ?_
      have hmem := List.mem_map_of_mem (f := Prod.snd) hx
      rwa [map_snd_mapValues] at hmem
  | pass now turns =>
    obtain ⟨loop', fresh, kept, gone, lost', hloop', hholds, hfresh, hkept, -⟩ :=
      processTimeEvents_spec h now turns (henough xs lost h)
    have hpass : (Pass.start loop.timeEventNextId loop.lastTime now (xs.map Prod.snd)).Proper :=
      Pass.proper_start hvalues
    have hdone := hpass.run hstep
    refine ⟨loop', next_of_step hloop', _, lost', hholds, fun x hx => ?_⟩
    rcases List.mem_append.mp hx with hx | hx
    · refine hdone.fresh x.2 ?_
      rw [hfresh]
      exact List.mem_append_left _ (List.mem_map_of_mem hx)
    · refine hdone.kept x.2 ?_
      rw [hkept]
      exact List.mem_map_of_mem hx

/-- **In every run there are proper times** only. -/
theorem punctual_of_run (start : ℤ) {steps : List (TimeStep Proc Data)}
    (hrun : Along Next (fun loop step => loop.Enough step ∧ step.Proper)
      (aeCreateEventLoop start) steps) :
    ∃ loop', steps.foldlM TimeLoop.next (aeCreateEventLoop start) = some loop'
      ∧ loop'.Punctual := by
  have hnew : (aeCreateEventLoop start : TimeLoop Proc Data).Punctual :=
    ⟨[], [], holds_aeCreateEventLoop start, fun x hx => absurd hx List.not_mem_nil⟩
  obtain ⟨loop', hloop', hpunctual, -⟩ := exists_run_of_along (Q := fun _ _ => True)
    (fun loop step (h : loop.Punctual) hstep => by
      obtain ⟨loop', hnext, h'⟩ := h.next hstep.1 hstep.2
      exact ⟨loop', hnext, h', trivial⟩) hnew hrun
  exact ⟨loop', hloop', hpunctual⟩

/-- Two timers are created for times to come. -/
theorem along_createTwo : Along Next (fun loop step => loop.Enough step ∧ step.Proper)
    (aeCreateEventLoop 0) createTwo :=
  ⟨⟨trivial, ⟨le_rfl, by decide⟩, by decide⟩, fun _ _ =>
    ⟨⟨trivial, ⟨le_rfl, by decide⟩, by decide⟩, fun _ _ => trivial⟩⟩

/-- They are in the list. -/
theorem Holds.map_snd_of_createTwo {loop : TimeLoop Unit Unit}
    {xs : List (ℕ × AeTimeEvent Unit Unit)} {lost : List ℕ} (h : loop.Holds xs lost)
    (hloop : createTwo.foldlM TimeLoop.next (aeCreateEventLoop 0) = some loop) :
    xs.map Prod.snd = [newer, older] ∧ loop.lastTime = 0 := by
  obtain ⟨loop', hloop', xs', hholds, htimers, -, hlast⟩ := exists_createTwo
  obtain rfl := Option.some.inj (hloop.symm.trans hloop')
  exact ⟨(h.eq hholds) ▸ htimers, hlast⟩

/-- One second is left. -/
theorem isLeft_of_map_snd_eq {xs : List (ℕ × AeTimeEvent Unit Unit)}
    (hxs : xs.map Prod.snd = [newer, older]) : IsLeft xs ⟨0, 0⟩ 1000 := by
  refine ⟨by decide, fun later ⟨hms, hms'⟩ _ => ?_⟩
  have hdue : (∃ x ∈ xs, x.2.IsDue later) ↔ newer.IsDue later ∨ older.IsDue later := by
    have hmap : (∃ x ∈ xs, x.2.IsDue later) ↔ ∃ te ∈ xs.map Prod.snd, te.IsDue later :=
      ⟨fun ⟨x, hx, h⟩ => ⟨x.2, List.mem_map_of_mem hx, h⟩, fun ⟨te, hte, h⟩ =>
        let ⟨x, hx, hte⟩ := List.mem_map.mp hte
        ⟨x, hx, hte ▸ h⟩⟩
    rw [hmap, hxs]
    simp
  rw [hdue]
  unfold AeTimeEvent.IsDue newer older Time.toMs
  dsimp only
  omega

/-- **The loop sleeps until a timer is due**, and forever if there are none: after every run in
which nothing is done in the past, the timeout is the number of milliseconds for which none is due
exactly if that fits, and it is forever, although there are timers, exactly if its lower half is
negative as an `int`. -/
theorem timeout_of_run (start : ℤ) {steps : List (TimeStep Proc Data)}
    (hrun : Along Next (fun loop step => loop.Enough step ∧ step.Proper)
      (aeCreateEventLoop start) steps)
    {flags : Flags} (htime : Mask.has flags aeTimeEvents = true)
    (hwait : Mask.has flags aeDontWait = false) (maxfd : ℤ) (now : Time) :
    ∃ loop' xs lost timeout, steps.foldlM TimeLoop.next (aeCreateEventLoop start) = some loop'
      ∧ loop'.Holds xs lost ∧ loop'.pollTimeout maxfd flags now = some (some timeout)
      ∧ ((xs = [] ∧ timeout = -1)
        ∨ ∃ left, IsLeft xs now left ∧ (timeout.toInt = left ↔ left < 2 ^ 31)
          ∧ (timeout.toInt < 0 ↔ 2 ^ 31 ≤ left % 2 ^ 32)) := by
  obtain ⟨loop', hloop', xs, lost, hholds, hproper⟩ := punctual_of_run start hrun
  rcases hholds.pollTimeout hproper htime hwait maxfd now with
    ⟨hnone, htimeout⟩ | ⟨left, hleft, htimeout⟩
  · exact ⟨loop', xs, lost, _, hloop', hholds, htimeout, Or.inl ⟨hnone, rfl⟩⟩
  · exact ⟨loop', xs, lost, _, hloop', hholds, htimeout,
      Or.inr ⟨left, hleft, toInt_ofInt_eq_iff hleft.nonneg, toInt_ofInt_neg_iff left⟩⟩

/-- It sleeps for one second. -/
theorem timeout_of_run_twoTimers :
    ∃ loop, createTwo.foldlM TimeLoop.next (aeCreateEventLoop 0) = some loop
      ∧ loop.pollTimeout (-1) aeAllEvents ⟨0, 0⟩ = some (some 1000) := by
  obtain ⟨loop, xs, lost, timeout, hloop, hholds, htimeout, hwaits⟩ :=
    timeout_of_run 0 along_createTwo (by decide : Mask.has aeAllEvents aeTimeEvents = true)
      (by decide) (-1) ⟨0, 0⟩
  obtain ⟨hxs, -⟩ := hholds.map_snd_of_createTwo hloop
  have hsome : xs ≠ [] := fun hnone => by
    rw [hnone] at hxs
    cases hxs
  obtain ⟨left, hleft, hfits, -⟩ := hwaits.resolve_left fun h => hsome h.1
  obtain rfl := hleft.unique (isLeft_of_map_snd_eq hxs)
  obtain rfl : timeout = 1000 := Int32.toInt_inj.mp (hfits.mpr (by decide))
  exact ⟨loop, hloop, htimeout⟩

end TimeLoop

/-! ## Waking up -/

/-- **A pass that calls nothing** only takes out what is marked: it comes to no timer that is
due. -/
theorem Pass.run_of_calls_eq_nil {s : Pass Proc Data} {turns : List (Turn Proc Data)}
    (hturns : s.rest.length ≤ turns.length) (hcalls : s.calls turns = []) :
    (s.run turns).fresh = s.fresh
      ∧ (s.run turns).kept = s.kept ++ s.rest.filter (fun te => te.id ≠ aeDeletedEventId)
      ∧ ∀ te ∈ s.rest, te.id ≠ aeDeletedEventId → ∃ turn ∈ turns, ¬ te.IsDue turn.now := by
  induction turns generalizing s with
  | nil =>
    have hrest := List.length_eq_zero_iff.mp (Nat.le_zero.mp hturns)
    rw [hrest]
    exact ⟨rfl, (List.append_nil _).symm, fun te hte => absurd hte List.not_mem_nil⟩
  | cons turn turns ih =>
    unfold Pass.run
    unfold Pass.calls at hcalls
    split
    · rename_i hrest
      rw [hrest]
      exact ⟨rfl, (List.append_nil _).symm, fun te hte => absurd hte List.not_mem_nil⟩
    · rename_i te rest hrest
      rw [hrest] at hturns hcalls ⊢
      obtain ⟨hnone, hlater⟩ := List.append_eq_nil_iff.mp hcalls
      unfold AeTimeEvent.calls at hnone
      by_cases hdeleted : te.id = aeDeletedEventId
      · rw [if_pos hdeleted] at hnone
        have hproc : te.finalizerProc = none :=
          Option.toList_eq_nil_iff.mp (List.map_eq_nil_iff.mp hnone)
        have hvisit : ({ s with rest := rest } : Pass Proc Data).visit turn te
            = { s with rest := rest } := by
          rw [visit, if_pos hdeleted, hproc]
          rfl
        rw [hvisit] at hlater ⊢
        obtain ⟨hfresh, hkept, hwaits⟩ := ih (Nat.le_of_succ_le_succ hturns) hlater
        refine ⟨hfresh, ?_, fun x hx hlive => ?_⟩
        · have hfilter : (te :: rest).filter (fun te => te.id ≠ aeDeletedEventId)
              = rest.filter (fun te => te.id ≠ aeDeletedEventId) :=
            List.filter_cons_of_neg (by simpa using hdeleted)
          rw [hfilter]
          exact hkept
        · obtain ⟨later, hmem, hwait⟩ :=
            hwaits x ((List.mem_cons.mp hx).resolve_left fun h => hlive (h ▸ hdeleted)) hlive
          exact ⟨later, List.mem_cons_of_mem _ hmem, hwait⟩
      · rw [if_neg hdeleted] at hnone
        have hwait : ¬ te.IsDue turn.now := fun hdue => by
          rw [if_pos hdue] at hnone
          cases hnone
        have hvisit : ({ s with rest := rest } : Pass Proc Data).visit turn te
            = ({ s with rest := rest } : Pass Proc Data).keep te := by
          rw [visit, if_neg hdeleted, if_neg hwait]
        rw [hvisit] at hlater ⊢
        obtain ⟨hfresh, hkept, hwaits⟩ := ih (Nat.le_of_succ_le_succ hturns) hlater
        refine ⟨hfresh, ?_, fun x hx hlive => ?_⟩
        · have hfilter : (te :: rest).filter (fun te => te.id ≠ aeDeletedEventId)
              = te :: rest.filter (fun te => te.id ≠ aeDeletedEventId) :=
            List.filter_cons_of_pos (by simpa using hdeleted)
          rw [hfilter, hkept]
          exact List.append_assoc s.kept [te] _
        · rcases List.mem_cons.mp hx with rfl | hx
          · exact ⟨turn, List.mem_cons_self, hwait⟩
          · obtain ⟨later, hmem, hlater⟩ := hwaits x hx hlive
            exact ⟨later, List.mem_cons_of_mem _ hmem, hlater⟩

namespace TimeLoop

variable {loop : TimeLoop Proc Data} {xs : List (ℕ × AeTimeEvent Proc Data)} {lost : List ℕ}

/-- **A pass in which a timer is due throughout** calls something, or frees what is marked and
nothing else. -/
theorem Holds.calls_or_frees (h : loop.Holds xs lost) {x : ℕ × AeTimeEvent Proc Data}
    (hx : x ∈ xs) {now : ℤ} (hclock : loop.lastTime ≤ now) {turns : List (Turn Proc Data)}
    (hturns : xs.length ≤ turns.length) (hdue : ∀ turn ∈ turns, x.2.IsDue turn.now) :
    ∃ loop' calls xs' lost', loop.processTimeEvents now turns = some (loop', calls)
      ∧ loop'.Holds xs' lost' ∧ (calls ≠ []
        ∨ xs'.map Prod.snd = (xs.map Prod.snd).filter (fun te => te.id ≠ aeDeletedEventId)
          ∧ xs'.length < xs.length) := by
  obtain ⟨loop', fresh, kept, gone, lost', hloop', hholds, hfresh, hkept, -⟩ :=
    processTimeEvents_spec h now turns hturns
  refine ⟨loop', _, fresh ++ kept, lost', hloop', hholds, or_iff_not_imp_left.mpr fun hnone => ?_⟩
  have hrest : (Pass.start loop.timeEventNextId loop.lastTime now (xs.map Prod.snd)).rest
      = xs.map Prod.snd := if_neg hclock.not_gt
  obtain ⟨hempty, hleft, hwaits⟩ := Pass.run_of_calls_eq_nil
    (by rw [hrest, List.length_map]; exact hturns) (not_not.mp hnone)
  rw [hrest] at hleft hwaits
  have hnew : fresh = [] :=
    List.map_eq_nil_iff.mp (List.append_eq_nil_iff.mp (hfresh.symm.trans hempty)).1
  have hmem : x.2 ∈ xs.map Prod.snd := List.mem_map_of_mem hx
  have hdeleted : x.2.id = aeDeletedEventId := by
    by_contra hlive
    obtain ⟨turn, hturn, hwait⟩ := hwaits x.2 hmem hlive
    exact hwait (hdue turn hturn)
  have hshorter : ((xs.map Prod.snd).filter fun te => te.id ≠ aeDeletedEventId).length
      < (xs.map Prod.snd).length :=
    List.length_filter_lt_length_iff_exists.mpr ⟨x.2, hmem, by simpa using hdeleted⟩
  have hlive : kept.map Prod.snd = (xs.map Prod.snd).filter fun te => te.id ≠ aeDeletedEventId :=
    hkept.symm.trans hleft
  rw [← hlive, List.length_map, List.length_map] at hshorter
  rw [hnew]
  exact ⟨hlive, hshorter⟩

/-- **The loop does not wake up in vain**: after every run in which nothing is done in the past, a
pass that comes when as much time has passed as was left calls a callback, or frees the timers that
are marked, of which there are some. -/
theorem wakes_of_run (start : ℤ) {steps : List (TimeStep Proc Data)}
    (hrun : Along Next (fun loop step => loop.Enough step ∧ step.Proper)
      (aeCreateEventLoop start) steps) :
    ∃ loop' xs lost, steps.foldlM TimeLoop.next (aeCreateEventLoop start) = some loop'
      ∧ loop'.Holds xs lost ∧ (xs ≠ [] → ∀ now, ∃ left, IsLeft xs now left
        ∧ ∀ (time : ℤ) (turns : List (Turn Proc Data)), loop'.lastTime ≤ time →
          xs.length ≤ turns.length →
          (∀ turn ∈ turns, turn.now.Proper ∧ now.toMs + left ≤ turn.now.toMs) →
            ∃ loop'' calls xs'' lost'', loop'.processTimeEvents time turns = some (loop'', calls)
              ∧ loop''.Holds xs'' lost'' ∧ (calls ≠ []
                ∨ xs''.map Prod.snd
                    = (xs.map Prod.snd).filter (fun te => te.id ≠ aeDeletedEventId)
                  ∧ xs''.length < xs.length)) := by
  obtain ⟨loop', hloop', xs, lost, hholds, hproper⟩ := punctual_of_run start hrun
  refine ⟨loop', xs, lost, hloop', hholds, fun hsome now => ?_⟩
  obtain ⟨nearest, hnearest⟩ := Option.ne_none_iff_exists'.mp
    (mt (List.argmin_eq_none (f := fun x => toLex (x.2.whenSec, x.2.whenMs))).mp hsome)
  have hleft : IsLeft xs now (max 0 (nearest.2.when.toMs - now.toMs)) :=
    isLeft_of_mem_argmin hproper hnearest
  refine ⟨_, hleft, fun time turns hclock hturns hlate => ?_⟩
  obtain ⟨later, hlater, hms⟩ :=
    exists_proper_toMs (now.toMs + max 0 (nearest.2.when.toMs - now.toMs))
  obtain ⟨x, hx, hdue⟩ := (hleft.due_iff later hlater
    (hms ▸ Int.le_add_of_nonneg_right hleft.nonneg)).mpr hms.ge
  exact hholds.calls_or_frees hx hclock hturns fun turn hturn =>
    hdue.mono hlater (hlate turn hturn).1 (hms.trans_le (hlate turn hturn).2)

/-- After one second something is called: neither of the two timers is marked. -/
theorem wakes_of_run_twoTimers :
    ∃ loop, createTwo.foldlM TimeLoop.next (aeCreateEventLoop 0) = some loop
      ∧ ∃ loop' calls, loop.processTimeEvents 1 [turnAt 1 [], turnAt 1 []] = some (loop', calls)
        ∧ calls ≠ [] := by
  obtain ⟨loop, xs, lost, hloop, hholds, hwakes⟩ := wakes_of_run 0 along_createTwo
  obtain ⟨hxs, hlast⟩ := hholds.map_snd_of_createTwo hloop
  have hlength : xs.length = 2 := by
    rw [← List.length_map (f := Prod.snd), hxs]
    rfl
  have hsome : xs ≠ [] := fun hnone => by
    rw [hnone] at hlength
    cases hlength
  obtain ⟨left, hleft, hwakes⟩ := hwakes hsome ⟨0, 0⟩
  obtain rfl := hleft.unique (isLeft_of_map_snd_eq hxs)
  obtain ⟨loop', calls, xs', lost', hloop', -, hdone⟩ :=
    hwakes 1 [turnAt 1 [], turnAt 1 []] (hlast.trans_le (by decide)) hlength.le
      fun turn hturn => by
        have hsame : turn = turnAt 1 [] := by simpa using hturn
        exact hsame ▸ ⟨⟨le_rfl, by decide⟩, by decide⟩
  refine ⟨loop, hloop, loop', calls, hloop', hdone.resolve_right fun ⟨hmap, hshorter⟩ => ?_⟩
  have hall : (xs.map Prod.snd).filter (fun te => te.id ≠ aeDeletedEventId) = [newer, older] := by
    rw [hxs]
    rfl
  have hsame := congrArg List.length (hmap.trans hall)
  rw [List.length_map] at hsame
  exact absurd hshorter (by rw [hlength, hsame]; decide)

end TimeLoop

end Ae
