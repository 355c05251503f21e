import RedisProxy.TimerPasses
import RedisProxy.Library.Runs

/-!
# Timers that fire

A timer is called in a pass exactly if its time has come when its turn does, and nothing
has deleted it by then; so one that is left alone is called in the first pass after its time,
once and not before (`called_of_run`), whatever the other timers do meanwhile, and with what
its callback returns it is there again or marked.

Timers are lost where a pass drops what has been created in it (`Pass.Drops`), and only
there: in a run all memory in use is that of the list exactly if no pass of it does
(`tidy_iff_of_run`).
-/

namespace Ae

open LinkedList Runs

variable {Proc Data : Type}

/-! ## A timer in a pass -/

/-- The id of the timer that is called. -/
def TimerCall.fired : TimerCall Proc Data → Option ℤ
  | .timeProc _ id _ => some id
  | .finalizerProc _ _ => none

/-- The ids of the timers that are called. -/
def firedIds (calls : List (TimerCall Proc Data)) : List ℤ := calls.filterMap TimerCall.fired

/-- The ids of the timers that are not deleted. -/
def liveIds (timers : List (AeTimeEvent Proc Data)) : List ℤ :=
  (timers.map AeTimeEvent.id).filter (· ≠ aeDeletedEventId)

/-- What is done by the callback called for a timer, if one is. -/
def Turn.run (turn : Turn Proc Data) (te : AeTimeEvent Proc Data) : List (TimeOp Proc Data) :=
  if te.id = aeDeletedEventId then if te.finalizerProc.isSome then turn.ops else []
  else if te.IsDue turn.now then turn.ops
  else []

namespace Pass

variable {s : Pass Proc Data} {turn : Turn Proc Data} {turns : List (Turn Proc Data)}
  {te te' : AeTimeEvent Proc Data}

theorem rest_visit (s : Pass Proc Data) (turn : Turn Proc Data) (te : AeTimeEvent Proc Data) :
    (s.visit turn te).rest = s.rest.map (TimeOp.onAll (turn.run te)) := by
  have hnil : s.rest.map (TimeOp.onAll []) = s.rest := List.map_id' s.rest
  unfold visit Turn.run
  split
  · split
    · rfl
    · exact hnil.symm
  · split
    · rfl
    · exact hnil.symm

/-- What is left of a timer after its turn. -/
theorem kept_visit (s : Pass Proc Data) (turn : Turn Proc Data) (te : AeTimeEvent Proc Data) :
    (s.visit turn te).kept = s.kept.map (TimeOp.onAll (turn.run te))
      ++ if te.id = aeDeletedEventId then []
        else if te.IsDue turn.now then [(TimeOp.onAll turn.ops te).settle turn] else [te] := by
  have hnil : s.kept.map (TimeOp.onAll []) = s.kept := List.map_id' s.kept
  unfold visit Turn.run
  split
  · rw [List.append_nil]
    split
    · rfl
    · exact hnil.symm
  · split
    · rfl
    · rw [hnil]
      rfl

end Pass

theorem liveIds_cons (te : AeTimeEvent Proc Data) (timers : List (AeTimeEvent Proc Data)) :
    liveIds (te :: timers)
      = if te.id = aeDeletedEventId then liveIds timers else te.id :: liveIds timers := by
  unfold liveIds
  rw [List.map_cons]
  split
  · rename_i hid
    exact List.filter_cons_of_neg (by rw [hid]; decide)
  · rename_i hid
    exact List.filter_cons_of_pos (decide_eq_true hid)

theorem mem_liveIds {timers : List (AeTimeEvent Proc Data)} {te : AeTimeEvent Proc Data}
    (hte : te ∈ timers) (hlive : te.id ≠ aeDeletedEventId) : te.id ∈ liveIds timers :=
  List.mem_filter.mpr ⟨List.mem_map_of_mem hte, decide_eq_true hlive⟩

/-- Callbacks delete timers. -/
theorem liveIds_map_onAll (ops : List (TimeOp Proc Data)) (timers : List (AeTimeEvent Proc Data)) :
    (liveIds (timers.map (TimeOp.onAll ops))).Sublist (liveIds timers) := by
  induction timers with
  | nil => exact List.Sublist.refl _
  | cons te timers ih =>
    rw [List.map_cons, liveIds_cons, liveIds_cons]
    rcases TimeOp.id_onAll ops te with hid | hid
    · rw [hid]
      split
      · exact ih
      · exact ih.cons_cons te.id
    · rw [if_pos hid]
      split
      · exact ih
      · exact ih.cons te.id

/-- What the calls of a turn fire. -/
theorem firedIds_calls (te : AeTimeEvent Proc Data) (now : Time) :
    firedIds (te.calls now)
      = if te.id ≠ aeDeletedEventId ∧ te.IsDue now then [te.id] else [] := by
  unfold AeTimeEvent.calls
  split
  · rename_i hid
    rw [if_neg fun h => h.1 hid]
    unfold AeTimeEvent.finalizerCall
    cases te.finalizerProc with
    | none => rfl
    | some proc => rfl
  · rename_i hid
    split
    · rename_i hdue
      rw [if_pos ⟨hid, hdue⟩]
      rfl
    · rename_i hdue
      rw [if_neg fun h => hdue h.2]
      rfl

theorem firedIds_append (calls calls' : List (TimerCall Proc Data)) :
    firedIds (calls ++ calls') = firedIds calls ++ firedIds calls' := List.filterMap_append

/-- A timer nothing deletes stays what it is. -/
theorem TimeOp.onAll_of_not_mem {ops : List (TimeOp Proc Data)} {te : AeTimeEvent Proc Data}
    (h : .delete te.id ∉ ops) : TimeOp.onAll ops te = te :=
  (TimeOp.onAll_eq ops te).elim (fun hmem => absurd hmem.1 h) And.right

/-- It stays settled as well. -/
theorem TimeOp.onAll_settle {ops : List (TimeOp Proc Data)} {te : AeTimeEvent Proc Data}
    (h : .delete te.id ∉ ops) (turn : Turn Proc Data) :
    TimeOp.onAll ops (te.settle turn) = te.settle turn := by
  by_cases hretval : turn.retval ≠ aeNoMore
  · have hsettle : te.settle turn
        = te.setWhen (aeAddMillisecondsToNow turn.later turn.retval) := if_pos hretval
    rw [hsettle]
    exact onAll_of_not_mem h
  · have hsettle : te.settle turn = te.markDeleted := if_neg hretval
    rw [hsettle]
    rcases onAll_eq ops te.markDeleted with ⟨-, hte⟩ | ⟨-, hte⟩
    · exact hte
    · exact hte

theorem Turn.not_mem_run {turn : Turn Proc Data} {op : TimeOp Proc Data} (h : op ∉ turn.ops)
    (te : AeTimeEvent Proc Data) : op ∉ turn.run te := by
  unfold Turn.run
  split
  · split
    · exact h
    · exact List.not_mem_nil
  · split
    · exact h
    · exact List.not_mem_nil

namespace Pass

variable {s : Pass Proc Data} {turn : Turn Proc Data} {turns : List (Turn Proc Data)}
  {te te' : AeTimeEvent Proc Data}

/-- **What is called was there and not deleted**, each timer once and in the order of the
list. -/
theorem firedIds_sublist : (firedIds (s.calls turns)).Sublist (liveIds s.rest) := by
  induction turns generalizing s with
  | nil => exact List.nil_sublist _
  | cons turn turns ih =>
    rw [calls]
    cases hrest : s.rest with
    | nil => exact List.nil_sublist _
    | cons te rest =>
      have hlater := ih (s := { s with rest := rest }.visit turn te)
      rw [rest_visit] at hlater
      have hsub := hlater.trans (liveIds_map_onAll _ rest)
      rw [firedIds_append, firedIds_calls, liveIds_cons]
      split
      · rename_i hfires
        rw [if_neg hfires.1]
        exact hsub.cons_cons te.id
      · split
        · exact hsub
        · exact hsub.cons te.id

/-- **What is kept stays**, if nothing deletes it. -/
theorem mem_kept_run (hte : te ∈ s.kept)
    (hops : ∀ turn ∈ turns, ∀ te', TimeOp.onAll (turn.run te') te = te) :
    te ∈ (s.run turns).kept := by
  induction turns generalizing s with
  | nil => exact hte
  | cons turn turns ih =>
    rw [run]
    cases hrest : s.rest with
    | nil => exact hte
    | cons te' rest =>
      refine ih ?_ fun turn hturn => hops turn (List.mem_cons_of_mem _ hturn)
      rw [kept_visit]
      refine List.mem_append_left _ (List.mem_map.mpr ⟨te, hte, ?_⟩)
      exact hops turn List.mem_cons_self te'

/-- **A timer has its turn**: it is called if it is due then, and left alone if it is not. -/
theorem turn_comes {i : ℕ} (hte : s.rest[i]? = some te) (hturn : turns[i]? = some turn)
    (hlive : te.id ≠ aeDeletedEventId) (hnodup : (liveIds s.rest).Nodup)
    (hops : ∀ turn ∈ turns, .delete te.id ∉ turn.ops) :
    (te.IsDue turn.now →
        te.id ∈ firedIds (s.calls turns) ∧ te.settle turn ∈ (s.run turns).kept)
      ∧ (¬ te.IsDue turn.now →
        te.id ∉ firedIds (s.calls turns) ∧ te ∈ (s.run turns).kept) := by
  induction turns generalizing s i with
  | nil => cases hturn
  | cons turn' turns ih =>
    cases hrest : s.rest with
    | nil =>
      rw [hrest] at hte
      cases hte
    | cons te' rest =>
      rw [hrest] at hte hnodup
      have hlater : ∀ turn ∈ turns, .delete te.id ∉ turn.ops :=
        fun turn hturn => hops turn (List.mem_cons_of_mem _ hturn)
      have hsub : (liveIds ({ s with rest := rest }.visit turn' te').rest).Sublist
          (liveIds rest) := by
        rw [rest_visit]
        exact liveIds_map_onAll _ rest
      have hstays : ∀ turn ∈ turns, ∀ te', TimeOp.onAll (turn.run te') te = te :=
        fun turn hturn te' => TimeOp.onAll_of_not_mem (Turn.not_mem_run (hlater turn hturn) te')
      rw [calls, run, hrest, firedIds_append, firedIds_calls]
      dsimp only
      cases i with
      | zero =>
        obtain rfl : te' = te := Option.some.inj hte
        obtain rfl : turn' = turn := Option.some.inj hturn
        have hkept := kept_visit { s with rest := rest } turn' te'
        rw [if_neg hlive] at hkept
        constructor
        · intro hdue
          rw [if_pos hdue, TimeOp.onAll_of_not_mem (hops turn' List.mem_cons_self)] at hkept
          rw [if_pos ⟨hlive, hdue⟩]
          refine ⟨List.mem_append_left _ List.mem_cons_self, mem_kept_run ?_ fun t ht te => ?_⟩
          · rw [hkept]
            exact List.mem_append_right _ List.mem_cons_self
          · exact TimeOp.onAll_settle (Turn.not_mem_run (hlater t ht) te) turn'
        · intro hdue
          rw [if_neg hdue] at hkept
          rw [if_neg fun h => hdue h.2, List.nil_append]
          rw [liveIds_cons, if_neg hlive, List.nodup_cons] at hnodup
          refine ⟨fun hmem => hnodup.1 (hsub.subset (firedIds_sublist.subset hmem)),
            mem_kept_run ?_ hstays⟩
          rw [hkept]
          exact List.mem_append_right _ List.mem_cons_self
      | succ i =>
        have hte' : rest[i]? = some te := hte
        have hnodup' : (liveIds rest).Nodup := by
          rw [liveIds_cons] at hnodup
          split at hnodup
          · exact hnodup
          · exact (List.nodup_cons.mp hnodup).2
        have hother : te.id ∉ if te'.id ≠ aeDeletedEventId ∧ te'.IsDue turn'.now then [te'.id]
            else [] := by
          split
          · rename_i hfires
            rw [liveIds_cons, if_neg hfires.1, List.nodup_cons] at hnodup
            intro hmem
            rw [List.mem_singleton] at hmem
            exact hnodup.1 (hmem ▸ mem_liveIds (List.mem_of_getElem? hte') hlive)
          · exact List.not_mem_nil
        obtain ⟨hfires, hwaits⟩ := ih (s := { s with rest := rest }.visit turn' te') (i := i)
          (by
            rw [rest_visit, List.getElem?_map]
            show rest[i]?.map _ = _
            rw [hte', Option.map_some, TimeOp.onAll_of_not_mem
              (Turn.not_mem_run (hops turn' List.mem_cons_self) te')])
          hturn (hnodup'.sublist hsub) hlater
        refine ⟨fun hdue => ?_, fun hdue => ?_⟩
        · exact ⟨List.mem_append_right _ (hfires hdue).1, (hfires hdue).2⟩
        · exact ⟨fun hmem => (List.mem_append.mp hmem).elim hother (hwaits hdue).1,
            (hwaits hdue).2⟩

end Pass

/-! ## What is called -/

namespace TimeLoop

variable {loop : TimeLoop Proc Data} {xs : List (ℕ × AeTimeEvent Proc Data)} {lost : List ℕ}
  {te : AeTimeEvent Proc Data}

theorem Holds.nodup_liveIds (h : loop.Holds xs lost) : (liveIds (xs.map Prod.snd)).Nodup := by
  refine List.pairwise_filter.mpr (List.pairwise_map.mpr (List.pairwise_map.mpr ?_))
  exact h.distinct.imp fun hsame hlive _ hid => absurd (hsame hid) (of_decide_eq_true hlive)

theorem liveIds_start (loop : TimeLoop Proc Data) (now : ℤ)
    (timers : List (AeTimeEvent Proc Data)) :
    liveIds (Pass.start loop.timeEventNextId loop.lastTime now timers).rest = liveIds timers := by
  unfold Pass.start liveIds
  dsimp only
  split
  · rw [List.map_map]
    rfl
  · rfl

/-- A timer at the start of a pass. -/
def forced (loop : TimeLoop Proc Data) (now : ℤ) (te : AeTimeEvent Proc Data) :
    AeTimeEvent Proc Data := if now < loop.lastTime then te.forceDue else te

/-- **What a pass calls**: of the timers that were there and were not deleted, each at most once
and in the order of the list. One that nothing deletes in the pass is called if it is due as its
turn comes, and then is settled; otherwise it is left alone. -/
theorem fires_iff_of_pass (h : loop.Holds xs lost) (now : ℤ) (turns : List (Turn Proc Data))
    (hturns : xs.length ≤ turns.length) :
    ∃ loop' calls xs' lost',
      loop.processTimeEvents now turns = some (loop', calls) ∧ loop'.Holds xs' lost'
        ∧ (firedIds calls).Sublist (liveIds (xs.map Prod.snd))
        ∧ ∀ (i : ℕ) (te : AeTimeEvent Proc Data) (turn : Turn Proc Data),
          (xs.map Prod.snd)[i]? = some te → turns[i]? = some turn → te.id ≠ aeDeletedEventId →
            (∀ turn ∈ turns, .delete te.id ∉ turn.ops) →
              ((loop.forced now te).IsDue turn.now →
                  te.id ∈ firedIds calls ∧ (loop.forced now te).settle turn ∈ xs'.map Prod.snd)
                ∧ (¬ (loop.forced now te).IsDue turn.now →
                  te.id ∉ firedIds calls ∧ loop.forced now te ∈ xs'.map Prod.snd) := by
  obtain ⟨loop', fresh, kept, gone, lost', hloop', hholds, -, hkept, -, -, -, -⟩ :=
    processTimeEvents_spec h now turns hturns
  have hlive := liveIds_start loop now (xs.map Prod.snd)
  refine ⟨loop', _, fresh ++ kept, lost', hloop', hholds, ?_,
    fun i te turn hte hturn hid hops => ?_⟩
  · rw [← hlive]
    exact Pass.firedIds_sublist
  · have hrest : (Pass.start loop.timeEventNextId loop.lastTime now (xs.map Prod.snd)).rest[i]?
        = some (loop.forced now te) := by
      unfold Pass.start forced
      dsimp only
      split
      · rw [List.getElem?_map, hte]
        rfl
      · exact hte
    have hforced : (loop.forced now te).id = te.id := by
      unfold forced
      split
      · rfl
      · rfl
    have hnodup := h.nodup_liveIds
    rw [← hlive] at hnodup
    have hcomes := Pass.turn_comes hrest hturn (hforced ▸ hid) hnodup (hforced.symm ▸ hops)
    rw [hkept, hforced] at hcomes
    rw [List.map_append]
    exact ⟨fun hdue => ⟨(hcomes.1 hdue).1, List.mem_append_right _ (hcomes.1 hdue).2⟩,
      fun hdue => ⟨(hcomes.2 hdue).1, List.mem_append_right _ (hcomes.2 hdue).2⟩⟩

/-- **The turn of a pass that is a timer's own**: the one at its place in the list. -/
def OwnTurn (loop : TimeLoop Proc Data) (te : AeTimeEvent Proc Data)
    (turns : List (Turn Proc Data)) (turn : Turn Proc Data) : Prop :=
  ∃ (xs : List (ℕ × AeTimeEvent Proc Data)) (lost : List ℕ) (i : ℕ),
    loop.Holds xs lost ∧ (xs.map Prod.snd)[i]? = some te ∧ turns[i]? = some turn

/-- A timer in the list has one. -/
theorem Holds.exists_ownTurn (h : loop.Holds xs lost) (hte : te ∈ xs.map Prod.snd)
    {turns : List (Turn Proc Data)} (hturns : xs.length ≤ turns.length) :
    ∃ turn, loop.OwnTurn te turns turn := by
  obtain ⟨i, hi, hxi⟩ := List.mem_iff_getElem.mp hte
  have hlength : i < turns.length := by
    rw [List.length_map] at hi
    exact hi.trans_le hturns
  exact ⟨turns[i], xs, lost, i, h, List.getElem?_eq_some_iff.mpr ⟨hi, hxi⟩,
    List.getElem?_eq_getElem hlength⟩

/-- The list holds one thing. -/
theorem Holds.eq {xs' : List (ℕ × AeTimeEvent Proc Data)} {lost' : List ℕ}
    (h : loop.Holds xs lost) (h' : loop.Holds xs' lost') : xs = xs' := h.list.unique h'.list

/-- **A timer has its turn in a pass**, if the clock has not been set back. -/
theorem Holds.turn_of_pass (h : loop.Holds xs lost) (hlive : te.id ≠ aeDeletedEventId) {now : ℤ}
    {turns : List (Turn Proc Data)} (hturns : xs.length ≤ turns.length)
    (hclock : loop.lastTime ≤ now) (hops : ∀ turn ∈ turns, .delete te.id ∉ turn.ops) :
    ∃ loop' calls xs' lost', loop.processTimeEvents now turns = some (loop', calls)
      ∧ loop'.Holds xs' lost' ∧ (firedIds calls).Nodup
      ∧ ∀ turn, loop.OwnTurn te turns turn →
        (te.IsDue turn.now → te.id ∈ firedIds calls ∧ te.settle turn ∈ xs'.map Prod.snd)
          ∧ (¬ te.IsDue turn.now → te.id ∉ firedIds calls ∧ te ∈ xs'.map Prod.snd) := by
  obtain ⟨loop', calls, xs', lost', hloop', hholds, hsublist, hcomes⟩ :=
    fires_iff_of_pass h now turns hturns
  refine ⟨loop', calls, xs', lost', hloop', hholds, h.nodup_liveIds.sublist hsublist, ?_⟩
  rintro turn ⟨ys, gone, i, hys, hte, hturn⟩
  rw [← h.eq hys] at hte
  have hforced : loop.forced now te = te := if_neg hclock.not_gt
  have hown := hcomes i te turn hte hturn hlive hops
  rwa [hforced] at hown

end TimeLoop

/-! ## Runs -/

/-- What is done to the timers. -/
inductive TimeStep (Proc Data : Type) where
  /-- An operation, outside of a pass. -/
  | op (op : TimeOp Proc Data)
  /-- A pass, with what `time` returns. -/
  | pass (now : ℤ) (turns : List (Turn Proc Data))

namespace TimeLoop

variable {loop : TimeLoop Proc Data} {xs : List (ℕ × AeTimeEvent Proc Data)} {lost : List ℕ}
  {te : AeTimeEvent Proc Data}

/-- A step, with the calls of callbacks in it. -/
def step (loop : TimeLoop Proc Data) :
    TimeStep Proc Data → Option (TimeLoop Proc Data × List (TimerCall Proc Data))
  | .op op => (loop.perform op).map fun loop => (loop, [])
  | .pass now turns => loop.processTimeEvents now turns

/-- Where a step leads. -/
def next (loop : TimeLoop Proc Data) (step : TimeStep Proc Data) : Option (TimeLoop Proc Data) :=
  (loop.step step).map Prod.fst

theorem step_op {loop' : TimeLoop Proc Data} {op : TimeOp Proc Data}
    (h : loop.perform op = some loop') : loop.step (.op op) = some (loop', []) := by
  rw [step, h]
  rfl

theorem next_of_step {loop' : TimeLoop Proc Data} {step : TimeStep Proc Data}
    {calls : List (TimerCall Proc Data)} (h : loop.step step = some (loop', calls)) :
    loop.next step = some loop' := by
  rw [TimeLoop.next, h]
  rfl

/-- A step leads there. -/
def Next (loop : TimeLoop Proc Data) (step : TimeStep Proc Data) (loop' : TimeLoop Proc Data) :
    Prop := loop.next step = some loop'

/-- The environment contributes to every turn of a pass. -/
def Enough (loop : TimeLoop Proc Data) : TimeStep Proc Data → Prop
  | .op _ => True
  | .pass _ turns => ∀ xs lost, loop.Holds xs lost → xs.length ≤ turns.length

/-- **All memory in use is that of the list.** -/
def Tidy (loop : TimeLoop Proc Data) : Prop := ∃ xs, loop.Holds xs []

/-- A pass takes a timer out before it keeps any, and after some have been created in it. -/
def Drops (loop : TimeLoop Proc Data) : TimeStep Proc Data → Prop
  | .op _ => False
  | .pass now turns => ∃ xs lost, loop.Holds xs lost
      ∧ (Pass.start loop.timeEventNextId loop.lastTime now (xs.map Prod.snd)).Drops turns

/-- There is one thing the list holds, and so much is lost. -/
theorem Holds.unique {xs' : List (ℕ × AeTimeEvent Proc Data)} {lost' : List ℕ}
    (h : loop.Holds xs lost) (h' : loop.Holds xs' lost') : xs = xs' ∧ (lost = [] ↔ lost' = []) := by
  obtain rfl := h.eq h'
  refine ⟨rfl, ?_⟩
  have hmem : ∀ a, a ∈ lost ↔ a ∈ lost' := fun a =>
    ⟨fun ha => ((h'.cells a).mp ((h.cells a).mpr (Or.inr ha))).resolve_left (h.apart a ha),
      fun ha => ((h.cells a).mp ((h'.cells a).mpr (Or.inr ha))).resolve_left (h'.apart a ha)⟩
  rw [List.eq_nil_iff_forall_not_mem, List.eq_nil_iff_forall_not_mem]
  exact forall_congr' fun a => not_congr (hmem a)

theorem Holds.tidy_iff (h : loop.Holds xs lost) : loop.Tidy ↔ lost = [] :=
  ⟨fun ⟨_, h'⟩ => (h.unique h').2.mpr rfl, fun hlost => ⟨xs, hlost ▸ h⟩⟩

/-- **What a step does to the memory.** -/
theorem Holds.next (h : loop.Holds xs lost) {step : TimeStep Proc Data}
    (henough : loop.Enough step) :
    ∃ loop', loop.next step = some loop' ∧ (∃ xs' lost', loop'.Holds xs' lost')
      ∧ (loop'.Tidy ↔ loop.Tidy ∧ ¬ loop.Drops step) := by
  cases step with
  | op op =>
    obtain ⟨loop', zs, hloop', hholds, -, -, -⟩ := h.perform op
    refine ⟨loop', next_of_step (step_op hloop'), ⟨_, lost, hholds⟩, ?_⟩
    rw [hholds.tidy_iff, h.tidy_iff]
    exact (and_iff_left id).symm
  | pass now turns =>
    obtain ⟨loop', fresh, kept, gone, lost', hloop', hholds, -, -, -, -, hlost, hgone⟩ :=
      processTimeEvents_spec h now turns (henough xs lost h)
    have hdrops : loop.Drops (.pass now turns)
        ↔ (Pass.start loop.timeEventNextId loop.lastTime now (xs.map Prod.snd)).Drops turns :=
      ⟨fun ⟨_, _, h', hdrops⟩ => (h.unique h').1 ▸ hdrops, fun hdrops => ⟨xs, lost, h, hdrops⟩⟩
    refine ⟨loop', next_of_step hloop', ⟨fresh ++ kept, lost', hholds⟩, ?_⟩
    rw [hholds.tidy_iff, h.tidy_iff, hdrops, ← hgone, ← List.length_eq_zero_iff, hlost,
      Nat.add_eq_zero_iff, List.length_eq_zero_iff, List.length_eq_zero_iff]

/-- A run, with the calls of callbacks in each of its steps. -/
def run (loop : TimeLoop Proc Data) :
    List (TimeStep Proc Data) → Option (TimeLoop Proc Data × List (List (TimerCall Proc Data)))
  | [] => some (loop, [])
  | step :: steps => do
    let (loop, calls) ← loop.step step
    let (loop, later) ← run loop steps
    some (loop, calls :: later)

end TimeLoop

/-- **The timers as they are meant**, in the order of the list. -/
structure Agenda (Proc Data : Type) where
  /-- The next id. -/
  nextId : ℤ
  /-- When the last pass was. -/
  lastTime : ℤ
  /-- The timers. -/
  timers : List (AeTimeEvent Proc Data)

namespace Agenda

/-- There are none. -/
def new (now : ℤ) : Agenda Proc Data := ⟨0, now, []⟩

/-- A pass, from its start. -/
def start (a : Agenda Proc Data) (now : ℤ) : Pass Proc Data :=
  .start a.nextId a.lastTime now a.timers

/-- A step, with the calls of callbacks in it. -/
def step (a : Agenda Proc Data) : TimeStep Proc Data → Agenda Proc Data × List (TimerCall Proc Data)
  | .op op => (⟨a.nextId + op.ids, a.lastTime, op.made a.nextId ++ a.timers.map op.on⟩, [])
  | .pass now turns =>
    let s := (a.start now).run turns
    (⟨s.nextId, now, s.fresh ++ s.kept⟩, (a.start now).calls turns)

/-- A run, with the calls of callbacks in each of its steps. -/
def run (a : Agenda Proc Data) :
    List (TimeStep Proc Data) → Agenda Proc Data × List (List (TimerCall Proc Data))
  | [] => (a, [])
  | step :: steps =>
    let (a, calls) := a.step step
    let (a, later) := run a steps
    (a, calls :: later)

/-- A pass has a turn for every timer, and drops none. -/
def Takes (a : Agenda Proc Data) : TimeStep Proc Data → Prop
  | .op _ => True
  | .pass now turns => a.timers.length ≤ turns.length ∧ ¬ (a.start now).Drops turns

end Agenda

namespace TimeLoop

variable {loop loop' : TimeLoop Proc Data} {xs : List (ℕ × AeTimeEvent Proc Data)}
  {lost : List ℕ} {te : AeTimeEvent Proc Data} {a : Agenda Proc Data}

/-- **The list is the agenda**, and nothing is lost. -/
def Represents (loop : TimeLoop Proc Data) (a : Agenda Proc Data) : Prop :=
  ∃ xs, loop.Holds xs [] ∧ xs.map Prod.snd = a.timers ∧ loop.timeEventNextId = a.nextId
    ∧ loop.lastTime = a.lastTime

theorem Represents.enough_iff (h : loop.Represents a) {now : ℤ} {turns : List (Turn Proc Data)} :
    loop.Enough (.pass now turns) ↔ a.timers.length ≤ turns.length := by
  obtain ⟨xs, hholds, htimers, -, -⟩ := h
  rw [← htimers, List.length_map]
  exact ⟨fun henough => henough xs [] hholds,
    fun hlength xs' lost' hholds' => (hholds.unique hholds').1 ▸ hlength⟩

theorem Represents.drops_iff (h : loop.Represents a) {now : ℤ} {turns : List (Turn Proc Data)} :
    loop.Drops (.pass now turns) ↔ (a.start now).Drops turns := by
  obtain ⟨xs, hholds, htimers, hnext, hlast⟩ := h
  unfold Agenda.start
  rw [← htimers, ← hnext, ← hlast]
  exact ⟨fun ⟨xs', lost', hholds', hdrops⟩ => (hholds'.unique hholds).1 ▸ hdrops,
    fun hdrops => ⟨xs, [], hholds, hdrops⟩⟩

/-- **A step is taken as it is meant**, unless it drops a timer. -/
theorem Represents.step (h : loop.Represents a) {step : TimeStep Proc Data}
    (htakes : a.Takes step) :
    ∃ loop', loop.step step = some (loop', (a.step step).2) ∧ loop'.Represents (a.step step).1 := by
  cases step with
  | op op =>
    obtain ⟨xs, hholds, htimers, hnext, hlast⟩ := h
    obtain ⟨loop', zs, hloop', hholds', hzs, hnext', hlast'⟩ := hholds.perform op
    refine ⟨loop', step_op hloop', zs ++ mapValues op.on xs, hholds', ?_, ?_, hlast'.trans hlast⟩
    · rw [List.map_append, map_snd_mapValues, hzs, htimers, hnext]
      rfl
    · rw [hnext', hnext]
      rfl
  | pass now turns =>
    have henough : loop.Enough (.pass now turns) := h.enough_iff.mpr htakes.1
    have hdrops := mt h.drops_iff.mp htakes.2
    obtain ⟨xs, hholds, htimers, hnext, hlast⟩ := h
    obtain ⟨loop', fresh, kept, gone, lost', hloop', hholds', hfresh, hkept, hnext', hlast', hlost,
      hgone⟩ := processTimeEvents_spec hholds now turns (henough xs [] hholds)
    have hnone : gone = [] := hgone.mpr fun hdrop => hdrops ⟨xs, [], hholds, hdrop⟩
    rw [hnone] at hlost hfresh
    obtain rfl := List.length_eq_zero_iff.mp hlost
    rw [htimers, hnext, hlast] at hloop' hfresh hkept hnext'
    refine ⟨loop', hloop', fresh ++ kept, hholds', ?_, hnext', hlast'⟩
    rw [List.map_append, ← hkept, ← List.append_nil (fresh.map Prod.snd), ← hfresh]
    rfl

theorem Represents.run {steps : List (TimeStep Proc Data)} (h : loop.Represents a)
    (hrun : Along (fun a step a' => (a.step step).1 = a') Agenda.Takes a steps) :
    ∃ loop', loop.run steps = some (loop', (a.run steps).2)
      ∧ loop'.Represents (a.run steps).1 := by
  induction steps generalizing loop a with
  | nil => exact ⟨loop, rfl, h⟩
  | cons step steps ih =>
    obtain ⟨loop₁, hstep, h₁⟩ := h.step hrun.1
    obtain ⟨loop', hloop', h'⟩ := ih h₁ (hrun.2 _ rfl)
    refine ⟨loop', ?_, h'⟩
    rw [TimeLoop.run, hstep, Option.bind_eq_bind, Option.bind_some]
    dsimp only
    rw [hloop']
    rfl

theorem represents_aeCreateEventLoop (now : ℤ) :
    (aeCreateEventLoop now : TimeLoop Proc Data).Represents (.new now) :=
  ⟨[], holds_aeCreateEventLoop now, rfl, rfl, rfl⟩

/-- **A run is what it is meant to be**, if no pass of it drops a timer: the same callbacks are
called in every step, and the list is the same in the end. -/
theorem represents_of_run (now : ℤ) {steps : List (TimeStep Proc Data)}
    (hrun : Along (fun a step a' => (a.step step).1 = a') Agenda.Takes (Agenda.new now) steps) :
    ∃ loop', (aeCreateEventLoop now).run steps = some (loop', ((Agenda.new now).run steps).2)
      ∧ loop'.Represents ((Agenda.new now).run steps).1 :=
  (represents_aeCreateEventLoop now).run hrun

/-- Some `zmalloc`. -/
noncomputable def anyZmalloc : Zmalloc Unit Unit where
  address m := Classical.epsilon fun a => m a = none
  free _ h := Classical.epsilon_spec h

/-- A timer is created at midnight. -/
noncomputable def createAt (milliseconds : ℤ) (finalizerProc : Option Unit) : TimeOp Unit Unit :=
  .create ⟨0, 0⟩ (some anyZmalloc) milliseconds () () finalizerProc

/-- What is contributed to a turn at a time, with a `timeProc` that is not to be called again. -/
def turnAt (sec : ℤ) (ops : List (TimeOp Unit Unit)) : Turn Unit Unit :=
  ⟨⟨sec, 0⟩, ops, aeNoMore, ⟨sec, 0⟩⟩

/-- Two timers are created, the first one for two seconds and the second one for one. -/
noncomputable def createTwo : List (TimeStep Unit Unit) :=
  [.op (createAt 2000 none), .op (createAt 1000 none)]

/-- The timer for two seconds. -/
def older : AeTimeEvent Unit Unit := ⟨0, 2, 0, (), none, ()⟩

/-- The timer for one second. -/
def newer : AeTimeEvent Unit Unit := ⟨1, 1, 0, (), none, ()⟩

/-- A pass in which both have their turn. -/
theorem takes_createTwo :
    Agenda.Takes ⟨2, 0, [newer, older]⟩ (.pass 1 [turnAt 1 [], turnAt 1 []]) := by
  refine ⟨le_rfl, ?_⟩
  rintro (⟨hdeleted, -⟩ | ⟨hdeleted, -⟩ | hdrops)
  · exact absurd hdeleted (by decide)
  · exact absurd hdeleted (by decide)
  · exact hdrops

/-- The newer of the two is called in the first pass and freed in the second, in which the older
one is called, which is freed in the third. -/
theorem represents_of_run_twoTimers :
    ∃ loop', (aeCreateEventLoop 0).run
        (createTwo ++ [.pass 1 [turnAt 1 [], turnAt 1 []], .pass 2 [turnAt 2 [], turnAt 2 []],
          .pass 3 [turnAt 3 []]])
        = some (loop', [[], [], [.timeProc () 1 ()], [.timeProc () 0 ()], []])
      ∧ loop'.Represents ⟨2, 3, []⟩ := by
  have hrun : Along (fun a step a' => (a.step step).1 = a') Agenda.Takes (Agenda.new 0)
      (createTwo ++ [.pass 1 [turnAt 1 [], turnAt 1 []], .pass 2 [turnAt 2 [], turnAt 2 []],
        .pass 3 [turnAt 3 []]]) := by
    refine ⟨trivial, ?_⟩
    rintro _ rfl
    refine ⟨trivial, ?_⟩
    rintro _ rfl
    refine ⟨takes_createTwo, ?_⟩
    rintro _ rfl
    refine ⟨⟨le_rfl, ?_⟩, ?_⟩
    · rintro (⟨-, -, hfresh⟩ | ⟨hdeleted, -⟩ | hdrops)
      · exact hfresh rfl
      · exact absurd hdeleted (by decide)
      · exact hdrops
    rintro _ rfl
    refine ⟨⟨le_rfl, ?_⟩, fun _ _ => trivial⟩
    rintro (⟨-, -, hfresh⟩ | hdrops)
    · exact hfresh rfl
    · exact hdrops
  exact represents_of_run 0 hrun

/-- A step that is taken leads somewhere. -/
theorem Represents.exists_next (h : loop.Represents a) (step : TimeStep Proc Data)
    (htakes : a.Takes step) : ∃ loop', Next loop step loop' ∧ loop'.Represents (a.step step).1 := by
  obtain ⟨loop', hstep, h'⟩ := h.step htakes
  exact ⟨loop', next_of_step hstep, h'⟩

/-- It leads nowhere else. -/
theorem Represents.of_next (h : loop.Represents a) {step : TimeStep Proc Data}
    (hnext : Next loop step loop') (htakes : a.Takes step) : loop'.Represents (a.step step).1 := by
  obtain ⟨loop₁, hnext₁, h₁⟩ := h.exists_next step htakes
  exact Option.some.inj (hnext₁.symm.trans hnext) ▸ h₁

/-- The two timers are in the list. -/
theorem exists_createTwo :
    ∃ loop, createTwo.foldlM TimeLoop.next (aeCreateEventLoop 0) = some loop
      ∧ loop.Represents ⟨2, 0, [newer, older]⟩ := by
  obtain ⟨loop₁, hnext₁, h₁⟩ := (represents_aeCreateEventLoop 0).exists_next
    (.op (createAt 2000 none)) trivial
  obtain ⟨loop₂, hnext₂, h₂⟩ := h₁.exists_next (.op (createAt 1000 none)) trivial
  have hrun : createTwo.foldlM TimeLoop.next (aeCreateEventLoop 0) = some loop₂ := by
    rw [createTwo, List.foldlM_cons, hnext₁]
    show List.foldlM _ _ _ = _
    rw [List.foldlM_cons, hnext₂]
    rfl
  exact ⟨loop₂, hrun, h₂⟩

/-- **No timer is lost in a run** exactly if no pass of it drops one. Every run has a result: it
comes to no cell that has been freed, and to the end of every list. -/
theorem tidy_iff_of_run (now : ℤ) {steps : List (TimeStep Proc Data)}
    (henough : Along Next Enough (aeCreateEventLoop now) steps) :
    ∃ loop', steps.foldlM next (aeCreateEventLoop now) = some loop'
      ∧ (∃ xs lost, loop'.Holds xs lost)
      ∧ (loop'.Tidy ↔ Along Next (fun loop step => ¬ loop.Drops step)
          (aeCreateEventLoop now) steps) := by
  have hstep : ∀ (loop : TimeLoop Proc Data) (step : TimeStep Proc Data),
      (∃ xs lost, loop.Holds xs lost) → loop.Enough step →
        ∃ loop', loop.next step = some loop' ∧ (∃ xs lost, loop'.Holds xs lost)
          ∧ (loop'.Tidy ↔ loop.Tidy ∧ ¬ loop.Drops step) :=
    fun loop step ⟨xs, lost, h⟩ henough => h.next henough
  obtain ⟨loop', hloop', hholds, htidy⟩ :=
    good_iff_along hstep ⟨[], [], holds_aeCreateEventLoop now⟩ henough
  exact ⟨loop', hloop', hholds, htidy.trans (and_iff_right ⟨[], holds_aeCreateEventLoop now⟩)⟩

/-- A run of one step. -/
theorem next_of_foldlM {step : TimeStep Proc Data}
    (h : [step].foldlM TimeLoop.next loop = some loop') : Next loop step loop' := by
  rw [List.foldlM_cons] at h
  obtain ⟨loop₁, hnext, hdone⟩ := Option.bind_eq_some_iff.mp h
  exact Option.some.inj hdone ▸ hnext

/-- Two timers with finalizers are deleted, and the finalizer of the first one in the list creates
a timer. -/
noncomputable def dropping : List (TimeStep Unit Unit) :=
  [.op (createAt 1000 (some ())), .op (createAt 1000 (some ())), .op (.delete 0), .op (.delete 1),
    .pass 1 [turnAt 1 [createAt 1000 none], turnAt 1 []]]

/-- It is lost. -/
theorem tidy_iff_of_run_dropping :
    ∃ loop', dropping.foldlM next (aeCreateEventLoop 0) = some loop' ∧ ¬ loop'.Tidy := by
  have h : (aeCreateEventLoop 0 : TimeLoop Unit Unit).Represents (.new 0) :=
    represents_aeCreateEventLoop 0
  have henough : Along Next Enough (aeCreateEventLoop 0) dropping :=
    ⟨trivial, fun loop₁ h₁ => ⟨trivial, fun loop₂ h₂ => ⟨trivial, fun loop₃ h₃ =>
      ⟨trivial, fun loop₄ h₄ => ⟨((((h.of_next h₁ trivial).of_next h₂ trivial).of_next h₃
        trivial).of_next h₄ trivial).enough_iff.mpr le_rfl, fun _ _ => trivial⟩⟩⟩⟩⟩
  obtain ⟨loop', hloop', -, htidy⟩ := tidy_iff_of_run 0 henough
  refine ⟨loop', hloop', fun hclean => ?_⟩
  have hnone := htidy.mp hclean
  obtain ⟨loop₁, hnext₁, h₁⟩ := h.exists_next (.op (createAt 1000 (some ()))) trivial
  obtain ⟨loop₂, hnext₂, h₂⟩ := h₁.exists_next (.op (createAt 1000 (some ()))) trivial
  obtain ⟨loop₃, hnext₃, h₃⟩ := h₂.exists_next (.op (.delete 0)) trivial
  obtain ⟨loop₄, hnext₄, h₄⟩ := h₃.exists_next (.op (.delete 1)) trivial
  have hpass := ((((hnone.2 loop₁ hnext₁).2 loop₂ hnext₂).2 loop₃ hnext₃).2 loop₄ hnext₄).1
  exact hpass (h₄.drops_iff.mpr (Or.inr (Or.inl ⟨rfl, rfl, List.cons_ne_nil _ _⟩)))

/-- The step leaves a timer alone: it is not deleted, and not due at its turn. -/
def Spares (te : AeTimeEvent Proc Data) (loop : TimeLoop Proc Data) :
    TimeStep Proc Data → Prop
  | .op op => op ≠ .delete te.id
  | .pass now turns =>
    loop.lastTime ≤ now ∧ (∀ turn ∈ turns, .delete te.id ∉ turn.ops)
      ∧ ∀ turn, loop.OwnTurn te turns turn → ¬ te.IsDue turn.now

/-- The ids of the timers that are called in a step. -/
def firedIn (loop : TimeLoop Proc Data) (step : TimeStep Proc Data) : List ℤ :=
  (loop.step step).elim [] fun r => firedIds r.2

/-- **A timer that is left alone** is there afterwards, and is not called. -/
theorem next_of_spares (hholds : ∃ xs lost, loop.Holds xs lost ∧ te ∈ xs.map Prod.snd)
    (hlive : te.id ≠ aeDeletedEventId) {step : TimeStep Proc Data} (henough : loop.Enough step)
    (hspares : loop.Spares te step) :
    ∃ loop', loop.next step = some loop'
      ∧ (∃ xs lost, loop'.Holds xs lost ∧ te ∈ xs.map Prod.snd)
      ∧ te.id ∉ loop.firedIn step := by
  obtain ⟨xs, lost, h, hte⟩ := hholds
  cases step with
  | op op =>
    obtain ⟨loop', zs, hloop', hholds', -, -, -⟩ := h.perform op
    have hstep := step_op hloop'
    refine ⟨loop', next_of_step hstep, ⟨_, lost, hholds', ?_⟩, ?_⟩
    · have hon : TimeOp.onAll [op] te = te :=
        TimeOp.onAll_of_not_mem fun hmem => hspares (List.mem_singleton.mp hmem).symm
      rw [List.map_append, map_snd_mapValues]
      exact List.mem_append_right _ (List.mem_map.mpr ⟨te, hte, hon⟩)
    · rw [firedIn, hstep]
      exact List.not_mem_nil
  | pass now turns =>
    obtain ⟨hclock, hops, hwaits⟩ := hspares
    obtain ⟨turn, hturn⟩ := h.exists_ownTurn hte (henough xs lost h)
    obtain ⟨loop', calls, xs', lost', hloop', hholds', -, hown⟩ :=
      h.turn_of_pass hlive (henough xs lost h) hclock hops
    obtain ⟨hnot, hstays⟩ := (hown turn hturn).2 (hwaits turn hturn)
    refine ⟨loop', next_of_step hloop', ⟨xs', lost', hholds', hstays⟩, ?_⟩
    rw [firedIn, TimeLoop.step, hloop']
    exact hnot

/-- **A timer is called on time**: in the first pass in which it is due at its turn, once and not
before, whatever is done to the other timers meanwhile. Then it is due again in as many
milliseconds as its `timeProc` has returned, or marked. -/
theorem called_of_run (h : loop.Holds xs lost) (hte : te ∈ xs.map Prod.snd)
    (hlive : te.id ≠ aeDeletedEventId) {steps : List (TimeStep Proc Data)}
    (hrun : Along Next (fun loop step => loop.Enough step ∧ loop.Spares te step) loop steps) :
    ∃ loop', steps.foldlM next loop = some loop'
      ∧ Along Next (fun loop step => te.id ∉ loop.firedIn step) loop steps
      ∧ ∀ (now : ℤ) (turns : List (Turn Proc Data)), loop'.Enough (.pass now turns) →
        loop'.lastTime ≤ now → (∀ turn ∈ turns, .delete te.id ∉ turn.ops) →
          (∃ turn, loop'.OwnTurn te turns turn)
            ∧ ∀ turn, loop'.OwnTurn te turns turn → te.IsDue turn.now →
              ∃ loop'' calls xs'' lost'', loop'.processTimeEvents now turns = some (loop'', calls)
                ∧ (firedIds calls).count te.id = 1 ∧ loop''.Holds xs'' lost''
                ∧ te.settle turn ∈ xs''.map Prod.snd := by
  obtain ⟨loop', hloop', ⟨xs', lost', h', hte'⟩, hwaits⟩ := exists_run_of_along
    (I := fun loop => ∃ xs lost, loop.Holds xs lost ∧ te ∈ xs.map Prod.snd)
    (fun loop step hholds hstep => next_of_spares hholds hlive hstep.1 hstep.2)
    ⟨xs, lost, h, hte⟩ hrun
  refine ⟨loop', hloop', hwaits, fun now turns henough hclock hops => ?_⟩
  have hturns := henough xs' lost' h'
  refine ⟨h'.exists_ownTurn hte' hturns, fun turn hturn hdue => ?_⟩
  obtain ⟨loop'', calls, xs'', lost'', hloop'', hholds, hnodup, hown⟩ :=
    h'.turn_of_pass hlive hturns hclock hops
  obtain ⟨hcalled, hsettled⟩ := (hown turn hturn).1 hdue
  exact ⟨loop'', calls, xs'', lost'', hloop'', List.count_eq_one_of_mem hnodup hcalled, hholds,
    hsettled⟩

/-- Of the two timers the older one is not called after one second, and is called in the second
pass, after the turn of the other one, at which it is not due. -/
theorem called_of_run_twoTimers :
    ∃ loop loop', createTwo.foldlM next (aeCreateEventLoop 0) = some loop
      ∧ Next loop (.pass 1 [turnAt 1 [], turnAt 1 []]) loop'
      ∧ 0 ∉ loop.firedIn (.pass 1 [turnAt 1 [], turnAt 1 []])
      ∧ ∃ loop'' calls, loop'.processTimeEvents 2 [turnAt 1 [], turnAt 2 []] = some (loop'', calls)
        ∧ (firedIds calls).count 0 = 1 := by
  obtain ⟨loop, hloop, h⟩ := exists_createTwo
  obtain ⟨xs, hholds, htimers, -, hlast⟩ := id h
  have hte : older ∈ xs.map Prod.snd := htimers ▸ List.mem_cons_of_mem _ List.mem_cons_self
  have hspares : loop.Spares older (.pass 1 [turnAt 1 [], turnAt 1 []]) := by
    refine ⟨hlast.trans_le (by decide), by simp [turnAt], ?_⟩
    rintro turn ⟨ys, gone, i, -, -, hturn⟩
    have hsame : turn = turnAt 1 [] := by
      simpa using List.mem_of_getElem? hturn
    exact hsame ▸ by decide
  have hrun : Along Next (fun loop step => loop.Enough step ∧ loop.Spares older step) loop
      [.pass 1 [turnAt 1 [], turnAt 1 []]] :=
    ⟨⟨h.enough_iff.mpr le_rfl, hspares⟩, fun _ _ => trivial⟩
  obtain ⟨loop', hloop', hnot, hcalled⟩ := called_of_run hholds hte (by decide) hrun
  have hnext' := next_of_foldlM hloop'
  have h' := h.of_next hnext' takes_createTwo
  obtain ⟨xs', hholds', htimers', -, hlast'⟩ := id h'
  obtain ⟨loop'', calls, -, -, hloop'', hcount, -⟩ := (hcalled 2 [turnAt 1 [], turnAt 2 []]
    (h'.enough_iff.mpr le_rfl) (hlast'.trans_le (by decide)) (by simp [turnAt])).2 (turnAt 2 [])
    ⟨xs', [], 1, hholds', htimers' ▸ rfl, rfl⟩ (by decide)
  exact ⟨loop, loop', hloop, hnext', hnot.1, loop'', calls, hloop'', hcount⟩

end TimeLoop

end Ae
