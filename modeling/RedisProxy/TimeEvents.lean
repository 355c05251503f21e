import RedisProxy.EventTable
import RedisProxy.Library.LinkedList
import Mathlib.Data.Fintype.EquivFin

/-!
# Time events

`ae.c` keeps its timers in a linked list. `aeCreateTimeEvent` puts a new one in front;
`aeDeleteTimeEvent` only marks one, as the list may just be gone through, and
`processTimeEvents` takes those out that are marked, calls their finalizers, and calls what
is due. What it calls may create and delete timers meanwhile.

The list is in memory (`TimeLoop.memory`), and every access to a cell that is not there is
without a result. `Holds` says what the list holds and what is lost, which is in memory
but not in the list any more; `Holds.perform` is what the operations do to it. Time is told
in seconds and milliseconds, and `int`s and `long`s are not exceeded by it.
-/

namespace Ae

open LinkedList

/-! ## Timers -/

/-- What `aeGetTime` tells. -/
structure Time where
  sec : ℤ
  ms : ℤ
  deriving DecidableEq

/-- `AE_DELETED_EVENT_ID`. -/
def aeDeletedEventId : ℤ := -1

/-- `AE_NOMORE`. -/
def aeNoMore : ℤ := -1

/-- `aeTimeEvent`, apart from `next`. -/
structure AeTimeEvent (Proc Data : Type) where
  /-- `id`. -/
  id : ℤ
  /-- `when_sec`. -/
  whenSec : ℤ
  /-- `when_ms`. -/
  whenMs : ℤ
  /-- `timeProc`. -/
  timeProc : Proc
  /-- `finalizerProc`; `none` is `NULL`. -/
  finalizerProc : Option Proc
  /-- `clientData`. -/
  clientData : Data

/-- `aeAddMillisecondsToNow`. Division rounds towards zero. -/
def aeAddMillisecondsToNow (now : Time) (milliseconds : ℤ) : Time :=
  let whenSec := now.sec + milliseconds.tdiv 1000
  let whenMs := now.ms + milliseconds.tmod 1000
  if whenMs ≥ 1000 then ⟨whenSec + 1, whenMs - 1000⟩ else ⟨whenSec, whenMs⟩

variable {Proc Data : Type}

namespace AeTimeEvent

/-- A timer that `aeDeleteTimeEvent` has marked. -/
def markDeleted (te : AeTimeEvent Proc Data) : AeTimeEvent Proc Data :=
  { te with id := aeDeletedEventId }

/-- A timer with another time. -/
def setWhen (te : AeTimeEvent Proc Data) (time : Time) : AeTimeEvent Proc Data :=
  { te with whenSec := time.sec, whenMs := time.ms }

/-- A timer after the clock has been set back. -/
def forceDue (te : AeTimeEvent Proc Data) : AeTimeEvent Proc Data := { te with whenSec := 0 }

/-- Whether its time has come. -/
def IsDue (te : AeTimeEvent Proc Data) (now : Time) : Prop :=
  now.sec > te.whenSec ∨ now.sec = te.whenSec ∧ now.ms ≥ te.whenMs

instance (te : AeTimeEvent Proc Data) (now : Time) : Decidable (te.IsDue now) :=
  inferInstanceAs (Decidable (_ ∨ _))

end AeTimeEvent

/-- `aeEventLoop`, as far as it is about time, with the memory the timers are in. -/
structure TimeLoop (Proc Data : Type) where
  /-- `timeEventNextId`. -/
  timeEventNextId : ℤ
  /-- `lastTime`. -/
  lastTime : ℤ
  /-- `timeEventHead`. -/
  timeEventHead : Option ℕ
  /-- The timers that have been allocated and not been freed. -/
  memory : Memory ℕ (AeTimeEvent Proc Data)

/-- **`zmalloc`, where it succeeds**: it returns memory that is not in use, whichever that
may be. -/
structure Zmalloc (Proc Data : Type) where
  address : Memory ℕ (AeTimeEvent Proc Data) → ℕ
  free : ∀ m : Memory ℕ (AeTimeEvent Proc Data), (∃ a, m a = none) → m (address m) = none

/-! ## The operations -/

namespace TimeLoop

/-- `aeCreateEventLoop`, with what `time` returns. -/
def aeCreateEventLoop (now : ℤ) : TimeLoop Proc Data := ⟨0, now, none, fun _ => none⟩

/-- So many turns a loop through the timers takes at most: there are no more timers than
ids have been given out. -/
def rounds (loop : TimeLoop Proc Data) : ℕ := loop.timeEventNextId.toNat

/-- `aeCreateTimeEvent`; `zmalloc` may return `NULL`. -/
def aeCreateTimeEvent (loop : TimeLoop Proc Data) (now : Time)
    (zmalloc : Option (Zmalloc Proc Data)) (milliseconds : ℤ) (timeProc : Proc)
    (clientData : Data) (finalizerProc : Option Proc) : TimeLoop Proc Data × ℤ :=
  let id := loop.timeEventNextId
  let loop := { loop with timeEventNextId := id + 1 }
  match zmalloc with
  | none => (loop, -1)
  | some zmalloc =>
    let te := zmalloc.address loop.memory
    let time := aeAddMillisecondsToNow now milliseconds
    ({ loop with
        memory := Function.update loop.memory te
          (some ⟨⟨id, time.sec, time.ms, timeProc, finalizerProc, clientData⟩, loop.timeEventHead⟩)
        timeEventHead := some te }, id)

/-- The cell at an address has been written to. -/
def modify (loop : TimeLoop Proc Data) (a : ℕ)
    (f : AeTimeEvent Proc Data → AeTimeEvent Proc Data) : Option (TimeLoop Proc Data) := do
  let te ← loop.memory a
  some { loop with memory := Function.update loop.memory a (some { te with value := f te.value }) }

/-- `aeDeleteTimeEvent`. -/
def aeDeleteTimeEvent (loop : TimeLoop Proc Data) (id : ℤ) :
    Option (TimeLoop Proc Data × AeStatus) := do
  match ← search loop.memory (fun te => te.id = id) loop.rounds loop.timeEventHead with
  | some te => some (← loop.modify te AeTimeEvent.markDeleted, .ok)
  | none => some (loop, .err)

/-- `aeSearchNearestTimer`. -/
def aeSearchNearestTimer (loop : TimeLoop Proc Data) :
    Option (Option (ℕ × AeTimeEvent Proc Data)) :=
  foldCells loop.memory
    (fun nearest te =>
      match nearest with
      | none => some te
      | some nearest =>
        if te.2.whenSec < nearest.2.whenSec
            ∨ te.2.whenSec = nearest.2.whenSec ∧ te.2.whenMs < nearest.2.whenMs
        then some te
        else some nearest)
    loop.rounds loop.timeEventHead none

end TimeLoop

/-- What a callback may do to the timers, and what the environment contributes to it. -/
inductive TimeOp (Proc Data : Type) where
  | create (now : Time) (zmalloc : Option (Zmalloc Proc Data)) (milliseconds : ℤ)
      (timeProc : Proc) (clientData : Data) (finalizerProc : Option Proc)
  | delete (id : ℤ)

namespace TimeLoop

/-- An operation is performed. -/
def perform (loop : TimeLoop Proc Data) : TimeOp Proc Data → Option (TimeLoop Proc Data)
  | .create now zmalloc milliseconds timeProc clientData finalizerProc =>
    some (loop.aeCreateTimeEvent now zmalloc milliseconds timeProc clientData finalizerProc).1
  | .delete id => (loop.aeDeleteTimeEvent id).map Prod.fst

end TimeLoop

/-! ## A pass through the timers -/

/-- What the environment contributes to a turn of the loop. -/
structure Turn (Proc Data : Type) where
  /-- What the clock shows as it is tested whether the timer is due. -/
  now : Time
  /-- What its callback does, if one is called. -/
  ops : List (TimeOp Proc Data)
  /-- What its `timeProc` returns. -/
  retval : ℤ
  /-- What the clock shows after that. -/
  later : Time

/-- A call of a callback. -/
inductive TimerCall (Proc Data : Type) where
  | timeProc (proc : Proc) (id : ℤ) (clientData : Data)
  | finalizerProc (proc : Proc) (clientData : Data)

namespace AeTimeEvent

/-- The call of the finalizer, if there is one. -/
def finalizerCall (te : AeTimeEvent Proc Data) : List (TimerCall Proc Data) :=
  te.finalizerProc.toList.map fun proc => .finalizerProc proc te.clientData

/-- What is done about a timer after its `timeProc`. -/
def settle (te : AeTimeEvent Proc Data) (turn : Turn Proc Data) : AeTimeEvent Proc Data :=
  if turn.retval ≠ aeNoMore then te.setWhen (aeAddMillisecondsToNow turn.later turn.retval)
  else te.markDeleted

end AeTimeEvent

namespace TimeLoop

/-- A timer is taken out of the list. -/
def unlink (loop : TimeLoop Proc Data) (prev next : Option ℕ) : Option (TimeLoop Proc Data) :=
  match prev with
  | none => some { loop with timeEventHead := next }
  | some prev => do
    let te ← loop.memory prev
    some { loop with memory := Function.update loop.memory prev (some { te with next := next }) }

/-- `zfree`. -/
def zfree (loop : TimeLoop Proc Data) (a : ℕ) : TimeLoop Proc Data :=
  { loop with memory := Function.update loop.memory a none }

/-- The finalizer of a timer is called, if there is one. -/
def callFinalizer (loop : TimeLoop Proc Data) (te : AeTimeEvent Proc Data)
    (ops : List (TimeOp Proc Data)) : Option (TimeLoop Proc Data) :=
  if te.finalizerProc.isSome then ops.foldlM perform loop else some loop

/-- The loop of `processTimeEvents`, with the calls it makes. -/
def processLoop (maxId : ℤ) : List (Turn Proc Data) → TimeLoop Proc Data → Option ℕ →
    Option ℕ → Option (TimeLoop Proc Data × List (TimerCall Proc Data))
  | _, loop, _, none => some (loop, [])
  | [], _, _, some _ => none
  | turn :: turns, loop, prev, some a => do
    let te ← loop.memory a
    if te.value.id = aeDeletedEventId then
      let loop ← loop.unlink prev te.next
      let loop ← loop.callFinalizer te.value turn.ops
      let (loop, calls) ← processLoop maxId turns (loop.zfree a) prev te.next
      some (loop, te.value.finalizerCall ++ calls)
    else if te.value.id > maxId then processLoop maxId turns loop prev te.next
    else if te.value.IsDue turn.now then
      let id := te.value.id
      let loop ← turn.ops.foldlM perform loop
      let loop ← loop.modify a fun te => te.settle turn
      let next := (← loop.memory a).next
      let (loop, calls) ← processLoop maxId turns loop (some a) next
      some (loop, .timeProc te.value.timeProc id te.value.clientData :: calls)
    else processLoop maxId turns loop (some a) te.next

/-- If the clock has been set back, all timers are made due. -/
def detectSkew (loop : TimeLoop Proc Data) (now : ℤ) : Option (TimeLoop Proc Data) :=
  if now < loop.lastTime then do
    let memory ← modifyCells AeTimeEvent.forceDue loop.rounds loop.timeEventHead loop.memory
    some { loop with memory := memory }
  else some loop

/-- `processTimeEvents`, with what `time` returns. What it returns is the number of calls of a
`timeProc`. -/
def processTimeEvents (loop : TimeLoop Proc Data) (now : ℤ) (turns : List (Turn Proc Data)) :
    Option (TimeLoop Proc Data × List (TimerCall Proc Data)) := do
  let loop ← loop.detectSkew now
  let loop := { loop with lastTime := now }
  processLoop (loop.timeEventNextId - 1) turns loop none loop.timeEventHead

end TimeLoop

/-! ## What the operations do -/

namespace TimeOp

/-- How many ids it takes. -/
def ids : TimeOp Proc Data → ℤ
  | .create .. => 1
  | .delete _ => 0

/-- The timers it makes, with the next id. -/
def made (nextId : ℤ) : TimeOp Proc Data → List (AeTimeEvent Proc Data)
  | .create now zmalloc milliseconds timeProc clientData finalizerProc =>
    if zmalloc.isSome then
      let time := aeAddMillisecondsToNow now milliseconds
      [⟨nextId, time.sec, time.ms, timeProc, finalizerProc, clientData⟩]
    else []
  | .delete _ => []

/-- What becomes of a timer that is there. -/
def on : TimeOp Proc Data → AeTimeEvent Proc Data → AeTimeEvent Proc Data
  | .create .., te => te
  | .delete id, te => if te.id = id then te.markDeleted else te

/-- How many ids the operations take. -/
def idsOf : List (TimeOp Proc Data) → ℤ
  | [] => 0
  | op :: ops => op.ids + idsOf ops

/-- What becomes of a timer that is there. -/
def onAll (ops : List (TimeOp Proc Data)) (te : AeTimeEvent Proc Data) : AeTimeEvent Proc Data :=
  ops.foldl (fun te op => op.on te) te

/-- **The timers the operations make**, the last one first. -/
def madeBy : List (TimeOp Proc Data) → ℤ → List (AeTimeEvent Proc Data)
  | [], _ => []
  | op :: ops, nextId => madeBy ops (nextId + op.ids) ++ (op.made nextId).map (onAll ops)

/-- **A timer is marked if it is deleted**, and left alone otherwise. -/
theorem onAll_eq (ops : List (TimeOp Proc Data)) (te : AeTimeEvent Proc Data) :
    (.delete te.id ∈ ops ∧ onAll ops te = te.markDeleted)
      ∨ (.delete te.id ∉ ops ∧ onAll ops te = te) := by
  induction ops generalizing te with
  | nil => exact Or.inr ⟨nofun, rfl⟩
  | cons op ops ih =>
    have hcons : onAll (op :: ops) te = onAll ops (op.on te) := rfl
    rw [hcons]
    cases op with
    | create =>
      rcases ih te with ⟨hmem, hte⟩ | ⟨hmem, hte⟩
      · exact Or.inl ⟨List.mem_cons_of_mem _ hmem, hte⟩
      · refine Or.inr ⟨fun h => ?_, hte⟩
        cases h with
        | tail _ h => exact hmem h
    | delete id =>
      by_cases hid : te.id = id
      · have hon : (delete id).on te = te.markDeleted := if_pos hid
        rw [hon, hid]
        refine Or.inl ⟨List.mem_cons_self, ?_⟩
        rcases ih te.markDeleted with ⟨-, hte⟩ | ⟨-, hte⟩
        · exact hte
        · exact hte
      · have hon : (delete id).on te = te := if_neg hid
        rw [hon]
        rcases ih te with ⟨hmem, hte⟩ | ⟨hmem, hte⟩
        · exact Or.inl ⟨List.mem_cons_of_mem _ hmem, hte⟩
        · refine Or.inr ⟨fun h => ?_, hte⟩
          cases h with
          | head => exact hid rfl
          | tail _ h => exact hmem h

/-- It keeps its id, or is marked. -/
theorem id_onAll (ops : List (TimeOp Proc Data)) (te : AeTimeEvent Proc Data) :
    (onAll ops te).id = te.id ∨ (onAll ops te).id = aeDeletedEventId := by
  rcases onAll_eq ops te with ⟨-, hte⟩ | ⟨-, hte⟩
  · exact Or.inr (congrArg AeTimeEvent.id hte)
  · exact Or.inl (congrArg AeTimeEvent.id hte)

end TimeOp

namespace TimeLoop

/-- **What the list holds**, and what is lost: it is in memory, and not in the list. Ids
have been given out once, and of the timers that share one all are deleted. -/
structure Holds (loop : TimeLoop Proc Data) (xs : List (ℕ × AeTimeEvent Proc Data))
    (lost : List ℕ) : Prop where
  list : Segment loop.memory loop.timeEventHead xs none
  cells : ∀ a, loop.memory a ≠ none ↔ a ∈ xs.map Prod.fst ∨ a ∈ lost
  apart : ∀ a ∈ lost, a ∉ xs.map Prod.fst
  nodup : lost.Nodup
  length : (xs.length : ℤ) ≤ loop.timeEventNextId
  ids : ∀ x ∈ xs, aeDeletedEventId ≤ x.2.id ∧ x.2.id < loop.timeEventNextId
  distinct : xs.Pairwise fun x y => x.2.id = y.2.id → x.2.id = aeDeletedEventId

/-- There are none at first. -/
theorem holds_aeCreateEventLoop (now : ℤ) :
    (aeCreateEventLoop now : TimeLoop Proc Data).Holds [] [] where
  list := rfl
  cells _ := ⟨fun h => absurd rfl h, fun h => h.elim nofun nofun⟩
  apart _ ha := nomatch ha
  nodup := List.nodup_nil
  length := le_rfl
  ids _ hx := nomatch hx
  distinct := List.Pairwise.nil

variable {loop : TimeLoop Proc Data} {xs before after : List (ℕ × AeTimeEvent Proc Data)}
  {lost : List ℕ} {a : ℕ} {te : AeTimeEvent Proc Data}

namespace Holds

/-- Memory is never used up. -/
theorem exists_free (h : loop.Holds xs lost) : ∃ a, loop.memory a = none := by
  obtain ⟨a, ha⟩ := Infinite.exists_notMem_finset (xs.map Prod.fst ++ lost).toFinset
  rw [List.mem_toFinset, List.mem_append] at ha
  exact ⟨a, not_not.mp fun hne => ha ((h.cells a).mp hne)⟩

/-- There are turns enough to go through the list. -/
theorem length_le_rounds (h : loop.Holds xs lost) : xs.length ≤ loop.rounds :=
  Int.toNat_le_toNat h.length

/-- **A timer is written to**: it keeps its id, or is marked. -/
theorem modify (h : loop.Holds (before ++ (a, te) :: after) lost)
    (f : AeTimeEvent Proc Data → AeTimeEvent Proc Data)
    (hid : (f te).id = te.id ∨ (f te).id = aeDeletedEventId) :
    ∃ loop', loop.modify a f = some loop' ∧ loop'.Holds (before ++ (a, f te) :: after) lost
      ∧ loop'.timeEventNextId = loop.timeEventNextId ∧ loop'.lastTime = loop.lastTime := by
  obtain ⟨n, ha⟩ := h.list.cell (List.mem_append_right before List.mem_cons_self)
  have hfst : (before ++ (a, f te) :: after).map Prod.fst
      = (before ++ (a, te) :: after).map Prod.fst := by
    rw [List.map_append, List.map_append]
    rfl
  refine ⟨{ loop with memory := Function.update loop.memory a (some ⟨f te, n⟩) }, ?_, ?_, rfl, rfl⟩
  · unfold TimeLoop.modify
    rw [ha]
    rfl
  · constructor
    · exact h.list.setValue h.list.nodup ha
    · intro b
      rw [hfst, ← h.cells b]
      show Function.update loop.memory a _ b ≠ none ↔ _
      by_cases hb : b = a
      · rw [hb, Function.update_self, ha]
        exact iff_of_true nofun nofun
      · rw [Function.update_of_ne hb]
    · rw [hfst]
      exact h.apart
    · exact h.nodup
    · have hlength := h.length
      rw [List.length_append, List.length_cons] at hlength ⊢
      exact hlength
    · intro x hx
      rcases List.mem_append.mp hx with hx | hx
      · exact h.ids x (List.mem_append_left _ hx)
      · rcases List.mem_cons.mp hx with rfl | hx
        · have hte := h.ids (a, te) (List.mem_append_right before List.mem_cons_self)
          rcases hid with hid | hid
          · rw [hid]
            exact hte
          · rw [hid]
            exact ⟨le_rfl, hte.1.trans_lt hte.2⟩
        · exact h.ids x (List.mem_append_right before (List.mem_cons_of_mem _ hx))
    · have hdistinct := h.distinct
      rw [List.pairwise_append, List.pairwise_cons] at hdistinct ⊢
      obtain ⟨hbefore, ⟨hte, hafter⟩, hacross⟩ := hdistinct
      refine ⟨hbefore, ⟨fun y hy hsame => ?_, hafter⟩, fun x hx y hy hsame => ?_⟩
      · rcases hid with hid | hid
        · exact hid.trans (hte y hy (hid.symm.trans hsame))
        · exact hid
      · rcases List.mem_cons.mp hy with rfl | hy
        · rcases hid with hid | hid
          · exact hacross x hx (a, te) List.mem_cons_self (hsame.trans hid)
          · exact hsame.trans hid
        · exact hacross x hx y (List.mem_cons_of_mem _ hy) hsame

/-- **`aeCreateTimeEvent`** puts what it makes in front. -/
theorem create (h : loop.Holds xs lost) (now : Time) (zmalloc : Option (Zmalloc Proc Data))
    (milliseconds : ℤ) (timeProc : Proc) (clientData : Data) (finalizerProc : Option Proc) :
    ∃ zs : List (ℕ × AeTimeEvent Proc Data),
      (loop.aeCreateTimeEvent now zmalloc milliseconds timeProc clientData finalizerProc).1.Holds
          (zs ++ xs) lost
        ∧ zs.map Prod.snd
          = (TimeOp.create now zmalloc milliseconds timeProc clientData finalizerProc).made
            loop.timeEventNextId := by
  have hnonneg : 0 ≤ loop.timeEventNextId := (Int.natCast_nonneg _).trans h.length
  cases zmalloc with
  | none =>
    refine ⟨[], ⟨h.list, h.cells, h.apart, h.nodup, ?_, fun x hx => ?_, h.distinct⟩, rfl⟩
    · exact h.length.trans (Int.le_add_one le_rfl)
    · exact ⟨(h.ids x hx).1, Int.lt_add_one_of_le (h.ids x hx).2.le⟩
  | some zmalloc =>
    have hfree := zmalloc.free loop.memory h.exists_free
    generalize hte : zmalloc.address loop.memory = te at hfree
    have hunused : te ∉ xs.map Prod.fst ∧ te ∉ lost := by
      rw [← not_or, ← h.cells te, not_not]
      exact hfree
    refine ⟨[(te, ⟨loop.timeEventNextId, (aeAddMillisecondsToNow now milliseconds).sec,
      (aeAddMillisecondsToNow now milliseconds).ms, timeProc, finalizerProc, clientData⟩)],
      ?_, rfl⟩
    unfold aeCreateTimeEvent
    dsimp only
    rw [hte]
    constructor
    · exact h.list.cons hunused.1
    · intro b
      rw [List.singleton_append, List.map_cons, List.mem_cons, or_assoc, ← h.cells b]
      show Function.update loop.memory te _ b ≠ none ↔ _
      by_cases hb : b = te
      · rw [hb, Function.update_self]
        exact iff_of_true nofun (Or.inl rfl)
      · rw [Function.update_of_ne hb]
        exact ⟨Or.inr, fun h => h.resolve_left hb⟩
    · intro b hb hmem
      rcases List.mem_cons.mp hmem with rfl | hmem
      · exact hunused.2 hb
      · exact h.apart b hb hmem
    · exact h.nodup
    · have hlength := h.length
      rw [List.singleton_append, List.length_cons]
      show ((xs.length + 1 : ℕ) : ℤ) ≤ loop.timeEventNextId + 1
      omega
    · intro x hx
      rcases List.mem_cons.mp hx with rfl | hx
      · exact ⟨Int.le_trans (by decide) hnonneg, Int.lt_add_one_of_le le_rfl⟩
      · exact ⟨(h.ids x hx).1, Int.lt_add_one_of_le (h.ids x hx).2.le⟩
    · refine List.pairwise_cons.mpr ⟨fun y hy hsame => ?_, h.distinct⟩
      exact absurd hsame.symm (h.ids y hy).2.ne

/-- **`aeDeleteTimeEvent`** marks the timer with the id. -/
theorem delete (h : loop.Holds xs lost) (id : ℤ) :
    ∃ loop' status, loop.aeDeleteTimeEvent id = some (loop', status)
      ∧ loop'.Holds (mapValues (TimeOp.delete id).on xs) lost
      ∧ (status = .ok ↔ ∃ x ∈ xs, x.2.id = id)
      ∧ loop'.timeEventNextId = loop.timeEventNextId ∧ loop'.lastTime = loop.lastTime := by
  unfold aeDeleteTimeEvent
  rw [search_eq h.list h.length_le_rounds, Option.bind_eq_bind, Option.bind_some]
  cases hfind : xs.find? fun x => x.2.id = id with
  | none =>
    have hnone : ∀ x ∈ xs, x.2.id ≠ id := fun x hx =>
      of_decide_eq_false (Bool.eq_false_iff.mpr (List.find?_eq_none.mp hfind x hx))
    refine ⟨loop, .err, rfl, ?_, iff_of_false nofun fun ⟨x, hx, hid⟩ => hnone x hx hid, rfl, rfl⟩
    rwa [mapValues_eq_self fun x hx => if_neg (hnone x hx)]
  | some x =>
    obtain ⟨hx, before, after, rfl, hbefore⟩ := List.find?_eq_some_iff_append.mp hfind
    obtain ⟨a, te⟩ := x
    have hid : te.id = id := of_decide_eq_true hx
    obtain ⟨loop', hloop', hholds, hnext, hlast⟩ :=
      h.modify AeTimeEvent.markDeleted (Or.inr rfl)
    refine ⟨loop', .ok, ?_, ?_, ?_, hnext, hlast⟩
    · rw [Option.map_some]
      dsimp only
      rw [hloop']
      rfl
    · have hdistinct := (List.pairwise_cons.mp (List.pairwise_append.mp h.distinct).2.1).1
      have hon : (TimeOp.delete id).on te = te.markDeleted := if_pos hid
      rw [mapValues_append, mapValues_cons, hon, mapValues_eq_self, mapValues_eq_self]
      · exact hholds
      · -- what shares its id is marked already
        intro y hy
        by_cases hyid : y.2.id = id
        · have hdeleted := hdistinct y hy (hid.trans hyid.symm)
          rw [TimeOp.on, if_pos hyid, AeTimeEvent.markDeleted, ← hdeleted, hid, ← hyid]
        · exact if_neg hyid
      · intro y hy
        refine if_neg fun hyid => ?_
        exact absurd (hbefore y hy) (by rw [decide_eq_true hyid]; decide)
    · exact iff_of_true rfl ⟨(a, te), List.mem_append_right before List.mem_cons_self, hid⟩

/-- **What an operation does**: some timers come in front of those that were there. -/
theorem perform (h : loop.Holds xs lost) (op : TimeOp Proc Data) :
    ∃ loop' zs, loop.perform op = some loop' ∧ loop'.Holds (zs ++ mapValues op.on xs) lost
      ∧ zs.map Prod.snd = op.made loop.timeEventNextId
      ∧ loop'.timeEventNextId = loop.timeEventNextId + op.ids
      ∧ loop'.lastTime = loop.lastTime := by
  cases op with
  | create now zmalloc milliseconds timeProc clientData finalizerProc =>
    obtain ⟨zs, hholds, hzs⟩ :=
      h.create now zmalloc milliseconds timeProc clientData finalizerProc
    refine ⟨_, zs, rfl, ?_, hzs, ?_, ?_⟩
    · rwa [mapValues_eq_self fun _ _ => rfl]
    · cases zmalloc with
      | none => rfl
      | some zmalloc => rfl
    · cases zmalloc with
      | none => rfl
      | some zmalloc => rfl
  | delete id =>
    obtain ⟨loop', status, hloop', hholds, -, hnext, hlast⟩ := h.delete id
    refine ⟨loop', [], ?_, hholds, rfl, hnext.trans (Int.add_zero _).symm, hlast⟩
    rw [TimeLoop.perform, hloop']
    rfl

/-- **What a callback does.** -/
theorem performAll (h : loop.Holds xs lost) (ops : List (TimeOp Proc Data)) :
    ∃ loop' zs, ops.foldlM TimeLoop.perform loop = some loop'
      ∧ loop'.Holds (zs ++ mapValues (TimeOp.onAll ops) xs) lost
      ∧ zs.map Prod.snd = TimeOp.madeBy ops loop.timeEventNextId
      ∧ loop'.timeEventNextId = loop.timeEventNextId + TimeOp.idsOf ops
      ∧ loop'.lastTime = loop.lastTime := by
  induction ops generalizing loop xs with
  | nil =>
    refine ⟨loop, [], rfl, ?_, rfl, (Int.add_zero _).symm, rfl⟩
    rwa [mapValues_eq_self fun _ _ => rfl]
  | cons op ops ih =>
    obtain ⟨loop₁, zs₁, hloop₁, hholds₁, hzs₁, hnext₁, hlast₁⟩ := h.perform op
    obtain ⟨loop₂, zs₂, hloop₂, hholds₂, hzs₂, hnext₂, hlast₂⟩ := ih hholds₁
    refine ⟨loop₂, zs₂ ++ mapValues (TimeOp.onAll ops) zs₁, ?_, ?_, ?_, ?_, ?_⟩
    · rw [List.foldlM_cons, hloop₁]
      exact hloop₂
    · rw [mapValues_append, mapValues_mapValues] at hholds₂
      rw [List.append_assoc]
      exact hholds₂
    · rw [List.map_append, hzs₂, map_snd_mapValues, hzs₁, hnext₁]
      rfl
    · rw [hnext₂, hnext₁, Int.add_assoc]
      rfl
    · rw [hlast₂, hlast₁]

end Holds

end TimeLoop

end Ae
