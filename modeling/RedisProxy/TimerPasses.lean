import RedisProxy.TimeEvents

/-!
# Passes through the timers

`processTimeEvents` goes through a list that its callbacks change. `Pass` is what it is
meant to do, on the timers in their order: what a callback creates is put aside and not
called in the same pass, what is deleted is taken out when its turn comes, and what is due is
called and stays, with another time. The loop through the cells makes exactly the calls
of that (`processTimeEvents_spec`), for every behaviour of the callbacks, and never comes
to a cell that is not there; the comparison of ids that its comment calls useless is.

It keeps what it is meant to keep, with one exception. A cell that is taken out before
any is kept is taken out by setting `timeEventHead` to the one behind it; what a
finalizer has put in front meanwhile then is in front of nothing, and lost.
-/

namespace Ae

open LinkedList

variable {Proc Data : Type}

/-! ## What a pass is meant to do -/

/-- The calls made for a timer at its turn. -/
def AeTimeEvent.calls (te : AeTimeEvent Proc Data) (now : Time) : List (TimerCall Proc Data) :=
  if te.id = aeDeletedEventId then te.finalizerCall
  else if te.IsDue now then [.timeProc te.timeProc te.id te.clientData]
  else []

/-- **A pass**, on the way. -/
structure Pass (Proc Data : Type) where
  /-- The next id. -/
  nextId : ℤ
  /-- The timers created in the pass. -/
  fresh : List (AeTimeEvent Proc Data)
  /-- Those gone through and kept. -/
  kept : List (AeTimeEvent Proc Data)
  /-- Those yet to be gone through. -/
  rest : List (AeTimeEvent Proc Data)

namespace Pass

/-- A callback is called. -/
def callback (s : Pass Proc Data) (ops : List (TimeOp Proc Data)) : Pass Proc Data where
  nextId := s.nextId + TimeOp.idsOf ops
  fresh := TimeOp.madeBy ops s.nextId ++ s.fresh.map (TimeOp.onAll ops)
  kept := s.kept.map (TimeOp.onAll ops)
  rest := s.rest.map (TimeOp.onAll ops)

/-- A timer is kept. -/
def keep (s : Pass Proc Data) (te : AeTimeEvent Proc Data) : Pass Proc Data :=
  { s with kept := s.kept ++ [te] }

/-- The turn of a timer, where `s` is about the others. -/
def visit (s : Pass Proc Data) (turn : Turn Proc Data) (te : AeTimeEvent Proc Data) :
    Pass Proc Data :=
  if te.id = aeDeletedEventId then
    if te.finalizerProc.isSome then s.callback turn.ops else s
  else if te.IsDue turn.now then
    (s.callback turn.ops).keep ((TimeOp.onAll turn.ops te).settle turn)
  else s.keep te

/-- **Every timer has its turn.** -/
def run : List (Turn Proc Data) → Pass Proc Data → Pass Proc Data
  | [], s => s
  | turn :: turns, s =>
    match s.rest with
    | [] => s
    | te :: rest => run turns ({ s with rest := rest }.visit turn te)

/-- The calls made. -/
def calls : List (Turn Proc Data) → Pass Proc Data → List (TimerCall Proc Data)
  | [], _ => []
  | turn :: turns, s =>
    match s.rest with
    | [] => []
    | te :: rest => te.calls turn.now ++ calls turns ({ s with rest := rest }.visit turn te)

/-- **A timer is taken out** before any is kept, and after some have been created. -/
def Drops : List (Turn Proc Data) → Pass Proc Data → Prop
  | [], _ => False
  | turn :: turns, s =>
    match s.rest with
    | [] => False
    | te :: rest =>
      (te.id = aeDeletedEventId ∧ s.kept = [] ∧ s.fresh ≠ [])
        ∨ Drops turns ({ s with rest := rest }.visit turn te)

/-- **A pass from its start**: the clock may have been set back. -/
def start (nextId lastTime now : ℤ) (timers : List (AeTimeEvent Proc Data)) :
    Pass Proc Data where
  nextId := nextId
  fresh := []
  kept := []
  rest := if now < lastTime then timers.map AeTimeEvent.forceDue else timers

end Pass

/-! ## What is written to the cells -/

namespace TimeLoop

variable {loop loop' : TimeLoop Proc Data} {lost lost' : List ℕ} {a : ℕ}
  {xs ys fresh kept rest : List (ℕ × AeTimeEvent Proc Data)} {x b : ℕ × AeTimeEvent Proc Data}

namespace Holds

/-- What is left of a list. -/
theorem of_sublist (h : loop.Holds xs lost) (hsub : ys.Sublist xs)
    (hlist : Segment loop'.memory loop'.timeEventHead ys none)
    (hcells : ∀ a, loop'.memory a ≠ none ↔ a ∈ ys.map Prod.fst ∨ a ∈ lost')
    (hapart : ∀ a ∈ lost', a ∉ ys.map Prod.fst) (hnodup : lost'.Nodup)
    (hnext : loop'.timeEventNextId = loop.timeEventNextId) : loop'.Holds ys lost' where
  list := hlist
  cells := hcells
  apart := hapart
  nodup := hnodup
  length := by
    rw [hnext]
    exact (Int.ofNat_le.mpr hsub.length_le).trans h.length
  ids y hy := by
    rw [hnext]
    exact h.ids y (hsub.subset hy)
  distinct := h.distinct.sublist hsub

/-- **The head is set to a later cell**: those before it are lost. -/
theorem setHead (h : loop.Holds (xs ++ ys) lost) :
    { loop with timeEventHead := ys.head?.map Prod.fst }.Holds ys (xs.map Prod.fst ++ lost) := by
  obtain ⟨r, -, hys⟩ := segment_append_iff.mp h.list
  have hnodup := h.list.nodup
  rw [List.map_append, List.nodup_append] at hnodup
  obtain ⟨hxs, -, hacross⟩ := hnodup
  refine h.of_sublist (List.sublist_append_right xs ys) ?_ (fun a => ?_) (fun a ha hmem => ?_)
    ?_ rfl
  · rw [← hys.head_eq]
    exact hys
  · show loop.memory a ≠ none ↔ _
    rw [h.cells a, List.map_append, List.mem_append, List.mem_append]
    exact ⟨fun h => h.elim (fun h => h.elim (fun h => Or.inr (Or.inl h)) Or.inl)
        fun h => Or.inr (Or.inr h),
      fun h => h.elim (fun h => Or.inl (Or.inr h)) fun h => h.imp_left Or.inl⟩
  · rcases List.mem_append.mp ha with ha | ha
    · exact hacross a ha a hmem rfl
    · refine h.apart a ha ?_
      rw [List.map_append]
      exact List.mem_append_right _ hmem
  · refine List.nodup_append.mpr ⟨hxs, h.nodup, fun a ha b hb hab => ?_⟩
    refine h.apart b hb ?_
    rw [List.map_append, ← hab]
    exact List.mem_append_left _ ha

/-- **A cell is linked around**: it is lost. -/
theorem linkAround (h : loop.Holds (xs ++ b :: x :: ys) lost) :
    { loop with
        memory := Function.update loop.memory b.1
          (some ⟨b.2, ys.head?.map Prod.fst⟩) }.Holds (xs ++ b :: ys) (x.1 :: lost) := by
  have hsub : (xs ++ b :: ys).Sublist (xs ++ b :: x :: ys) :=
    (List.Sublist.refl xs).append (((List.Sublist.refl ys).cons x).cons_cons b)
  have hnodup := h.list.nodup
  have hlist := h.list
  rw [← List.singleton_append, ← List.append_assoc] at hlist
  obtain ⟨r, hbefore, -, n, -, hys⟩ := segment_append_iff.mp hlist
  simp only [List.map_append, List.map_cons, List.nodup_append, List.nodup_cons,
    List.mem_cons, not_or] at hnodup
  obtain ⟨-, ⟨⟨hbx, hbys⟩, hxys, -⟩, hacross⟩ := hnodup
  have hbxs : b.1 ∉ xs.map Prod.fst := fun hmem => hacross b.1 hmem b.1 (Or.inl rfl) rfl
  have hx : x.1 ∉ (xs ++ b :: ys).map Prod.fst := by
    rw [List.map_append, List.map_cons, List.mem_append, List.mem_cons, not_or, not_or]
    exact ⟨fun hmem => hacross x.1 hmem x.1 (Or.inr (Or.inl rfl)) rfl, Ne.symm hbx, hxys⟩
  refine h.of_sublist hsub ?_ (fun a => ?_) (fun a ha => ?_) ?_ rfl
  · rw [← List.singleton_append, ← List.append_assoc]
    refine segment_append_iff.mpr ⟨_, hbefore.relink hbxs, ?_⟩
    rw [← hys.head_eq]
    exact hys.update hbys
  · have hiff : Function.update loop.memory b.1 (some ⟨b.2, ys.head?.map Prod.fst⟩) a ≠ none
        ↔ loop.memory a ≠ none := by
      by_cases ha : a = b.1
      · rw [ha, Function.update_self]
        refine iff_of_true nofun ((h.cells b.1).mpr (Or.inl ?_))
        exact List.mem_map_of_mem (List.mem_append_right xs List.mem_cons_self)
      · rw [Function.update_of_ne ha]
    show Function.update loop.memory b.1 _ a ≠ none ↔ _
    rw [hiff, h.cells a]
    simp only [List.map_append, List.map_cons, List.mem_append, List.mem_cons]
    tauto
  · rcases List.mem_cons.mp ha with rfl | ha
    · exact hx
    · exact fun hmem => h.apart a ha (hsub.map Prod.fst |>.subset hmem)
  · refine List.nodup_cons.mpr ⟨fun hmem => h.apart x.1 hmem ?_, h.nodup⟩
    exact List.mem_map_of_mem (List.mem_append_right xs
      (List.mem_cons_of_mem b List.mem_cons_self))

/-- What a cell of the list holds. -/
theorem cell (h : loop.Holds (xs ++ x :: ys) lost) :
    loop.memory x.1 = some ⟨x.2, ys.head?.map Prod.fst⟩ := by
  obtain ⟨r, -, -, n, hx, hys⟩ := segment_append_iff.mp h.list
  rw [hx, hys.head_eq]

/-- In which order cells are lost does not matter. -/
theorem perm_lost (h : loop.Holds xs lost) (hperm : lost.Perm lost') : loop.Holds xs lost' where
  list := h.list
  cells a := by rw [h.cells a, hperm.mem_iff]
  apart a ha := h.apart a (hperm.mem_iff.mpr ha)
  nodup := hperm.nodup_iff.mp h.nodup
  length := h.length
  ids := h.ids
  distinct := h.distinct

/-- **A timer is taken out**, and with it those in front that only `timeEventHead` leads to. -/
theorem unlink (h : loop.Holds (fresh ++ (kept ++ x :: rest)) lost) :
    ∃ loop' fresh' gone lost',
      loop.unlink (kept.getLast?.map Prod.fst) (rest.head?.map Prod.fst) = some loop'
        ∧ loop'.Holds (fresh' ++ (kept ++ rest)) (x.1 :: lost') ∧ fresh = fresh' ++ gone
        ∧ lost'.length = lost.length + gone.length ∧ (gone = [] ↔ ¬ (kept = [] ∧ fresh ≠ []))
        ∧ loop'.timeEventNextId = loop.timeEventNextId ∧ loop'.lastTime = loop.lastTime := by
  rcases List.eq_nil_or_concat' kept with rfl | ⟨kept, b, rfl⟩
  · have hhead : loop.Holds ((fresh ++ [x]) ++ rest) lost := by
      rw [List.append_assoc]
      exact h
    refine ⟨_, [], fresh, fresh.map Prod.fst ++ lost, rfl, hhead.setHead.perm_lost ?_, rfl, ?_, ?_,
      rfl, rfl⟩
    · rw [List.map_append, List.append_assoc]
      exact List.perm_middle
    · rw [List.length_append, List.length_map, Nat.add_comm]
    · exact ⟨fun hnil hdrop => hdrop.2 hnil, fun h => not_not.mp fun hne => h ⟨rfl, hne⟩⟩
  · have haround : loop.Holds ((fresh ++ kept) ++ b :: x :: rest) lost := by
      rw [List.append_assoc] at h ⊢
      exact h
    have hunlink : loop.unlink ((kept ++ [b]).getLast?.map Prod.fst) (rest.head?.map Prod.fst)
        = some { loop with
            memory := Function.update loop.memory b.1
              (some ⟨b.2, rest.head?.map Prod.fst⟩) } := by
      rw [List.getLast?_concat, Option.map_some, TimeLoop.unlink, haround.cell]
      rfl
    have hheld := haround.linkAround
    rw [← List.singleton_append, List.append_assoc, ← List.append_assoc kept] at hheld
    exact ⟨_, fresh, [], lost, hunlink, hheld, (List.append_nil fresh).symm, rfl,
      iff_of_true rfl fun hdrop => List.concat_ne_nil _ _ hdrop.1, rfl, rfl⟩

/-- **A lost cell is freed.** -/
theorem zfree (h : loop.Holds xs (a :: lost)) : (loop.zfree a).Holds xs lost := by
  obtain ⟨ha, hnodup⟩ := List.nodup_cons.mp h.nodup
  refine h.of_sublist (List.Sublist.refl xs) (h.list.update (h.apart a List.mem_cons_self))
    (fun b => ?_) (fun b hb => h.apart b (List.mem_cons_of_mem a hb)) hnodup rfl
  show Function.update loop.memory a none b ≠ none ↔ _
  by_cases hb : b = a
  · rw [hb, Function.update_self]
    exact iff_of_false (fun h => h rfl)
      (not_or.mpr ⟨h.apart a List.mem_cons_self, ha⟩)
  · rw [Function.update_of_ne hb, h.cells b, List.mem_cons, or_iff_right hb]

end Holds

end TimeLoop

/-! ## The loop through the cells -/

/-- **The loop is where the pass is**: the list holds what the pass has, apart from what is
`gone`. -/
structure Follows (maxId : ℤ) (loop : TimeLoop Proc Data) (s : Pass Proc Data)
    (fresh kept rest : List (ℕ × AeTimeEvent Proc Data)) (gone : List (AeTimeEvent Proc Data))
    (lost : List ℕ) (before : ℕ) : Prop where
  holds : loop.Holds (fresh ++ (kept ++ rest)) lost
  nextId_eq : loop.timeEventNextId = s.nextId
  fresh_eq : s.fresh = fresh.map Prod.snd ++ gone
  kept_eq : s.kept = kept.map Prod.snd
  rest_eq : s.rest = rest.map Prod.snd
  old : ∀ x ∈ rest, x.2.id ≤ maxId
  length_lost : lost.length = before + gone.length

namespace Follows

variable {maxId : ℤ} {loop : TimeLoop Proc Data} {s : Pass Proc Data}
  {fresh kept rest : List (ℕ × AeTimeEvent Proc Data)} {gone : List (AeTimeEvent Proc Data)}
  {lost : List ℕ} {before : ℕ} {x : ℕ × AeTimeEvent Proc Data}

/-- **A callback is called.** -/
theorem callback (h : Follows maxId loop s fresh kept rest gone lost before)
    (hmax : aeDeletedEventId ≤ maxId) (ops : List (TimeOp Proc Data)) :
    ∃ loop' zs, ops.foldlM TimeLoop.perform loop = some loop'
      ∧ Follows maxId loop' (s.callback ops) (zs ++ mapValues (TimeOp.onAll ops) fresh)
        (mapValues (TimeOp.onAll ops) kept) (mapValues (TimeOp.onAll ops) rest)
        (gone.map (TimeOp.onAll ops)) lost before
      ∧ loop'.lastTime = loop.lastTime := by
  obtain ⟨loop', zs, hloop', hholds, hzs, hnext, hlast⟩ := h.holds.performAll ops
  refine ⟨loop', zs, hloop', ⟨?_, ?_, ?_, ?_, ?_, fun x hx => ?_, ?_⟩, hlast⟩
  · rw [mapValues_append, mapValues_append] at hholds
    rw [List.append_assoc]
    exact hholds
  · rw [hnext, h.nextId_eq]
    rfl
  · rw [List.map_append, map_snd_mapValues, hzs, h.nextId_eq, List.append_assoc, ← List.map_append,
      ← h.fresh_eq]
    rfl
  · rw [map_snd_mapValues, ← h.kept_eq]
    rfl
  · rw [map_snd_mapValues, ← h.rest_eq]
    rfl
  · obtain ⟨y, hy, rfl⟩ := List.mem_map.mp hx
    rcases TimeOp.id_onAll ops y.2 with hid | hid
    · exact hid.le.trans (h.old y hy)
    · exact hid.le.trans hmax
  · rw [List.length_map]
    exact h.length_lost

/-- A lost cell is freed. -/
theorem zfree {a : ℕ} (h : Follows maxId loop s fresh kept rest gone (a :: lost) (before + 1)) :
    Follows maxId (loop.zfree a) s fresh kept rest gone lost before where
  holds := h.holds.zfree
  nextId_eq := h.nextId_eq
  fresh_eq := h.fresh_eq
  kept_eq := h.kept_eq
  rest_eq := h.rest_eq
  old := h.old
  length_lost := by
    have hlength := h.length_lost
    rw [List.length_cons] at hlength
    omega

/-- **The turn of a timer**: the loop makes its calls, and goes on where the pass does. -/
def GoesOn (maxId : ℤ) (loop : TimeLoop Proc Data) (s : Pass Proc Data)
    (kept : List (ℕ × AeTimeEvent Proc Data)) (x : ℕ × AeTimeEvent Proc Data)
    (rest : List (ℕ × AeTimeEvent Proc Data)) (gone : List (AeTimeEvent Proc Data)) (before : ℕ)
    (turn : Turn Proc Data) : Prop :=
  ∃ loop' fresh' kept' rest' gone' lost',
    (∀ turns,
      TimeLoop.processLoop maxId (turn :: turns) loop (kept.getLast?.map Prod.fst) (some x.1)
        = (TimeLoop.processLoop maxId turns loop' (kept'.getLast?.map Prod.fst)
            (rest'.head?.map Prod.fst)).map fun r => (r.1, x.2.calls turn.now ++ r.2))
      ∧ Follows maxId loop' ({ s with rest := rest.map Prod.snd }.visit turn x.2) fresh' kept' rest'
        gone' lost' before
      ∧ rest'.length = rest.length ∧ loop'.lastTime = loop.lastTime
      ∧ (gone' = [] ↔ gone = [] ∧ ¬ (x.2.id = aeDeletedEventId ∧ s.kept = [] ∧ s.fresh ≠ []))

/-- What its cell holds. -/
theorem cell (h : Follows maxId loop s fresh kept (x :: rest) gone lost before) :
    loop.memory x.1 = some ⟨x.2, rest.head?.map Prod.fst⟩ := by
  have hholds := h.holds
  rw [← List.append_assoc] at hholds
  exact hholds.cell

/-- **The finalizer is called**, if there is one. The cells after and before are where they
were. -/
theorem finalize (h : Follows maxId loop s fresh kept rest gone lost before)
    (hmax : aeDeletedEventId ≤ maxId) (te : AeTimeEvent Proc Data)
    (ops : List (TimeOp Proc Data)) :
    ∃ loop' fresh' kept' rest' gone',
      loop.callFinalizer te ops = some loop'
        ∧ Follows maxId loop' (if te.finalizerProc.isSome then s.callback ops else s) fresh' kept'
          rest' gone' lost before
        ∧ kept'.getLast?.map Prod.fst = kept.getLast?.map Prod.fst
        ∧ rest'.head?.map Prod.fst = rest.head?.map Prod.fst ∧ rest'.length = rest.length
        ∧ (gone' = [] ↔ gone = []) ∧ loop'.lastTime = loop.lastTime := by
  unfold TimeLoop.callFinalizer
  split
  · obtain ⟨loop', zs, hops, hfollows, hlast⟩ := h.callback hmax ops
    exact ⟨loop', _, _, _, _, hops, hfollows, getLast?_mapValues, head?_mapValues,
      length_mapValues, List.map_eq_nil_iff, hlast⟩
  · exact ⟨loop, fresh, kept, rest, gone, rfl, h, rfl, rfl, rfl, Iff.rfl, rfl⟩

/-- **A timer that is marked** is taken out. -/
theorem visit_deleted (h : Follows maxId loop s fresh kept (x :: rest) gone lost before)
    (hmax : aeDeletedEventId ≤ maxId) (turn : Turn Proc Data)
    (hdeleted : x.2.id = aeDeletedEventId) : GoesOn maxId loop s kept x rest gone before turn := by
  obtain ⟨loop₁, fresh₁, gone₁, lost₁, hunlink, hholds, hfresh, hlost, hdrop, hnext, hlast⟩ :=
    h.holds.unlink
  have hfollows : Follows maxId loop₁ { s with rest := rest.map Prod.snd } fresh₁ kept rest
      (gone₁.map Prod.snd ++ gone) (x.1 :: lost₁) (before + 1) := by
    refine ⟨hholds, hnext.trans h.nextId_eq, ?_, h.kept_eq, rfl,
      fun y hy => h.old y (List.mem_cons_of_mem x hy), ?_⟩
    · rw [← List.append_assoc, ← List.map_append, ← hfresh]
      exact h.fresh_eq
    · have hlength := h.length_lost
      rw [List.length_cons, List.length_append, List.length_map]
      omega
  have hgone : gone₁.map Prod.snd ++ gone = []
      ↔ gone = [] ∧ ¬ (x.2.id = aeDeletedEventId ∧ s.kept = [] ∧ s.fresh ≠ []) := by
    rw [List.append_eq_nil_iff, List.map_eq_nil_iff, and_comm]
    refine and_congr_right fun hnil => ?_
    rw [hdrop, h.kept_eq, h.fresh_eq, hnil, List.append_nil, and_iff_right hdeleted,
      List.map_eq_nil_iff, Ne, Ne, List.map_eq_nil_iff]
  obtain ⟨loop₂, fresh₂, kept₂, rest₂, gone₂, hops, hfollows₂, hkept, hrest, hlength, hgone₂,
    hlast₂⟩ := hfollows.finalize hmax x.2 turn.ops
  refine ⟨loop₂.zfree x.1, fresh₂, kept₂, rest₂, gone₂, lost₁, fun turns => ?_, ?_, hlength,
    hlast₂.trans hlast, hgone₂.trans hgone⟩
  · rw [TimeLoop.processLoop, h.cell, Option.bind_eq_bind, Option.bind_some]
    dsimp only
    rw [if_pos hdeleted, hunlink, Option.bind_eq_bind, Option.bind_some, hops,
      Option.bind_eq_bind, Option.bind_some, hkept, hrest, AeTimeEvent.calls, if_pos hdeleted]
    exact Option.map_eq_bind.symm
  · rw [Pass.visit, if_pos hdeleted]
    exact hfollows₂.zfree

/-- **A timer that is due** is called. -/
theorem visit_due (h : Follows maxId loop s fresh kept (x :: rest) gone lost before)
    (hmax : aeDeletedEventId ≤ maxId) (turn : Turn Proc Data)
    (hlive : x.2.id ≠ aeDeletedEventId) (hdue : x.2.IsDue turn.now) :
    GoesOn maxId loop s kept x rest gone before turn := by
  obtain ⟨loop₁, zs, hops, hfollows, hlast⟩ := h.callback hmax turn.ops
  have hholds := hfollows.holds
  rw [mapValues_cons, ← List.append_assoc] at hholds
  have hid : ((TimeOp.onAll turn.ops x.2).settle turn).id = (TimeOp.onAll turn.ops x.2).id
      ∨ ((TimeOp.onAll turn.ops x.2).settle turn).id = aeDeletedEventId := by
    unfold AeTimeEvent.settle
    split
    · exact Or.inl rfl
    · exact Or.inr rfl
  obtain ⟨loop₂, hmodify, hholds₂, hnext₂, hlast₂⟩ := hholds.modify (fun te => te.settle turn) hid
  have hcell₂ := hholds₂.cell
  refine ⟨loop₂, zs ++ mapValues (TimeOp.onAll turn.ops) fresh,
    mapValues (TimeOp.onAll turn.ops) kept ++ [(x.1, (TimeOp.onAll turn.ops x.2).settle turn)],
    mapValues (TimeOp.onAll turn.ops) rest, gone.map (TimeOp.onAll turn.ops), lost,
    fun turns => ?_, ?_, length_mapValues, hlast₂.trans hlast, ?_⟩
  · rw [TimeLoop.processLoop, h.cell, Option.bind_eq_bind, Option.bind_some]
    dsimp only
    rw [if_neg hlive, if_neg (h.old x List.mem_cons_self).not_gt, if_pos hdue, hops,
      Option.bind_eq_bind, Option.bind_some, hmodify, Option.bind_eq_bind, Option.bind_some,
      hcell₂, Option.bind_some, List.getLast?_concat, AeTimeEvent.calls, if_neg hlive,
      if_pos hdue]
    exact Option.map_eq_bind.symm
  · rw [Pass.visit, if_neg hlive, if_pos hdue]
    refine ⟨?_, hnext₂.trans hfollows.nextId_eq, hfollows.fresh_eq, ?_, ?_, fun y hy => ?_,
      hfollows.length_lost⟩
    · simp only [List.append_assoc, List.singleton_append] at hholds₂ ⊢
      exact hholds₂
    · rw [List.map_append, map_snd_mapValues, ← h.kept_eq]
      rfl
    · rw [map_snd_mapValues]
      rfl
    · exact hfollows.old y (List.mem_cons_of_mem _ hy)
  · rw [List.map_eq_nil_iff]
    exact ⟨fun hgone => ⟨hgone, fun hdrops => hlive hdrops.1⟩, And.left⟩

/-- **A timer that is not** is left alone. -/
theorem visit_not_due (h : Follows maxId loop s fresh kept (x :: rest) gone lost before)
    (turn : Turn Proc Data) (hlive : x.2.id ≠ aeDeletedEventId) (hdue : ¬ x.2.IsDue turn.now) :
    GoesOn maxId loop s kept x rest gone before turn := by
  have hcell := h.cell
  have hvisit : ({ s with rest := rest.map Prod.snd } : Pass Proc Data).visit turn x.2
      = { s with kept := s.kept ++ [x.2], rest := rest.map Prod.snd } := by
    rw [Pass.visit, if_neg hlive, if_neg hdue]
    rfl
  have hcalls : x.2.calls turn.now = [] := by
    rw [AeTimeEvent.calls, if_neg hlive, if_neg hdue]
  refine ⟨loop, fresh, kept ++ [x], rest, gone, lost, fun turns => ?_, ?_, rfl, rfl, ?_⟩
  · rw [hcalls, List.getLast?_concat, Option.map_some, TimeLoop.processLoop, hcell,
      Option.bind_eq_bind, Option.bind_some]
    dsimp only
    rw [if_neg hlive, if_neg (h.old x List.mem_cons_self).not_gt, if_neg hdue]
    exact Option.map_id'.symm
  · rw [hvisit]
    refine ⟨?_, h.nextId_eq, h.fresh_eq, ?_, rfl, fun y hy => h.old y (List.mem_cons_of_mem x hy),
      h.length_lost⟩
    · rw [List.append_assoc]
      exact h.holds
    · rw [List.map_append, ← h.kept_eq]
      rfl
  · exact ⟨fun hgone => ⟨hgone, fun hdrops => hlive hdrops.1⟩, And.left⟩

/-- **The turn of any timer.** -/
theorem visit (h : Follows maxId loop s fresh kept (x :: rest) gone lost before)
    (hmax : aeDeletedEventId ≤ maxId) (turn : Turn Proc Data) :
    GoesOn maxId loop s kept x rest gone before turn := by
  by_cases hdeleted : x.2.id = aeDeletedEventId
  · exact h.visit_deleted hmax turn hdeleted
  · by_cases hdue : x.2.IsDue turn.now
    · exact h.visit_due hmax turn hdeleted hdue
    · exact h.visit_not_due turn hdeleted hdue

/-- **The whole loop**, with a turn for every timer. -/
theorem run {turns : List (Turn Proc Data)}
    (h : Follows maxId loop s fresh kept rest gone lost before)
    (hmax : aeDeletedEventId ≤ maxId) (hturns : rest.length ≤ turns.length) :
    ∃ loop' fresh' kept' gone' lost',
      TimeLoop.processLoop maxId turns loop (kept.getLast?.map Prod.fst) (rest.head?.map Prod.fst)
          = some (loop', s.calls turns)
        ∧ Follows maxId loop' (s.run turns) fresh' kept' [] gone' lost' before
        ∧ (gone' = [] ↔ gone = [] ∧ ¬ s.Drops turns) ∧ loop'.lastTime = loop.lastTime := by
  induction turns generalizing loop s fresh kept rest gone lost with
  | nil =>
    obtain rfl := List.length_eq_zero_iff.mp (Nat.le_zero.mp hturns)
    exact ⟨loop, fresh, kept, gone, lost, rfl, h, ⟨fun hgone => ⟨hgone, id⟩, And.left⟩, rfl⟩
  | cons turn turns ih =>
    have hrest := h.rest_eq
    cases rest with
    | nil =>
      have hdone : s.rest = [] := hrest
      refine ⟨loop, fresh, kept, gone, lost, ?_, ?_, ?_, rfl⟩
      · rw [Pass.calls, hdone]
        rfl
      · rw [Pass.run, hdone]
        exact h
      · rw [Pass.Drops, hdone]
        exact ⟨fun hgone => ⟨hgone, id⟩, And.left⟩
    | cons x rest =>
      obtain ⟨loop₁, fresh₁, kept₁, rest₁, gone₁, lost₁, hloop, hfollows, hlength, hlast, hgone⟩ :=
        h.visit hmax turn
      have hnext : s.rest = x.2 :: rest.map Prod.snd := hrest
      obtain ⟨loop', fresh', kept', gone', lost', hloop', hfollows', hgone', hlast'⟩ :=
        ih hfollows (hlength ▸ Nat.le_of_succ_le_succ hturns)
      refine ⟨loop', fresh', kept', gone', lost', ?_, ?_, ?_, hlast'.trans hlast⟩
      · rw [List.head?_cons, Option.map_some, hloop turns, hloop', Pass.calls, hnext]
        rfl
      · rw [Pass.run, hnext]
        exact hfollows'
      · rw [hgone', hgone, Pass.Drops, hnext, and_assoc, ← not_or]

end Follows

namespace TimeLoop

variable {loop : TimeLoop Proc Data} {xs : List (ℕ × AeTimeEvent Proc Data)} {lost : List ℕ}

/-- The clock may have been set back. -/
theorem Holds.detectSkew (h : loop.Holds xs lost) (now : ℤ) :
    ∃ loop' ys, loop.detectSkew now = some loop' ∧ loop'.Holds ys lost
      ∧ ys.map Prod.snd
        = (Pass.start loop.timeEventNextId loop.lastTime now (xs.map Prod.snd)).rest
      ∧ ys.length = xs.length ∧ loop'.timeEventNextId = loop.timeEventNextId := by
  unfold TimeLoop.detectSkew Pass.start
  split
  · obtain ⟨memory, hmemory, hlist, hframe⟩ :=
      modifyCells_eq (f := AeTimeEvent.forceDue) h.list h.length_le_rounds
    refine ⟨{ loop with memory := memory }, mapValues AeTimeEvent.forceDue xs, ?_,
      ⟨hlist, fun a => ?_, fun a ha => ?_, h.nodup, ?_, fun x hx => ?_, ?_⟩, map_snd_mapValues,
      length_mapValues, rfl⟩
    · rw [hmemory]
      rfl
    · rw [map_fst_mapValues, ← h.cells a]
      by_cases ha : a ∈ xs.map Prod.fst
      · rw [iff_true_right ((h.cells a).mpr (Or.inl ha))]
        rw [← map_fst_mapValues (f := AeTimeEvent.forceDue)] at ha
        obtain ⟨x, hx, rfl⟩ := List.mem_map.mp ha
        obtain ⟨n, hn⟩ := hlist.cell hx
        show memory x.1 ≠ none
        rw [hn]
        nofun
      · show memory a ≠ none ↔ _
        rw [hframe a ha]
    · rw [map_fst_mapValues]
      exact h.apart a ha
    · rw [length_mapValues]
      exact h.length
    · obtain ⟨y, hy, rfl⟩ := List.mem_map.mp hx
      exact h.ids y hy
    · exact List.pairwise_map.mpr h.distinct
  · exact ⟨loop, xs, rfl, h, rfl, rfl, rfl⟩

/-- **`processTimeEvents` is a pass.** -/
theorem processTimeEvents_spec (h : loop.Holds xs lost) (now : ℤ) (turns : List (Turn Proc Data))
    (hturns : xs.length ≤ turns.length) :
    let s := Pass.start loop.timeEventNextId loop.lastTime now (xs.map Prod.snd)
    ∃ loop' fresh kept gone lost',
      loop.processTimeEvents now turns = some (loop', s.calls turns)
        ∧ loop'.Holds (fresh ++ kept) lost'
        ∧ (s.run turns).fresh = fresh.map Prod.snd ++ gone
        ∧ (s.run turns).kept = kept.map Prod.snd
        ∧ loop'.timeEventNextId = (s.run turns).nextId ∧ loop'.lastTime = now
        ∧ lost'.length = lost.length + gone.length ∧ (gone = [] ↔ ¬ s.Drops turns) := by
  intro s
  obtain ⟨loop₁, ys, hskew, hholds, hys, hlength, hnext⟩ := h.detectSkew now
  have hnonneg : 0 ≤ loop.timeEventNextId := (Int.natCast_nonneg _).trans h.length
  have hmax : aeDeletedEventId ≤ loop₁.timeEventNextId - 1 := by
    rw [hnext]
    exact Int.sub_le_sub_right hnonneg 1
  have hstart : Follows (loop₁.timeEventNextId - 1) { loop₁ with lastTime := now } s [] [] ys []
      lost lost.length :=
    ⟨⟨hholds.list, hholds.cells, hholds.apart, hholds.nodup, hholds.length, hholds.ids,
      hholds.distinct⟩, hnext, rfl, rfl, hys.symm,
      fun y hy => Int.le_sub_one_of_lt (hholds.ids y hy).2, rfl⟩
  obtain ⟨loop', fresh, kept, gone, lost', hloop', hfollows, hgone, hlast⟩ :=
    hstart.run hmax (hlength ▸ hturns)
  refine ⟨loop', fresh, kept, gone, lost', ?_, ?_, hfollows.fresh_eq, hfollows.kept_eq,
    hfollows.nextId_eq, hlast, hfollows.length_lost, ?_⟩
  · rw [processTimeEvents, hskew, Option.bind_eq_bind, Option.bind_some]
    rw [← hholds.list.head_eq] at hloop'
    exact hloop'
  · have hholds' := hfollows.holds
    rwa [List.append_nil] at hholds'
  · rw [hgone]
    exact and_iff_right rfl

end TimeLoop

end Ae
