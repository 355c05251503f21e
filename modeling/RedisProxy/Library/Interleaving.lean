import RedisProxy.Library.Prog
import Mathlib.Data.Finset.Sort
import Mathlib.Data.Fintype.Basic
import Mathlib.Logic.Relation
import Mathlib.Order.Extension.Linear

/-!
# Programs that share a state

Several programs make their calls on one state, which answers each call at once
and goes on to its next value. `Interleaves` runs them in any order, call by
call, and lists the calls made; `serialTrace` and `serialState` run them one
after another.

Two calls are independent if a state answers them alike in either order and is
left the same. Calls that are made next to each other by different programs and
are independent may as well have been made in the other order, so the calls of
one program can be gathered in front of those of the others as long as they only
pass calls independent of them (`answered_filter`). Doing so for one program
after the other leads from an interleaving to the serial run in a given order
(`sameAsSerial_of_order`). An order in which the calls that are not independent
are made in turn exists if these never form a cycle (`exists_order`), as they do
not where each program makes one call at most (`acyclic_of_length_le_one`).
-/

namespace Interleaving

open Prog

variable {Op : Type} {Res : Op → Type} {α ι S : Type}

/-! ## Calls on a state -/

/-- **The calls are answered one after the other**, from the state `s` to the
state `s'`. -/
def Answered (answer : (op : Op) → S → Res op × S) : S → List (Event Res) → S → Prop
  | s, [], s' => s' = s
  | s, e :: tr, s' => e.2 = (answer e.1 s).1 ∧ Answered answer (answer e.1 s).2 tr s'

/-- **Two calls are independent**: in either order they have the same results
and leave the same state. -/
structure Independent (answer : (op : Op) → S → Res op × S) (a b : Op) : Prop where
  left : ∀ s, (answer a (answer b s).2).1 = (answer a s).1
  right : ∀ s, (answer b (answer a s).2).1 = (answer b s).1
  state : ∀ s, (answer b (answer a s).2).2 = (answer a (answer b s).2).2

variable {answer : (op : Op) → S → Res op × S} {s s' : S}

theorem Independent.symm {a b : Op} (h : Independent answer a b) : Independent answer b a :=
  ⟨h.right, h.left, fun s => (h.state s).symm⟩

theorem answered_append {tr tr' : List (Event Res)} :
    Answered answer s (tr ++ tr') s'
      ↔ ∃ t, Answered answer s tr t ∧ Answered answer t tr' s' := by
  induction tr generalizing s with
  | nil =>
    constructor
    · intro h
      exact ⟨s, rfl, h⟩
    · rintro ⟨t, rfl, h⟩
      exact h
  | cons e tr ih =>
    constructor
    · rintro ⟨he, h⟩
      obtain ⟨t, h₁, h₂⟩ := ih.mp h
      exact ⟨t, ⟨he, h₁⟩, h₂⟩
    · rintro ⟨t, ⟨he, h₁⟩, h₂⟩
      exact ⟨he, ih.mpr ⟨t, h₁, h₂⟩⟩

/-- Neighbours that are independent can change places. -/
theorem Answered.swap {x y : Event Res} {tr : List (Event Res)}
    (hxy : Independent answer x.1 y.1) (h : Answered answer s (x :: y :: tr) s') :
    Answered answer s (y :: x :: tr) s' := by
  obtain ⟨hx, hy, hrest⟩ := h
  refine ⟨hy.trans (hxy.right s), hx.trans (hxy.left s).symm, ?_⟩
  rwa [← hxy.state s]

/-- A call can be put off until after calls it is independent of. -/
theorem Answered.move {x : Event Res} {front rest : List (Event Res)}
    (hx : ∀ y ∈ front, Independent answer x.1 y.1)
    (h : Answered answer s (x :: (front ++ rest)) s') :
    Answered answer s (front ++ x :: rest) s' := by
  induction front generalizing s with
  | nil => exact h
  | cons y front ih =>
    obtain ⟨hy, hrest⟩ := h.swap (hx y List.mem_cons_self)
    exact ⟨hy, ih (fun z hz => hx z (List.mem_cons_of_mem y hz)) hrest⟩

/-- A program's calls and results are determined by the state that answers
them. -/
theorem eq_trace_of_exec {p : Prog Res α} {tr : List (Event Res)} {a : α}
    (hp : Exec p tr a) (h : Answered answer s tr s') :
    tr = p.trace answer s ∧ (a, s') = p.run answer s := by
  induction hp generalizing s with
  | pure a =>
    obtain rfl : s' = s := h
    exact ⟨rfl, rfl⟩
  | @call op k r tr a _ ih =>
    obtain ⟨hr, hrest⟩ := h
    obtain rfl : r = (answer op s).1 := hr
    obtain ⟨htr, hrun⟩ := ih hrest
    exact ⟨congrArg _ htr, hrun⟩

/-! ## Calls of several programs -/

variable [DecidableEq ι]

/-- The calls one program has made. -/
def callsOf (i : ι) (tr : List (ι × Event Res)) : List (Event Res) :=
  (tr.filter fun e => e.1 = i).map Prod.snd

theorem callsOf_cons_self (i : ι) (e : Event Res) (tr : List (ι × Event Res)) :
    callsOf i ((i, e) :: tr) = e :: callsOf i tr := by
  unfold callsOf
  rw [List.filter_cons_of_pos (by exact decide_eq_true rfl), List.map_cons]

theorem callsOf_cons_of_ne {i j : ι} (h : j ≠ i) (e : Event Res)
    (tr : List (ι × Event Res)) : callsOf i ((j, e) :: tr) = callsOf i tr := by
  unfold callsOf
  rw [List.filter_cons_of_neg (by exact fun hd => h (of_decide_eq_true hd))]

/-- The calls without whose they are. -/
abbrev calls (tr : List (ι × Event Res)) : List (Event Res) := tr.map Prod.snd

/-- **The calls of one program, gathered in front**, if they only pass calls
that are independent of them. -/
theorem answered_filter {i : ι} {tr : List (ι × Event Res)}
    (hi : tr.Pairwise fun x y => x.1 ≠ i → y.1 = i → Independent answer x.2.1 y.2.1)
    (h : Answered answer s (calls tr) s') :
    Answered answer s (callsOf i tr ++ calls (tr.filter fun e => e.1 ≠ i)) s' := by
  induction tr generalizing s with
  | nil => exact h
  | cons x tr ih =>
    obtain ⟨hx, htail⟩ := List.pairwise_cons.mp hi
    obtain ⟨hres, hrest⟩ := h
    have hgathered := ih htail hrest
    unfold callsOf at hgathered ⊢
    by_cases hxi : x.1 = i
    · rw [List.filter_cons_of_pos (by simpa using hxi),
        List.filter_cons_of_neg (by simpa using hxi)]
      exact ⟨hres, hgathered⟩
    · rw [List.filter_cons_of_neg (by simpa using hxi),
        List.filter_cons_of_pos (by simpa using hxi)]
      refine Answered.move (fun y hy => ?_) ⟨hres, hgathered⟩
      obtain ⟨y', hy', rfl⟩ := List.mem_map.mp hy
      obtain ⟨hmem, hyi⟩ := List.mem_filter.mp hy'
      exact hx y' hmem hxi (by simpa using hyi)

/-! ## Serial runs -/

/-- The state after the programs have run one after another. -/
def serialState (answer : (op : Op) → S → Res op × S) (p : ι → Prog Res α) :
    List ι → S → S
  | [], s => s
  | i :: order, s => serialState answer p order ((p i).run answer s).2

/-- The calls they have made. -/
def serialTrace (answer : (op : Op) → S → Res op × S) (p : ι → Prog Res α) :
    List ι → S → List (ι × Event Res)
  | [], _ => []
  | i :: order, s =>
    ((p i).trace answer s).map (Prod.mk i)
      ++ serialTrace answer p order ((p i).run answer s).2

/-- **The calls and the last state are those of a serial run**: every program
has made the same calls, with the same results. -/
def SameAsSerial (answer : (op : Op) → S → Res op × S) (p : ι → Prog Res α) (s : S)
    (tr : List (ι × Event Res)) (s' : S) (order : List ι) : Prop :=
  s' = serialState answer p order s
    ∧ ∀ i ∈ order, callsOf i tr = callsOf i (serialTrace answer p order s)

theorem callsOf_append (i : ι) (tr tr' : List (ι × Event Res)) :
    callsOf i (tr ++ tr') = callsOf i tr ++ callsOf i tr' := by
  unfold callsOf
  rw [List.filter_append, List.map_append]

theorem callsOf_map_mk_self (i : ι) (tr : List (Event Res)) :
    callsOf i (tr.map (Prod.mk i)) = tr := by
  unfold callsOf
  rw [List.filter_eq_self.mpr, List.map_map]
  · exact List.map_id tr
  · intro e he
    obtain ⟨x, -, rfl⟩ := List.mem_map.mp he
    exact decide_eq_true rfl

theorem callsOf_map_mk_of_ne {i j : ι} (h : j ≠ i) (tr : List (Event Res)) :
    callsOf i (tr.map (Prod.mk j)) = [] := by
  unfold callsOf
  rw [List.filter_eq_nil_iff.mpr, List.map_nil]
  intro e he
  obtain ⟨x, -, rfl⟩ := List.mem_map.mp he
  exact fun hd => h (of_decide_eq_true hd)

theorem callsOf_serialTrace_of_notMem {p : ι → Prog Res α} {order : List ι} {i : ι}
    (h : i ∉ order) : callsOf i (serialTrace answer p order s) = [] := by
  induction order generalizing s with
  | nil => rfl
  | cons j order ih =>
    rw [List.mem_cons, not_or] at h
    rw [serialTrace, callsOf_append, callsOf_map_mk_of_ne (Ne.symm h.1), ih h.2,
      List.append_nil]

/-- **Each program has run on a state between two others.** -/
theorem SameAsSerial.exists_between {p : ι → Prog Res α} {tr : List (ι × Event Res)}
    {order : List ι} (hnodup : order.Nodup) (h : SameAsSerial answer p s tr s' order) {i : ι}
    (hi : i ∈ order) :
    ∃ before after, order = before ++ i :: after
      ∧ callsOf i tr = (p i).trace answer (serialState answer p before s) := by
  obtain ⟨before, after, rfl⟩ := List.append_of_mem hi
  refine ⟨before, after, rfl, ?_⟩
  have hbefore : i ∉ before := fun hmem =>
    (List.nodup_append.mp hnodup).2.2 i hmem i List.mem_cons_self rfl
  have hafter : i ∉ after := (List.nodup_cons.mp (List.nodup_append.mp hnodup).2.1).1
  rw [h.2 i hi]
  clear h hi hnodup
  induction before generalizing s with
  | nil =>
    rw [List.nil_append, serialTrace, callsOf_append, callsOf_map_mk_self,
      callsOf_serialTrace_of_notMem hafter, List.append_nil]
    rfl
  | cons j before ih =>
    rw [List.mem_cons, not_or] at hbefore
    rw [List.cons_append, serialTrace, callsOf_append,
      callsOf_map_mk_of_ne (Ne.symm hbefore.1), List.nil_append, ih hbefore.2]
    rfl

/-- Leaving out the calls of another program. -/
theorem callsOf_filter_ne {i j : ι} (h : j ≠ i) (tr : List (ι × Event Res)) :
    callsOf j (tr.filter fun e => e.1 ≠ i) = callsOf j tr := by
  unfold callsOf
  rw [List.filter_filter]
  refine congrArg _ (List.filter_congr fun e _ => ?_)
  by_cases he : e.1 = j
  · simp [he, h]
  · simp [he]

/-- **From an interleaving to a serial run**: every program has run to its end,
and calls made against the order are independent. -/
theorem sameAsSerial_of_order {p : ι → Prog Res α} {a : ι → α} {order : List ι}
    {tr : List (ι × Event Res)} (hnodup : order.Nodup) (hall : ∀ e ∈ tr, e.1 ∈ order)
    (hexec : ∀ i ∈ order, Exec (p i) (callsOf i tr) (a i))
    (horder : ∀ i j, [i, j].Sublist order →
      tr.Pairwise fun x y => x.1 = j → y.1 = i → Independent answer x.2.1 y.2.1)
    (h : Answered answer s (calls tr) s') : SameAsSerial answer p s tr s' order := by
  induction order generalizing s tr with
  | nil =>
    have hnil : tr = [] := List.eq_nil_iff_forall_not_mem.mpr fun e he =>
      absurd (hall e he) List.not_mem_nil
    subst hnil
    exact ⟨h, fun i hi => absurd hi List.not_mem_nil⟩
  | cons i order ih =>
    obtain ⟨hi, hnodup⟩ := List.nodup_cons.mp hnodup
    -- the calls of `i` come first
    have hfront : tr.Pairwise fun x y => x.1 ≠ i → y.1 = i →
        Independent answer x.2.1 y.2.1 := by
      refine List.pairwise_iff_forall_sublist.mpr fun {x y} hxy hx hy => ?_
      have hmem := hall x (hxy.subset List.mem_cons_self)
      have hsub : [i, x.1].Sublist (i :: order) :=
        (List.singleton_sublist.mpr ((List.mem_cons.mp hmem).resolve_left hx)).cons_cons i
      exact List.pairwise_iff_forall_sublist.mp (horder i x.1 hsub) hxy rfl hy
    obtain ⟨t, h₁, h₂⟩ := answered_append.mp (answered_filter hfront h)
    obtain ⟨htrace, hrun⟩ := eq_trace_of_exec (hexec i List.mem_cons_self) h₁
    obtain rfl : t = ((p i).run answer s).2 := congrArg Prod.snd hrun
    -- and the others follow
    have hne : ∀ j ∈ order, j ≠ i := fun j hj hji => hi (hji ▸ hj)
    have hrest : SameAsSerial answer p ((p i).run answer s).2
        (tr.filter fun e => e.1 ≠ i) s' order := by
      refine ih hnodup (fun e he => ?_) (fun j hj => ?_) (fun j k hjk => ?_) h₂
      · obtain ⟨hmem, hei⟩ := List.mem_filter.mp he
        exact (List.mem_cons.mp (hall e hmem)).resolve_left (by simpa using hei)
      · rw [callsOf_filter_ne (hne j hj)]
        exact hexec j (List.mem_cons_of_mem i hj)
      · exact (horder j k (hjk.cons i)).filter _
    refine ⟨hrest.1, fun j hj => ?_⟩
    rw [serialTrace, callsOf_append]
    rcases List.mem_cons.mp hj with rfl | hj
    · rw [callsOf_map_mk_self, callsOf_serialTrace_of_notMem hi, List.append_nil]
      exact htrace
    · rw [callsOf_map_mk_of_ne (hne j hj).symm, List.nil_append, ← hrest.2 j hj,
        callsOf_filter_ne (hne j hj)]

/-! ## Interleavings -/

/-- **The programs run in any order, call by call.** -/
inductive Interleaves (answer : (op : Op) → S → Res op × S) :
    (ι → Prog Res α) → S → List (ι × Event Res) → (ι → Prog Res α) → S → Prop where
  /-- No call. -/
  | refl (p : ι → Prog Res α) (s : S) : Interleaves answer p s [] p s
  /-- One program makes its next call. -/
  | call {p p' : ι → Prog Res α} {s s' : S} {tr : List (ι × Event Res)} {i : ι} {op : Op}
      {k : Res op → Prog Res α} (hi : p i = .call op k)
      (hrest : Interleaves answer (Function.update p i (k (answer op s).1)) (answer op s).2
        tr p' s') :
      Interleaves answer p s ((i, ⟨op, (answer op s).1⟩) :: tr) p' s'

variable {p p' : ι → Prog Res α} {tr : List (ι × Event Res)}

/-- The state answers the calls. -/
theorem Interleaves.answered (h : Interleaves answer p s tr p' s') :
    Answered answer s (calls tr) s' := by
  induction h with
  | refl p s => exact rfl
  | call _ _ ih => exact ⟨rfl, ih⟩

/-- **Every program executes by itself.** -/
theorem Interleaves.exec {a : ι → α} (h : Interleaves answer p s tr p' s')
    (hdone : ∀ i, p' i = .pure (a i)) (i : ι) : Exec (p i) (callsOf i tr) (a i) := by
  induction h with
  | refl p s =>
    rw [hdone i]
    exact Exec.pure (a i)
  | @call p p' s s' tr j op k hj _ ih =>
    have hih := ih hdone
    by_cases hij : j = i
    · subst hij
      rw [Function.update_self] at hih
      rw [callsOf_cons_self, hj]
      exact Exec.call hih
    · rw [Function.update_of_ne (Ne.symm hij)] at hih
      rw [callsOf_cons_of_ne hij]
      exact hih

/-- **An interleaving whose calls against an order are independent** has the
results of the serial run in that order. -/
theorem Interleaves.sameAsSerial {a : ι → α} {order : List ι}
    (h : Interleaves answer p s tr p' s') (hdone : ∀ i, p' i = .pure (a i))
    (hnodup : order.Nodup) (hall : ∀ i, i ∈ order)
    (horder : ∀ i j, [i, j].Sublist order →
      tr.Pairwise fun x y => x.1 = j → y.1 = i → Independent answer x.2.1 y.2.1) :
    SameAsSerial answer p s tr s' order :=
  sameAsSerial_of_order hnodup (fun e _ => hall e.1) (fun i _ => h.exec hdone i) horder
    h.answered

/-! ## Conflicts -/

/-- A call of one program is followed by one of another that is not independent
of it. -/
def Conflicts (answer : (op : Op) → S → Res op × S) (tr : List (ι × Event Res)) (i j : ι) :
    Prop :=
  i ≠ j ∧ ∃ x y, [x, y].Sublist tr ∧ x.1 = i ∧ y.1 = j ∧ ¬ Independent answer x.2.1 y.2.1

/-- No program conflicts with itself through others. -/
def Acyclic (answer : (op : Op) → S → Res op × S) (tr : List (ι × Event Res)) : Prop :=
  ∀ i, ¬ Relation.TransGen (Conflicts answer tr) i i

omit [DecidableEq ι] in
/-- **Conflicts without a cycle go along some order of the programs.** -/
theorem exists_order [Fintype ι] (h : Acyclic answer tr) :
    ∃ order : List ι, order.Nodup ∧ (∀ i, i ∈ order) ∧ ∀ i j, [i, j].Sublist order →
      tr.Pairwise fun x y => x.1 = j → y.1 = i → Independent answer x.2.1 y.2.1 := by
  have hantisymm : ∀ i j, Relation.ReflTransGen (Conflicts answer tr) i j →
      Relation.ReflTransGen (Conflicts answer tr) j i → i = j := by
    intro i j hij hji
    rcases Relation.reflTransGen_iff_eq_or_transGen.mp hij with heq | hij'
    · exact heq.symm
    · exact absurd (hij'.trans_left hji) (h i)
  have hpartial : IsPartialOrder ι (Relation.ReflTransGen (Conflicts answer tr)) :=
    { refl := fun _ => .refl
      trans := fun _ _ _ => .trans
      antisymm := hantisymm }
  obtain ⟨r, hr, hle⟩ :=
    extend_partialOrder (Relation.ReflTransGen (Conflicts answer tr))
  classical
  refine ⟨Finset.univ.sort r, Finset.sort_nodup _ r, fun i =>
    (Finset.mem_sort r).mpr (Finset.mem_univ i), fun i j hij => ?_⟩
  have hrij : r i j := List.pairwise_iff_forall_sublist.mp (Finset.pairwise_sort _ r) hij
  have hne : i ≠ j := List.pairwise_iff_forall_sublist.mp (Finset.sort_nodup _ r) hij
  refine List.pairwise_iff_forall_sublist.mpr fun {x y} hxy hx hy => ?_
  by_contra hdep
  have hconf : Conflicts answer tr j i := ⟨hne.symm, x, y, hxy, hx, hy, hdep⟩
  exact hne (antisymm_of r hrij (hle _ _ (.single hconf)))

/-- In a list without repetitions, what stands before stands at a smaller
index. -/
theorem idxOf_lt_of_sublist {l : List ι} (hl : l.Nodup) {i j : ι}
    (h : [i, j].Sublist l) : l.idxOf i < l.idxOf j := by
  have hpairs : l.Pairwise fun a b => l.idxOf a < l.idxOf b := by
    refine List.pairwise_iff_getElem.mpr fun a b ha hb hab => ?_
    rw [hl.idxOf_getElem a ha, hl.idxOf_getElem b hb]
    exact hab
  exact List.pairwise_iff_forall_sublist.mp hpairs h

/-- **Programs that make one call each have no cycle of conflicts.** Calls that
are independent of every other one do not count, and neither do programs without
conflicts. -/
theorem acyclic_of_length_le_one {shares : Op → Bool}
    (hfree : ∀ a b, shares a = false → Independent answer a b)
    (hone : ∀ i, (∀ j, ¬ Conflicts answer tr i j ∧ ¬ Conflicts answer tr j i)
      ∨ ((callsOf i tr).filter fun e => shares e.1).length ≤ 1) : Acyclic answer tr := by
  classical
  -- the calls that can conflict, of which each program has one at most
  let single : ι → Prop := fun i => ((callsOf i tr).filter fun e => shares e.1).length ≤ 1
  let owners : List ι := (tr.filter fun e => shares e.2.1 ∧ single e.1).map Prod.fst
  have hnodup : owners.Nodup := by
    refine List.nodup_iff_count_le_one.mpr fun i => ?_
    by_cases hi : single i
    · refine le_trans (le_of_eq ?_) hi
      unfold owners callsOf
      rw [List.count, List.countP_map, List.countP_filter, List.filter_map, List.length_map,
        List.filter_filter, ← List.countP_eq_length_filter]
      refine List.countP_congr fun e _ => ?_
      by_cases hei : e.1 = i
      · simp [hei, hi]
      · simp [hei]
    · refine le_trans (le_of_eq (List.count_eq_zero.mpr fun hmem => ?_)) (Nat.zero_le 1)
      obtain ⟨e, he, rfl⟩ := List.mem_map.mp hmem
      have hboth := of_decide_eq_true (List.mem_filter.mp he).2
      exact hi hboth.2
  have hconf : ∀ i j, Conflicts answer tr i j → owners.idxOf i < owners.idxOf j := by
    intro i j hij
    have hi : single i := (hone i).resolve_left fun h => (h j).1 hij
    have hj : single j := (hone j).resolve_left fun h => (h i).2 hij
    obtain ⟨-, x, y, hxy, rfl, rfl, hdep⟩ := hij
    have hx : shares x.2.1 = true := by
      by_contra hn
      exact hdep (hfree _ _ (Bool.not_eq_true _ ▸ hn))
    have hy : shares y.2.1 = true := by
      by_contra hn
      exact hdep (hfree _ _ (Bool.not_eq_true _ ▸ hn)).symm
    have hsub := hxy.filter fun e => shares e.2.1 ∧ single e.1
    rw [List.filter_cons_of_pos (by simp [hx, hi]), List.filter_cons_of_pos (by simp [hy, hj]),
      List.filter_nil] at hsub
    exact idxOf_lt_of_sublist hnodup (hsub.map Prod.fst)
  intro i hi
  have hlt : ∀ j, Relation.TransGen (Conflicts answer tr) i j →
      owners.idxOf i < owners.idxOf j := by
    intro j hij
    induction hij with
    | single h => exact hconf _ _ h
    | tail _ h ih => exact ih.trans (hconf _ _ h)
  exact lt_irrefl _ (hlt i hi)

/-- **Without cyclic conflicts an interleaving is serializable.** -/
theorem Interleaves.exists_sameAsSerial [Fintype ι] {a : ι → α}
    (h : Interleaves answer p s tr p' s') (hdone : ∀ i, p' i = .pure (a i))
    (hacyclic : Acyclic answer tr) :
    ∃ order : List ι, order.Nodup ∧ (∀ i, i ∈ order) ∧
      SameAsSerial answer p s tr s' order := by
  obtain ⟨order, hnodup, hall, horder⟩ := exists_order hacyclic
  exact ⟨order, hnodup, hall, h.sameAsSerial hdone hnodup hall horder⟩

end Interleaving
