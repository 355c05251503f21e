import RedisProxy.Library.Interleaving

/-!
# Linearizability

Threads are started one after the other, each with a program, and make their calls on
one state in any order. A call is quiet if it neither changes the state nor depends on
it. A thread that makes one call at most that is not quiet takes effect at once: with
that call, or, where it makes none, as soon as it can make none any more
(`AtMostOnce`).

The threads in the order in which they take effect are a serial run that does the
same (`Linearized`). Threads only ever join that order at its end, so one order
serves for a whole run (`exists_linearization`), and a thread that has returned
before another one is started comes before it (`Linearized.sublist_of_done`).
-/

namespace Interleaving

open Prog

variable {Op : Type} {Res : Op → Type} {α S : Type} {answer : (op : Op) → S → Res op × S}
  {p : Prog Res α} {s s' : S}

/-! ## Quiet calls -/

/-- **A quiet call**: it leaves the state as it is, and its result does not depend on
it. -/
structure Quiet (answer : (op : Op) → S → Res op × S) (op : Op) : Prop where
  state : ∀ s, (answer op s).2 = s
  result : ∀ s s', (answer op s).1 = (answer op s').1

/-- A program all of whose calls are quiet. -/
inductive AllQuiet (answer : (op : Op) → S → Res op × S) : Prog Res α → Prop where
  | pure (a : α) : AllQuiet answer (.pure a)
  | call {op : Op} {k : Res op → Prog Res α} (h : Quiet answer op)
      (hk : ∀ r, AllQuiet answer (k r)) : AllQuiet answer (.call op k)

/-- **A program that makes one call at most that is not quiet**, whatever its calls
return. -/
inductive AtMostOnce (answer : (op : Op) → S → Res op × S) : Prog Res α → Prop where
  /-- None. -/
  | none {p : Prog Res α} (h : AllQuiet answer p) : AtMostOnce answer p
  /-- Not yet. -/
  | later {op : Op} {k : Res op → Prog Res α} (h : Quiet answer op)
      (hk : ∀ r, AtMostOnce answer (k r)) : AtMostOnce answer (.call op k)
  /-- Now, and not again. -/
  | now {op : Op} {k : Res op → Prog Res α} (hk : ∀ r, AllQuiet answer (k r)) :
      AtMostOnce answer (.call op k)

theorem AllQuiet.of_call {op : Op} {k : Res op → Prog Res α}
    (h : AllQuiet answer (.call op k)) : Quiet answer op ∧ ∀ r, AllQuiet answer (k r) := by
  cases h with
  | call h hk => exact ⟨h, hk⟩

/-- The next call is quiet, or the others are. -/
theorem AtMostOnce.of_call {op : Op} {k : Res op → Prog Res α}
    (h : AtMostOnce answer (.call op k)) :
    (Quiet answer op ∧ ∀ r, AtMostOnce answer (k r)) ∨ ∀ r, AllQuiet answer (k r) := by
  cases h with
  | none h => exact Or.inr h.of_call.2
  | later h hk => exact Or.inl ⟨h, hk⟩
  | now hk => exact Or.inr hk

/-- Quiet calls leave the state as it is. -/
theorem AllQuiet.run_snd (h : AllQuiet answer p) (s : S) : (p.run answer s).2 = s := by
  induction h generalizing s with
  | pure a => rfl
  | call h _ ih => exact (ih _ _).trans (h.state s)

/-- A program with only quiet calls returns the same in every state. -/
theorem AllQuiet.run_fst (h : AllQuiet answer p) (s s' : S) :
    (p.run answer s).1 = (p.run answer s').1 := by
  induction h generalizing s s' with
  | pure a => rfl
  | @call op k h _ ih =>
    rw [Prog.run, Prog.run, h.result s s']
    exact ih _ _ _

/-- And makes the same calls. -/
theorem AllQuiet.trace_eq (h : AllQuiet answer p) (s s' : S) :
    p.trace answer s = p.trace answer s' := by
  induction h generalizing s s' with
  | pure a => rfl
  | @call op k h _ ih =>
    rw [Prog.trace, Prog.trace, h.result s s']
    exact congrArg _ (ih _ _ _)

/-! ## Threads -/

/-- **A thread**: its program, the calls it has made, and what it has left to do. -/
structure Thread {Op : Type} (Res : Op → Type) (α : Type) where
  program : Prog Res α
  made : List (Event Res)
  todo : Prog Res α

/-- A thread that is started. -/
def Thread.new (p : Prog Res α) : Thread Res α := ⟨p, [], p⟩

/-- The thread after its next call. -/
def Thread.call (t : Thread Res α) (e : Event Res) (todo : Prog Res α) : Thread Res α where
  program := t.program
  made := t.made ++ [e]
  todo := todo

/-- **One step of the threads** on the state they share. -/
inductive ThreadStep (answer : (op : Op) → S → Res op × S) :
    List (Thread Res α) × S → List (Thread Res α) × S → Prop where
  /-- A thread is started. -/
  | start (ts : List (Thread Res α)) (s : S) (p : Prog Res α) :
      ThreadStep answer (ts, s) (ts ++ [.new p], s)
  /-- A thread makes its next call. -/
  | call {before after : List (Thread Res α)} {t : Thread Res α} {s : S} {op : Op}
      {k : Res op → Prog Res α} (htodo : t.todo = .call op k) :
      ThreadStep answer (before ++ t :: after, s)
        (before ++ t.call ⟨op, (answer op s).1⟩ (k (answer op s).1) :: after, (answer op s).2)

/-- The program of a thread. -/
def programOf [Inhabited α] (ts : List (Thread Res α)) (i : ℕ) : Prog Res α :=
  ts[i]?.elim (.pure default) Thread.program

variable {t t' : Thread Res α} {ts ts' : List (Thread Res α)}

/-- **A thread that has had no effect**: its calls were quiet, and its program may as
well start now. -/
structure Thread.Waits (answer : (op : Op) → S → Res op × S) (t : Thread Res α) : Prop where
  once : AtMostOnce answer t.todo
  calls : ∀ s, t.program.trace answer s = t.made ++ t.todo.trace answer s
  runs : ∀ s, t.program.run answer s = t.todo.run answer s

/-- **A thread that has taken effect on the state `s`**: it has made the calls that its
program makes from there, but for quiet ones, and will return what that returns. -/
structure Thread.TookEffect (answer : (op : Op) → S → Res op × S) (t : Thread Res α) (s : S) :
    Prop where
  quiet : AllQuiet answer t.todo
  calls : ∀ s', t.program.trace answer s = t.made ++ t.todo.trace answer s'
  value : ∀ s', (t.program.run answer s).1 = (t.todo.run answer s').1

theorem Thread.waits_new (h : AtMostOnce answer p) : (Thread.new p).Waits answer where
  once := h
  calls _ := rfl
  runs _ := rfl

/-- A thread that can only make quiet calls takes effect in any state. -/
theorem Thread.Waits.tookEffect (h : t.Waits answer) (hquiet : AllQuiet answer t.todo) (s : S) :
    t.TookEffect answer s where
  quiet := hquiet
  calls s' := (h.calls s).trans (congrArg _ (hquiet.trace_eq s s'))
  value s' := by
    rw [h.runs s]
    exact hquiet.run_fst s s'

/-- A quiet call of a thread that has had no effect has none. -/
theorem Thread.Waits.call (h : t.Waits answer) {op : Op} {k : Res op → Prog Res α}
    (htodo : t.todo = .call op k) (hquiet : Quiet answer op)
    (hk : ∀ r, AtMostOnce answer (k r)) (s : S) :
    (t.call ⟨op, (answer op s).1⟩ (k (answer op s).1)).Waits answer where
  once := hk _
  calls s' := by
    have hcalls := h.calls s'
    rw [htodo, Prog.trace, hquiet.state s', hquiet.result s' s] at hcalls
    rw [Thread.call, List.append_assoc]
    exact hcalls
  runs s' := by
    have hruns := h.runs s'
    rw [htodo, Prog.run, hquiet.state s', hquiet.result s' s] at hruns
    exact hruns

/-- **A thread takes effect with the call after which the others are quiet**, on the
state that answers it. -/
theorem Thread.Waits.tookEffect_call (h : t.Waits answer) {op : Op} {k : Res op → Prog Res α}
    (htodo : t.todo = .call op k) (hk : ∀ r, AllQuiet answer (k r)) (s : S) :
    (t.call ⟨op, (answer op s).1⟩ (k (answer op s).1)).TookEffect answer s where
  quiet := hk _
  calls s' := by
    have hcalls := h.calls s
    rw [htodo, Prog.trace, (hk _).trace_eq _ s'] at hcalls
    rw [Thread.call, List.append_assoc]
    exact hcalls
  value s' := by
    have hruns := h.runs s
    rw [htodo, Prog.run] at hruns
    rw [Thread.call, hruns]
    exact (hk _).run_fst _ s'

/-- The state it leaves. -/
theorem Thread.Waits.run_snd_call (h : t.Waits answer) {op : Op} {k : Res op → Prog Res α}
    (htodo : t.todo = .call op k) (hk : ∀ r, AllQuiet answer (k r)) (s : S) :
    (t.program.run answer s).2 = (answer op s).2 := by
  rw [h.runs s, htodo, Prog.run]
  exact (hk _).run_snd _

/-- What a thread does after it has taken effect changes nothing. -/
theorem Thread.TookEffect.call (h : t.TookEffect answer s) {op : Op} {k : Res op → Prog Res α}
    (htodo : t.todo = .call op k) (s₁ : S) :
    (t.call ⟨op, (answer op s₁).1⟩ (k (answer op s₁).1)).TookEffect answer s := by
  have hquiet := h.quiet
  rw [htodo] at hquiet
  obtain ⟨hop, hk⟩ := hquiet.of_call
  refine ⟨hk _, fun s' => ?_, fun s' => ?_⟩
  · have hcalls := h.calls s₁
    rw [htodo, Prog.trace, (hk _).trace_eq _ s'] at hcalls
    rw [Thread.call, List.append_assoc]
    exact hcalls
  · have hvalue := h.value s₁
    rw [htodo, Prog.run, (hk _).run_fst _ s'] at hvalue
    exact hvalue

/-! ## The order in which they take effect -/

variable [Inhabited α] {s₀ : S} {order order' : List ℕ} {i j : ℕ}

/-- **An order in which threads have taken effect.** Running their programs one after
another in that order leaves the state there is now, and each of them has made the
calls of its turn. The other threads have had no effect, and can still have one. -/
structure Linearized (answer : (op : Op) → S → Res op × S) (s₀ : S) (ts : List (Thread Res α))
    (s : S) (order : List ℕ) : Prop where
  nodup : order.Nodup
  state : s = serialState answer (programOf ts) order s₀
  tookEffect : ∀ before i after, order = before ++ i :: after → ∃ t, ts[i]? = some t
    ∧ t.TookEffect answer (serialState answer (programOf ts) before s₀)
  waits : ∀ (i : ℕ) (t : Thread Res α), ts[i]? = some t → i ∉ order →
    ¬ AllQuiet answer t.todo ∧ t.Waits answer

theorem linearized_nil : Linearized answer s₀ ([] : List (Thread Res α)) s₀ [] where
  nodup := List.nodup_nil
  state := rfl
  tookEffect before i after h := by
    cases before with
    | nil => cases h
    | cons j before => cases h
  waits i t ht := by
    rw [List.getElem?_nil] at ht
    cases ht

theorem Linearized.exists_of_mem (h : Linearized answer s₀ ts s order) (hi : i ∈ order) :
    ∃ t, ts[i]? = some t ∧ AllQuiet answer t.todo := by
  obtain ⟨before, after, horder⟩ := List.append_of_mem hi
  obtain ⟨t, ht, htook⟩ := h.tookEffect before i after horder
  exact ⟨t, ht, htook.quiet⟩

/-- Only threads that have been started take effect. -/
theorem Linearized.lt_length (h : Linearized answer s₀ ts s order) (hi : i ∈ order) :
    i < ts.length := by
  obtain ⟨t, ht, -⟩ := h.exists_of_mem hi
  exact (List.getElem?_eq_some_iff.mp ht).1

/-- **A thread that has returned has taken effect.** -/
theorem Linearized.mem_of_done (h : Linearized answer s₀ ts s order) {a : α}
    (ht : ts[i]? = some t) (hdone : t.todo = .pure a) : i ∈ order := by
  by_contra hi
  refine (h.waits i t ht hi).1 ?_
  rw [hdone]
  exact AllQuiet.pure a

/-- **A thread that has returned has run in its turn**: it has made the calls its program
makes, with the results it has, on the state between the threads before it and those
behind it. -/
theorem Linearized.exists_of_done (h : Linearized answer s₀ ts s order) {a : α}
    (ht : ts[i]? = some t) (hdone : t.todo = .pure a) :
    ∃ before after, order = before ++ i :: after
      ∧ t.made = t.program.trace answer (serialState answer (programOf ts) before s₀)
      ∧ a = (t.program.run answer (serialState answer (programOf ts) before s₀)).1 := by
  obtain ⟨before, after, horder⟩ := List.append_of_mem (h.mem_of_done ht hdone)
  obtain ⟨t', ht', htook⟩ := h.tookEffect before i after horder
  obtain rfl := Option.some.inj (ht.symm.trans ht')
  have hcalls := htook.calls s
  have hvalue := htook.value s
  rw [hdone, Prog.trace, List.append_nil] at hcalls
  rw [hdone] at hvalue
  exact ⟨before, after, horder, hcalls.symm, hvalue.symm⟩

/-- **What has returned before another thread is started comes before it.** -/
theorem Linearized.sublist_of_done (h : Linearized answer s₀ ts s order) {a : α}
    (ht : ts[i]? = some t) (hdone : t.todo = .pure a) (horder : order <+: order')
    (hj : ts.length ≤ j) (hmem : j ∈ order') : [i, j].Sublist order' := by
  obtain ⟨rest, rfl⟩ := horder
  have hnot : j ∉ order := fun hj' => absurd (h.lt_length hj') (not_lt.mpr hj)
  have hrest : j ∈ rest := (List.mem_append.mp hmem).resolve_left hnot
  exact (List.singleton_sublist.mpr (h.mem_of_done ht hdone)).append
    (List.singleton_sublist.mpr hrest)

omit [Inhabited α] in
/-- A serial run depends on the programs that are run only. -/
theorem serialState_congr {q q' : ℕ → Prog Res α} (h : ∀ i ∈ order, q i = q' i) :
    serialState answer q order s = serialState answer q' order s := by
  induction order generalizing s with
  | nil => rfl
  | cons i order ih =>
    rw [serialState, serialState, h i List.mem_cons_self]
    exact ih fun j hj => h j (List.mem_cons_of_mem i hj)

omit [Inhabited α] in
theorem serialState_concat {q : ℕ → Prog Res α} (i : ℕ) :
    serialState answer q (order ++ [i]) s
      = ((q i).run answer (serialState answer q order s)).2 := by
  induction order generalizing s with
  | nil => rfl
  | cons j order ih => exact ih

/-- One thread has been started or has gone on. -/
structure Changed (ts ts' : List (Thread Res α)) (i : ℕ) (t' : Thread Res α) : Prop where
  self : ts'[i]? = some t'
  others : ∀ j ≠ i, ts'[j]? = ts[j]?
  program : ∀ t, ts[i]? = some t → t'.program = t.program

theorem Changed.programOf_eq (hc : Changed ts ts' i t') {j : ℕ} (hj : j < ts.length) :
    programOf ts' j = programOf ts j := by
  unfold programOf
  by_cases hji : j = i
  · subst hji
    have ht : ts[j]? = some ts[j] := List.getElem?_eq_getElem hj
    rw [hc.self, ht]
    exact hc.program _ ht
  · rw [hc.others j hji]

/-- The programs of the threads that have taken effect are what they were. -/
theorem Linearized.serialState_eq (h : Linearized answer s₀ ts s order)
    (hc : Changed ts ts' i t') {before : List ℕ} (hbefore : before ⊆ order) :
    serialState answer (programOf ts') before s₀ = serialState answer (programOf ts) before s₀ :=
  serialState_congr fun _ hj => hc.programOf_eq (h.lt_length (hbefore hj))

/-- A thread of the order has gone on. -/
theorem Linearized.goOn (h : Linearized answer s₀ ts s order) (hc : Changed ts ts' i t')
    (hi : i ∈ order)
    (htook : ∀ t s₁, ts[i]? = some t → t.TookEffect answer s₁ → t'.TookEffect answer s₁) :
    Linearized answer s₀ ts' s order where
  nodup := h.nodup
  state := h.state.trans (h.serialState_eq hc (List.Subset.refl _)).symm
  tookEffect before j after horder := by
    obtain ⟨t, ht, hj⟩ := h.tookEffect before j after horder
    rw [h.serialState_eq hc (horder ▸ List.subset_append_left _ _)]
    by_cases hji : j = i
    · subst hji
      exact ⟨t', hc.self, htook t _ ht hj⟩
    · exact ⟨t, (hc.others j hji).trans ht, hj⟩
  waits j t ht hj := by
    have hji : j ≠ i := fun hji => hj (hji ▸ hi)
    exact h.waits j t ((hc.others j hji).symm.trans ht) hj

/-- A thread has gone on, or been started, that has no effect yet. -/
theorem Linearized.wait (h : Linearized answer s₀ ts s order) (hc : Changed ts ts' i t')
    (hi : i ∉ order) (hloud : ¬ AllQuiet answer t'.todo) (hwaits : t'.Waits answer) :
    Linearized answer s₀ ts' s order where
  nodup := h.nodup
  state := h.state.trans (h.serialState_eq hc (List.Subset.refl _)).symm
  tookEffect before j after horder := by
    obtain ⟨t, ht, hj⟩ := h.tookEffect before j after horder
    have hji : j ≠ i := by
      rintro rfl
      exact hi (horder ▸ List.mem_append_right _ List.mem_cons_self)
    rw [h.serialState_eq hc (horder ▸ List.subset_append_left _ _)]
    exact ⟨t, (hc.others j hji).trans ht, hj⟩
  waits j t ht hj := by
    by_cases hji : j = i
    · subst hji
      obtain rfl := Option.some.inj (hc.self.symm.trans ht)
      exact ⟨hloud, hwaits⟩
    · exact h.waits j t ((hc.others j hji).symm.trans ht) hj

/-- **A thread takes effect**, and joins the order at its end. -/
theorem Linearized.join (h : Linearized answer s₀ ts s order) (hc : Changed ts ts' i t')
    (hi : i ∉ order) (htook : t'.TookEffect answer s) :
    Linearized answer s₀ ts' (t'.program.run answer s).2 (order ++ [i]) where
  nodup := List.nodup_append.mpr ⟨h.nodup, List.nodup_singleton i, fun j hj k hk =>
    (List.mem_singleton.mp hk).symm ▸ fun hji => hi (hji ▸ hj)⟩
  state := by
    have hprogram : programOf ts' i = t'.program := by
      unfold programOf
      rw [hc.self]
      rfl
    rw [serialState_concat, h.serialState_eq hc (List.Subset.refl _), ← h.state, hprogram]
  tookEffect before j after horder := by
    rcases List.eq_nil_or_concat' after with rfl | ⟨after, k, rfl⟩
    · -- the thread itself
      obtain ⟨rfl, hlast⟩ := List.append_inj' horder rfl
      obtain rfl := (List.cons.inj hlast).1
      rw [h.serialState_eq hc (List.Subset.refl _), ← h.state]
      exact ⟨t', hc.self, htook⟩
    · rw [← List.cons_append, ← List.append_assoc] at horder
      obtain ⟨rfl, -⟩ := List.append_inj' horder rfl
      obtain ⟨t, ht, hj⟩ := h.tookEffect before j after rfl
      have hji : j ≠ i := by
        rintro rfl
        exact hi (List.mem_append_right _ List.mem_cons_self)
      rw [h.serialState_eq hc (List.subset_append_left _ _)]
      exact ⟨t, (hc.others j hji).trans ht, hj⟩
  waits j t ht hj := by
    rw [List.mem_append, List.mem_singleton, not_or] at hj
    exact h.waits j t ((hc.others j hj.2).symm.trans ht) hj.1

omit [Inhabited α] in
theorem changed_start (ts : List (Thread Res α)) (p : Prog Res α) :
    Changed ts (ts ++ [.new p]) ts.length (.new p) where
  self := List.getElem?_concat_length
  others j hj := by
    rcases Nat.lt_or_gt_of_ne hj with hlt | hgt
    · exact List.getElem?_append_left hlt
    · rw [List.getElem?_eq_none (Nat.le_of_lt hgt), List.getElem?_eq_none]
      rw [List.length_append, List.length_singleton]
      exact hgt
  program t ht := by
    rw [List.getElem?_eq_none (Nat.le_refl _)] at ht
    cases ht

theorem getElem?_middle {β : Type} (before after : List β) (b : β) :
    (before ++ b :: after)[before.length]? = some b := by
  rw [List.getElem?_append_right (Nat.le_refl _), Nat.sub_self]
  rfl

/-- Elsewhere, what stands in the middle does not matter. -/
theorem getElem?_middle_of_ne {β : Type} {before after : List β} {b b' : β} {j : ℕ}
    (hj : j ≠ before.length) : (before ++ b' :: after)[j]? = (before ++ b :: after)[j]? := by
  rcases Nat.lt_or_gt_of_ne hj with hlt | hgt
  · rw [List.getElem?_append_left hlt, List.getElem?_append_left hlt]
  · obtain ⟨d, hd⟩ := Nat.exists_eq_add_of_lt hgt
    rw [List.getElem?_append_right hgt.le, List.getElem?_append_right hgt.le,
      show j - before.length = d + 1 by omega]
    rfl

omit [Inhabited α] in
theorem changed_call {before after : List (Thread Res α)} {t : Thread Res α} (e : Event Res)
    (todo : Prog Res α) :
    Changed (before ++ t :: after) (before ++ t.call e todo :: after) before.length
      (t.call e todo) where
  self := getElem?_middle _ _ _
  others j hj := getElem?_middle_of_ne hj
  program t' ht' := by
    rw [getElem?_middle] at ht'
    obtain rfl := Option.some.inj ht'
    rfl

/-- **What one step does to the order**: at most one thread joins it. -/
theorem Linearized.step (h : Linearized answer s₀ ts s order)
    (honce : ∀ t ∈ ts', AtMostOnce answer t.program) (hs : ThreadStep answer (ts, s) (ts', s')) :
    ∃ order', order <+: order' ∧ Linearized answer s₀ ts' s' order' := by
  classical
  cases hs with
  | start _ _ p =>
    have hi : ts.length ∉ order := fun hmem => lt_irrefl _ (h.lt_length hmem)
    have hp : AtMostOnce answer p :=
      honce (.new p) (List.mem_append_right _ (List.mem_singleton_self _))
    have hwaits := Thread.waits_new hp
    by_cases hquiet : AllQuiet answer p
    · have hjoin := h.join (changed_start ts p) hi (hwaits.tookEffect hquiet s)
      rw [Thread.new, hquiet.run_snd] at hjoin
      exact ⟨_, List.prefix_append _ _, hjoin⟩
    · exact ⟨order, List.prefix_rfl, h.wait (changed_start ts p) hi hquiet hwaits⟩
  | @call before after t _ op k htodo =>
    have hc := @changed_call _ _ _ before after t ⟨op, (answer op s).1⟩ (k (answer op s).1)
    have ht := getElem?_middle before after t
    by_cases hi : before.length ∈ order
    · -- it has taken effect, and its calls are quiet
      obtain ⟨t', ht', hquiet⟩ := h.exists_of_mem hi
      obtain rfl := Option.some.inj (ht.symm.trans ht')
      rw [htodo] at hquiet
      rw [hquiet.of_call.1.state s]
      refine ⟨order, List.prefix_rfl, h.goOn hc hi fun t' s₁ ht' htook => ?_⟩
      obtain rfl := Option.some.inj (ht.symm.trans ht')
      exact htook.call htodo s
    · obtain ⟨hloud, hwaits⟩ := h.waits _ t ht hi
      have honce' := hwaits.once
      rw [htodo] at honce'
      rcases honce'.of_call with ⟨hquiet, hk⟩ | hk
      · have hwaits' := hwaits.call htodo hquiet hk s
        by_cases hrest : AllQuiet answer (k (answer op s).1)
        · have hjoin := h.join hc hi (hwaits'.tookEffect hrest s)
          have hstate : (t.program.run answer s).2 = s :=
            (congrArg Prod.snd (hwaits'.runs s)).trans (hrest.run_snd s)
          rw [show (t.call _ _).program = t.program from rfl, hstate] at hjoin
          rw [hquiet.state s]
          exact ⟨_, List.prefix_append _ _, hjoin⟩
        · rw [hquiet.state s]
          exact ⟨order, List.prefix_rfl, h.wait hc hi hrest hwaits'⟩
      · have hjoin := h.join hc hi (hwaits.tookEffect_call htodo hk s)
        rw [← hwaits.run_snd_call htodo hk s]
        exact ⟨_, List.prefix_append _ _, hjoin⟩

/-! ## One order for a whole run -/

omit [Inhabited α] in
/-- A sequence can be chosen one after another. -/
theorem exists_sequence {X : Type} {P : ℕ → X → Prop} {R : X → X → Prop} {x : X}
    (hx : P 0 x) (hnext : ∀ n x, P n x → ∃ y, R x y ∧ P (n + 1) y) :
    ∃ f : ℕ → X, ∀ n, P n (f n) ∧ R (f n) (f (n + 1)) := by
  choose next hR hP using hnext
  let f : (n : ℕ) → { x // P n x } :=
    fun n => Nat.rec ⟨x, hx⟩ (fun n y => ⟨next n y.1 y.2, hP n y.1 y.2⟩) n
  exact ⟨fun n => (f n).1, fun n => ⟨(f n).2, hR n (f n).1 (f n).2⟩⟩

/-- **One order for a whole run**: threads join it at its end as they take effect. -/
theorem exists_linearization {run : ℕ → List (Thread Res α) × S} (hzero : run 0 = ([], s₀))
    (hstep : ∀ n, run (n + 1) = run n ∨ ThreadStep answer (run n) (run (n + 1)))
    (honce : ∀ n, ∀ t ∈ (run n).1, AtMostOnce answer t.program) :
    ∃ order : ℕ → List ℕ, (∀ n, Linearized answer s₀ (run n).1 (run n).2 (order n))
      ∧ ∀ m n, m ≤ n → order m <+: order n := by
  have hbase : Linearized answer s₀ (run 0).1 (run 0).2 [] := by
    rw [hzero]
    exact linearized_nil
  obtain ⟨order, horder⟩ := @exists_sequence _
    (fun n order => Linearized answer s₀ (run n).1 (run n).2 order) (· <+: ·) [] hbase
    fun n order h => by
      rcases hstep n with hsame | hs
      · rw [hsame]
        exact ⟨order, List.prefix_rfl, h⟩
      · exact h.step (honce (n + 1)) hs
  refine ⟨order, fun n => (horder n).1, fun m n hmn => ?_⟩
  induction n, hmn using Nat.le_induction with
  | base => exact List.prefix_rfl
  | succ n _ ih => exact ih.trans (horder n).2

end Interleaving
