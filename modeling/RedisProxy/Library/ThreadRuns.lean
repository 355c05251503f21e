import RedisProxy.Library.Linearization

/-!
# Threads as an interleaving

Threads that are started one after the other, and make their calls on one state in any
order, are an interleaving of all their programs (`exists_interleaved`): a thread that is
yet to be started is one that has made no call. So what holds of interleavings holds of
them, whenever each of them has come in.
-/

namespace Interleaving

open Prog

variable {Op : Type} {Res : Op → Type} {α S : Type} {answer : (op : Op) → S → Res op × S}
  {s s' s₀ : S}

/-- **An interleaving goes on** with a call of one of the programs. -/
theorem Interleaves.concat {ι : Type} [DecidableEq ι] {p p' : ι → Prog Res α}
    {tr : List (ι × Event Res)} {i : ι} {op : Op} {k : Res op → Prog Res α}
    (h : Interleaves answer p s tr p' s') (hi : p' i = .call op k) :
    Interleaves answer p s (tr ++ [(i, ⟨op, (answer op s').1⟩)])
      (Function.update p' i (k (answer op s').1)) (answer op s').2 := by
  induction h with
  | refl p s => exact Interleaves.call hi (Interleaves.refl _ _)
  | call hj _ ih => exact Interleaves.call hj (ih hi)

variable {n : ℕ} {p : Fin n → Prog Res α} {ts ts' : List (Thread Res α)} {t' : Thread Res α}
  {tr : List (Fin n × Event Res)} {i : ℕ}

/-- What a thread has left to do, or will have when it is started. -/
def todoOf (p : Fin n → Prog Res α) (ts : List (Thread Res α)) (i : Fin n) : Prog Res α :=
  ts[i.val]?.elim (p i) Thread.todo

/-- The calls a thread has made, none if it is yet to be started. -/
def madeOf (ts : List (Thread Res α)) (i : Fin n) : List (Event Res) :=
  ts[i.val]?.elim [] Thread.made

/-- **The threads are an interleaving of all the programs**, in which each of them has made
the calls it has made. -/
structure Interleaved (answer : (op : Op) → S → Res op × S) (p : Fin n → Prog Res α) (s₀ : S)
    (ts : List (Thread Res α)) (s : S) (tr : List (Fin n × Event Res)) : Prop where
  interleaves : Interleaves answer p s₀ tr (todoOf p ts) s
  made : ∀ i, callsOf i tr = madeOf ts i

theorem interleaved_nil : Interleaved answer p s₀ [] s₀ [] where
  interleaves := Interleaves.refl p s₀
  made _ := rfl

/-- One thread has something else to do. -/
theorem Changed.todoOf_eq (hc : Changed ts ts' i t') (hi : i < n) :
    todoOf p ts' = Function.update (todoOf p ts) ⟨i, hi⟩ t'.todo := by
  funext j
  unfold todoOf
  by_cases hj : j = ⟨i, hi⟩
  · subst hj
    rw [Function.update_self, hc.self]
    rfl
  · rw [Function.update_of_ne hj, hc.others j fun h => hj (Fin.ext h)]

/-- One thread has made other calls. -/
theorem Changed.madeOf_eq (hc : Changed ts ts' i t') (hi : i < n) :
    (madeOf ts' : Fin n → _) = Function.update (madeOf ts) ⟨i, hi⟩ t'.made := by
  funext j
  unfold madeOf
  by_cases hj : j = ⟨i, hi⟩
  · subst hj
    rw [Function.update_self, hc.self]
    rfl
  · rw [Function.update_of_ne hj, hc.others j fun h => hj (Fin.ext h)]

/-- A thread keeps its program. -/
theorem ThreadStep.prefix_programs (hs : ThreadStep answer (ts, s) (ts', s')) :
    ts.map Thread.program <+: ts'.map Thread.program := by
  cases hs with
  | start _ _ q =>
    rw [List.map_append]
    exact List.prefix_append _ _
  | call _ =>
    rw [List.map_append, List.map_append, List.map_cons, List.map_cons]
    exact List.prefix_rfl

/-- The programs are those of the threads. -/
theorem program_eq_of_prefix {t : Thread Res α} (hp : ts.map Thread.program <+: List.ofFn p)
    (ht : ts[i]? = some t) : ∃ hi : i < n, t.program = p ⟨i, hi⟩ := by
  have hmap : (ts.map Thread.program)[i]? = some t.program := by
    rw [List.getElem?_map, ht]
    rfl
  obtain ⟨hlt, heq⟩ := List.getElem?_eq_some_iff.mp hmap
  have hfn := List.prefix_iff_getElem?.mp hp i hlt
  rw [heq, List.getElem?_ofFn] at hfn
  split at hfn
  · rename_i hi
    exact ⟨hi, (Option.some.inj hfn).symm⟩
  · cases hfn

/-- **One step more**: starting a thread changes nothing, and a call is one of its
program. -/
theorem Interleaved.step (h : Interleaved answer p s₀ ts s tr)
    (hp : ts'.map Thread.program <+: List.ofFn p) (hs : ThreadStep answer (ts, s) (ts', s')) :
    ∃ tr', Interleaved answer p s₀ ts' s' tr' := by
  cases hs with
  | start _ _ q =>
    have hc := changed_start ts q
    obtain ⟨hi, hq⟩ := program_eq_of_prefix hp hc.self
    have hnone : ts[ts.length]? = none := List.getElem?_eq_none (Nat.le_refl _)
    refine ⟨tr, ?_, fun j => ?_⟩
    · rw [hc.todoOf_eq hi, Function.update_eq_self_iff.mpr]
      · exact h.interleaves
      · unfold todoOf
        rw [hnone]
        exact hq
    · rw [hc.madeOf_eq hi, Function.update_eq_self_iff.mpr]
      · exact h.made j
      · unfold madeOf
        rw [hnone]
        rfl
  | @call before after t _ op k htodo =>
    have hc := @changed_call _ _ _ before after t ⟨op, (answer op s).1⟩ (k (answer op s).1)
    obtain ⟨hi, -⟩ := program_eq_of_prefix hp hc.self
    have ht := getElem?_middle before after t
    have hcall : todoOf p (before ++ t :: after) ⟨before.length, hi⟩ = .call op k := by
      unfold todoOf
      rw [ht]
      exact htodo
    refine ⟨tr ++ [(⟨before.length, hi⟩, ⟨op, (answer op s).1⟩)], ?_, fun j => ?_⟩
    · rw [hc.todoOf_eq hi]
      exact h.interleaves.concat hcall
    · rw [hc.madeOf_eq hi, callsOf_append, h.made]
      by_cases hj : j = ⟨before.length, hi⟩
      · subst hj
        rw [Function.update_self, callsOf_cons_self]
        unfold madeOf
        rw [ht]
        rfl
      · rw [Function.update_of_ne hj, callsOf_cons_of_ne (Ne.symm hj)]
        exact List.append_nil _

/-- **A run of threads is an interleaving of their programs**, at every moment. -/
theorem exists_interleaved {run : ℕ → List (Thread Res α) × S} (hzero : run 0 = ([], s₀))
    (hstep : ∀ m, run (m + 1) = run m ∨ ThreadStep answer (run m) (run (m + 1))) {m : ℕ}
    (hp : (run m).1.map Thread.program <+: List.ofFn p) :
    ∃ tr, Interleaved answer p s₀ (run m).1 (run m).2 tr := by
  induction m with
  | zero =>
    rw [hzero]
    exact ⟨[], interleaved_nil⟩
  | succ m ih =>
    rcases hstep m with hsame | hs
    · rw [hsame] at hp ⊢
      exact ih hp
    · obtain ⟨tr, htr⟩ := ih (hs.prefix_programs.trans hp)
      exact htr.step hp hs

end Interleaving
