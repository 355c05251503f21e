import Mathlib.Logic.Relation
import Mathlib.Data.List.Basic

/-!
# Paths of a labelled machine

A machine goes from state to state, and a label says what happened. A `LabelledPath`
keeps the labels, so that a property of a run can speak of what has happened in
it and not only of the state reached: an invariant of a path relates the two
(`LabelledPath.invariant`).

A machine that is left alone comes to rest if every step costs something of which
there is a finite stock (`LabelledPath.length_le`), and where it can only rest in good
states it ends in one, whichever steps it takes (`LabelledPath.exists_rest`).
-/

variable {S L : Type} {Step Step' : S → L → S → Prop} {s s' s'' : S} {l : L} {ls ls' : List L}

/-- **A path**: steps one after the other, with their labels. -/
inductive LabelledPath (Step : S → L → S → Prop) (s : S) : List L → S → Prop where
  | refl : LabelledPath Step s [] s
  | step {ls : List L} {s' s'' : S} {l : L} (h : LabelledPath Step s ls s') (hs : Step s' l s'') :
      LabelledPath Step s (ls ++ [l]) s''

namespace LabelledPath

/-- **The invariant rule of paths**, for a property of what has happened and of the
state reached. -/
theorem invariant {I : List L → S → Prop} (h : LabelledPath Step s ls s') (h0 : I [] s)
    (hstep : ∀ ls s₁ l s₂, I ls s₁ → Step s₁ l s₂ → I (ls ++ [l]) s₂) : I ls s' := by
  induction h with
  | refl => exact h0
  | step _ hs ih => exact hstep _ _ _ _ ih hs

/-- A path by steps that are steps of another machine as well. -/
theorem mono (hsub : ∀ s l s', Step s l s' → Step' s l s') (h : LabelledPath Step s ls s') :
    LabelledPath Step' s ls s' := by
  induction h with
  | refl => exact .refl
  | step _ hs ih => exact ih.step (hsub _ _ _ hs)

/-- One path, then another. -/
theorem append (h : LabelledPath Step s ls s') (h' : LabelledPath Step s' ls' s'') :
    LabelledPath Step s (ls ++ ls') s'' := by
  induction h' with
  | refl => rwa [List.append_nil]
  | step _ hs ih =>
    rw [← List.append_assoc]
    exact ih.step hs

/-- **A sequence of states with a step from each to the next** is a path between any
two of them. -/
theorem of_sequence {f : ℕ → S} {label : ℕ → L} (m : ℕ) {n : ℕ}
    (h : ∀ k, m ≤ k → k < m + n → Step (f k) (label k) (f (k + 1))) :
    LabelledPath Step (f m) ((List.range' m n).map label) (f (m + n)) := by
  induction n with
  | zero => exact .refl
  | succ n ih =>
    rw [List.range'_1_concat, List.map_append, List.map_singleton]
    exact (ih fun k hm hk => h k hm (Nat.lt_succ_of_lt hk)).step
      (h (m + n) (Nat.le_add_right m n) (Nat.lt_succ_self _))

/-- The path without its labels. -/
theorem reflTransGen (h : LabelledPath Step s ls s') :
    Relation.ReflTransGen (fun s s' => ∃ l, Step s l s') s s' := by
  induction h with
  | refl => exact .refl
  | step _ hs ih => exact ih.tail ⟨_, hs⟩

/-- **Every step costs something**: a path is no longer than the stock it starts
with. -/
theorem length_le {I : S → Prop} {stock : S → ℕ}
    (hstep : ∀ s l s', I s → Step s l s' → I s' ∧ stock s' < stock s)
    (h : LabelledPath Step s ls s') (hI : I s) : I s' ∧ ls.length + stock s' ≤ stock s := by
  induction h with
  | refl => exact ⟨hI, Nat.le_of_eq (Nat.zero_add _)⟩
  | step _ hs ih =>
    obtain ⟨hI', hle⟩ := ih
    obtain ⟨hI'', hlt⟩ := hstep _ _ _ hI' hs
    rw [List.length_append, List.length_singleton]
    exact ⟨hI'', by omega⟩

/-- **A machine whose steps cost something comes to rest.** -/
theorem exists_rest {I : S → Prop} {stock : S → ℕ}
    (hstep : ∀ s l s', I s → Step s l s' → I s' ∧ stock s' < stock s) (hI : I s) :
    ∃ ls s', LabelledPath Step s ls s' ∧ ∀ l s'', ¬ Step s' l s'' := by
  induction hn : stock s using Nat.strongRecOn generalizing s with
  | _ n ih =>
    by_cases hrest : ∀ l s'', ¬ Step s l s''
    · exact ⟨[], s, .refl, hrest⟩
    · push Not at hrest
      obtain ⟨l, s₁, hs⟩ := hrest
      obtain ⟨hI₁, hlt⟩ := hstep _ _ _ hI hs
      obtain ⟨ls, s', hpath, hstop⟩ := ih _ (hn ▸ hlt) hI₁ rfl
      exact ⟨[l] ++ ls, s', (LabelledPath.refl.step hs).append hpath, hstop⟩

end LabelledPath
