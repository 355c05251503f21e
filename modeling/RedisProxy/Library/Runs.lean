import Mathlib.Data.List.Basic

/-!
# Runs of a machine that takes events

A machine takes an event in a state or does not (`step`). `Always` says of every
event of a run what it was like: the state it was taken in, the event, and the
state after it; `Along` says under which conditions the events come. Two
properties of the first kind hold of the same runs if they agree in the states that the
machine reaches while they hold (`always_congr`).
-/

variable {S E : Type}

namespace Runs

/-- **Every event of the run meets a condition** on the states before and after
it; a run ends with an event that is not taken. -/
def Always (step : S → E → Option S) (P : S → E → S → Prop) : S → List E → Prop
  | _, [] => True
  | s, e :: es => ∀ s', step s e = some s' → P s e s' ∧ Always step P s' es

/-- **Every event of the run comes under a condition** on the state before it. -/
def Along (Step : S → E → S → Prop) (P : S → E → Prop) : S → List E → Prop
  | _, [] => True
  | s, e :: es => P s e ∧ ∀ s', Step s e s' → Along Step P s' es

variable {step : S → E → Option S} {P Q : S → E → S → Prop} {I : S → Prop} {s : S}
  {es : List E}

/-- **Conditions that agree under an invariant** which they keep hold of the same
runs. -/
theorem always_congr
    (hagree : ∀ s e s', I s → step s e = some s' → (P s e s' ↔ Q s e s'))
    (hkeep : ∀ s e s', I s → step s e = some s' → Q s e s' → I s') (hs : I s) :
    Always step P s es ↔ Always step Q s es := by
  induction es generalizing s with
  | nil => exact Iff.rfl
  | cons e es ih =>
    refine forall_congr' fun s' => forall_congr' fun hstep => ?_
    rw [hagree s e s' hs hstep]
    exact and_congr_right fun hQ => ih (hkeep s e s' hs hstep hQ)

/-- The earlier part of a run comes under the condition. -/
theorem along_of_append {Step : S → E → S → Prop} {P : S → E → Prop} {es' : List E}
    (h : Along Step P s (es ++ es')) : Along Step P s es := by
  induction es generalizing s with
  | nil => exact trivial
  | cons e es ih => exact ⟨h.1, fun s' hs' => ih (h.2 s' hs')⟩

/-- The later part of a run comes under the condition as well. -/
theorem along_append {Exception : Type} {f : S → E → Except Exception S} {P : S → E → Prop}
    {s s' : S} {es es' : List E} (h : Along (fun s e s' => f s e = .ok s') P s (es ++ es'))
    (hrun : es.foldlM f s = .ok s') : Along (fun s e s' => f s e = .ok s') P s' es' := by
  induction es generalizing s with
  | nil => exact Except.ok.inj hrun ▸ h
  | cons e es ih =>
    rw [List.foldlM_cons] at hrun
    cases hstep : f s e with
    | error e =>
      rw [hstep] at hrun
      cases hrun
    | ok s₁ =>
      rw [hstep] at hrun
      exact ih (h.2 s₁ hstep) hrun

/-! ## Runs that keep an invariant -/

/-- **Under conditions that keep an invariant** and allow every event, a run is taken to its end,
and every event of it is what it is like under them. -/
theorem exists_run_of_along {P Q : S → E → Prop}
    (hstep : ∀ s e, I s → P s e → ∃ s', step s e = some s' ∧ I s' ∧ Q s e) (hs : I s)
    (hrun : Along (fun s e s' => step s e = some s') P s es) :
    ∃ s', es.foldlM step s = some s' ∧ I s'
      ∧ Along (fun s e s' => step s e = some s') Q s es := by
  induction es generalizing s with
  | nil => exact ⟨s, rfl, hs, trivial⟩
  | cons e es ih =>
    obtain ⟨s₁, hs₁, hI, hQ⟩ := hstep s e hs hrun.1
    obtain ⟨s', hs', hI', hQs⟩ := ih hI (hrun.2 s₁ hs₁)
    refine ⟨s', ?_, hI', hQ, fun s₂ hs₂ => ?_⟩
    · rw [List.foldlM_cons, hs₁]
      exact hs'
    · obtain rfl := Option.some.inj (hs₁.symm.trans hs₂)
      exact hQs

/-- **What one event spoils stays spoilt**: a run ends well if it begins well and all of its events
go well. -/
theorem good_iff_along {P Q : S → E → Prop} {Good : S → Prop}
    (hstep : ∀ s e, I s → P s e →
      ∃ s', step s e = some s' ∧ I s' ∧ (Good s' ↔ Good s ∧ Q s e)) (hs : I s)
    (hrun : Along (fun s e s' => step s e = some s') P s es) :
    ∃ s', es.foldlM step s = some s' ∧ I s'
      ∧ (Good s' ↔ Good s ∧ Along (fun s e s' => step s e = some s') Q s es) := by
  induction es generalizing s with
  | nil => exact ⟨s, rfl, hs, (and_iff_left trivial).symm⟩
  | cons e es ih =>
    obtain ⟨s₁, hs₁, hI, hgood⟩ := hstep s e hs hrun.1
    obtain ⟨s', hs', hI', hgood'⟩ := ih hI (hrun.2 s₁ hs₁)
    refine ⟨s', ?_, hI', ?_⟩
    · rw [List.foldlM_cons, hs₁]
      exact hs'
    · rw [hgood', hgood, and_assoc]
      refine and_congr_right fun _ => and_congr_right fun _ =>
        ⟨fun h s₂ hs₂ => ?_, fun h => h s₁ hs₁⟩
      obtain rfl := Option.some.inj (hs₁.symm.trans hs₂)
      exact h

/-! ## What a run comes to -/

variable {Exception : Type} {f : S → E → Except Exception S} {Q : E → Prop} {e : E}
  {es' : List E}

/-- **A run comes to an event of some kind**: those before it are taken. -/
def ComesTo (f : S → E → Except Exception S) (Q : E → Prop) (s : S) (es : List E) : Prop :=
  ∃ before e after s', es = before ++ e :: after ∧ before.foldlM f s = .ok s' ∧ Q e

theorem not_comesTo_nil : ¬ ComesTo f Q s [] := by
  rintro ⟨before, e, after, _, hsplit, -⟩
  exact List.append_ne_nil_of_right_ne_nil before (List.cons_ne_nil e after) hsplit.symm

/-- The first event is of the kind, or is taken. -/
theorem comesTo_cons_iff :
    ComesTo f Q s (e :: es) ↔ Q e ∨ ∃ s', f s e = .ok s' ∧ ComesTo f Q s' es := by
  constructor
  · rintro ⟨before, e', after, s', hsplit, hrun, hQ⟩
    cases before with
    | nil =>
      obtain ⟨rfl, -⟩ := List.cons.inj hsplit
      exact Or.inl hQ
    | cons e₁ before =>
      obtain ⟨rfl, rfl⟩ := List.cons.inj hsplit
      rw [List.foldlM_cons] at hrun
      cases hstep : f s e with
      | error x =>
        rw [hstep] at hrun
        cases hrun
      | ok s₁ =>
        rw [hstep] at hrun
        exact Or.inr ⟨s₁, rfl, before, e', after, s', rfl, hrun, hQ⟩
  · rintro (hQ | ⟨s₁, hstep, before, e', after, s', rfl, hrun, hQ⟩)
    · exact ⟨[], e, es, s, rfl, rfl, hQ⟩
    · refine ⟨e :: before, e', after, s', rfl, ?_, hQ⟩
      rw [List.foldlM_cons, hstep]
      exact hrun

/-- **A run in two parts** comes to it in the first, or in the second. -/
theorem comesTo_append_iff :
    ComesTo f Q s (es ++ es')
      ↔ ComesTo f Q s es ∨ ∃ s', es.foldlM f s = .ok s' ∧ ComesTo f Q s' es' := by
  induction es generalizing s with
  | nil =>
    constructor
    · exact fun h => Or.inr ⟨s, rfl, h⟩
    · rintro (h | ⟨s', hs', h⟩)
      · exact absurd h not_comesTo_nil
      · exact Except.ok.inj hs' ▸ h
  | cons e es ih =>
    rw [List.cons_append, comesTo_cons_iff, comesTo_cons_iff, or_assoc, List.foldlM_cons]
    refine or_congr_right ?_
    cases f s e with
    | error x =>
      constructor
      · rintro ⟨s', hs', -⟩
        cases hs'
      · rintro (⟨s', hs', -⟩ | ⟨s', hs', -⟩)
        · cases hs'
        · cases hs'
    | ok s₁ =>
      constructor
      · rintro ⟨s', hs', h⟩
        obtain rfl := Except.ok.inj hs'
        exact (ih.mp h).imp_left fun h => ⟨s₁, rfl, h⟩
      · rintro (⟨s', hs', h⟩ | h)
        · obtain rfl := Except.ok.inj hs'
          exact ⟨s₁, rfl, ih.mpr (Or.inl h)⟩
        · exact ⟨s₁, rfl, ih.mpr (Or.inr h)⟩

end Runs
