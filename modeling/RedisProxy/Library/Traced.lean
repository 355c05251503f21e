import Mathlib.Control.Basic

/-!
# Computations that report events and may throw

A C++ function that calls a callback and may throw leaves two traces: the
calls it made, in order, and how it ended. An exception does not take back
the calls made before it, so the two are not a computation in `Except` with
the calls inside: `Traced E X α` keeps the events beside the outcome.

Sequencing appends the events and stops at the first exception. The laws are
those of a monad, so `do` blocks read as the source does.
-/

variable {E F X α β γ δ : Type}

/-- **A computation that reports events and may throw**: the events, in
order, and the value or the exception it ended with. -/
structure Traced (E X α : Type) where
  /-- What was reported, in order, up to the end or the exception. -/
  events : List E
  /-- The value, or the exception that ended the computation. -/
  outcome : Except X α

namespace Traced

/-- Two computations with the same events and outcome are the same. -/
@[ext] theorem ext {x y : Traced E X α} (he : x.events = y.events)
    (ho : x.outcome = y.outcome) : x = y := by
  cases x
  cases y
  simp_all

/-- Sequencing: an exception ends the computation, keeping the events. -/
def bind (x : Traced E X α) (f : α → Traced E X β) : Traced E X β :=
  match x.outcome with
  | .error e => ⟨x.events, .error e⟩
  | .ok a => ⟨x.events ++ (f a).events, (f a).outcome⟩

instance : Monad (Traced E X) where
  pure a := ⟨[], .ok a⟩
  bind := bind

/-- Reporting one event. -/
def emit (e : E) : Traced E X Unit := ⟨[e], .ok ()⟩

/-- A computation that reports nothing. -/
def ofExcept (r : Except X α) : Traced E X α := ⟨[], r⟩

@[simp] theorem outcome_pure (a : α) : (pure a : Traced E X α).outcome = .ok a := rfl

theorem bind_of_ok {x : Traced E X α} {a : α} (h : x.outcome = .ok a)
    (f : α → Traced E X β) :
    (x >>= f) = ⟨x.events ++ (f a).events, (f a).outcome⟩ := by
  show bind x f = _
  rw [bind, h]

theorem bind_of_error {x : Traced E X α} {e : X} (h : x.outcome = .error e)
    (f : α → Traced E X β) : (x >>= f) = ⟨x.events, .error e⟩ := by
  show bind x f = _
  rw [bind, h]

@[simp] theorem ok_bind (ev : List E) (a : α) (f : α → Traced E X β) :
    ((⟨ev, .ok a⟩ : Traced E X α) >>= f) = ⟨ev ++ (f a).events, (f a).outcome⟩ := rfl

@[simp] theorem error_bind (ev : List E) (e : X) (f : α → Traced E X β) :
    ((⟨ev, .error e⟩ : Traced E X α) >>= f) = ⟨ev, .error e⟩ := rfl

instance : LawfulMonad (Traced E X) := LawfulMonad.mk' _
  (fun x => by
    obtain ⟨ev, r⟩ := x
    cases r with
    | error e => rfl
    | ok a => exact Traced.ext (List.append_nil ev) rfl)
  (fun _ _ => rfl)
  (fun x f g => by
    obtain ⟨ev, r⟩ := x
    cases r with
    | error e => rfl
    | ok a =>
      show ((⟨ev ++ (f a).events, (f a).outcome⟩ : Traced E X _) >>= g)
        = ⟨ev ++ (f a >>= g).events, (f a >>= g).outcome⟩
      cases h : (f a).outcome with
      | error e => rw [bind_of_error h]; rfl
      | ok b =>
        rw [bind_of_ok h]
        exact Traced.ext (List.append_assoc _ _ _) rfl)

@[simp] theorem ofExcept_ok (a : α) : (ofExcept (.ok a) : Traced E X α) = pure a := rfl

/-- Mapping changes the value alone. -/
@[simp] theorem events_map (f : α → β) (x : Traced E X α) :
    (f <$> x).events = x.events := by
  obtain ⟨ev, r⟩ := x
  cases r with
  | error e => rfl
  | ok a => exact List.append_nil ev

@[simp] theorem ok_map (f : α → β) (ev : List E) (a : α) :
    f <$> (⟨ev, .ok a⟩ : Traced E X α) = ⟨ev, .ok (f a)⟩ :=
  Traced.ext (List.append_nil ev) rfl

/-- **What a sequence that ends normally did**: its first part ended
normally, and the events are those of the two parts, one after the other. -/
theorem bind_eq_ok_iff {x : Traced E X α} {f : α → Traced E X β} {ev : List E} {b : β} :
    (x >>= f) = ⟨ev, .ok b⟩
      ↔ ∃ ev₁ a ev₂, x = ⟨ev₁, .ok a⟩ ∧ f a = ⟨ev₂, .ok b⟩ ∧ ev = ev₁ ++ ev₂ := by
  constructor
  · intro h
    obtain ⟨ev₁, r⟩ := x
    cases r with
    | error e => simp at h
    | ok a =>
      simp only [ok_bind, Traced.mk.injEq] at h
      exact ⟨ev₁, a, (f a).events, rfl, Traced.ext rfl h.2, h.1.symm⟩
  · rintro ⟨ev₁, a, ev₂, rfl, hf, rfl⟩
    rw [ok_bind, hf]

/-! ## Two computations side by side -/

/-- **Two computations that do the same**, up to a renaming of the events and a
relation on the values: they report the same, and end with related values or
throw the same exception. -/
inductive Alike (g : E → F) (R : α → β → Prop) : Traced E X α → Traced F X β → Prop where
  /-- Both end normally. -/
  | ok {ev : List E} {a : α} {b : β} (h : R a b) : Alike g R ⟨ev, .ok a⟩ ⟨ev.map g, .ok b⟩
  /-- Both throw. -/
  | error (ev : List E) (x : X) : Alike g R ⟨ev, .error x⟩ ⟨ev.map g, .error x⟩

section Alike

variable {g : E → F} {R : α → β → Prop} {x : Traced E X α} {y : Traced F X β}

theorem Alike.events (h : Alike g R x y) : y.events = x.events.map g := by
  cases h <;> rfl

theorem Alike.outcome_eq_error_iff (h : Alike g R x y) {e : X} :
    y.outcome = .error e ↔ x.outcome = .error e := by
  cases h with
  | ok _ => exact ⟨nofun, nofun⟩
  | error _ e' => exact ⟨fun h => congrArg Except.error (Except.error.inj h),
      fun h => congrArg Except.error (Except.error.inj h)⟩

theorem Alike.outcome_eq_ok_iff (h : Alike g R x y) :
    (∃ b, y.outcome = .ok b) ↔ ∃ a, x.outcome = .ok a := by
  cases h with
  | ok _ => exact ⟨fun _ => ⟨_, rfl⟩, fun _ => ⟨_, rfl⟩⟩
  | error _ _ => exact ⟨fun ⟨_, h⟩ => (nomatch h), fun ⟨_, h⟩ => (nomatch h)⟩

/-- **Sequencing keeps computations alike.** -/
theorem Alike.bind {S : γ → δ → Prop} {f : α → Traced E X γ} {f' : β → Traced F X δ}
    (h : Alike g R x y) (hf : ∀ a b, R a b → Alike g S (f a) (f' b)) :
    Alike g S (x >>= f) (y >>= f') := by
  cases h with
  | error ev e => exact Alike.error ev e
  | @ok ev a b hab =>
    rw [ok_bind, ok_bind]
    generalize f a = u, f' b = v, hf a b hab = huv
    cases huv with
    | ok hcd =>
      rw [← List.map_append]
      exact Alike.ok hcd
    | error ev' e =>
      rw [← List.map_append]
      exact Alike.error _ e

/-- Values may be mapped on both sides. -/
theorem Alike.map {S : γ → δ → Prop} {f : α → γ} {f' : β → δ} (h : Alike g R x y)
    (hf : ∀ a b, R a b → S (f a) (f' b)) : Alike g S (f <$> x) (f' <$> y) := by
  cases h with
  | ok hab =>
    rw [ok_map, ok_map]
    exact Alike.ok (hf _ _ hab)
  | error ev e => exact Alike.error ev e

end Alike

end Traced
