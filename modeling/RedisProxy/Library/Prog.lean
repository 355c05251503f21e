import Mathlib.Control.Basic
import Mathlib.Data.List.Basic

/-!
# Programs that call their environment

Code that talks to a store, a socket or a queue makes calls and goes on with
what they return. `Prog Res α` is such code with everything but the calls
taken away: it has returned, or it makes a call and goes on for every result
the call may have. What the environment answers is not part of the program, so
that one program can be run against any environment: `Exec` says which calls
with which results lead to which value, for every behaviour of the
environment, and `run` is the execution in one that answers from a state.

Exceptions are results: a call that may throw returns an `Except`, and
`ExceptT` propagates it (`exec_bindE_iff`).
-/

variable {Op Op' : Type} {Res : Op → Type} {Res' : Op' → Type} {α β γ S X : Type}

/-- **A program that calls its environment**: the operation `op` returns some
`Res op`. -/
inductive Prog {Op : Type} (Res : Op → Type) (α : Type) where
  /-- The program has returned. -/
  | pure (a : α)
  /-- The program makes a call and goes on with its result. -/
  | call (op : Op) (k : Res op → Prog Res α)

/-- A call that has been made, and its result. -/
abbrev Event {Op : Type} (Res : Op → Type) : Type := (op : Op) × Res op

/-- The same call where there are further operations to call. -/
def Event.inl (e : Event Res) : Event (Sum.elim Res Res') := ⟨Sum.inl e.1, e.2⟩

namespace Prog

/-- One program, then another. -/
def bind : Prog Res α → (α → Prog Res β) → Prog Res β
  | .pure a, f => f a
  | .call op k, f => .call op (fun r => (k r).bind f)

/-- The program that makes one call. -/
def lift (op : Op) : Prog Res (Res op) := .call op .pure

instance : Monad (Prog Res) where
  pure := .pure
  bind := .bind

/-- Whether the program has returned. -/
def finished : Prog Res α → Bool
  | .pure _ => true
  | .call _ _ => false

theorem finished_iff {p : Prog Res α} : p.finished = true ↔ ∃ a, p = .pure a := by
  cases p with
  | pure a => exact ⟨fun _ => ⟨a, rfl⟩, fun _ => rfl⟩
  | call op k => exact ⟨nofun, nofun⟩

theorem bind_pure' (p : Prog Res α) : p.bind .pure = p := by
  induction p with
  | pure a => rfl
  | call op k ih => exact congrArg (Prog.call op) (funext ih)

theorem bind_assoc' (p : Prog Res α) (f : α → Prog Res β) (g : β → Prog Res γ) :
    (p.bind f).bind g = p.bind (fun a => (f a).bind g) := by
  induction p with
  | pure a => rfl
  | call op k ih => exact congrArg (Prog.call op) (funext ih)

instance : LawfulMonad (Prog Res) :=
  LawfulMonad.mk' _ (fun p => bind_pure' p) (fun _ _ => rfl) bind_assoc'

theorem bind_eq (p : Prog Res α) (f : α → Prog Res β) : p >>= f = p.bind f := rfl

/-- The same program where there are further operations to call. -/
def inl : Prog Res α → Prog (Sum.elim Res Res') α
  | .pure a => .pure a
  | .call op k => .call (Sum.inl op) (fun r => (k r).inl)

theorem inl_bind (p : Prog Res α) (f : α → Prog Res β) :
    (p >>= f).inl = (p.inl >>= fun a => (f a).inl : Prog (Sum.elim Res Res') β) := by
  induction p with
  | pure a => rfl
  | call op k ih => exact congrArg (Prog.call (Sum.inl op)) (funext ih)

/-! ## Executions -/

/-- **An execution**: the calls made, each with the result the environment
gave, and the value returned. -/
inductive Exec : Prog Res α → List (Event Res) → α → Prop where
  | pure (a : α) : Exec (.pure a) [] a
  | call {op : Op} {k : Res op → Prog Res α} {r : Res op} {tr : List (Event Res)} {a : α}
      (h : Exec (k r) tr a) : Exec (.call op k) (⟨op, r⟩ :: tr) a

theorem exec_pure_iff {a b : α} {tr : List (Event Res)} :
    Exec (Pure.pure a : Prog Res α) tr b ↔ tr = [] ∧ b = a := by
  constructor
  · intro h
    cases h
    exact ⟨rfl, rfl⟩
  · rintro ⟨rfl, rfl⟩
    exact Exec.pure b

theorem exec_call_iff {op : Op} {k : Res op → Prog Res α} {tr : List (Event Res)} {a : α} :
    Exec (.call op k) tr a ↔ ∃ r tr', tr = ⟨op, r⟩ :: tr' ∧ Exec (k r) tr' a := by
  constructor
  · intro h
    cases h with
    | call h => exact ⟨_, _, rfl, h⟩
  · rintro ⟨r, tr', rfl, h⟩
    exact Exec.call h

/-- **An execution of one program after another** is one of each. -/
theorem exec_bind_iff {p : Prog Res α} {f : α → Prog Res β} {tr : List (Event Res)} {b : β} :
    Exec (p >>= f) tr b
      ↔ ∃ tr₁ a tr₂, Exec p tr₁ a ∧ Exec (f a) tr₂ b ∧ tr = tr₁ ++ tr₂ := by
  rw [bind_eq]
  constructor
  · intro h
    induction p generalizing tr with
    | pure a => exact ⟨[], a, tr, Exec.pure a, h, rfl⟩
    | call op k ih =>
      obtain ⟨r, tr', rfl, h'⟩ := exec_call_iff.mp h
      obtain ⟨tr₁, a, tr₂, h₁, h₂, rfl⟩ := ih r h'
      exact ⟨⟨op, r⟩ :: tr₁, a, tr₂, Exec.call h₁, h₂, rfl⟩
  · rintro ⟨tr₁, a, tr₂, h₁, h₂, rfl⟩
    induction h₁ with
    | pure a => exact h₂
    | call _ ih => exact Exec.call (ih h₂)

theorem exec_map_iff {p : Prog Res α} {f : α → β} {tr : List (Event Res)} {b : β} :
    Exec (f <$> p) tr b ↔ ∃ a, Exec p tr a ∧ b = f a := by
  rw [← bind_pure_comp, exec_bind_iff]
  constructor
  · rintro ⟨tr₁, a, tr₂, h₁, h₂, rfl⟩
    obtain ⟨rfl, rfl⟩ := exec_pure_iff.mp h₂
    exact ⟨a, (List.append_nil tr₁).symm ▸ h₁, rfl⟩
  · rintro ⟨a, h, rfl⟩
    exact ⟨tr, a, [], h, Exec.pure (f a), (List.append_nil tr).symm⟩

theorem exec_lift_iff {op : Op} {tr : List (Event Res)} {r : Res op} :
    Exec (lift op) tr r ↔ tr = [⟨op, r⟩] := by
  rw [lift, exec_call_iff]
  constructor
  · rintro ⟨r', tr', rfl, h⟩
    obtain ⟨rfl, rfl⟩ := exec_pure_iff.mp h
    rfl
  · rintro rfl
    exact ⟨r, [], rfl, Exec.pure r⟩

/-- **Further operations to call are not called.** -/
theorem exec_inl_iff {p : Prog Res α} {tr : List (Event (Sum.elim Res Res'))} {a : α} :
    Exec p.inl tr a ↔ ∃ tr', Exec p tr' a ∧ tr = tr'.map Event.inl := by
  induction p generalizing tr with
  | pure b =>
    constructor
    · intro h
      obtain ⟨rfl, rfl⟩ := exec_pure_iff.mp h
      exact ⟨[], Exec.pure a, rfl⟩
    · rintro ⟨tr', h, rfl⟩
      obtain ⟨rfl, rfl⟩ := exec_pure_iff.mp h
      exact Exec.pure a
  | call op k ih =>
    constructor
    · intro h
      obtain ⟨r, tr₁, rfl, h'⟩ := exec_call_iff.mp h
      obtain ⟨tr', hp, rfl⟩ := (ih r).mp h'
      exact ⟨⟨op, r⟩ :: tr', Exec.call hp, rfl⟩
    · rintro ⟨tr', h, rfl⟩
      obtain ⟨r, tr'', rfl, h'⟩ := exec_call_iff.mp h
      exact exec_call_iff.mpr ⟨r, _, rfl, (ih r).mpr ⟨tr'', h', rfl⟩⟩

/-! ## Carrying out calls by programs -/

/-- **The program with each call carried out** by a program over other
operations. -/
def handle (h : (op : Op) → Prog Res' (Res op)) : Prog Res α → Prog Res' α
  | .pure a => .pure a
  | .call op k => (h op).bind fun r => (k r).handle h

section Handling

variable {h : (op : Op) → Prog Res' (Res op)}

@[simp] theorem handle_lift (op : Op) : (lift op : Prog Res (Res op)).handle h = h op :=
  bind_pure' (h op)

@[simp] theorem handle_bind (p : Prog Res α) (f : α → Prog Res β) :
    (p >>= f).handle h = p.handle h >>= fun a => (f a).handle h := by
  induction p with
  | pure a => rfl
  | call op k ih =>
    have hk : (fun r => ((k r).bind f).handle h)
        = fun r => ((k r).handle h).bind fun a => (f a).handle h := funext ih
    exact (congrArg (h op).bind hk).trans (bind_assoc' _ _ _).symm

/-- The calls `tr` are carried out, one after the other, by the calls
`tr'`. -/
def Carries (h : (op : Op) → Prog Res' (Res op)) : List (Event Res) → List (Event Res') → Prop
  | [], tr' => tr' = []
  | e :: tr, tr' => ∃ tr₁ tr₂, Exec (h e.1) tr₁ e.2 ∧ Carries h tr tr₂ ∧ tr' = tr₁ ++ tr₂

/-- **Carrying out the calls adds no behaviour**: an execution is one of the
program, with its calls carried out. -/
theorem exec_handle_iff {p : Prog Res α} {tr' : List (Event Res')} {a : α} :
    Exec (p.handle h) tr' a ↔ ∃ tr, Exec p tr a ∧ Carries h tr tr' := by
  induction p generalizing tr' with
  | pure b =>
    constructor
    · intro hp
      obtain ⟨rfl, rfl⟩ := exec_pure_iff.mp hp
      exact ⟨[], Exec.pure a, rfl⟩
    · rintro ⟨tr, hp, hc⟩
      obtain ⟨rfl, rfl⟩ := exec_pure_iff.mp hp
      obtain rfl : tr' = [] := hc
      exact Exec.pure a
  | call op k ih =>
    rw [handle, ← bind_eq, exec_bind_iff]
    constructor
    · rintro ⟨tr₁, r, tr₂, h₁, h₂, rfl⟩
      obtain ⟨tr, hp, hc⟩ := (ih r).mp h₂
      exact ⟨⟨op, r⟩ :: tr, Exec.call hp, tr₁, tr₂, h₁, hc, rfl⟩
    · rintro ⟨tr, hp, hc⟩
      obtain ⟨r, tr₀, rfl, hk⟩ := exec_call_iff.mp hp
      obtain ⟨tr₁, tr₂, h₁, hc', rfl⟩ := hc
      exact ⟨tr₁, r, tr₂, h₁, (ih r).mpr ⟨tr₀, hk, hc'⟩, rfl⟩

end Handling

/-! ## Exceptions -/

/-- An execution that may throw, after another one that may. -/
theorem exec_bindE_iff {p : ExceptT X (Prog Res) α} {f : α → ExceptT X (Prog Res) β}
    {tr : List (Event Res)} {out : Except X β} :
    Exec (p >>= f).run tr out
      ↔ (∃ x, Exec p.run tr (.error x) ∧ out = .error x)
        ∨ ∃ tr₁ a tr₂, Exec p.run tr₁ (.ok a) ∧ Exec (f a).run tr₂ out ∧ tr = tr₁ ++ tr₂ := by
  rw [ExceptT.run_bind, exec_bind_iff]
  constructor
  · rintro ⟨tr₁, a, tr₂, h₁, h₂, rfl⟩
    cases a with
    | ok a => exact Or.inr ⟨tr₁, a, tr₂, h₁, h₂, rfl⟩
    | error x =>
      obtain ⟨rfl, rfl⟩ := exec_pure_iff.mp h₂
      exact Or.inl ⟨x, (List.append_nil tr₁).symm ▸ h₁, rfl⟩
  · rintro (⟨x, h, rfl⟩ | ⟨tr₁, a, tr₂, h₁, h₂, rfl⟩)
    · exact ⟨tr, .error x, [], h, Exec.pure _, (List.append_nil tr).symm⟩
    · exact ⟨tr₁, .ok a, tr₂, h₁, h₂, rfl⟩

theorem exec_pureE_iff {a : α} {tr : List (Event Res)} {out : Except X α} :
    Exec (Pure.pure a : ExceptT X (Prog Res) α).run tr out ↔ tr = [] ∧ out = .ok a :=
  exec_pure_iff

/-! ## Running against a state -/

/-- **The execution against a state** that answers the calls. -/
def run (answer : (op : Op) → S → Res op × S) : Prog Res α → S → α × S
  | .pure a, s => (a, s)
  | .call op k, s => (k (answer op s).1).run answer (answer op s).2

/-- The calls of that execution. -/
def trace (answer : (op : Op) → S → Res op × S) : Prog Res α → S → List (Event Res)
  | .pure _, _ => []
  | .call op k, s =>
    ⟨op, (answer op s).1⟩ :: (k (answer op s).1).trace answer (answer op s).2

/-- **Running against a state is an execution.** -/
theorem exec_trace (answer : (op : Op) → S → Res op × S) (p : Prog Res α) (s : S) :
    Exec p (p.trace answer s) (p.run answer s).1 := by
  induction p generalizing s with
  | pure a => exact Exec.pure a
  | call op k ih => exact Exec.call (ih _ _)

/-- **A program whose calls are all answered ends**, however they are answered. -/
theorem exists_exec (answer : (op : Op) → Res op) (p : Prog Res α) :
    ∃ tr a, Exec p tr a ∧ ∀ e ∈ tr, e.2 = answer e.1 := by
  induction p with
  | pure a => exact ⟨[], a, Exec.pure a, fun _ h => absurd h List.not_mem_nil⟩
  | call op k ih =>
    obtain ⟨tr, a, htr, hall⟩ := ih (answer op)
    exact ⟨⟨op, answer op⟩ :: tr, a, Exec.call htr, List.forall_mem_cons.mpr ⟨rfl, hall⟩⟩

/-! ## Runs on a state that may answer in several ways -/

/-- **The calls lead from one state to another**, in an environment that may
answer a call in several ways. -/
def Steps (step : (op : Op) → S → Res op → S → Prop) : List (Event Res) → S → S → Prop
  | [], s, s' => s' = s
  | e :: tr, s, s' => ∃ s₁, step e.1 s e.2 s₁ ∧ Steps step tr s₁ s'

section Steps

variable {step : (op : Op) → S → Res op → S → Prop} {s s' : S}

theorem steps_singleton_iff {e : Event Res} : Steps step [e] s s' ↔ step e.1 s e.2 s' := by
  constructor
  · rintro ⟨s₁, h, rfl⟩
    exact h
  · intro h
    exact ⟨s', h, rfl⟩

theorem steps_append_iff {tr₁ tr₂ : List (Event Res)} :
    Steps step (tr₁ ++ tr₂) s s' ↔ ∃ s₁, Steps step tr₁ s s₁ ∧ Steps step tr₂ s₁ s' := by
  induction tr₁ generalizing s with
  | nil =>
    constructor
    · intro h
      exact ⟨s, rfl, h⟩
    · rintro ⟨s₁, rfl, h⟩
      exact h
  | cons e tr₁ ih =>
    constructor
    · rintro ⟨s₀, h₀, h⟩
      obtain ⟨s₁, h₁, h₂⟩ := ih.mp h
      exact ⟨s₁, ⟨s₀, h₀, h₁⟩, h₂⟩
    · rintro ⟨s₁, ⟨s₀, h₀, h₁⟩, h₂⟩
      exact ⟨s₀, h₀, ih.mpr ⟨s₁, h₁, h₂⟩⟩

end Steps

end Prog
