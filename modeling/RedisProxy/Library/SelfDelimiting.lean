import Mathlib.Data.List.Basic
import Mathlib.Logic.Function.Basic

/-!
# Self-delimiting codes

A code writes every value as a text. It is self-delimiting if a text that
begins with the code of a value begins with the code of no other one, so that
what stands behind it is determined as well: whatever follows, there is one way
to take the first value off.

A reader that gets every value back in front of anything shows that a code is
self-delimiting (`SelfDelimiting.of_reader`), without being part of what that
says. Codes written one behind the other then have one reading, if none of them
is empty (`SelfDelimiting.flatten_injective`). A separator between two texts does
less: the joined text can be taken apart at every separator that stands in it
(`append_cons_eq_append_cons_iff`).
-/

variable {α β γ : Type} {enc : α → List β}

/-- **A self-delimiting code**: the front of a text is the code of one value at
most. -/
def SelfDelimiting (enc : α → List β) : Prop :=
  ∀ ⦃a b : α⦄ ⦃r t : List β⦄, enc a ++ r = enc b ++ t → a = b ∧ r = t

namespace SelfDelimiting

/-- **What a reader gets back, whatever follows, is self-delimiting.** -/
theorem of_reader {read : List β → Option (γ × List β)} {value : α → γ}
    (hvalue : Function.Injective value) (h : ∀ a t, read (enc a ++ t) = some (value a, t)) :
    SelfDelimiting enc := by
  intro a b r t heq
  have hread : some (value a, r) = some (value b, t) := by rw [← h a r, heq, h b t]
  obtain ⟨hv, hrest⟩ := Prod.mk.inj (Option.some.inj hread)
  exact ⟨hvalue hv, hrest⟩

/-- **Codes one behind the other have one reading.** -/
theorem flatten_injective (h : SelfDelimiting enc) (hne : ∀ a, enc a ≠ []) :
    Function.Injective fun as : List α => (as.map enc).flatten := by
  intro as
  induction as with
  | nil =>
    intro bs heq
    cases bs with
    | nil => rfl
    | cons b bs =>
      -- the code of `b` would be empty
      have hnil : enc b ++ (bs.map enc).flatten = [] := heq.symm
      exact absurd (List.append_eq_nil_iff.mp hnil).1 (hne b)
  | cons a as ih =>
    intro bs heq
    cases bs with
    | nil =>
      have hnil : enc a ++ (as.map enc).flatten = [] := heq
      exact absurd (List.append_eq_nil_iff.mp hnil).1 (hne a)
    | cons b bs =>
      obtain ⟨rfl, hrest⟩ := h (show enc a ++ (as.map enc).flatten
        = enc b ++ (bs.map enc).flatten from heq)
      exact congrArg (a :: ·) (ih hrest)

end SelfDelimiting

/-- **Two texts around a separator** make the text that two others make if they are
the same, or if a separator of one of them stands in for the one between. -/
theorem append_cons_eq_append_cons_iff {s t s' t' : List α} {sep : α} :
    s ++ sep :: t = s' ++ sep :: t'
      ↔ (s = s' ∧ t = t') ∨ (∃ m, s' = s ++ sep :: m ∧ t = m ++ sep :: t')
        ∨ ∃ m, s = s' ++ sep :: m ∧ t' = m ++ sep :: t := by
  rw [List.append_eq_append_iff]
  constructor
  · rintro (⟨as, rfl, h⟩ | ⟨bs, rfl, h⟩)
    · cases as with
      | nil => exact Or.inl ⟨(List.append_nil s).symm, (List.cons.inj h).2⟩
      | cons c as =>
        obtain ⟨rfl, rfl⟩ := List.cons.inj h
        exact Or.inr (Or.inl ⟨as, rfl, rfl⟩)
    · cases bs with
      | nil => exact Or.inl ⟨List.append_nil s', (List.cons.inj h).2.symm⟩
      | cons c bs =>
        obtain ⟨rfl, rfl⟩ := List.cons.inj h
        exact Or.inr (Or.inr ⟨bs, rfl, rfl⟩)
  · rintro (⟨rfl, rfl⟩ | ⟨m, rfl, rfl⟩ | ⟨m, rfl, rfl⟩)
    · exact Or.inl ⟨[], (List.append_nil s).symm, rfl⟩
    · exact Or.inl ⟨sep :: m, rfl, rfl⟩
    · exact Or.inr ⟨sep :: m, rfl, rfl⟩
