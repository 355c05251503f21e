import Mathlib.Data.List.Basic
import Mathlib.Order.Nat

/-!
# Putting numbered items back into sequence

Items numbered `0, 1, 2, …` arrive in any order, and a resequencer passes on
the longest initial segment that is complete. `received` says what has arrived
so far; the resequencer stands at the first number that is missing, and what it
has passed on is the segment below it (`inSequence`).

An arrival fills one number (`Function.update`). What has arrived is also given by
the list of the numbers, in the order of their arrival, and the items
(`ArrivedAs`): the list grows at its end, and the items stay as they are.
-/

variable {α : Type} {received : ℕ → Option α} {arrived : List ℕ} {item : ℕ → α} {m n : ℕ}

/-- **The first number that nothing has arrived for.** -/
structure FirstMissing (received : ℕ → Option α) (m : ℕ) : Prop where
  /-- Everything below has arrived. -/
  below : ∀ i < m, (received i).isSome
  /-- The number itself has not. -/
  missing : received m = none

/-- The items below `m`, in sequence. -/
def inSequence (received : ℕ → Option α) (m : ℕ) : List α :=
  (List.range m).filterMap received

/-- One more number. -/
theorem inSequence_succ (received : ℕ → Option α) (m : ℕ) :
    inSequence received (m + 1) = inSequence received m ++ (received m).toList := by
  unfold inSequence
  rw [List.range_succ, List.filterMap_append]
  cases hm : received m with
  | none => rw [List.filterMap_cons_none hm]; rfl
  | some a => rw [List.filterMap_cons_some hm]; rfl

/-- **A complete segment** has its items at their numbers. -/
theorem getElem?_inSequence (hbelow : ∀ i < m, (received i).isSome) :
    (inSequence received m).length = m
      ∧ ∀ i < m, (inSequence received m)[i]? = received i := by
  induction m with
  | zero => exact ⟨rfl, fun i hi => absurd hi (Nat.not_lt_zero i)⟩
  | succ m ih =>
    obtain ⟨hlen, hget⟩ := ih fun i hi => hbelow i (Nat.lt_succ_of_lt hi)
    obtain ⟨a, ha⟩ := Option.isSome_iff_exists.mp (hbelow m (Nat.lt_succ_self m))
    rw [inSequence_succ, ha, Option.toList_some]
    refine ⟨by rw [List.length_append, hlen, List.length_singleton], fun i hi => ?_⟩
    rcases Nat.lt_succ_iff_lt_or_eq.mp hi with hlt | rfl
    · rw [List.getElem?_append_left (hlen.symm ▸ hlt), hget i hlt]
    · rw [List.getElem?_append_right hlen.le, hlen, Nat.sub_self, ha]
      rfl

/-- **There is one first missing number.** -/
theorem FirstMissing.unique (h : FirstMissing received m) (h' : FirstMissing received n) :
    m = n := by
  refine le_antisymm (Nat.le_of_not_lt fun hlt => ?_) (Nat.le_of_not_lt fun hlt => ?_)
  · exact absurd (h.below n hlt) (by rw [h'.missing]; exact Bool.false_ne_true)
  · exact absurd (h'.below m hlt) (by rw [h.missing]; exact Bool.false_ne_true)

/-- **When everything has arrived**, the first missing number is the number of
items. -/
theorem FirstMissing.eq_of_complete (h : FirstMissing received m)
    (hall : ∀ i, (received i).isSome ↔ i < n) : m = n :=
  h.unique ⟨fun i hi => (hall i).mpr hi,
    Option.not_isSome_iff_eq_none.mp fun hn => absurd ((hall n).mp hn) (lt_irrefl n)⟩

/-- The numbers that have arrived, and the items that came with them. -/
def ArrivedAs (received : ℕ → Option α) (arrived : List ℕ) (item : ℕ → α) : Prop :=
  ∀ i, received i = if i ∈ arrived then some (item i) else none

theorem ArrivedAs.eq_some_iff (h : ArrivedAs received arrived item) {i : ℕ} {a : α} :
    received i = some a ↔ i ∈ arrived ∧ a = item i := by
  rw [h i]
  split
  · rename_i hi
    rw [Option.some_inj, eq_comm]
    exact (and_iff_right hi).symm
  · rename_i hi
    exact iff_of_false nofun fun ha => hi ha.1

theorem ArrivedAs.isSome_iff (h : ArrivedAs received arrived item) (i : ℕ) :
    (received i).isSome ↔ i ∈ arrived := by
  rw [Option.isSome_iff_exists]
  exact ⟨fun ⟨_, ha⟩ => (h.eq_some_iff.mp ha).1, fun hi => ⟨_, h.eq_some_iff.mpr ⟨hi, rfl⟩⟩⟩

/-- **One more arrival.** -/
theorem ArrivedAs.update (h : ArrivedAs received arrived item) (k : ℕ) :
    ArrivedAs (Function.update received k (some (item k))) (arrived ++ [k]) item := fun i => by
  by_cases hik : i = k
  · rw [hik, Function.update_self, if_pos (List.mem_append_right _ (List.mem_singleton_self k))]
  · rw [Function.update_of_ne hik, h i]
    simp only [List.mem_append, List.mem_singleton, hik, or_false]

/-- What is in sequence, if it has all arrived. -/
theorem ArrivedAs.inSequence_eq (h : ArrivedAs received arrived item)
    (hbelow : ∀ i < m, i ∈ arrived) : inSequence received m = (List.range m).map item := by
  unfold inSequence
  rw [← List.filterMap_eq_map]
  exact List.filterMap_congr fun i hi => h.eq_some_iff.mpr ⟨hbelow i (List.mem_range.mp hi), rfl⟩
