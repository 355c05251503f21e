import Mathlib.Data.List.Nodup
import Mathlib.Logic.Function.Basic

/-!
# Linked lists in memory

A cell of a linked list holds a value and the address of the next cell. `Segment` says what
the cells from one pointer up to another hold, with their addresses; a list is a segment
that ends in the null pointer, and its cells are then all different (`Segment.nodup`).
What is written to one cell leaves the others alone, so that a segment is taken apart
where it is written to (`segment_append_iff`), and put together again.

A loop through a list has no result where it comes to a cell that is not there, or to
none of the null pointer in so many turns; through a list it has one, with a turn for
each cell.
-/

namespace LinkedList

variable {A V B : Type}

/-- **A cell**. -/
structure Node (A V : Type) where
  /-- What it holds. -/
  value : V
  /-- The next cell. -/
  next : Option A

/-- The memory the cells are in. -/
abbrev Memory (A V : Type) : Type := A → Option (Node A V)

/-- **The cells from one pointer up to another**. -/
def Segment (m : Memory A V) : Option A → List (A × V) → Option A → Prop
  | p, [], q => p = q
  | p, x :: xs, q => p = some x.1 ∧ ∃ n, m x.1 = some ⟨x.2, n⟩ ∧ Segment m n xs q

/-- The same cells with other values. -/
def mapValues (f : V → V) (xs : List (A × V)) : List (A × V) := xs.map fun x => (x.1, f x.2)

variable {m m' : Memory A V} {p q : Option A} {xs ys : List (A × V)} {x : A × V} {a : A}
  {f g : V → V}

@[simp]
theorem mapValues_cons : mapValues f (x :: xs) = (x.1, f x.2) :: mapValues f xs := rfl

@[simp]
theorem mapValues_append : mapValues f (xs ++ ys) = mapValues f xs ++ mapValues f ys :=
  List.map_append

@[simp]
theorem length_mapValues : (mapValues f xs).length = xs.length := List.length_map _

/-- They are at the same addresses. -/
@[simp]
theorem map_fst_mapValues : (mapValues f xs).map Prod.fst = xs.map Prod.fst := by
  rw [mapValues, List.map_map]
  rfl

theorem head?_mapValues : (mapValues f xs).head?.map Prod.fst = xs.head?.map Prod.fst := by
  rw [mapValues, List.head?_map, Option.map_map]
  rfl

theorem getLast?_mapValues :
    (mapValues f xs).getLast?.map Prod.fst = xs.getLast?.map Prod.fst := by
  rw [mapValues, List.getLast?_map, Option.map_map]
  rfl

theorem map_snd_mapValues : (mapValues f xs).map Prod.snd = (xs.map Prod.snd).map f := by
  rw [mapValues, List.map_map, List.map_map]
  rfl

theorem mapValues_mapValues : mapValues g (mapValues f xs) = mapValues (fun v => g (f v)) xs := by
  rw [mapValues, mapValues, List.map_map]
  rfl

theorem mapValues_eq_self (h : ∀ x ∈ xs, f x.2 = x.2) : mapValues f xs = xs := by
  have hmap : ∀ x ∈ xs, (x.1, f x.2) = x := fun x hx => Prod.ext rfl (h x hx)
  rw [mapValues, List.map_congr_left hmap]
  exact List.map_id' xs

/-- **Segments are put together and taken apart.** -/
theorem segment_append_iff :
    Segment m p (xs ++ ys) q ↔ ∃ r, Segment m p xs r ∧ Segment m r ys q := by
  induction xs generalizing p with
  | nil => exact ⟨fun h => ⟨p, rfl, h⟩, fun ⟨_, hp, h⟩ => hp ▸ h⟩
  | cons x xs ih =>
    constructor
    · rintro ⟨hp, n, hx, h⟩
      obtain ⟨r, hxs, hys⟩ := ih.mp h
      exact ⟨r, ⟨hp, n, hx, hxs⟩, hys⟩
    · rintro ⟨r, ⟨hp, n, hx, hxs⟩, hys⟩
      exact ⟨hp, n, hx, ih.mpr ⟨r, hxs, hys⟩⟩

/-- A pointer to a list is that to its first cell. -/
theorem Segment.head_eq (h : Segment m p xs none) : p = xs.head?.map Prod.fst := by
  cases xs with
  | nil => exact h
  | cons x xs => exact h.1

/-- A cell of a segment holds what it should. -/
theorem Segment.cell (h : Segment m p xs q) (hx : x ∈ xs) : ∃ n, m x.1 = some ⟨x.2, n⟩ := by
  induction xs generalizing p with
  | nil => cases hx
  | cons y xs ih =>
    obtain ⟨-, n, hy, hrest⟩ := h
    rcases List.mem_cons.mp hx with rfl | hx
    · exact ⟨n, hy⟩
    · exact ih hrest hx

/-- **Only the cells of a segment matter** to it. -/
theorem Segment.congr (h : Segment m p xs q) (hm : ∀ x ∈ xs, m' x.1 = m x.1) :
    Segment m' p xs q := by
  induction xs generalizing p with
  | nil => exact h
  | cons x xs ih =>
    obtain ⟨hp, n, hx, hrest⟩ := h
    refine ⟨hp, n, ?_, ih hrest fun y hy => hm y (List.mem_cons_of_mem x hy)⟩
    rw [hm x List.mem_cons_self, hx]

/-- **There is one list at a pointer.** -/
theorem Segment.unique (h : Segment m p xs none) (h' : Segment m p ys none) : xs = ys := by
  induction xs generalizing p ys with
  | nil =>
    cases ys with
    | nil => rfl
    | cons y ys => exact nomatch Eq.trans (Eq.symm h) h'.1
  | cons x xs ih =>
    obtain ⟨hp, n, hx, hrest⟩ := h
    cases ys with
    | nil => exact nomatch Eq.trans (Eq.symm hp) h'
    | cons y ys =>
      obtain ⟨hp', n', hy, hrest'⟩ := h'
      have hxy : x.1 = y.1 := Option.some.inj (hp.symm.trans hp')
      rw [hxy, hy, Option.some.injEq, Node.mk.injEq] at hx
      obtain ⟨hvalue, rfl⟩ := hx
      rw [ih hrest hrest', Prod.ext hxy hvalue.symm]

/-- **The cells of a list are all different**: at the same cell it would go on for
ever. -/
theorem Segment.nodup (h : Segment m p xs none) : (xs.map Prod.fst).Nodup := by
  induction xs generalizing p with
  | nil => exact List.nodup_nil
  | cons x xs ih =>
    obtain ⟨hp, n, hx, hrest⟩ := h
    rw [List.map_cons, List.nodup_cons]
    refine ⟨fun hmem => ?_, ih hrest⟩
    obtain ⟨y, hy, hxy⟩ := List.mem_map.mp hmem
    obtain ⟨before, after, rfl⟩ := List.append_of_mem hy
    obtain ⟨r, -, hr⟩ := segment_append_iff.mp hrest
    have hsame : x :: (before ++ y :: after) = y :: after := by
      refine Segment.unique (p := p) ⟨hp, n, hx, hrest⟩ ?_
      rw [hp, ← hxy, ← hr.1]
      exact hr
    have hlength := congrArg List.length hsame
    simp only [List.length_cons, List.length_append] at hlength
    omega

section Writing

variable [DecidableEq A] {c : Option (Node A V)} {n : Option A} {v w : V}

/-- **What is written elsewhere** leaves a segment alone. -/
theorem Segment.update (h : Segment m p xs q) (ha : a ∉ xs.map Prod.fst) :
    Segment (Function.update m a c) p xs q :=
  h.congr fun x hx => Function.update_of_ne
    (fun hxa => ha (List.mem_map.mpr ⟨x, hx, hxa⟩)) c m

/-- **A new first cell.** -/
theorem Segment.cons (h : Segment m p xs q) (ha : a ∉ xs.map Prod.fst) :
    Segment (Function.update m a (some ⟨v, p⟩)) (some a) ((a, v) :: xs) q :=
  ⟨rfl, p, Function.update_self a _ m, h.update ha⟩

/-- **Another value** in a cell. -/
theorem Segment.setValue (h : Segment m p (xs ++ (a, v) :: ys) q)
    (hnodup : ((xs ++ (a, v) :: ys).map Prod.fst).Nodup) (ha : m a = some ⟨v, n⟩) :
    Segment (Function.update m a (some ⟨w, n⟩)) p (xs ++ (a, w) :: ys) q := by
  rw [List.map_append, List.map_cons, List.nodup_append, List.nodup_cons] at hnodup
  obtain ⟨-, ⟨hys, -⟩, hxs⟩ := hnodup
  obtain ⟨r, hbefore, hr, n', ha', hafter⟩ := segment_append_iff.mp h
  rw [show m a = some ⟨v, n'⟩ from ha'] at ha
  cases ha
  exact segment_append_iff.mpr
    ⟨r, hbefore.update fun hmem => hxs a hmem a List.mem_cons_self rfl,
      hr, n, Function.update_self a _ m, hafter.update hys⟩

/-- **Another end**: the last cell is linked to it. -/
theorem Segment.relink (h : Segment m p (xs ++ [(a, v)]) q) (ha : a ∉ xs.map Prod.fst) :
    Segment (Function.update m a (some ⟨v, n⟩)) p (xs ++ [(a, v)]) n := by
  obtain ⟨r, hbefore, hr, -⟩ := segment_append_iff.mp h
  exact segment_append_iff.mpr
    ⟨r, hbefore.update ha, hr, n, Function.update_self a _ m, rfl⟩

end Writing

/-! ## Loops -/

/-- The loop that looks for the first cell with a property. -/
def search (m : Memory A V) (P : V → Bool) : ℕ → Option A → Option (Option A)
  | _, none => some none
  | 0, some _ => none
  | k + 1, some a => do
    let c ← m a
    if P c.value then some (some a) else search m P k c.next

/-- The loop that goes through the cells with an accumulator. -/
def foldCells (m : Memory A V) (f : B → A × V → B) : ℕ → Option A → B → Option B
  | _, none, b => some b
  | 0, some _, _ => none
  | k + 1, some a, b => do
    let c ← m a
    foldCells m f k c.next (f b (a, c.value))

/-- The loop that writes to every cell. -/
def modifyCells [DecidableEq A] (f : V → V) : ℕ → Option A → Memory A V → Option (Memory A V)
  | _, none, m => some m
  | 0, some _, _ => none
  | k + 1, some a, m => do
    let c ← m a
    modifyCells f k c.next (Function.update m a (some { c with value := f c.value }))

variable {k : ℕ} {P : V → Bool}

theorem search_eq (h : Segment m p xs none) (hk : xs.length ≤ k) :
    search m P k p = some ((xs.find? fun x => P x.2).map Prod.fst) := by
  induction xs generalizing p k with
  | nil =>
    obtain rfl : p = none := h
    cases k with
    | zero => rfl
    | succ k => rfl
  | cons x xs ih =>
    obtain ⟨rfl, n, hx, hrest⟩ := h
    cases k with
    | zero => exact absurd hk (Nat.not_succ_le_zero _)
    | succ k =>
      rw [search, hx, Option.bind_eq_bind, Option.bind_some, List.find?_cons]
      dsimp only
      cases P x.2 with
      | true => rfl
      | false => exact ih hrest (Nat.le_of_succ_le_succ hk)

theorem foldCells_eq {f : B → A × V → B} {b : B} (h : Segment m p xs none)
    (hk : xs.length ≤ k) : foldCells m f k p b = some (xs.foldl f b) := by
  induction xs generalizing p k b with
  | nil =>
    obtain rfl : p = none := h
    cases k with
    | zero => rfl
    | succ k => rfl
  | cons x xs ih =>
    obtain ⟨rfl, n, hx, hrest⟩ := h
    cases k with
    | zero => exact absurd hk (Nat.not_succ_le_zero _)
    | succ k =>
      rw [foldCells, hx, Option.bind_eq_bind, Option.bind_some]
      exact ih hrest (Nat.le_of_succ_le_succ hk)

/-- **Every value is changed**, and no cell elsewhere. -/
theorem modifyCells_eq [DecidableEq A] (h : Segment m p xs none)
    (hk : xs.length ≤ k) :
    ∃ m', modifyCells f k p m = some m'
      ∧ Segment m' p (mapValues f xs) none
      ∧ ∀ a, a ∉ xs.map Prod.fst → m' a = m a := by
  have hnodup := h.nodup
  induction xs generalizing p k m with
  | nil =>
    obtain rfl : p = none := h
    refine ⟨m, ?_, rfl, fun _ _ => rfl⟩
    cases k with
    | zero => rfl
    | succ k => rfl
  | cons x xs ih =>
    obtain ⟨rfl, n, hx, hrest⟩ := h
    rw [List.map_cons, List.nodup_cons] at hnodup
    cases k with
    | zero => exact absurd hk (Nat.not_succ_le_zero _)
    | succ k =>
      obtain ⟨m', hm', hlist, hframe⟩ := ih (hrest.update hnodup.1)
        (Nat.le_of_succ_le_succ hk) hnodup.2
      refine ⟨m', ?_, ⟨rfl, n, ?_, hlist⟩, fun a ha => ?_⟩
      · rw [modifyCells, hx, Option.bind_eq_bind, Option.bind_some]
        exact hm'
      · rw [hframe x.1 hnodup.1]
        exact Function.update_self x.1 _ m
      · rw [List.map_cons, List.mem_cons, not_or] at ha
        rw [hframe a ha.2, Function.update_of_ne ha.1]

end LinkedList
