import Mathlib.Data.List.Infix

/-!
# Byte strings and CRLF

Line-oriented protocols delimit their lines by CRLF, and those that carry
binary data announce its length beforehand. This module has the one
operation reading such text rests on, over plain lists of bytes: cutting a
byte string at its first CRLF, possibly counting only those from a given
offset on.

The cut is the one primitive. `cutCrlf lo b` looks for the first CRLF of `b`
at offset `lo` or later and returns what stands before it and after it; with
`lo = 0` it reads a line. What a reader of a growing buffer needs of it is
`cutCrlf_append` – bytes that arrive later move no cut already found – and
what a writer needs is that a text with no CRLF in it is a line
(`cutCrlf_line`) and that *any* text is found again from its own length on
(`cutCrlf_payload`).
-/

/-- A byte string: what a `char` buffer or a `std::string` holds. -/
abbrev Bytes : Type := List UInt8

namespace Bytes

/-- The bytes of an ASCII text. -/
def ofString (s : String) : Bytes := s.toList.map Char.toUInt8

/-- Carriage return. -/
def cr : UInt8 := 13

/-- Line feed. -/
def lf : UInt8 := 10

/-- The line terminator. -/
def crlf : Bytes := [cr, lf]

/-- A carriage return at offset `j`, directly followed by a line feed. -/
def CrlfAt (b : Bytes) (j : ℕ) : Prop := b[j]? = some cr ∧ b[j + 1]? = some lf

instance (b : Bytes) (j : ℕ) : Decidable (CrlfAt b j) :=
  inferInstanceAs (Decidable (_ ∧ _))

/-- No CRLF stands anywhere in the byte string. -/
def NoCrlf (b : Bytes) : Prop := ∀ j, ¬ CrlfAt b j

theorem crlfAt_cons_succ (c : UInt8) (b : Bytes) (j : ℕ) :
    CrlfAt (c :: b) (j + 1) ↔ CrlfAt b j := by
  unfold CrlfAt
  simp only [List.getElem?_cons_succ]

theorem crlfAt_cons_zero (c : UInt8) (b : Bytes) :
    CrlfAt (c :: b) 0 ↔ c = cr ∧ b.head? = some lf := by
  unfold CrlfAt
  simp [List.head?_eq_getElem?]

/-- A CRLF stays where it is when bytes are added behind it. -/
theorem CrlfAt.append {b : Bytes} {j : ℕ} (h : CrlfAt b j) (more : Bytes) :
    CrlfAt (b ++ more) j := by
  obtain ⟨h₁, h₂⟩ := h
  have hlt : j + 1 < b.length := (List.getElem?_eq_some_iff.mp h₂).1
  refine ⟨?_, ?_⟩
  · rw [List.getElem?_append_left (by omega), h₁]
  · rw [List.getElem?_append_left hlt, h₂]

theorem CrlfAt.lt {b : Bytes} {j : ℕ} (h : CrlfAt b j) : j + 1 < b.length :=
  (List.getElem?_eq_some_iff.mp h.2).1

/-- A CRLF that lies in the front of a byte string is one of the front. -/
theorem CrlfAt.of_append {a b : Bytes} {j : ℕ} (h : CrlfAt (a ++ b) j)
    (hj : j + 1 < a.length) : CrlfAt a j :=
  ⟨by rw [← h.1, List.getElem?_append_left (by omega)],
    by rw [← h.2, List.getElem?_append_left hj]⟩

/-- So is one that lies in the first bytes. -/
theorem crlfAt_take_iff {b : Bytes} {n j : ℕ} : CrlfAt (b.take n) j ↔ CrlfAt b j ∧ j + 1 < n := by
  constructor
  · intro h
    have hlt := h.lt
    rw [List.length_take] at hlt
    rw [← List.take_append_drop n b]
    exact ⟨h.append _, by omega⟩
  · rintro ⟨h, hn⟩
    have hlt := h.lt
    rw [← List.take_append_drop n b] at h
    exact h.of_append (by rw [List.length_take]; omega)

/-- The terminator itself, behind any text. -/
theorem crlfAt_length (t r : Bytes) : CrlfAt (t ++ crlf ++ r) t.length := by
  refine ⟨?_, ?_⟩ <;> simp [crlf, List.append_assoc]

/-- Dropping a prefix shifts the offsets. -/
theorem crlfAt_drop (b : Bytes) (k j : ℕ) : CrlfAt (b.drop k) j ↔ CrlfAt b (k + j) := by
  unfold CrlfAt
  simp only [List.getElem?_drop, Nat.add_assoc]

/-- Whether a byte string has a CRLF is decided by looking at each offset. -/
theorem noCrlf_iff (b : Bytes) : NoCrlf b ↔ ∀ j < b.length, ¬ CrlfAt b j :=
  ⟨fun h j _ => h j, fun h j hj => h j (Nat.lt_of_succ_lt hj.lt) hj⟩

instance (b : Bytes) : Decidable (NoCrlf b) := decidable_of_iff' _ (noCrlf_iff b)

/-- A prefix of a byte string without CRLF has none either. -/
theorem NoCrlf.of_append {a b : Bytes} (h : NoCrlf (a ++ b)) : NoCrlf a :=
  fun j hj => h j (hj.append b)

/-- A byte that is no line feed completes no CRLF. -/
theorem NoCrlf.append_singleton {b : Bytes} (h : NoCrlf b) {c : UInt8} (hc : c ≠ lf) :
    NoCrlf (b ++ [c]) := by
  intro j hj
  have hlt := hj.lt
  rw [List.length_append, List.length_singleton] at hlt
  by_cases hlast : j + 1 < b.length
  · exact h j (hj.of_append hlast)
  · have h₂ := hj.2
    rw [List.getElem?_append_right (by omega), show j + 1 - b.length = 0 by omega] at h₂
    exact hc (Option.some.inj h₂)

/-- A text without carriage returns has no CRLF. -/
theorem noCrlf_of_notMem {b : Bytes} (h : cr ∉ b) : NoCrlf b :=
  fun _ hj => h (List.mem_of_getElem? hj.1)

/-! ## Cutting at a CRLF -/

/-- **The cut at the first CRLF at offset `lo` or later**: the bytes before
it and the bytes after it, or nothing when there is no such CRLF. -/
def cutCrlf : ℕ → Bytes → Option (Bytes × Bytes)
  | _, [] => none
  | lo, c :: b =>
    if lo = 0 ∧ c = cr ∧ b.head? = some lf then some ([], b.tail)
    else (cutCrlf (lo - 1) b).map (fun p => (c :: p.1, p.2))

/-- What a cut returns is the byte string, with the CRLF between the two
parts. -/
theorem cutCrlf_eq_some {lo : ℕ} {b t r : Bytes} (h : cutCrlf lo b = some (t, r)) :
    b = t ++ crlf ++ r := by
  induction b generalizing lo t with
  | nil => simp [cutCrlf] at h
  | cons c b ih =>
    unfold cutCrlf at h
    split at h
    · rename_i hc
      obtain ⟨-, rfl, hb⟩ := hc
      simp only [Option.some.injEq, Prod.mk.injEq] at h
      obtain ⟨rfl, rfl⟩ := h
      cases b with
      | nil => simp at hb
      | cons d b => simp only [List.head?_cons, Option.some.injEq] at hb; subst hb; rfl
    · obtain ⟨⟨t', r'⟩, h', he⟩ := Option.map_eq_some_iff.mp h
      simp only [Prod.mk.injEq] at he
      obtain ⟨rfl, rfl⟩ := he
      rw [ih h']
      rfl

/-- The cut is at the asked offset or later. -/
theorem le_length_of_cutCrlf {lo : ℕ} {b t r : Bytes} (h : cutCrlf lo b = some (t, r)) :
    lo ≤ t.length := by
  induction b generalizing lo t with
  | nil => simp [cutCrlf] at h
  | cons c b ih =>
    unfold cutCrlf at h
    split at h
    · rename_i hc
      omega
    · obtain ⟨⟨t', r'⟩, h', he⟩ := Option.map_eq_some_iff.mp h
      simp only [Prod.mk.injEq] at he
      obtain ⟨rfl, rfl⟩ := he
      have := ih h'
      simp only [List.length_cons]
      omega

/-- No CRLF at the asked offset or later is passed over. -/
theorem not_crlfAt_of_cutCrlf {lo : ℕ} {b t r : Bytes} (h : cutCrlf lo b = some (t, r))
    {j : ℕ} (hlo : lo ≤ j) (hj : j < t.length) : ¬ CrlfAt b j := by
  induction b generalizing lo t j with
  | nil => simp [cutCrlf] at h
  | cons c b ih =>
    unfold cutCrlf at h
    split at h
    · simp only [Option.some.injEq, Prod.mk.injEq] at h
      rw [← h.1] at hj
      simp at hj
    · rename_i hc
      obtain ⟨⟨t', r'⟩, h', he⟩ := Option.map_eq_some_iff.mp h
      simp only [Prod.mk.injEq] at he
      obtain ⟨rfl, rfl⟩ := he
      cases j with
      | zero =>
        rw [crlfAt_cons_zero]
        exact fun hcr => hc ⟨by omega, hcr⟩
      | succ j =>
        rw [crlfAt_cons_succ]
        simp only [List.length_cons] at hj
        exact ih h' (by omega) (by omega)

/-- **The cut is determined by where the first eligible CRLF stands.** -/
theorem cutCrlf_eq_some_of {lo : ℕ} {t r : Bytes} (hlo : lo ≤ t.length)
    (hno : ∀ j, lo ≤ j → j < t.length → ¬ CrlfAt (t ++ crlf ++ r) j) :
    cutCrlf lo (t ++ crlf ++ r) = some (t, r) := by
  induction t generalizing lo with
  | nil =>
    simp only [List.length_nil, Nat.le_zero_eq] at hlo
    subst hlo
    simp [cutCrlf, crlf]
  | cons c t ih =>
    have hstep : cutCrlf (lo - 1) (t ++ crlf ++ r) = some (t, r) := by
      refine ih (by simp only [List.length_cons] at hlo; omega) (fun j hj hjt => ?_)
      have := hno (j + 1) (by omega) (by simpa using hjt)
      simpa only [List.cons_append, crlfAt_cons_succ] using this
    rw [List.cons_append, List.cons_append, cutCrlf, hstep, if_neg]
    · rfl
    · rintro ⟨rfl, hc⟩
      refine hno 0 le_rfl (by simp) ?_
      rw [List.cons_append, List.cons_append, crlfAt_cons_zero]
      exact hc

/-- **A terminator behind a text without an eligible CRLF** is the first
eligible one. -/
theorem cutCrlf_terminated {lo : ℕ} {t : Bytes} (hlo : lo ≤ t.length)
    (h : ∀ j, lo ≤ j → ¬ CrlfAt t j) (r : Bytes) :
    cutCrlf lo (t ++ crlf ++ r) = some (t, r) := by
  refine cutCrlf_eq_some_of hlo (fun j hj hjt hc => ?_)
  by_cases hlast : j + 1 < t.length
  · rw [List.append_assoc] at hc
    exact h j hj (hc.of_append hlast)
  · -- the byte after the text's last one is the CR of the terminator
    have h₂ := hc.2
    rw [List.append_assoc, List.getElem?_append_right (by omega),
      show j + 1 - t.length = 0 by omega] at h₂
    simp [crlf, cr, lf] at h₂

/-- **A text without CRLF is a line.** -/
theorem cutCrlf_line {t : Bytes} (h : NoCrlf t) (r : Bytes) :
    cutCrlf 0 (t ++ crlf ++ r) = some (t, r) :=
  cutCrlf_terminated (Nat.zero_le _) (fun j _ => h j) r

/-- **Any text is found again from its own length on**, whatever CRLFs stand
inside it. -/
theorem cutCrlf_payload (t r : Bytes) :
    cutCrlf t.length (t ++ crlf ++ r) = some (t, r) :=
  cutCrlf_eq_some_of le_rfl (fun j hj hjt => absurd hj (by omega))

/-- **Bytes that arrive later move no cut already found.** -/
theorem cutCrlf_append {lo : ℕ} {b t r : Bytes} (h : cutCrlf lo b = some (t, r))
    (more : Bytes) : cutCrlf lo (b ++ more) = some (t, r ++ more) := by
  have hb := cutCrlf_eq_some h
  subst hb
  rw [List.append_assoc]
  refine cutCrlf_eq_some_of (le_length_of_cutCrlf h) (fun j hj hjt hc => ?_)
  -- a CRLF that starts inside `t` lies within `t ++ crlf`
  refine not_crlfAt_of_cutCrlf h hj hjt ?_
  obtain ⟨h₁, h₂⟩ := hc
  have hlen : (t ++ crlf).length = t.length + 2 := by simp [crlf]
  refine ⟨?_, ?_⟩
  · rw [List.getElem?_append_left (by omega)] at h₁ ⊢
    exact h₁
  · rw [List.getElem?_append_left (by omega)] at h₂ ⊢
    exact h₂

/-- A cut was there before what is behind it had arrived. -/
theorem cutCrlf_of_append {lo : ℕ} {b t r more : Bytes}
    (h : cutCrlf lo (b ++ more) = some (t, r ++ more)) : cutCrlf lo b = some (t, r) := by
  have hb := cutCrlf_eq_some h
  rw [← List.append_assoc] at hb
  obtain rfl := List.append_cancel_right hb
  exact cutCrlf_eq_some_of (le_length_of_cutCrlf h) fun j hj hjt hc =>
    not_crlfAt_of_cutCrlf h hj hjt (hc.append more)

/-- There is no cut exactly when no CRLF stands at the asked offset or
later. -/
theorem cutCrlf_eq_none_iff {lo : ℕ} {b : Bytes} :
    cutCrlf lo b = none ↔ ∀ j, lo ≤ j → ¬ CrlfAt b j := by
  induction b generalizing lo with
  | nil => simp [cutCrlf, CrlfAt]
  | cons c b ih =>
    unfold cutCrlf
    split
    · rename_i hc
      refine iff_of_false (by simp) (fun h => h 0 (by omega) ?_)
      rw [crlfAt_cons_zero]
      exact hc.2
    · rename_i hc
      rw [Option.map_eq_none_iff, ih]
      constructor
      · intro h j hj
        cases j with
        | zero =>
          rw [crlfAt_cons_zero]
          exact fun hcr => hc ⟨by omega, hcr⟩
        | succ j =>
          rw [crlfAt_cons_succ]
          exact h j (by omega)
      · intro h j hj
        rw [← crlfAt_cons_succ c]
        exact h (j + 1) (by omega)

/-- A buffer shorter than the asked offset has no cut. -/
theorem cutCrlf_of_length_le {lo : ℕ} {b : Bytes} (h : b.length ≤ lo) :
    cutCrlf lo b = none :=
  cutCrlf_eq_none_iff.mpr (fun _ hj hc => absurd hc.lt (by omega))

/-- What is left behind a cut is at least two bytes shorter. -/
theorem length_of_cutCrlf {lo : ℕ} {b t r : Bytes} (h : cutCrlf lo b = some (t, r)) :
    b.length = t.length + 2 + r.length := by
  rw [cutCrlf_eq_some h, List.length_append, List.length_append]
  rfl

/-- What is left behind a cut is the end of the byte string. -/
theorem suffix_of_cutCrlf {lo : ℕ} {b t r : Bytes} (h : cutCrlf lo b = some (t, r)) : r <:+ b :=
  cutCrlf_eq_some h ▸ List.suffix_append _ r

/-! ## Lines that are still arriving -/

end Bytes
