import RedisProxy.Library.Bytes
import Mathlib.Data.List.TakeWhile
import Mathlib.Data.Nat.Digits.Lemmas
import Mathlib.Tactic.Ring

/-!
# Numbers as text

`decimal n` is what `std::to_string` writes for an unsigned `n`. Reading a
number back is the C library's business: `strtol` in base ten skips white
space, takes at most one sign and then the longest run of digits, ignores
whatever follows, and fails only when there is no digit; `stoi` is `strtol`
with the result required to fit an `int`, and throws instead of failing.

So `stoi` accepts far more than `decimal` writes; the two meet in texts that are
digits only (`digits_decimal`, `stoi_of_digits`). Digits added at the end never
make a number smaller, so a text has a continuation that reads as a number of a
wanted kind only if it reads so already, or with one more digit
(`stoi_extend_nonneg`, `stoi_extend_pos`).
-/

/-- The exceptions of the C++ standard library that text handling throws. -/
inductive StdException where
  /-- `std::out_of_range`: a position past the end, a number past the range. -/
  | outOfRange
  /-- `std::invalid_argument`: no number where one is expected. -/
  | invalidArgument
  deriving DecidableEq, Repr

namespace Bytes

/-- `isspace` in the C locale. -/
def isSpace (c : UInt8) : Bool := c == 32 || (9 ≤ c && c ≤ 13)

/-- `isdigit`. -/
def isDigit (c : UInt8) : Bool := 48 ≤ c && c ≤ 57

/-- A non-empty string of digits. -/
def Digits (ds : Bytes) : Prop := ds ≠ [] ∧ ∀ c ∈ ds, isDigit c = true

/-- The value of a string of digits, most significant first. -/
def digitsValue (ds : Bytes) : ℕ := ds.foldl (fun n d => 10 * n + (d.toNat - 48)) 0

/-- **`std::to_string` of an unsigned number.** -/
def decimal (n : ℕ) : Bytes := (Nat.toDigits 10 n).map Char.toUInt8

/-- The sign `strtol` takes, if there is one, and what follows it. -/
def takeSign : Bytes → Bool × Bytes
  | [] => (false, [])
  | c :: b => if c = 45 then (true, b) else if c = 43 then (false, b) else (false, c :: b)

/-- The number a sign and a run of digits stand for; nothing when there is
no digit. -/
def signedValue (neg : Bool) (ds : Bytes) : Option ℤ :=
  if ds = [] then none
  else some (if neg then -(digitsValue ds : ℤ) else digitsValue ds)

/-- **`strtol` in base ten**, with no bound on the result; nothing where no
conversion can be performed. -/
def strtol (s : Bytes) : Option ℤ :=
  let signed := takeSign (s.dropWhile isSpace)
  signedValue signed.1 (signed.2.takeWhile isDigit)

/-- **`std::stoi`**: a number that fits an `int`, or the exception thrown. -/
def stoi (s : Bytes) : Except StdException ℤ :=
  match strtol s with
  | none => .error .invalidArgument
  | some n => if -2 ^ 31 ≤ n ∧ n < 2 ^ 31 then .ok n else .error .outOfRange

/-- **`std::atoi`**, which is `strtol` with the result held in a 64-bit `long`,
at its bounds where it does not fit, and then cut down to an `int`; zero where
there is no number. -/
def atoi (s : Bytes) : Int32 :=
  Int32.ofInt (max (-2 ^ 63) (min (2 ^ 63 - 1) ((strtol s).getD 0)))

/-- **`std::string::substr`**: it throws when the position is past the end,
and shortens the length to what is there. -/
def substr (s : Bytes) (pos n : ℕ) : Except StdException Bytes :=
  if s.length < pos then .error .outOfRange else .ok ((s.drop pos).take n)

/-! An `int` that indexes a string is converted to `size_t`. A negative one becomes a position
that no string reaches. -/

/-- Whether an `int` is a position in the string. -/
def Inside (s : Bytes) (i : Int32) : Prop := 0 ≤ i.toInt ∧ i.toInt < s.length

instance (s : Bytes) (i : Int32) : Decidable (Inside s i) := inferInstanceAs (Decidable (_ ∧ _))

/-- **`std::string::at`** of an `int`. -/
def charAt (s : Bytes) (i : Int32) : Except StdException UInt8 :=
  if h : Inside s i then .ok (s.get ⟨i.toInt.toNat, (Int.toNat_lt h.1).mpr h.2⟩)
  else .error .outOfRange

/-- **`std::string::substr`** from an `int` on. -/
def substrFrom (s : Bytes) (pos : Int32) (n : ℕ) : Except StdException Bytes :=
  if pos.toInt < 0 then .error .outOfRange else substr s pos.toInt.toNat n

/-! ## Rendering -/

/-- The digits of `std::to_string`, one by one. -/
theorem decimal_of_lt {n : ℕ} (h : n < 10) : decimal n = [(48 + n).toUInt8] := by
  unfold decimal
  interval_cases n <;> rfl

/-- A number of several digits is written before its last digit. -/
theorem decimal_of_le {n : ℕ} (h : 10 ≤ n) :
    decimal n = decimal (n / 10) ++ [(48 + n % 10).toUInt8] := by
  unfold decimal
  rw [Nat.toDigits_of_base_le (by omega) h, List.map_append, List.map_singleton]
  have hlt : n % 10 < 10 := Nat.mod_lt _ (by omega)
  congr 2
  interval_cases n % 10 <;> rfl

theorem decimal_ne_nil (n : ℕ) : decimal n ≠ [] := by
  rcases lt_or_ge n 10 with h | h
  · rw [decimal_of_lt h]; simp
  · rw [decimal_of_le h]; simp

theorem toNat_digit {d : ℕ} (h : d < 10) : (48 + d).toUInt8.toNat = 48 + d := by
  interval_cases d <;> rfl

theorem isDigit_digit {d : ℕ} (h : d < 10) : isDigit (48 + d).toUInt8 = true := by
  interval_cases d <;> rfl

/-- Only digits are written. -/
theorem isDigit_of_mem_decimal (n : ℕ) : ∀ c ∈ decimal n, isDigit c = true := by
  induction n using Nat.strong_induction_on with
  | _ n ih =>
    intro c hc
    rcases lt_or_ge n 10 with h | h
    · rw [decimal_of_lt h, List.mem_singleton] at hc
      rw [hc]
      exact isDigit_digit h
    · rw [decimal_of_le h, List.mem_append, List.mem_singleton] at hc
      rcases hc with hc | rfl
      · exact ih (n / 10) (by omega) c hc
      · exact isDigit_digit (Nat.mod_lt _ (by omega))

theorem digits_decimal (n : ℕ) : Digits (decimal n) :=
  ⟨decimal_ne_nil n, isDigit_of_mem_decimal n⟩

theorem digitsValue_append_singleton (ds : Bytes) (d : UInt8) :
    digitsValue (ds ++ [d]) = 10 * digitsValue ds + (d.toNat - 48) := by
  unfold digitsValue
  rw [List.foldl_append]
  rfl

/-- **The digits written have the value they are written for.** -/
@[simp] theorem digitsValue_decimal (n : ℕ) : digitsValue (decimal n) = n := by
  induction n using Nat.strong_induction_on with
  | _ n ih =>
    rcases lt_or_ge n 10 with h | h
    · rw [decimal_of_lt h]
      simp only [digitsValue, List.foldl_cons, List.foldl_nil, toNat_digit h]
      omega
    · rw [decimal_of_le h, digitsValue_append_singleton, ih (n / 10) (by omega),
        toNat_digit (Nat.mod_lt _ (by omega))]
      omega

/-- Digits hold no carriage return. -/
theorem Digits.cr_notMem {ds : Bytes} (h : Digits ds) : cr ∉ ds :=
  fun hc => absurd (h.2 cr hc) (by decide)

/-! ## Reading -/

theorem not_isSpace_of_isDigit {c : UInt8} (h : isDigit c = true) : isSpace c = false := by
  revert h
  unfold isDigit isSpace
  simp only [Bool.and_eq_true, decide_eq_true_eq, Bool.or_eq_false_iff, beq_eq_false_iff_ne,
    Bool.and_eq_false_iff, decide_eq_false_iff_not, UInt8.le_iff_toNat_le]
  rintro ⟨h₁, h₂⟩
  refine ⟨fun hc => ?_, Or.inr ?_⟩
  · rw [hc] at h₁
    exact absurd h₁ (by decide)
  · have : (48 : UInt8).toNat = 48 := rfl
    have : (13 : UInt8).toNat = 13 := rfl
    omega

/-- A digit is no sign. -/
theorem takeSign_of_isDigit {c : UInt8} (h : isDigit c = true) (b : Bytes) :
    takeSign (c :: b) = (false, c :: b) := by
  have h45 : c ≠ 45 := by rintro rfl; exact absurd h (by decide)
  have h43 : c ≠ 43 := by rintro rfl; exact absurd h (by decide)
  rw [takeSign, if_neg h45, if_neg h43]

/-- **A text that is nothing but digits reads as its value.** -/
theorem strtol_of_digits {ds : Bytes} (h : Digits ds) :
    strtol ds = some (digitsValue ds : ℤ) := by
  obtain ⟨hne, hds⟩ := h
  cases ds with
  | nil => exact absurd rfl hne
  | cons c b =>
    have hc := hds c List.mem_cons_self
    unfold strtol
    rw [List.dropWhile_cons_of_neg (by simp [not_isSpace_of_isDigit hc]),
      takeSign_of_isDigit hc]
    have htake : (c :: b).takeWhile isDigit = c :: b :=
      List.takeWhile_eq_self_iff.mpr hds
    simp only [htake, signedValue, Bool.false_eq_true, if_false, hne]

theorem stoi_eq_ok_iff {s : Bytes} {n : ℤ} :
    stoi s = .ok n ↔ strtol s = some n ∧ -2 ^ 31 ≤ n ∧ n < 2 ^ 31 := by
  unfold stoi
  cases strtol s with
  | none => simp
  | some m =>
    by_cases hm : -2 ^ 31 ≤ m ∧ m < 2 ^ 31
    · simp only [if_pos hm, Except.ok.injEq, Option.some.injEq]
      exact ⟨fun h => h ▸ ⟨rfl, hm⟩, fun h => h.1⟩
    · simp only [if_neg hm, reduceCtorEq, Option.some.injEq, false_iff]
      rintro ⟨rfl, hr⟩
      exact hm hr

theorem stoi_of_digits {ds : Bytes} (h : Digits ds) (hlt : digitsValue ds < 2 ^ 31) :
    stoi ds = .ok (digitsValue ds : ℤ) :=
  stoi_eq_ok_iff.mpr ⟨strtol_of_digits h, by omega, by exact_mod_cast hlt⟩

/-- Digits of a value that fits no `int` are out of range. -/
theorem stoi_of_digits_of_le {ds : Bytes} (h : Digits ds) (hle : 2 ^ 31 ≤ digitsValue ds) :
    stoi ds = .error .outOfRange := by
  unfold stoi
  rw [strtol_of_digits h]
  exact if_neg (fun h => absurd h.2 (by push_cast; omega))

/-- Digits that `stoi` accepts read as their value. -/
theorem eq_digitsValue_of_stoi {ds : Bytes} {n : ℤ} (h : Digits ds) (hn : stoi ds = .ok n) :
    n = digitsValue ds ∧ digitsValue ds < 2 ^ 31 := by
  rcases Nat.lt_or_ge (digitsValue ds) (2 ^ 31) with hlt | hge
  · rw [stoi_of_digits h hlt] at hn
    exact ⟨(Except.ok.inj hn).symm, hlt⟩
  · rw [stoi_of_digits_of_le h hge] at hn
    cases hn

/-- What `stoi` returns fits an `int`. -/
theorem stoi_range {s : Bytes} {n : ℤ} (h : stoi s = .ok n) : -2 ^ 31 ≤ n ∧ n < 2 ^ 31 :=
  (stoi_eq_ok_iff.mp h).2

/-! ## Reading a text that is still arriving -/

theorem strtol_eq (s : Bytes) :
    strtol s = signedValue (takeSign (s.dropWhile isSpace)).1
      ((takeSign (s.dropWhile isSpace)).2.takeWhile isDigit) := rfl

/-- **A decimal integer**: a sign at most, then digits and nothing else. -/
inductive DecimalInteger : Bytes → ℤ → Prop where
  /-- Digits. -/
  | unsigned {ds : Bytes} (h : Digits ds) : DecimalInteger ds (digitsValue ds)
  /-- `+` and digits. -/
  | plus {ds : Bytes} (h : Digits ds) : DecimalInteger (43 :: ds) (digitsValue ds)
  /-- `-` and digits. -/
  | minus {ds : Bytes} (h : Digits ds) : DecimalInteger (45 :: ds) (-(digitsValue ds : ℤ))

/-- Behind its first character a decimal integer has digits only. -/
theorem DecimalInteger.isDigit_of_mem_tail {s : Bytes} {n : ℤ} (h : DecimalInteger s n) :
    ∀ c ∈ s.tail, isDigit c = true := by
  intro c hc
  cases h with
  | unsigned h => exact h.2 c (List.mem_of_mem_tail hc)
  | plus h => exact h.2 c hc
  | minus h => exact h.2 c hc

/-- **A decimal integer reads as its value.** -/
theorem strtol_of_decimalInteger {s : Bytes} {n : ℤ} (h : DecimalInteger s n) :
    strtol s = some n := by
  cases h with
  | unsigned h => exact strtol_of_digits h
  | @plus ds h =>
    rw [strtol_eq, List.dropWhile_cons_of_neg (by decide)]
    show signedValue false (ds.takeWhile isDigit) = _
    rw [List.takeWhile_eq_self_iff.mpr h.2, signedValue, if_neg h.1, if_neg (by decide)]
  | @minus ds h =>
    rw [strtol_eq, List.dropWhile_cons_of_neg (by decide)]
    show signedValue true (ds.takeWhile isDigit) = _
    rw [List.takeWhile_eq_self_iff.mpr h.2, signedValue, if_neg h.1, if_pos rfl]

/-- One that fits an `int` is what `atoi` returns. -/
theorem toInt_atoi {s : Bytes} {n : ℤ} (h : DecimalInteger s n) (hn : -2 ^ 31 ≤ n ∧ n < 2 ^ 31) :
    (atoi s).toInt = n := by
  have hclamp : max (-2 ^ 63) (min (2 ^ 63 - 1) n) = n := by omega
  unfold atoi
  rw [strtol_of_decimalInteger h, Option.getD_some, hclamp]
  exact Int32.toInt_ofInt_of_le hn.1 hn.2

theorem substr_of_le {s : Bytes} {pos : ℕ} (h : pos ≤ s.length) (n : ℕ) :
    substr s pos n = .ok ((s.drop pos).take n) :=
  if_neg (by omega)

/-! ## Positions -/

/-- An `int` is counted up to the last one there is, and wraps around. -/
theorem toInt_add_one (i : Int32) :
    (i + 1).toInt = if i.toInt = 2 ^ 31 - 1 then -2 ^ 31 else i.toInt + 1 := by
  have hlt := i.toInt_lt
  have hle := i.le_toInt
  rw [Int32.toInt_add, Int.bmod_def, show (1 : Int32).toInt = 1 from rfl]
  split
  · split
    · omega
    · omega
  · split
    · omega
    · omega

/-- What is left of the string behind an `int`. -/
def leftFrom (s : Bytes) (i : Int32) : ℕ :=
  if 0 ≤ i.toInt then s.length + 1 - i.toInt.toNat else 0

theorem leftFrom_of_neg {s : Bytes} {i : Int32} (h : i.toInt < 0) : leftFrom s i = 0 :=
  if_neg h.not_ge

theorem leftFrom_of_nonneg {s : Bytes} {i : Int32} (h : 0 ≤ i.toInt) :
    leftFrom s i = s.length + 1 - i.toInt.toNat := if_pos h

/-- It gets less with every step in the string. -/
theorem leftFrom_add_one_lt {s : Bytes} {i : Int32} (h : Inside s i) :
    leftFrom s (i + 1) < leftFrom s i := by
  have hnext := toInt_add_one i
  obtain ⟨hnonneg, hlt⟩ := h
  rw [leftFrom_of_nonneg hnonneg]
  split at hnext
  · rw [leftFrom_of_neg (by omega)]
    omega
  · rw [leftFrom_of_nonneg (by omega)]
    omega

theorem leftFrom_add_two_lt {s : Bytes} {i : Int32} (h : Inside s i) :
    leftFrom s (i + 1 + 1) < leftFrom s i := by
  have hnext := toInt_add_one i
  have hnext' := toInt_add_one (i + 1)
  obtain ⟨hnonneg, hlt⟩ := h
  rw [leftFrom_of_nonneg hnonneg]
  by_cases hneg : (i + 1 + 1).toInt < 0
  · rw [leftFrom_of_neg hneg]
    omega
  · rw [leftFrom_of_nonneg (not_lt.mp hneg)]
    split at hnext <;> split at hnext'
    · omega
    · omega
    · omega
    · omega

theorem ofNat_add_one (k : ℕ) : Int32.ofNat k + 1 = Int32.ofNat (k + 1) :=
  (Int32.ofNat_add k 1).symm

/-- A number that fits is that position. -/
theorem inside_ofNat_iff {s : Bytes} {k : ℕ} (hk : k ≤ 2 ^ 31) :
    Inside s (.ofNat k) ↔ k < 2 ^ 31 ∧ k < s.length := by
  rcases Nat.lt_or_eq_of_le hk with hlt | rfl
  · unfold Inside
    rw [Int32.toInt_ofNat_of_lt hlt]
    omega
  · exact iff_of_false (fun h => absurd h.1 (by decide)) (fun h => Nat.lt_irrefl _ h.1)

theorem charAt_ofNat {s : Bytes} {k : ℕ} (hk : k < 2 ^ 31) (hlt : k < s.length) :
    charAt s (.ofNat k) = .ok s[k] := by
  unfold charAt
  rw [dif_pos ((inside_ofNat_iff hk.le).mpr ⟨hk, hlt⟩)]
  simp only [Int32.toInt_ofNat_of_lt hk, Int.toNat_natCast, List.get_eq_getElem]

/-- Behind the last position there is none. -/
theorem charAt_ofNat_last (s : Bytes) : charAt s (.ofNat (2 ^ 31)) = .error .outOfRange :=
  dif_neg fun h => absurd h.1 (by decide)

theorem substrFrom_ofNat (s : Bytes) {k : ℕ} (hk : k < 2 ^ 31) (n : ℕ) :
    substrFrom s (.ofNat k) n = substr s k n := by
  unfold substrFrom
  rw [Int32.toInt_ofNat_of_lt hk, if_neg (Int.natCast_nonneg k).not_gt, Int.toNat_natCast]

theorem substrFrom_ofNat_last (s : Bytes) (n : ℕ) :
    substrFrom s (.ofNat (2 ^ 31)) n = .error .outOfRange :=
  if_pos (by decide)

/-- The distance of two positions. -/
theorem toInt_sub_ofNat {j k : ℕ} (hjk : j ≤ k) (hk : k < 2 ^ 31) :
    (Int32.ofNat k - Int32.ofNat j).toInt = (k - j : ℕ) := by
  rw [Int32.toInt_sub, Int32.toInt_ofNat_of_lt hk, Int32.toInt_ofNat_of_lt (hjk.trans_lt hk),
    Int.bmod_def]
  split
  · omega
  · omega

end Bytes
