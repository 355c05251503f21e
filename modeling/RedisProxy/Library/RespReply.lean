import RedisProxy.Library.Numerals

/-!
# Reading RESP replies

A reply on the wire is a status line, an error line, an integer line, a bulk
string behind its length, an array of replies behind their number, or nil,
which is a bulk string or an array of length `-1`. `readReply` reads one reply
off the front of a stream and leaves the rest; it is the reader of the
protocol's definition: it takes the first CRLF for the end of a line, is strict
about lengths and numbers, and allows no other CR or LF in a status or an error.

Arrays nest, and every level takes a byte of the stream, so the length of the
stream bounds the depth a reader has to go to.
-/

namespace Bytes

/-- A reply. -/
inductive RespValue where
  /-- A status line. -/
  | simple (text : Bytes)
  /-- An error line. -/
  | error (text : Bytes)
  | integer (n : ℤ)
  | bulk (payload : Bytes)
  | nil
  | array (values : List RespValue)

/-- The bytes a reply carries, if it carries a string or nothing. -/
def RespValue.text : RespValue → Option (Option Bytes)
  | simple text => some (some text)
  | bulk payload => some (some payload)
  | nil => some none
  | _ => none

/-- A text that fits on a line: no CR and no LF in it. -/
def OneLine (text : Bytes) : Prop := cr ∉ text ∧ lf ∉ text

instance (text : Bytes) : Decidable (OneLine text) := inferInstanceAs (Decidable (_ ∧ _))

theorem OneLine.noCrlf {text : Bytes} (h : OneLine text) : NoCrlf text := noCrlf_of_notMem h.1

theorem OneLine.append {a b : Bytes} (ha : OneLine a) (hb : OneLine b) : OneLine (a ++ b) :=
  ⟨fun h => (List.mem_append.mp h).elim ha.1 hb.1, fun h => (List.mem_append.mp h).elim ha.2 hb.2⟩

/-- The text of a status or an error line. -/
def lineText (line : Bytes) : Option Bytes := if OneLine line then some line else none

theorem lineText_eq_some_iff {line text : Bytes} :
    lineText line = some text ↔ line = text ∧ OneLine text := by
  unfold lineText
  split
  · rename_i h
    exact ⟨fun heq => by cases heq; exact ⟨rfl, h⟩, fun heq => congrArg some heq.1⟩
  · rename_i h
    exact ⟨nofun, fun heq => absurd (heq.1 ▸ heq.2) h⟩

/-- The length in a header: digits and nothing else. -/
def headerLength (line : Bytes) : Option ℕ :=
  if line ≠ [] ∧ line.all isDigit then some (digitsValue line) else none

/-- The integer in a line: a sign at most, digits and nothing else. -/
def lineInteger (line : Bytes) : Option ℤ :=
  if (takeSign line).2.all isDigit then signedValue (takeSign line).1 (takeSign line).2 else none

/-- A payload of `n` bytes and its terminator. -/
def readPayload (n : ℕ) (b : Bytes) : Option (Bytes × Bytes) :=
  if (b.drop n).take 2 = crlf then some (b.take n, b.drop (n + 2)) else none

/-- Several values, read one after the other. -/
def readMany (read : Bytes → Option (RespValue × Bytes)) :
    ℕ → Bytes → Option (List RespValue × Bytes)
  | 0, b => some ([], b)
  | n + 1, b => do
    let (v, b) ← read b
    let (vs, b) ← readMany read n b
    return (v :: vs, b)

theorem readMany_succ {read : Bytes → Option (RespValue × Bytes)} {n : ℕ} {b rest : Bytes}
    {vs : List RespValue} :
    readMany read (n + 1) b = some (vs, rest)
      ↔ ∃ v b' vs', read b = some (v, b') ∧ readMany read n b' = some (vs', rest)
        ∧ vs = v :: vs' := by
  rw [readMany]
  constructor
  · intro h
    obtain ⟨⟨v, b'⟩, hv, h⟩ := Option.bind_eq_some_iff.mp h
    obtain ⟨⟨vs', b''⟩, hvs, h⟩ := Option.bind_eq_some_iff.mp h
    obtain ⟨rfl, rfl⟩ := Prod.mk.inj (Option.some.inj h)
    exact ⟨v, b', vs', hv, hvs, rfl⟩
  · rintro ⟨v, b', vs', hv, hvs, rfl⟩
    rw [hv, Option.bind_eq_bind, Option.bind_some]
    simp only [hvs]
    rfl

/-- **Values one behind the other**: what reads as one value each reads as all
of them together. -/
theorem readMany_flatten {α : Type} {read : Bytes → Option (RespValue × Bytes)}
    {text : α → Bytes} {value : α → RespValue} {l : List α}
    (h : ∀ a ∈ l, ∀ t, read (text a ++ t) = some (value a, t)) (t : Bytes) :
    readMany read l.length ((l.map text).flatten ++ t) = some (l.map value, t) := by
  induction l with
  | nil => rfl
  | cons a l ih =>
    have hhead := h a List.mem_cons_self ((l.map text).flatten ++ t)
    have htail := ih fun b hb => h b (List.mem_cons_of_mem a hb)
    rw [List.map_cons, List.flatten_cons, List.append_assoc, List.length_cons]
    exact readMany_succ.mpr ⟨_, _, _, hhead, htail, rfl⟩

/-- **Texts one behind the other, each of which is a value of some kind**, read as one
value each. -/
theorem exists_readMany_flatten {read : Bytes → Option (RespValue × Bytes)} {texts : List Bytes}
    {P : ℕ → RespValue → Prop}
    (h : ∀ i text, texts[i]? = some text → ∃ v, (∀ t, read (text ++ t) = some (v, t)) ∧ P i v) :
    ∃ values, values.length = texts.length
      ∧ readMany read texts.length texts.flatten = some (values, [])
      ∧ ∀ i v, values[i]? = some v → P i v := by
  induction texts generalizing P with
  | nil => exact ⟨[], rfl, rfl, nofun⟩
  | cons text texts ih =>
    obtain ⟨v, hv, hP⟩ := h 0 text rfl
    obtain ⟨vs, hlen, hread, hPs⟩ := ih fun i text' htext => h (i + 1) text' htext
    refine ⟨v :: vs, congrArg Nat.succ hlen, readMany_succ.mpr ⟨v, _, vs, hv _, hread, rfl⟩, ?_⟩
    intro i w hw
    cases i with
    | zero => exact Option.some.inj hw ▸ hP
    | succ i => exact hPs i w hw

/-- **A stream reads as one number of values** at most, if nothing is not a value. -/
theorem readMany_length_unique {read : Bytes → Option (RespValue × Bytes)}
    (hempty : read [] = none) {m n : ℕ} {b : Bytes} {vs vs' : List RespValue}
    (h : readMany read m b = some (vs, [])) (h' : readMany read n b = some (vs', [])) : m = n := by
  have hzero : ∀ {k : ℕ} {ws : List RespValue}, readMany read k [] = some (ws, []) → k = 0 := by
    intro k ws hk
    cases k with
    | zero => rfl
    | succ k =>
      obtain ⟨v, b', _, hv, -, -⟩ := readMany_succ.mp hk
      rw [hempty] at hv
      cases hv
  induction m generalizing n b vs vs' with
  | zero =>
    obtain rfl : b = [] := (Prod.mk.inj (Option.some.inj h)).2
    exact (hzero h').symm
  | succ m ih =>
    cases n with
    | zero =>
      obtain rfl : b = [] := (Prod.mk.inj (Option.some.inj h')).2
      exact hzero h
    | succ n =>
      obtain ⟨v, b', _, hv, hrest, -⟩ := readMany_succ.mp h
      obtain ⟨w, b'', _, hw, hrest', -⟩ := readMany_succ.mp h'
      obtain ⟨-, rfl⟩ := Prod.mk.inj (Option.some.inj (hv.symm.trans hw))
      rw [ih hrest hrest']

/-- One value, nested `depth` deep at most. -/
def readValue : (depth : ℕ) → Bytes → Option (RespValue × Bytes)
  | 0, _ => none
  | _ + 1, [] => none
  | depth + 1, c :: b => do
    let (line, b) ← cutCrlf 0 b
    if c = 43 then return (.simple (← lineText line), b)
    else if c = 45 then return (.error (← lineText line), b)
    else if c = 58 then return (.integer (← lineInteger line), b)
    else if c = 36 then
      if line = ofString "-1" then return (.nil, b)
      else
        let (payload, b) ← readPayload (← headerLength line) b
        return (.bulk payload, b)
    else if c = 42 then
      if line = ofString "-1" then return (.nil, b)
      else
        let (vs, b) ← readMany (readValue depth) (← headerLength line) b
        return (.array vs, b)
    else none

/-- **The reader of replies**: the first reply of a stream, and the rest. -/
def readReply (b : Bytes) : Option (RespValue × Bytes) := readValue (b.length + 1) b

theorem headerLength_of_digits {ds : Bytes} (h : Digits ds) :
    headerLength ds = some (digitsValue ds) :=
  if_pos ⟨h.1, List.all_eq_true.mpr h.2⟩

/-- A length is not the one of the nil bulk. -/
theorem Digits.ne_minusOne {ds : Bytes} (h : Digits ds) : ds ≠ ofString "-1" := by
  rintro rfl
  exact absurd (h.2 45 (by decide)) (by decide)

theorem readPayload_append (p rest : Bytes) :
    readPayload p.length (p ++ crlf ++ rest) = some (p, rest) := by
  have hterm : ((p ++ crlf ++ rest).drop p.length).take 2 = crlf := by
    rw [List.append_assoc, List.drop_left]
    rfl
  have hrest : (p ++ crlf ++ rest).drop (p.length + 2) = rest :=
    List.drop_left' (by rw [List.length_append]; rfl)
  unfold readPayload
  rw [if_pos hterm, hrest, List.append_assoc, List.take_left]

/-! ## The replies, one by one -/

/-- A status line ends at its first CRLF, and holds no CR or LF before that. -/
theorem readValue_plus (depth : ℕ) (b : Bytes) :
    readValue (depth + 1) (ofString "+" ++ b)
      = (cutCrlf 0 b).bind fun p => (lineText p.1).map fun text => (.simple text, p.2) := by
  show readValue (depth + 1) (43 :: b) = _
  rw [readValue]
  cases cutCrlf 0 b with
  | none => rfl
  | some p =>
    show (lineText p.1).bind _ = (lineText p.1).map _
    cases lineText p.1 <;> rfl

theorem readValue_simple (depth : ℕ) {text : Bytes} (h : OneLine text) (rest : Bytes) :
    readValue (depth + 1) (ofString "+" ++ text ++ crlf ++ rest)
      = some (.simple text, rest) := by
  have hline := readValue_plus depth (text ++ crlf ++ rest)
  rw [cutCrlf_line h.noCrlf rest, Option.bind_some, lineText_eq_some_iff.mpr ⟨rfl, h⟩] at hline
  exact hline

theorem readValue_error (depth : ℕ) {text : Bytes} (h : OneLine text) (rest : Bytes) :
    readValue (depth + 1) (ofString "-" ++ text ++ crlf ++ rest)
      = some (.error text, rest) := by
  have hline := lineText_eq_some_iff.mpr ⟨rfl, h⟩
  show readValue (depth + 1) (45 :: (text ++ crlf ++ rest)) = _
  rw [readValue, cutCrlf_line h.noCrlf rest]
  simp only [Option.bind_eq_bind, Option.bind_some, hline]
  rfl

theorem readValue_nil (depth : ℕ) (rest : Bytes) :
    readValue (depth + 1) (ofString "$-1" ++ crlf ++ rest) = some (.nil, rest) := by
  show readValue (depth + 1) (36 :: (ofString "-1" ++ crlf ++ rest)) = _
  rw [readValue, cutCrlf_line (noCrlf_of_notMem (by decide)) rest]
  rfl

/-- **A bulk string gives its payload**, whatever bytes that has. -/
theorem readValue_bulk (depth : ℕ) (p rest : Bytes) :
    readValue (depth + 1) (ofString "$" ++ decimal p.length ++ crlf ++ p ++ crlf ++ rest)
      = some (.bulk p, rest) := by
  have hd := digits_decimal p.length
  have hne := hd.ne_minusOne
  have htext : ofString "$" ++ decimal p.length ++ crlf ++ p ++ crlf ++ rest
      = 36 :: (decimal p.length ++ crlf ++ (p ++ crlf ++ rest)) := by
    simp only [List.append_assoc]
    rfl
  rw [htext, readValue, cutCrlf_line (noCrlf_of_notMem hd.cr_notMem)]
  have h43 : (36 : UInt8) ≠ 43 := by decide
  have h45 : (36 : UInt8) ≠ 45 := by decide
  have h58 : (36 : UInt8) ≠ 58 := by decide
  simp only [Option.bind_eq_bind, Option.bind_some, if_neg h43, if_neg h45, if_neg h58, if_true,
    if_neg hne, headerLength_of_digits hd, digitsValue_decimal, readPayload_append]
  rfl

/-- **An array gives the values behind its header.** -/
theorem readValue_array (depth n : ℕ) (b : Bytes) :
    readValue (depth + 1) (ofString "*" ++ decimal n ++ crlf ++ b)
      = (readMany (readValue depth) n b).map (fun p => (.array p.1, p.2)) := by
  have hd := digits_decimal n
  have htext : ofString "*" ++ decimal n ++ crlf ++ b = 42 :: (decimal n ++ crlf ++ b) := by
    simp only [List.append_assoc]
    rfl
  rw [htext, readValue, cutCrlf_line (noCrlf_of_notMem hd.cr_notMem)]
  have h43 : (42 : UInt8) ≠ 43 := by decide
  have h45 : (42 : UInt8) ≠ 45 := by decide
  have h58 : (42 : UInt8) ≠ 58 := by decide
  have h36 : (42 : UInt8) ≠ 36 := by decide
  simp only [Option.bind_eq_bind, Option.bind_some, if_neg h43, if_neg h45, if_neg h58,
    if_neg h36, if_true, if_neg hd.ne_minusOne, headerLength_of_digits hd, digitsValue_decimal]
  cases readMany (readValue depth) n b <;> rfl

end Bytes
