import RedisProxy.Replies

/-!
# The types the encoder is asked for

`RESP_TYPE` names the types of the protocol by the characters that introduce
them, and the two overloads of `encode` write a value under such a type. Read
back, a value should have the type it was encoded under.

It does for status lines, errors, bulk strings, nil and arrays, whatever bytes
the values hold where the protocol allows any. Integers are written as bulk
strings, by both overloads, so a reply holds what it was asked for exactly if
no integer is in it (`encodes_iff`).
-/

namespace LogcabinRedisProxy

open Bytes SimpleResp

/-- **A pair the encoder can be given**: lines have no line break, and integers
are integers. -/
def Admissible (pair : RedisTypeValuePair) : Prop :=
  match pair.type with
  | .simpleStrings => OneLine pair.value
  | .errors => OneLine pair.value
  | .integers => ∃ n, lineInteger pair.value = some n
  | .bulkStrings => True
  | .bulkNil => True
  | .arrays => False

/-- **The value a pair asks for.** -/
inductive Denotes : RedisTypeValuePair → RespValue → Prop where
  | simpleStrings (text : Bytes) : Denotes ⟨.simpleStrings, text⟩ (.simple text)
  | errors (text : Bytes) : Denotes ⟨.errors, text⟩ (.error text)
  | integers {text : Bytes} {n : ℤ} (h : lineInteger text = some n) :
      Denotes ⟨.integers, text⟩ (.integer n)
  | bulkStrings (payload : Bytes) : Denotes ⟨.bulkStrings, payload⟩ (.bulk payload)
  | bulkNil (value : Bytes) : Denotes ⟨.bulkNil, value⟩ .nil

/-- The value a reader gets for a pair. -/
def readBack (pair : RedisTypeValuePair) : RespValue :=
  match pair.type with
  | .simpleStrings => .simple pair.value
  | .errors => .error pair.value
  | .integers => .bulk pair.value
  | .bulkStrings => .bulk pair.value
  | .bulkNil => .nil
  | .arrays => .array []

/-- **What a reader gets is what was asked for**, integers apart. -/
theorem denotes_readBack_iff {pair : RedisTypeValuePair} (h : Admissible pair) :
    Denotes pair (readBack pair) ↔ pair.type ≠ .integers := by
  obtain ⟨type, value⟩ := pair
  cases type with
  | simpleStrings => exact iff_of_true (.simpleStrings value) nofun
  | errors => exact iff_of_true (.errors value) nofun
  | integers => exact iff_of_false nofun (fun hne => hne rfl)
  | bulkStrings => exact iff_of_true (.bulkStrings value) nofun
  | bulkNil => exact iff_of_true (.bulkNil value) nofun
  | arrays => exact absurd h id

/-- **One encoded pair is read back as one value**, in front of anything. -/
theorem readValue_encodePair {pair : RedisTypeValuePair} (h : Admissible pair) (depth : ℕ)
    (t : Bytes) :
    readValue (depth + 1) (encodePair pair ++ t) = some (readBack pair, t) := by
  obtain ⟨type, value⟩ := pair
  cases type with
  | simpleStrings => exact readValue_simple depth h t
  | errors => exact readValue_error depth h t
  | integers => exact readValue_bulkString depth value t
  | bulkStrings => exact readValue_bulkString depth value t
  | bulkNil => exact readValue_nil depth t
  | arrays => exact absurd h id

/-- The two overloads agree on a single value. -/
theorem response_encode {pair : RedisTypeValuePair} (h : Admissible pair) :
    (encode pair.type [pair.value]).response = encodePair pair := by
  obtain ⟨type, value⟩ := pair
  cases type with
  | simpleStrings => rfl
  | errors => rfl
  | integers => rfl
  | bulkStrings => rfl
  | bulkNil => rfl
  | arrays => exact absurd h id

/-- Bytes are one value at most. -/
theorem Encodes.unique {response : Bytes} {v w : RespValue} (hv : Encodes response v)
    (hw : Encodes response w) : v = w :=
  (Prod.mk.inj (Option.some.inj ((hv []).symm.trans (hw [])))).1

theorem encodes_encodeList {list : List RedisTypeValuePair} (h : ∀ pair ∈ list, Admissible pair) :
    Encodes (encodeList list).response (.array (list.map readBack)) :=
  encodes_array fun pair hpair depth t => readValue_encodePair (h pair hpair) depth t

theorem encodes_encode {pair : RedisTypeValuePair} (h : Admissible pair) :
    Encodes (encode pair.type [pair.value]).response (readBack pair) := by
  intro t
  rw [response_encode h]
  exact readValue_encodePair h _ t

/-- **The encoder is faithful to the types it is asked for, integers apart**: a
list of pairs is read back as the array of the values the pairs ask for, and a
single pair as its value, exactly if no pair asks for an integer; and an array
of arguments is read back as the array of bulk strings. -/
theorem encodes_iff {list : List RedisTypeValuePair} (hlist : ∀ pair ∈ list, Admissible pair)
    {pair : RedisTypeValuePair} (hpair : Admissible pair) (args : List Bytes) :
    ((∃ vs, List.Forall₂ Denotes list vs ∧ Encodes (encodeList list).response (.array vs))
        ↔ ∀ p ∈ list, p.type ≠ .integers)
      ∧ ((∃ v, Denotes pair v ∧ Encodes (encode pair.type [pair.value]).response v)
        ↔ pair.type ≠ .integers)
      ∧ Encodes (encode .arrays args).response (.array (args.map .bulk)) := by
  refine ⟨⟨?_, fun h => ?_⟩, ⟨?_, fun h => ?_⟩, encodes_arrays args⟩
  · rintro ⟨vs, hvs, henc⟩ p hp
    obtain rfl := RespValue.array.inj (henc.unique (encodes_encodeList hlist))
    have hden := List.forall₂_map_right_iff.mp hvs
    exact (denotes_readBack_iff (hlist p hp)).mp ((List.forall₂_same.mp hden) p hp)
  · refine ⟨_, List.forall₂_map_right_iff.mpr (List.forall₂_same.mpr fun p hp => ?_),
      encodes_encodeList hlist⟩
    exact (denotes_readBack_iff (hlist p hp)).mpr (h p hp)
  · rintro ⟨v, hv, henc⟩
    obtain rfl := henc.unique (encodes_encode hpair)
    exact (denotes_readBack_iff hpair).mp hv
  · exact ⟨_, (denotes_readBack_iff hpair).mpr h, encodes_encode hpair⟩

/-- A status, nil and a payload with a CRLF in it. -/
theorem encodes_iff_mixed :
    ∃ vs, List.Forall₂ Denotes [⟨.simpleStrings, ofString "OK"⟩, ⟨.bulkNil, []⟩,
        ⟨.bulkStrings, ofString "\r\n"⟩] vs
      ∧ Encodes (encodeList [⟨.simpleStrings, ofString "OK"⟩, ⟨.bulkNil, []⟩,
        ⟨.bulkStrings, ofString "\r\n"⟩]).response (.array vs) :=
  (encodes_iff
    (by
      refine List.forall_mem_cons.mpr ⟨⟨by decide, by decide⟩, ?_⟩
      exact List.forall_mem_cons.mpr ⟨trivial, List.forall_mem_singleton.mpr trivial⟩)
    (show Admissible ⟨.bulkNil, []⟩ from trivial) []).1.mpr (by decide)

/-- The integer `1`, which is what the replies to `SADD` and `RPUSH` ask for, is
read back as a bulk string. -/
theorem not_encodes_integer :
    ¬ ∃ v, Denotes ⟨.integers, ofString "1"⟩ v
      ∧ Encodes (encode .integers [ofString "1"]).response v := by
  rintro ⟨v, hv, henc⟩
  obtain rfl := henc.unique (encodes_integers (ofString "1"))
  cases hv

end LogcabinRedisProxy
