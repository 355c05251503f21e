import RedisProxy.Replies

/-!
# The lifetime `EXPIRE` sets

`handle_expire_request` hands its third element to `std::atoi` and what that
returns to the cluster. `atoi` does not say whether there was a number: it
passes over white space, stops at the first character it cannot use, and
returns zero for no number at all. The lifetime that is set is the one that was
asked for exactly if the element is a decimal integer that fits an `int`
(`setsLifetimeAsked_iff`). Anything else is not refused: `1h` is one second, and
`soon` is none.
-/

namespace LogcabinRedisProxy

open Bytes SimpleResp Prog

/-- A decimal integer in the range of an `int`. -/
def FitsInt (s : Bytes) : Prop := ∃ n, DecimalInteger s n ∧ -2 ^ 31 ≤ n ∧ n < 2 ^ 31

/-- **`EXPIRE` never sets a lifetime the client did not ask for.** -/
structure SetsLifetimeAsked (seconds : Bytes) (calls : List (Event TreeResult))
    (res : EncodeResult) : Prop where
  /-- A lifetime that is set is the decimal integer the client wrote. -/
  asked : ∀ key n r, (⟨.expire key n, r⟩ : Event TreeResult) ∈ calls →
    DecimalInteger seconds n.toInt
  /-- Any other text is refused with an error, and no lifetime is set. -/
  refused : ¬ FitsInt seconds →
    (∃ text, Encodes res.response (.error text))
      ∧ ∀ key n r, (⟨.expire key n, r⟩ : Event TreeResult) ∉ calls

variable {name key seconds : Bytes} {calls : List (Event TreeResult)} {res : EncodeResult}

/-- `EXPIRE` with two arguments sets a lifetime in any case. -/
theorem exists_eq_of_expire
    (hrun : Exec (handleExpireRequest [name, key, seconds]) calls res) :
    ∃ r : TreeResult (.expire key (atoi seconds)), calls = [⟨.expire key (atoi seconds), r⟩] := by
  rcases exec_guarded_iff.mp hrun with ⟨h, -, -⟩ | ⟨-, r, rfl, -⟩
  · exact absurd rfl h
  · exact ⟨r, rfl⟩

/-- **The lifetime set is the one asked for exactly if the argument is a decimal
integer that fits an `int`**, whatever the cluster answers. -/
theorem setsLifetimeAsked_iff
    (hrun : Exec (handleExpireRequest [name, key, seconds]) calls res) :
    SetsLifetimeAsked seconds calls res ↔ FitsInt seconds := by
  obtain ⟨r, rfl⟩ := exists_eq_of_expire hrun
  constructor
  · intro h
    by_contra hno
    exact (h.refused hno).2 key (atoi seconds) r (List.mem_singleton_self _)
  · intro hfits
    refine ⟨fun key' n r' hmem => ?_, fun hno => absurd hfits hno⟩
    obtain ⟨n', hn', hrange⟩ := hfits
    have hcall : TreeCall.expire key' n = .expire key (atoi seconds) :=
      (Sigma.mk.inj (List.mem_singleton.mp hmem)).1
    obtain ⟨-, rfl⟩ := TreeCall.expire.inj hcall
    rwa [toInt_atoi hn' hrange]

/-- A lifetime with a sign and leading zeros. -/
theorem setsLifetimeAsked_iff_signed :
    SetsLifetimeAsked (ofString "+0060")
        [⟨.expire (ofString "k") (atoi (ofString "+0060")), .ok TreeStatus.ok⟩]
        (statusReply "expire" .ok)
      ↔ FitsInt (ofString "+0060") :=
  setsLifetimeAsked_iff (exec_guarded_iff.mpr (Or.inr ⟨by decide, .ok TreeStatus.ok, rfl, rfl⟩) :
    Exec (handleExpireRequest [ofString "expire", ofString "k", ofString "+0060"]) _ _)

/-- `EXPIRE k 1h` sets a lifetime of one second, and is answered with `OK`. -/
theorem not_setsLifetimeAsked_hour :
    ∃ calls res,
      Exec (handleExpireRequest [ofString "EXPIRE", ofString "k", ofString "1h"]) calls res
      ∧ calls = [⟨.expire (ofString "k") 1, .ok TreeStatus.ok⟩]
      ∧ res = encode .simpleStrings [ofString "OK"]
      ∧ ¬ SetsLifetimeAsked (ofString "1h") calls res := by
  refine ⟨_, _, exec_guarded_iff.mpr (Or.inr ⟨by decide, .ok TreeStatus.ok, rfl, rfl⟩), rfl, rfl,
    fun h => ?_⟩
  have hint := h.asked _ _ _ (List.mem_singleton_self _)
  exact absurd (hint.isDigit_of_mem_tail 104 (by decide)) (by decide)

end LogcabinRedisProxy
