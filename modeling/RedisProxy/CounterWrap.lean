import RedisProxy.ReplyOutcomes

/-!
# A session whose counter wraps

Command ids are 32-bit `int`s, and on a long-lived connection they wrap. The
drain loop looks at the first entry of `buffered_responses` only, which is the
one with the least number as an `int`, while the next response to send is the
one with the next number as the counter counts. The two agree everywhere but
around the wrap: as long as a response from behind the wrap is buffered, the
drain loop does not see the ones in front of it.

A session gets stuck that way if a response is passed to it after one that
follows it in front of the wrap and one from behind it (`Jams`). Then the drain
loop stops at the former, and no later arrival brings it there again. In every
other order all responses are written in sequence (`survivesWrap_iff`).
-/

namespace LogcabinRedisProxy

open Bytes
open Prog hiding pure

/-- The responses of the numbers behind the base `c`, passed to
`insert_new_response` in the order of the list. -/
def insertAll (c : Int32) (resp : ℕ → Bytes) (ctx : SessionCtx) :
    List ℕ → Prog WriteResult SessionCtx
  | [] => pure ctx
  | i :: order =>
    ctx.insertNewResponse (numberFrom c i) (resp i) >>= fun ctx => insertAll c resp ctx order

/-- How many numbers from the base on are in front of the wrap. -/
def wrapAt (c : Int32) : ℕ := (2 ^ 31 - c.toInt).toNat

/-- The response `i` arrives after `p`, which follows it in front of the wrap,
and after `q`, which is behind the wrap. -/
def JamsAt (c : Int32) (order : List ℕ) (i p q : ℕ) : Prop :=
  i < p ∧ p < wrapAt c ∧ wrapAt c ≤ q
    ∧ ∃ before after, order = before ++ i :: after ∧ p ∈ before ∧ q ∈ before

/-- **The order jams the session.** -/
def Jams (c : Int32) (order : List ℕ) : Prop := ∃ i p q, JamsAt c order i p q

/-! ## The order of the buffer -/

/-- **A later response comes first in the buffer** exactly if the wrap is
between the two. -/
theorem numberFrom_lt_iff {c : Int32} {m q : ℕ} (hmq : m < q) (hq : q < 2 ^ 31) :
    numberFrom c q < numberFrom c m ↔ m < wrapAt c ∧ wrapAt c ≤ q := by
  have hle := Int32.le_toInt c
  have hlt := Int32.toInt_lt c
  unfold wrapAt
  rw [Int32.lt_iff_toInt_lt, toInt_numberFrom c hq.le, toInt_numberFrom c (by omega)]
  split <;> split <;> omega

/-- What is due, told by the wrap. -/
theorem due_iff {c : Int32} {arrived : List ℕ} {m : ℕ} (hbound : ∀ i ∈ arrived, i < 2 ^ 31) :
    Due c arrived m ↔ m ∈ arrived ∧ ∀ q ∈ arrived, m < q → m < wrapAt c → q < wrapAt c := by
  refine and_congr_right fun _ => forall_congr' fun q => forall_congr' fun hq =>
    forall_congr' fun hmq => ?_
  rw [numberFrom_lt_iff hmq (hbound q hq), not_and, not_le]

/-! ## Jams of a growing order -/

theorem JamsAt.mem {c : Int32} {order : List ℕ} {i p q : ℕ} (h : JamsAt c order i p q) :
    p ∈ order ∧ q ∈ order := by
  obtain ⟨-, -, -, before, after, rfl, hp, hq⟩ := h
  exact ⟨List.mem_append_left _ hp, List.mem_append_left _ hq⟩

/-- One arrival more makes no jam of its own but as the last of the three. -/
theorem jamsAt_append_iff {c : Int32} {order : List ℕ} {k i p q : ℕ} :
    JamsAt c (order ++ [k]) i p q
      ↔ JamsAt c order i p q
        ∨ i = k ∧ i < p ∧ p < wrapAt c ∧ wrapAt c ≤ q ∧ p ∈ order ∧ q ∈ order := by
  constructor
  · rintro ⟨hip, hpw, hwq, before, after, heq, hp, hq⟩
    rcases List.eq_nil_or_concat after with rfl | ⟨after, x, rfl⟩
    · obtain ⟨rfl, hik⟩ := List.append_inj' heq rfl
      obtain rfl := (List.cons_eq_cons.mp hik).1
      exact Or.inr ⟨rfl, hip, hpw, hwq, hp, hq⟩
    · have heq' : order ++ [k] = before ++ i :: after ++ [x] := by
        rw [heq, List.concat_eq_append, List.append_assoc, List.cons_append]
      obtain ⟨rfl, -⟩ := List.append_inj' heq' rfl
      exact Or.inl ⟨hip, hpw, hwq, before, after, rfl, hp, hq⟩
  · rintro (⟨hip, hpw, hwq, before, after, rfl, hp, hq⟩ | ⟨rfl, hip, hpw, hwq, hp, hq⟩)
    · exact ⟨hip, hpw, hwq, before, after ++ [k], by simp, hp, hq⟩
    · exact ⟨hip, hpw, hwq, order, [], rfl, hp, hq⟩

theorem Jams.append {c : Int32} {order : List ℕ} (h : Jams c order) (k : ℕ) :
    Jams c (order ++ [k]) := by
  obtain ⟨i, p, q, hjam⟩ := h
  exact ⟨i, p, q, jamsAt_append_iff.mpr (Or.inl hjam)⟩

/-! ## Moving on, or stuck -/

/-- **The session moves on**: what it waits for has not arrived, and no jam lies
ahead of it. -/
structure Moving (c : Int32) (arrived : List ℕ) (m : ℕ) : Prop where
  /-- The response it waits for is missing. -/
  missing : m ∉ arrived
  /-- What has jammed lies behind. -/
  behind : ∀ i p q, JamsAt c arrived i p q → m ≤ p

/-- **The session is stuck**: what it waits for is buffered, and hidden by a
response from behind the wrap. -/
structure Stuck (c : Int32) (arrived : List ℕ) (m : ℕ) : Prop where
  /-- The response it waits for has arrived. -/
  buffered : m ∈ arrived
  /-- It is in front of the wrap. -/
  inFront : m < wrapAt c
  /-- One that has arrived is behind the wrap. -/
  hidden : ∃ q ∈ arrived, wrapAt c ≤ q
  /-- The order so far jams. -/
  jams : Jams c arrived

/-- What hides the response a session is stuck at hides it for good. -/
theorem Stuck.not_due {c : Int32} {arrived : List ℕ} {m : ℕ} (h : Stuck c arrived m)
    (hbound : ∀ i ∈ arrived, i < 2 ^ 31) : ¬ Due c arrived m := by
  rw [due_iff hbound]
  rintro ⟨-, hall⟩
  obtain ⟨q, hq, hwq⟩ := h.hidden
  have := hall q hq (by have := h.inFront; omega) h.inFront
  omega

theorem Stuck.append {c : Int32} {arrived : List ℕ} {m : ℕ} (h : Stuck c arrived m) (k : ℕ) :
    Stuck c (arrived ++ [k]) m where
  buffered := List.mem_append_left _ h.buffered
  inFront := h.inFront
  hidden := h.hidden.imp fun _ hq => ⟨List.mem_append_left _ hq.1, hq.2⟩
  jams := h.jams.append k

section Arrivals

variable {c : Int32} {resp : ℕ → Bytes} {arrived : List ℕ} {m k j : ℕ}

/-- A later response has arrived, and the session waits as before. -/
theorem Moving.later (h : Moving c arrived m) (hmk : m < k) :
    Moving c (arrived ++ [k]) m where
  missing hm := by
    rcases List.mem_append.mp hm with hm | hm
    · exact h.missing hm
    · exact absurd (List.mem_singleton.mp hm) hmk.ne
  behind i p q hjam := by
    rcases jamsAt_append_iff.mp hjam with hjam | ⟨rfl, hip, -⟩
    · exact h.behind i p q hjam
    · omega

/-- **The response the session waits for has arrived**: the drain loop takes it
on to the next missing one, or gets stuck at the first step. -/
theorem Moving.next (h : Moving c arrived m)
    (hbound : ∀ i ∈ arrived ++ [m], i < 2 ^ 31)
    (hfirst : 0 < j → Due c (arrived ++ [m]) (m + 1))
    (hlast : ¬ Due c (arrived ++ [m]) (m + 1 + j)) :
    Moving c (arrived ++ [m]) (m + 1 + j) ∨ Stuck c (arrived ++ [m]) (m + 1 + j) := by
  rw [due_iff hbound] at hfirst hlast
  by_cases hw : m + 1 < wrapAt c ∧ ∃ q ∈ arrived ++ [m], wrapAt c ≤ q
  · -- a response from behind the wrap hides the next one
    obtain ⟨hmw, q, hq, hwq⟩ := hw
    have hj : j = 0 := by
      by_contra hj
      have := (hfirst (Nat.pos_of_ne_zero hj)).2 q hq (by omega) hmw
      omega
    subst hj
    rw [Nat.add_zero]
    have hold : ∀ x ∈ arrived ++ [m], x ≠ m → x ∈ arrived := fun x hx hxm =>
      (List.mem_append.mp hx).resolve_right fun hm => hxm (List.mem_singleton.mp hm)
    by_cases hnext : m + 1 ∈ arrived ++ [m]
    · refine Or.inr ⟨hnext, hmw, ⟨q, hq, hwq⟩, m, m + 1, q, jamsAt_append_iff.mpr (Or.inr ?_)⟩
      exact ⟨rfl, Nat.lt_succ_self m, hmw, hwq, hold _ hnext (by omega), hold q hq (by omega)⟩
    · refine Or.inl ⟨hnext, fun i p q' hjam => ?_⟩
      rcases jamsAt_append_iff.mp hjam with hjam | ⟨rfl, hip, -⟩
      · have hmp := h.behind i p q' hjam
        exact lt_of_le_of_ne hmp fun hmeq => h.missing (hmeq ▸ hjam.mem.1)
      · exact hip
  · -- nothing is hidden, so the drain loop stops at what is missing, and nothing has jammed
    have hmiss : m + 1 + j ∉ arrived ++ [m] := fun hmem =>
      hlast ⟨hmem, fun q hq _ hjw => by
        by_contra hwq
        exact hw ⟨by omega, q, hq, by omega⟩⟩
    refine Or.inl ⟨hmiss, fun i p q hjam => ?_⟩
    have hq := hjam.mem.2
    have hpw := hjam.2.1
    have hwq := hjam.2.2.1
    have hle : wrapAt c ≤ m + 1 := by
      by_contra hlt
      exact hw ⟨by omega, q, hq, hwq⟩
    rcases jamsAt_append_iff.mp hjam with hjam | ⟨rfl, hip, -⟩
    · have hmp := h.behind i p q hjam
      have hpm : p ≠ m := fun hpm => h.missing (hpm ▸ hjam.mem.1)
      omega
    · omega

/-- **One arrival** with all its sends succeeding: a session that moves on moves
on or gets stuck, and a stuck one stays where it is. -/
theorem Standing.insertAndDrain {ctx ctx' : SessionCtx} {tr : List (Event ReplyResult)}
    (h : Standing c resp ctx arrived m) (hm : Moving c arrived m ∨ Stuck c arrived m)
    (hk : k ∉ arrived) (hbound : k < 2 ^ 31) (hall : ∀ e ∈ tr, 0 < e.2)
    (hrun : Exec (ctx.insertResponse (numberFrom c k) (resp k)) tr ctx') :
    ∃ j, Standing c resp ctx' (arrived ++ [k]) (m + j)
      ∧ (Moving c (arrived ++ [k]) (m + j) ∨ Stuck c (arrived ++ [k]) (m + j))
      ∧ sent tr = (List.range' m j).map (replyOf c ctx.fd resp) ∧ ctx'.fd = ctx.fd := by
  obtain ⟨ctx₁, tr₁, tr₂, j₁, rfl, hj₁, hstand, hsent₁, hfd₁, hdrain⟩ :=
    h.accept hk hbound (fun _ e he => hall e (List.mem_of_mem_head? he)) hrun
  obtain ⟨j, hstand', hsent₂, hfd₂, hfirst, hlast⟩ := hstand.drain hdrain
  have hstop := hlast fun e he => hall e (List.mem_append_right _ he)
  refine ⟨j₁ + j, Nat.add_assoc m j₁ j ▸ hstand', ?_, ?_, hfd₂.trans hfd₁⟩
  · rw [← Nat.add_assoc]
    by_cases hkm : k = m
    · obtain rfl := hkm
      rw [if_pos rfl] at hj₁
      subst hj₁
      exact (hm.resolve_right fun hs => hk hs.buffered).next hstand.bounded hfirst hstop
    · rw [if_neg hkm] at hj₁
      subst hj₁
      have hmk : m < k := lt_of_le_of_ne (Nat.le_of_not_lt fun hlt => hk (h.below k hlt))
        (Ne.symm hkm)
      have hm' := hm.imp (fun hmove => hmove.later hmk) (fun hstuck => hstuck.append k)
      have hnot : ¬ Due c (arrived ++ [k]) m := by
        rcases hm' with hmove | hstuck
        · exact fun hdue => hmove.missing hdue.1
        · exact hstuck.not_due hstand.bounded
      have hj : j = 0 := by
        by_contra hj
        exact hnot (hfirst (Nat.pos_of_ne_zero hj))
      subst hj
      exact hm'
  · rw [sent_append, hsent₁, hsent₂, hfd₁, ← List.map_append, List.range'_append_1]

end Arrivals

/-! ## All arrivals -/

/-- **All arrivals**, with every `write` taking all it is offered. -/
theorem Standing.insertAll {c : Int32} {resp : ℕ → Bytes} {arrived order : List ℕ} {m : ℕ}
    {ctx ctx' : SessionCtx} {tr : List (Event WriteResult)}
    (h : Standing c resp ctx arrived m) (hm : Moving c arrived m ∨ Stuck c arrived m)
    (hnodup : (arrived ++ order).Nodup) (hbound : ∀ i ∈ order, i < 2 ^ 31)
    (hrun : Exec (insertAll c resp ctx order) tr ctx') (ha : AcceptsAll tr) :
    ∃ j, Standing c resp ctx' (arrived ++ order) (m + j)
      ∧ (Moving c (arrived ++ order) (m + j) ∨ Stuck c (arrived ++ order) (m + j))
      ∧ transferred tr = ((List.range' m j).map resp).flatten := by
  induction order generalizing ctx arrived m tr with
  | nil =>
    obtain ⟨rfl, rfl⟩ := exec_pure_iff.mp hrun
    rw [List.append_nil]
    exact ⟨0, h, hm, rfl⟩
  | cons k order ih =>
    obtain ⟨hboundk, hbound⟩ := List.forall_mem_cons.mp hbound
    obtain ⟨tr₁, ctx₁, tr₂, h₁, h₂, rfl⟩ := exec_bind_iff.mp hrun
    obtain ⟨ha₁, ha₂⟩ := acceptsAll_append.mp ha
    rw [← SessionCtx.handle_insertResponse] at h₁
    obtain ⟨trr, hexec, hcarries⟩ := Prog.exec_handle_iff.mp h₁
    obtain ⟨hall, htrans⟩ := sent_of_carries hcarries ha₁
    have hk : k ∉ arrived := fun hmem =>
      (List.nodup_append'.mp hnodup).2.2 hmem List.mem_cons_self
    obtain ⟨j₁, hstand, hm₁, hsent, hfd⟩ := h.insertAndDrain hm hk hboundk hall hexec
    rw [List.append_cons] at hnodup ⊢
    obtain ⟨j₂, hstand', hm₂, hflat⟩ := ih hstand hm₁ hnodup hbound h₂ ha₂
    rw [Nat.add_assoc] at hstand' hm₂
    refine ⟨j₁ + j₂, hstand', hm₂, ?_⟩
    rw [transferred_append, htrans, hsent, hflat, List.map_map, ← List.range'_append_1,
      List.map_append, List.flatten_append]
    rfl

/-- A context with nothing buffered stands at its own number. -/
theorem standing_of_toList {ctx : SessionCtx} (hbuf : ctx.bufferedResponses.toList = [])
    (resp : ℕ → Bytes) : Standing ctx.toSendCommandId resp ctx [] 0 where
  next := (numberFrom_zero _).symm
  below i hi := absurd hi (Nat.not_lt_zero i)
  buffered id r := by
    rw [← Std.TreeMap.mem_toList_iff_getElem?_eq_some, hbuf]
    simp
  bounded i hi := absurd hi List.not_mem_nil

/-- What a context has buffered, told by its list. -/
theorem Standing.toList_eq_nil_iff {c : Int32} {resp : ℕ → Bytes} {ctx : SessionCtx}
    {arrived : List ℕ} {m : ℕ} (h : Standing c resp ctx arrived m) :
    ctx.bufferedResponses.toList = [] ↔ ∀ i ∈ arrived, i < m := by
  rw [List.eq_nil_iff_forall_not_mem]
  constructor
  · intro hnone i hi
    by_contra hmi
    refine hnone (numberFrom c i, resp i) (Std.TreeMap.mem_toList_iff_getElem?_eq_some.mpr ?_)
    exact (h.buffered _ _).mpr ⟨i, hi, not_lt.mp hmi, rfl, rfl⟩
  · rintro hall ⟨id, r⟩ hmem
    obtain ⟨i, hi, hmi, -⟩ :=
      (h.buffered id r).mp (Std.TreeMap.mem_toList_iff_getElem?_eq_some.mp hmem)
    exact absurd (hall i hi) (not_lt.mpr hmi)

/-- **Replies survive the wrap of the counter exactly if their order does not
jam the session.** -/
theorem survivesWrap_iff {ctx ctx' : SessionCtx} {resp : ℕ → Bytes} {n : ℕ} {order : List ℕ}
    {tr : List (Event WriteResult)} (hbuf : ctx.bufferedResponses.toList = [])
    (hn : n < 2 ^ 31) (horder : order.Perm (List.range n))
    (hrun : Exec (insertAll ctx.toSendCommandId resp ctx order) tr ctx') (ha : AcceptsAll tr) :
    (transferred tr = ((List.range n).map resp).flatten ∧ ctx'.bufferedResponses.toList = [])
      ↔ ¬ Jams ctx.toSendCommandId order := by
  have hmem : ∀ i, i ∈ order ↔ i < n := fun i => (horder.mem_iff).trans List.mem_range
  have hstart : Moving ctx.toSendCommandId [] 0 := by
    refine ⟨List.not_mem_nil, fun i p q hjam => Nat.zero_le p⟩
  obtain ⟨m, hstand, hm, hflat⟩ := (standing_of_toList hbuf resp).insertAll (Or.inl hstart)
    (horder.nodup_iff.mpr List.nodup_range)
    (fun i hi => lt_trans ((hmem i).mp hi) hn) hrun ha
  rw [Nat.zero_add, List.nil_append] at hstand hm
  rcases hm with hmove | hstuck
  · have hle : n ≤ m := not_lt.mp fun hlt => hmove.missing ((hmem m).mpr hlt)
    have hge : m ≤ n := by
      by_contra hlt
      exact absurd ((hmem n).mp (hstand.below n (not_le.mp hlt))) (lt_irrefl n)
    obtain rfl := le_antisymm hge hle
    refine iff_of_true ⟨?_, ?_⟩ ?_
    · rw [hflat, List.range_eq_range']
    · exact hstand.toList_eq_nil_iff.mpr fun i hi => (hmem i).mp hi
    · rintro ⟨i, p, q, hjam⟩
      have := hmove.behind i p q hjam
      have := (hmem p).mp hjam.mem.1
      omega
  · refine iff_of_false (fun hsurv => ?_) (not_not.mpr hstuck.jams)
    exact absurd (hstand.toList_eq_nil_iff.mp hsurv.2 m hstuck.buffered) (lt_irrefl m)

/-- An environment whose `write` takes all it is offered, up to the most it can
take. -/
def takeAll (w : WriteCall) (_ : Unit) : WriteResult w × Unit :=
  (⟨min w.buf.length 0x7ffff000, by omega, min_le_left _ _, min_le_right _ _⟩, ())

/-- A context two numbers before the wrap. -/
def beforeWrap : SessionCtx := { SessionCtx.new 5 with toSendCommandId := 2147483646 }

/-- The responses `0`, `1` and `2` behind it, each the one byte of its
position. -/
def threeAround (order : List ℕ) : Prog WriteResult SessionCtx :=
  insertAll beforeWrap.toSendCommandId (fun i => decimal i) beforeWrap order

/-- The one behind the wrap first, then the other two in order. -/
theorem survivesWrap_iff_behindFirst :
    (transferred ((threeAround [2, 0, 1]).trace takeAll ()) = ofString "012"
        ∧ ((threeAround [2, 0, 1]).run takeAll ()).1.bufferedResponses.toList = [])
      ↔ ¬ Jams beforeWrap.toSendCommandId [2, 0, 1] :=
  survivesWrap_iff (n := 3) rfl (by decide) (by decide) (Prog.exec_trace takeAll _ ())
    (by unfold AcceptsAll; decide +kernel)

/-- All three in the opposite order: the last arrival is written, and the two
others stay in the buffer. -/
theorem not_survivesWrap_reversed :
    ¬ ∀ (order : List ℕ) (tr : List (Event WriteResult)) (ctx' : SessionCtx),
      order.Perm (List.range 3) → Exec (threeAround order) tr ctx' → AcceptsAll tr →
        transferred tr = ofString "012" ∧ ctx'.bufferedResponses.toList = [] := by
  intro h
  have hlost := (h [2, 1, 0] _ _ (by decide) (Prog.exec_trace takeAll _ ())
    (by unfold AcceptsAll; decide +kernel)).1
  have hwritten : transferred ((threeAround [2, 1, 0]).trace takeAll ()) = ofString "0" := by
    decide +kernel
  rw [hwritten] at hlost
  exact absurd hlost (by decide)

end LogcabinRedisProxy
